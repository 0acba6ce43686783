/-
Exploring a tree by moves.

From the root every node of a tree can be selected by moving from neighbour to neighbour, and
no move leads anywhere else.  To get to a node is to get to the one above it, down to the
first child, and then to the right as often as the last step of the path says:

* `Tree.moves` — one move after the other;
* `Tree.IsTree.exists_moves` — the run lemma: moves do not leave the tree;
* `Tree.IsTree.exists_moves_eq` — and get to every node;
* `Tree.IsTree.move_opposite` — a move that leads to another node can be taken back;
* `Tree.IsTree.moves_explore` — the paths of a tree are those that moves lead to.
-/
import FormulaEditor.Proofs.Neighbours
import FormulaEditor.Proofs.Obtained
import FormulaEditor.Proofs.Sizing
import Mathlib

namespace FormulaEditor

/-- The direction to move back in. -/
def Direction.opposite : Direction → Direction
  | left => right
  | right => left
  | up => down
  | down => up

namespace Tree

/-- Moves the selection in one direction after the other. -/
def moves (t : Tree) (directions : List Direction) : EStateM EditError Path Unit :=
  directions.forM t.move

variable {t : Tree} {path path' : Path} {id up : Handle} {node : Node} {step : Nat}

/-- One move and then others. -/
theorem run_moves_cons {direction : Direction} (hmove : (t.move direction).run path = .ok () path')
    (directions : List Direction) :
    (t.moves (direction :: directions)).run path = (t.moves directions).run path' :=
  run_bind_ok hmove

/-- One more move in the end. -/
theorem run_moves_concat {directions : List Direction} {start : Path} {direction : Direction}
    (h : (t.moves directions).run start = .ok () path)
    (hmove : (t.move direction).run path = .ok () path') :
    (t.moves (directions ++ [direction])).run start = .ok () path' := by
  have happend : t.moves (directions ++ [direction])
      = t.moves directions >>= fun _ => t.moves [direction] := List.forM_append
  rw [happend, run_bind_ok h, run_moves_cons hmove]
  rfl

/-- Where there is no node to start from, no move is possible, and the path stays. -/
theorem run_move_error {cause : EditError} (h : t.nodeAt path = .error cause)
    (direction : Direction) : (t.move direction).run path = .error cause path := by
  cases direction with
  | left | right | up | down => exact run_bind_error (run_ask_error h)

namespace IsTree

/-- The run lemma: moves that start at a node lead to a node, however many they are. -/
theorem exists_moves (h : t.IsTree) (hnarrow : t.IsNarrow) (hpath : t.nodeAt path = .ok id)
    (directions : List Direction) :
    ∃ path' id', (t.moves directions).run path = .ok () path' ∧ t.nodeAt path' = .ok id' := by
  induction directions generalizing path id with
  | nil => exact ⟨path, id, rfl, hpath⟩
  | cons direction directions ih =>
    obtain ⟨next, id', hmove, hnext⟩ := h.exists_move hnarrow hpath direction
    obtain ⟨path', id'', hrest, hpath'⟩ := ih hnext
    exact ⟨path', id'', (run_moves_cons hmove directions).trans hrest, hpath'⟩

/-- Below a node that has been got to, each child can be got to from the one before it. -/
theorem exists_moves_push (h : t.IsTree) (hnarrow : t.IsNarrow) (hup : t.nodeAt path = .ok up)
    (hget : t.get? up = some node) {start : Path} {directions : List Direction}
    (hmoves : (t.moves directions).run start = .ok () path) (hlt : step < node.children.length) :
    ∃ directions', (t.moves directions').run start = .ok () (path.push step) := by
  induction step with
  | zero =>
    have hdown : (t.move .down).run path = _ := run_moveDown hup hget
    rw [if_neg (List.ne_nil_of_length_pos hlt)] at hdown
    exact ⟨_, run_moves_concat hmoves hdown⟩
  | succ step ih =>
    obtain ⟨directions', hbefore⟩ := ih (Nat.lt_of_succ_lt hlt)
    have hright : (t.move .right).run (path.push step) = _ := h.run_moveRight_push hup hget
      (List.getElem?_eq_getElem (Nat.lt_of_succ_lt hlt)) (hnarrow hget)
    rw [Nat.min_eq_left (Nat.le_sub_one_of_lt hlt)] at hright
    exact ⟨_, run_moves_concat hbefore hright⟩

/-- From the root every node can be got to. -/
theorem exists_moves_eq (h : t.IsTree) (hnarrow : t.IsNarrow) (hpath : t.nodeAt path = .ok id) :
    ∃ directions, (t.moves directions).run .root = .ok () path := by
  induction path generalizing id with
  | root => exact ⟨[], rfl⟩
  | push path step ih =>
    obtain ⟨up, node, hup, hget, hchild⟩ := nodeAt_push_eq_ok_iff.mp hpath
    obtain ⟨directions, hmoves⟩ := ih hup
    exact h.exists_moves_push hnarrow hup hget hmoves (List.getElem?_eq_some_iff.mp hchild).1

/-- A move to another node can be taken back.  A move up cannot always, since the way down
again leads to the first child. -/
theorem move_opposite (h : t.IsTree) (hnarrow : t.IsNarrow) (hpath : t.nodeAt path = .ok id)
    {direction : Direction} (hdirection : direction ≠ .up)
    (hmove : (t.move direction).run path = .ok () path') (hne : path' ≠ path) :
    (t.move direction.opposite).run path' = .ok () path := by
  cases direction with
  | up => exact absurd rfl hdirection
  | down =>
    obtain ⟨node, hget⟩ := h.exists_get hpath
    obtain ⟨_, rfl⟩ := EStateM.Result.ok.inj (hmove.symm.trans (run_moveDown hpath hget))
    split at hne
    · exact absurd rfl hne
    · next hchildren =>
      obtain ⟨child, hchild⟩ :=
        exists_nodeAt_push hpath hget (List.length_pos_of_ne_nil hchildren)
      rw [if_neg hchildren]
      exact (run_moveUp hchild).trans (congrArg _ (path.pop_push 0))
  | left =>
    induction path with
    | root => exact absurd (EStateM.Result.ok.inj (hmove.symm.trans t.run_moveLeft_root)).2 hne
    | push path step _ =>
      obtain ⟨up, node, hup, hget, hchild⟩ := nodeAt_push_eq_ok_iff.mp hpath
      have hlt := (List.getElem?_eq_some_iff.mp hchild).1
      have hle := hnarrow hget
      obtain ⟨_, rfl⟩ :=
        EStateM.Result.ok.inj (hmove.symm.trans (run_moveLeft_push hpath (by omega)))
      have hpos : step ≠ 0 := fun hzero => hne (by rw [hzero])
      have hleft : step - 1 < node.children.length := by omega
      have hback := h.run_moveRight_push hup hget (List.getElem?_eq_getElem hleft) hle
      have hstep : min (step - 1 + 1) (node.children.length - 1) = step := by omega
      rwa [hstep] at hback
  | right =>
    induction path with
    | root => exact absurd (EStateM.Result.ok.inj (hmove.symm.trans h.run_moveRight_root)).2 hne
    | push path step _ =>
      obtain ⟨up, node, hup, hget, hchild⟩ := nodeAt_push_eq_ok_iff.mp hpath
      have hlt := (List.getElem?_eq_some_iff.mp hchild).1
      have hle := hnarrow hget
      obtain ⟨_, rfl⟩ :=
        EStateM.Result.ok.inj (hmove.symm.trans (h.run_moveRight_push hup hget hchild hle))
      have hnext : step + 1 < node.children.length := by
        by_contra hlast
        exact hne (congrArg path.push (by omega))
      rw [Nat.min_eq_left (Nat.le_sub_one_of_lt hnext)]
      obtain ⟨child, hright⟩ := exists_nodeAt_push hup hget hnext
      exact run_moveLeft_push hright (by omega)

/-- Moves explore exactly the tree.  From the root they lead to the paths of the nodes below it
and to no others, and none of them fails.  A move to another node is taken back by the
opposite one, but for a move up.  Where a path leads to no node, every move is refused and
leaves the path as it is. -/
theorem moves_explore (h : t.IsTree)
    (hshort : ∀ id node, t.get? id = some node → node.children.length < 2 ^ 63) :
    ∃ ids, t.descendants t.root = .ok ids ∧
      (∀ path, (∃ directions, (t.moves directions).run .root = .ok () path) ↔
        ∃ id ∈ ids, t.pathTo id = .ok path) ∧
      (∀ directions, ∃ path, (t.moves directions).run .root = .ok () path) ∧
      (∀ path id, t.nodeAt path = .ok id → ∀ direction, ∃ path',
        (t.move direction).run path = .ok () path' ∧
        (direction ≠ .up → path' ≠ path →
          (t.move direction.opposite).run path' = .ok () path)) ∧
      ∀ path, (¬∃ id, t.nodeAt path = .ok id) → ∀ direction,
        (t.move direction).run path = .error .invalidPath path := by
  have hnarrow : t.IsNarrow := by
    intro id node hget
    have hlt := hshort id node hget
    rw [Path.stepRange]
    omega
  obtain ⟨b, htop, hb⟩ := h.exists_bears
  have hids := htop ▸ hb.descendants_eq
  obtain ⟨node, hroot, _⟩ := h.root_top
  refine ⟨b.handles, hids, ?_, ?_, ?_, ?_⟩
  · intro path
    constructor
    · rintro ⟨directions, hmoves⟩
      obtain ⟨path', id, hmoves', hpath⟩ := h.exists_moves hnarrow t.nodeAt_root directions
      obtain ⟨_, rfl⟩ := EStateM.Result.ok.inj (hmoves.symm.trans hmoves')
      exact ⟨id, (h.reaches_iff hroot hids).mp (reaches_of_nodeAt hpath), h.pathTo_eq hpath⟩
    · rintro ⟨id, hid, hto⟩
      obtain ⟨path', hpath⟩ := ((h.reaches_iff hroot hids).mpr hid).exists_nodeAt
      obtain rfl := Except.ok.inj (hto.symm.trans (h.pathTo_eq hpath))
      exact h.exists_moves_eq hnarrow hpath
  · intro directions
    obtain ⟨path, _, hmoves, _⟩ := h.exists_moves hnarrow t.nodeAt_root directions
    exact ⟨path, hmoves⟩
  · intro path id hpath direction
    obtain ⟨path', _, hmove, _⟩ := h.exists_move hnarrow hpath direction
    exact ⟨path', hmove, fun hdirection hne => h.move_opposite hnarrow hpath hdirection hmove hne⟩
  · intro path hnone direction
    cases hpath : t.nodeAt path with
    | ok id => exact absurd ⟨id, hpath⟩ hnone
    | error cause =>
      rw [run_move_error hpath direction, h.failsWith_nodeAt path cause hpath]

/-- From the root of a sum to the last factor of its second term, and a path that leads past
the terms. -/
theorem moves_explore_sum : ∃ t, parse "a+b*c" = .ok t ∧
    (∀ id node, t.get? id = some node → node.children.length < 2 ^ 63) ∧
    t.pathTo ⟨4⟩ = .ok ⟨[1, 1]⟩ ∧
    (∃ directions, (t.moves directions).run .root = .ok () ⟨[1, 1]⟩) ∧
    (t.move .left).run ⟨[1, 1]⟩ = .ok () ⟨[1, 0]⟩ ∧
    (t.move .right).run ⟨[1, 0]⟩ = .ok () ⟨[1, 1]⟩ ∧
    t.nodeAt ⟨[2]⟩ = .error .invalidPath ∧
    (t.move .left).run ⟨[2]⟩ = .error .invalidPath ⟨[2]⟩ := by
  obtain ⟨t, hparse, ht⟩ := exists_sum_product
  have hshort : ∀ id node, t.get? id = some node → node.children.length < 2 ^ 63 := by
    intro id node hget
    have hle := length_children_le_of_parse hparse hget
    have hsize : "a+b*c".utf8ByteSize = 5 := by decide
    omega
  have hids : t.descendants t.root = .ok [⟨0⟩, ⟨1⟩, ⟨2⟩, ⟨3⟩, ⟨4⟩] := by
    rw [ht]
    cbv
  have hto : t.pathTo ⟨4⟩ = .ok ⟨[1, 1]⟩ := by
    rw [ht]
    cbv
  have hlast : t.nodeAt ⟨[1, 1]⟩ = .ok ⟨4⟩ := by
    rw [ht]
    cbv
  have hleft : (t.move .left).run ⟨[1, 1]⟩ = .ok () ⟨[1, 0]⟩ := by
    rw [ht]
    cbv
  have hnowhere : t.nodeAt ⟨[2]⟩ = .error .invalidPath := by
    rw [ht]
    cbv
  obtain ⟨ids, hids', hreach, _, hmoves, hrefuses⟩ :=
    moves_explore (Obtained.parse hparse).isProper.toIsTree hshort
  obtain rfl := Except.ok.inj (hids.symm.trans hids')
  obtain ⟨path, hpath, hback⟩ := hmoves _ _ hlast .left
  obtain ⟨_, rfl⟩ := EStateM.Result.ok.inj (hleft.symm.trans hpath)
  have hnone : ¬∃ id, t.nodeAt ⟨[2]⟩ = .ok id := by
    rintro ⟨id, hid⟩
    rw [hnowhere] at hid
    cases hid
  exact ⟨t, hparse, hshort, hto, (hreach _).mpr ⟨⟨4⟩, by simp, hto⟩, hleft,
    hback (by decide) (by decide), hnowhere, hrefuses _ hnone .left⟩

end IsTree

end Tree

end FormulaEditor
