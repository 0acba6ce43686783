/-
Moving the selection.

In a tree whose links agree, a move from a node leads to a neighbour of the node, or stays
where there is none.  Sideways it shifts the last step of the path, which is a word, so no
child list may be longer than there are words:

* `Tree.IsNarrow` — such trees;
* `Tree.run_moveLeft_push`, `Tree.IsTree.run_moveRight_push` — the moves sideways;
* `Tree.run_moveUp`, `Tree.run_moveDown` — the moves up and down;
* `Tree.IsTree.exists_move` — no move leads out of the tree.
-/
import FormulaEditor.Editor
import FormulaEditor.Proofs.Paths
import FormulaEditor.Proofs.Permuting

namespace FormulaEditor

namespace Path

theorem shift_push (path : Path) (step : Nat) (amount : Int) :
    (path.push step).shift amount = path.push ((step + amount) % stepRange).toNat := by
  rw [shift, last?_push, pop_push]

/-- As long as the shifted step is a word, nothing wraps around. -/
theorem shift_push_of_lt (path : Path) {step step' : Nat} {amount : Int} (hlt : step' < stepRange)
    (hstep : (step : Int) + amount = step') : (path.push step).shift amount = path.push step' := by
  rw [shift_push, hstep, Int.emod_eq_of_lt (Int.natCast_nonneg _) (Int.ofNat_lt.mpr hlt),
    Int.toNat_natCast]

end Path

namespace Tree

/-- No child list is longer than there are words to index it. -/
def IsNarrow (t : Tree) : Prop :=
  ∀ {id : Handle} {node : Node}, t.get? id = some node → node.children.length ≤ Path.stepRange

variable {t t' : Tree} {path : Path} {id up : Handle} {node : Node} {step : Nat}

theorem Permutes.isNarrow (h : t.Permutes t') (ht : t.IsNarrow) : t'.IsNarrow := by
  intro id node' hget'
  obtain ⟨node, hget, hnode⟩ := h.symm.get hget'
  exact hnode.children.length_eq ▸ ht hget

/-- There is a child at every index below their number. -/
theorem exists_nodeAt_push (hup : t.nodeAt path = .ok up) (hget : t.get? up = some node)
    (hlt : step < node.children.length) : ∃ id, t.nodeAt (path.push step) = .ok id :=
  ⟨_, nodeAt_push_eq_ok_iff.mpr ⟨up, node, hup, hget, List.getElem?_eq_getElem hlt⟩⟩

/-! ### Up and down -/

theorem run_moveUp (hpath : t.nodeAt path = .ok id) :
    t.moveUp.run path = .ok () (path.pop 1) := by
  rw [moveUp, run_bind_ok (run_ask hpath)]
  rfl

theorem run_moveDown (hpath : t.nodeAt path = .ok id) (hget : t.get? id = some node) :
    t.moveDown.run path = .ok () (if node.children = [] then path else path.push 0) := by
  rw [moveDown, run_bind_ok (run_ask hpath), run_bind_ok (run_ofExcept_node hget)]
  by_cases hleaf : node.children = []
  · rw [if_neg (by simp [hleaf]), if_pos hleaf]
    rfl
  · rw [if_pos (by simp [hleaf]), if_neg hleaf]
    rfl

/-! ### Sideways -/

theorem run_moveLeft_root (t : Tree) : t.moveLeft.run .root = .ok () .root := rfl

/-- One step to the left, but not past the first sibling. -/
theorem run_moveLeft_push (hpath : t.nodeAt (path.push step) = .ok id)
    (hle : step ≤ Path.stepRange) :
    t.moveLeft.run (path.push step) = .ok () (path.push (step - 1)) := by
  rw [moveLeft, run_bind_ok (run_ask hpath), run_bind_ok run_get, Path.last?_push, Option.any_some]
  split
  · next hpos =>
    have hpos : 0 < step := by simpa using hpos
    exact congrArg _ (path.shift_push_of_lt (by omega) (by omega))
  · next hpos =>
    have hzero : step = 0 := by simpa using hpos
    rw [hzero]
    rfl

namespace IsTree

theorem run_moveRight_root (h : t.IsTree) : t.moveRight.run .root = .ok () .root := by
  obtain ⟨node, hget, hnone⟩ := h.root_top
  rw [moveRight, run_bind_ok (run_ask t.nodeAt_root), run_bind_ok (run_ofExcept_node hget)]
  simp only [hnone]
  rfl

/-- One step to the right, but not past the last sibling. -/
theorem run_moveRight_push (h : t.IsTree) (hup : t.nodeAt path = .ok up)
    (hget : t.get? up = some node) (hchild : node.children[step]? = some id)
    (hle : node.children.length ≤ Path.stepRange) : t.moveRight.run (path.push step)
      = .ok () (path.push (min (step + 1) (node.children.length - 1))) := by
  have hpath := nodeAt_push_eq_ok_iff.mpr ⟨up, node, hup, hget, hchild⟩
  have hlt := (List.getElem?_eq_some_iff.mp hchild).1
  obtain ⟨here, hhere, hparent⟩ := h.lists_iff.mp ⟨node, hget, List.mem_of_getElem? hchild⟩
  rw [moveRight, run_bind_ok (run_ask hpath), run_bind_ok (run_ofExcept_node hhere)]
  simp only [hparent]
  rw [run_bind_ok (run_ofExcept_node hget), run_bind_ok run_get, Path.last?_push, Option.any_some]
  split
  · next hnext =>
    have hnext : step + 1 < node.children.length := by simpa using hnext
    exact congrArg _ (path.shift_push_of_lt (by omega) (by omega))
  · next hlast =>
    have hlast : node.children.length ≤ step + 1 := by simpa using hlast
    rw [show min (step + 1) (node.children.length - 1) = step by omega]
    rfl

/-! ### All moves -/

/-- Every move from a node leads to a node. -/
theorem exists_move (h : t.IsTree) (hnarrow : t.IsNarrow) (hpath : t.nodeAt path = .ok id)
    (direction : Direction) :
    ∃ path' id', (t.move direction).run path = .ok () path' ∧ t.nodeAt path' = .ok id' := by
  cases direction with
  | left =>
    induction path with
    | root => exact ⟨_, _, t.run_moveLeft_root, t.nodeAt_root⟩
    | push path step _ =>
      obtain ⟨up, node, hup, hget, hchild⟩ := nodeAt_push_eq_ok_iff.mp hpath
      have hlt := (List.getElem?_eq_some_iff.mp hchild).1
      have hle := hnarrow hget
      have hleft : step - 1 < node.children.length := by omega
      obtain ⟨id', hid'⟩ := exists_nodeAt_push hup hget hleft
      exact ⟨_, id', run_moveLeft_push hpath (by omega), hid'⟩
  | right =>
    induction path with
    | root => exact ⟨_, _, h.run_moveRight_root, t.nodeAt_root⟩
    | push path step _ =>
      obtain ⟨up, node, hup, hget, hchild⟩ := nodeAt_push_eq_ok_iff.mp hpath
      have hlt := (List.getElem?_eq_some_iff.mp hchild).1
      have hright : min (step + 1) (node.children.length - 1) < node.children.length := by omega
      obtain ⟨id', hid'⟩ := exists_nodeAt_push hup hget hright
      exact ⟨_, id', h.run_moveRight_push hup hget hchild (hnarrow hget), hid'⟩
  | up =>
    induction path with
    | root => exact ⟨_, _, run_moveUp hpath, t.nodeAt_root⟩
    | push path step _ =>
      obtain ⟨up, _, hup, _⟩ := nodeAt_push_eq_ok_iff.mp hpath
      exact ⟨_, up, run_moveUp hpath, by rw [Path.pop_push, hup]⟩
  | down =>
    obtain ⟨node, hget⟩ := h.exists_get hpath
    have hmove := run_moveDown hpath hget
    by_cases hleaf : node.children = []
    · rw [if_pos hleaf] at hmove
      exact ⟨path, id, hmove, hpath⟩
    · rw [if_neg hleaf] at hmove
      obtain ⟨id', hid'⟩ := exists_nodeAt_push hpath hget (List.length_pos_of_ne_nil hleaf)
      exact ⟨_, id', hmove, hid'⟩

end IsTree

end Tree

end FormulaEditor
