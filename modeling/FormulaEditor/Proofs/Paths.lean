/-
Paths and the nodes that they lead to.

In a tree whose links agree a path leads to a node exactly if it is the path to that
node, and every node that hangs from the root has one:

* `Tree.nodeAt_push_eq_ok_iff` — one step further down;
* `Tree.IsTree.pathTo_eq` — the path that leads to a node is the path to it;
* `Tree.Reaches.exists_nodeAt`, `Tree.reaches_of_nodeAt` — a path for every node below the
  root, and for no other;
* `Tree.IsForest.nodeAt_congr` — a path only depends on the nodes that it passes;
* `Tree.IsTree.failsWith_nodeAt` — a path that leads nowhere is refused.
-/
import FormulaEditor.Proofs.Legible
import FormulaEditor.Tree.Path
import Mathlib.Data.List.Induction

namespace FormulaEditor

namespace Path

theorem pop_push (path : Path) (step : Nat) : (path.push step).pop 1 = path := by
  obtain ⟨steps⟩ := path
  simp [push, pop, length]

theorem last?_push (path : Path) (step : Nat) : (path.push step).last? = some step := by
  simp [push, last?]

theorem length_push (path : Path) (step : Nat) : (path.push step).length = path.length + 1 := by
  simp [push, length]

/-- A path with a last step is what is left without it, and that step. -/
theorem eq_push_of_last? {path : Path} {step : Nat} (h : path.last? = some step) :
    path = (path.pop 1).push step := by
  obtain ⟨steps⟩ := path
  obtain ⟨front, rfl⟩ := List.getLast?_eq_some_iff.mp h
  simp [push, pop, length]

/-- Induction over paths, one step further down at a time. -/
@[induction_eliminator]
theorem induct {motive : Path → Prop} (root : motive .root)
    (push : ∀ path step, motive path → motive (path.push step)) (path : Path) : motive path := by
  obtain ⟨steps⟩ := path
  induction steps using List.reverseRecOn with
  | nil => exact root
  | append_singleton steps step ih => exact push ⟨steps⟩ step ih

end Path

namespace Tree

variable {t t' : Tree} {path : Path} {id : Handle}

/-! ### Places -/

/-- A node with a place is listed there. -/
theorem exists_of_place? {id parent : Handle} {index : Nat}
    (h : t.place? id = .ok (some (parent, index))) :
    ∃ node, t.get? parent = some node ∧ node.children[index]? = some id := by
  rw [place?] at h
  obtain ⟨here, _, h⟩ := exists_of_bind_eq_ok h
  split at h
  · cases h
  · next up hup =>
    obtain ⟨node, hnode, h⟩ := exists_of_bind_eq_ok h
    obtain ⟨position, hposition, heq⟩ := Option.map_eq_some_iff.mp (Except.ok.inj h)
    cases heq
    obtain ⟨hlt, hid, _⟩ := List.idxOf?_eq_some_iff.mp hposition
    exact ⟨node, node_eq_ok_iff.mp hnode, List.getElem?_eq_some_iff.mpr ⟨hlt, hid⟩⟩

theorem place?_of_parent_eq_none {id : Handle} {node : Node} (hget : t.get? id = some node)
    (hparent : node.parent = none) : t.place? id = .ok none := by
  rw [place?, node_eq_ok_iff.mpr hget]
  simp only [bind, Except.bind, hparent]
  rfl

/-- The place of a node that its parent lists once. -/
theorem place?_of_getElem? {id parent : Handle} {node up : Node} {index : Nat}
    (hget : t.get? id = some node) (hparent : node.parent = some parent)
    (hup : t.get? parent = some up) (hnodup : up.children.Nodup)
    (hindex : up.children[index]? = some id) : t.place? id = .ok (some (parent, index)) := by
  obtain ⟨hlt, hid⟩ := List.getElem?_eq_some_iff.mp hindex
  have hidx : up.children.idxOf? id = some index := by
    refine List.idxOf?_eq_some_iff.mpr ⟨hlt, hid, ?_⟩
    intro other hother heq
    have := (List.Nodup.getElem_inj_iff hnodup).mp (heq.trans hid.symm)
    omega
  rw [place?, node_eq_ok_iff.mpr hget]
  simp only [bind, Except.bind, hparent, node_eq_ok_iff.mpr hup, hidx]
  rfl

/-! ### Steps down -/

theorem nodeAt_root (t : Tree) : t.nodeAt .root = .ok t.root := rfl

/-- The child at an index. -/
def childAt (t : Tree) (id : Handle) (step : Nat) : Except EditError Handle := do
  match (← t.node id).children[step]? with
  | some child => return child
  | none => throw .invalidPath

theorem nodeAt_push (t : Tree) (path : Path) (step : Nat) :
    t.nodeAt (path.push step) = t.nodeAt path >>= (t.childAt · step) := by
  rw [nodeAt, Path.push, List.foldlM_append, nodeAt]
  simp only [List.foldlM_cons, List.foldlM_nil, bind_pure]
  rfl

theorem childAt_eq_ok_iff {step : Nat} {child : Handle} :
    t.childAt id step = .ok child ↔
      ∃ node, t.get? id = some node ∧ node.children[step]? = some child := by
  rw [childAt]
  constructor
  · intro h
    obtain ⟨node, hnode, h⟩ := exists_of_bind_eq_ok h
    refine ⟨node, node_eq_ok_iff.mp hnode, ?_⟩
    split at h
    · next hchild =>
      cases h
      exact hchild
    · cases h
  · rintro ⟨node, hget, hchild⟩
    rw [node_eq_ok_iff.mpr hget]
    simp only [bind, Except.bind, hchild]
    rfl

/-- One step further down. -/
theorem nodeAt_push_eq_ok_iff {step : Nat} {child : Handle} :
    t.nodeAt (path.push step) = .ok child ↔ ∃ up node, t.nodeAt path = .ok up ∧
      t.get? up = some node ∧ node.children[step]? = some child := by
  rw [nodeAt_push]
  constructor
  · intro h
    obtain ⟨up, hup, h⟩ := exists_of_bind_eq_ok h
    obtain ⟨node, hget, hchild⟩ := childAt_eq_ok_iff.mp h
    exact ⟨up, node, hup, hget, hchild⟩
  · rintro ⟨up, node, hup, hget, hchild⟩
    rw [hup]
    exact childAt_eq_ok_iff.mpr ⟨node, hget, hchild⟩

/-- A node further down is listed by the one above it. -/
theorem lists_of_nodeAt_push {step : Nat} {child : Handle}
    (h : t.nodeAt (path.push step) = .ok child) :
    ∃ up, t.nodeAt path = .ok up ∧ t.Lists up child := by
  obtain ⟨up, node, hup, hget, hchild⟩ := nodeAt_push_eq_ok_iff.mp h
  exact ⟨up, hup, node, hget, List.mem_of_getElem? hchild⟩

/-- The child of the topmost node at an index is the top of the part there. -/
theorem Holds.childAt_eq {place : Option Handle} {b : Branch} (h : t.Holds place b) (step : Nat) :
    t.childAt b.top step = match b.parts[step]? with
      | some part => .ok part.top
      | none => .error .invalidPath := by
  rw [childAt, node_eq_ok_iff.mpr h.get]
  simp only [bind, Except.bind, Branch.children_node, List.getElem?_map]
  cases b.parts[step]? <;> rfl

/-- From the top of a branch to that of one of its parts. -/
theorem Bears.nodeAt_part {place : Option Handle} {b part : Branch} (hb : t.Bears place b)
    (hpath : t.nodeAt path = .ok b.top) {step : Nat} (hpart : b.parts[step]? = some part) :
    t.nodeAt (path.push step) = .ok part.top := by
  have hchild := hb.holds.childAt_eq step
  rw [hpart] at hchild
  rw [nodeAt_push, hpath]
  exact hchild

/-- A path of at least one step leads to a part of a compound. -/
theorem IsForest.exists_part_of_nodeAt (h : t.IsForest) {step : Nat}
    (hpath : t.nodeAt (path.push step) = .ok id) :
    ∃ (place : Option Handle) (up : Handle) (tag : Tag) (operator : Operator)
      (parts : List Branch) (part : Branch), t.nodeAt path = .ok up ∧
      t.Bears place (.compound up tag operator parts) ∧ parts[step]? = some part ∧
      part.top = id := by
  obtain ⟨up, node, hup, hget, hchild⟩ := nodeAt_push_eq_ok_iff.mp hpath
  obtain ⟨b, rfl, hb⟩ := h.exists_bears hget
  rw [hb.get, Option.some_inj] at hget
  rw [← hget, Branch.children_node, List.getElem?_map] at hchild
  obtain ⟨part, hpart, htop⟩ := Option.map_eq_some_iff.mp hchild
  cases b with
  | literal => cases hpart
  | compound up tag operator parts =>
    exact ⟨_, up, tag, operator, parts, part, hup, hb, hpart, htop⟩

/-- There is a path to every node below the root. -/
theorem Reaches.exists_nodeAt (h : t.Reaches t.root id) : ∃ path, t.nodeAt path = .ok id := by
  induction h with
  | self => exact ⟨.root, t.nodeAt_root⟩
  | child _ hget hmem ih =>
    obtain ⟨path, hpath⟩ := ih
    obtain ⟨step, hstep⟩ := List.mem_iff_getElem?.mp hmem
    exact ⟨path.push step, nodeAt_push_eq_ok_iff.mpr ⟨_, _, hpath, hget, hstep⟩⟩

/-- What a path leads to hangs from the root. -/
theorem reaches_of_nodeAt (h : t.nodeAt path = .ok id) : t.Reaches t.root id := by
  induction path generalizing id with
  | root =>
    cases h
    exact .self
  | push path step ih =>
    obtain ⟨up, node, hup, hget, hchild⟩ := nodeAt_push_eq_ok_iff.mp h
    exact .child (ih hup) hget (List.mem_of_getElem? hchild)

/-! ### Paths in trees -/

namespace IsTree

/-- What a path leads to is live. -/
theorem exists_get (h : t.IsTree) (hpath : t.nodeAt path = .ok id) :
    ∃ node, t.get? id = some node := by
  induction path with
  | root =>
    cases hpath
    obtain ⟨node, hget, _⟩ := h.root_top
    exact ⟨node, hget⟩
  | push path step _ =>
    obtain ⟨up, _, hlists⟩ := lists_of_nodeAt_push hpath
    obtain ⟨node, hget, _⟩ := h.lists_iff.mp hlists
    exact ⟨node, hget⟩

/-- A path that leads nowhere is refused. -/
theorem failsWith_nodeAt (h : t.IsTree) (path : Path) : FailsWith .invalidPath (t.nodeAt path) := by
  induction path with
  | root => exact .ok _
  | push path step ih =>
    rw [nodeAt_push]
    refine ih.bind fun id hid => ?_
    obtain ⟨node, hget⟩ := h.exists_get hid
    rw [childAt, node_eq_ok_iff.mpr hget]
    refine .bind (.ok node) fun _ _ => ?_
    split
    · exact .ok _
    · exact .error

/-- The way up from a node is as long as the path to it. -/
theorem exists_climbs (h : t.IsTree) (hpath : t.nodeAt path = .ok id) :
    ∃ way, t.Climbs id way ∧ way.length = path.length + 1 := by
  induction path generalizing id with
  | root =>
    cases hpath
    obtain ⟨node, hget, hnone⟩ := h.root_top
    exact ⟨[t.root], .top hget hnone, rfl⟩
  | push path step ih =>
    obtain ⟨up, hup, hlists⟩ := lists_of_nodeAt_push hpath
    obtain ⟨way, hway, hlen⟩ := ih hup
    exact ⟨id :: way, .step (h.lists_iff.mp hlists) hway, by rw [List.length_cons, hlen,
      Path.length_push]⟩

/-- The last step of a path is the place of the node among the children of the one above. -/
theorem exists_place? (h : t.IsTree) {step : Nat} (hpath : t.nodeAt (path.push step) = .ok id) :
    ∃ up, t.nodeAt path = .ok up ∧ t.place? id = .ok (some (up, step)) := by
  obtain ⟨up, above, hup, hget, hchild⟩ := nodeAt_push_eq_ok_iff.mp hpath
  obtain ⟨node, hnode, hparent⟩ := h.lists_iff.mp ⟨above, hget, List.mem_of_getElem? hchild⟩
  exact ⟨up, hup, place?_of_getElem? hnode hparent hget (h.nodup hget) hchild⟩

theorem pathWithin_eq {bound : Nat} (h : t.IsTree) (hpath : t.nodeAt path = .ok id)
    (hbound : path.length < bound) : t.pathWithin bound id = .ok path := by
  induction path generalizing id bound with
  | root =>
    cases hpath
    obtain ⟨bound, rfl⟩ := Nat.exists_eq_succ_of_ne_zero (Nat.ne_of_gt hbound)
    obtain ⟨node, hget, hnone⟩ := h.root_top
    rw [pathWithin, place?_of_parent_eq_none hget hnone]
    rfl
  | push path step ih =>
    obtain ⟨bound, rfl⟩ := Nat.exists_eq_succ_of_ne_zero (Nat.ne_of_gt (Nat.zero_lt_of_lt hbound))
    obtain ⟨up, hup, hplace⟩ := h.exists_place? hpath
    have hrest : t.pathWithin bound up = .ok path :=
      ih hup (by rw [Path.length_push] at hbound; exact Nat.lt_of_succ_lt_succ hbound)
    rw [pathWithin, hplace]
    simp only [bind, Except.bind, hrest]
    rfl

/-- The path that leads to a node is the path to it. -/
theorem pathTo_eq (h : t.IsTree) (hpath : t.nodeAt path = .ok id) : t.pathTo id = .ok path := by
  obtain ⟨way, hway, hlen⟩ := h.exists_climbs hpath
  have hle := hway.length_le
  exact h.pathWithin_eq hpath (by rw [walkBound]; omega)

end IsTree

/-- A path leads to the same node if the nodes above that have not changed. -/
theorem IsForest.nodeAt_congr (h : t.IsForest) (hpath : t.nodeAt path = .ok id)
    {way : List Handle} (hway : t.Climbs id (id :: way)) (hroot : t'.root = t.root)
    (hsame : ∀ other ∈ way, t'.get? other = t.get? other) : t'.nodeAt path = .ok id := by
  induction path generalizing id way with
  | root =>
    cases hpath
    rw [nodeAt_root, hroot]
  | push path step ih =>
    obtain ⟨up, above, hup, hget, hchild⟩ := nodeAt_push_eq_ok_iff.mp hpath
    obtain ⟨node, hnode, hparent⟩ := h.lists_iff.mp ⟨above, hget, List.mem_of_getElem? hchild⟩
    -- the way up goes on at the node that lists this one
    have hway' : t.Climbs up way := by
      cases hway with
      | top hother hnone =>
        rw [hnode, Option.some_inj] at hother
        rw [hother, hnone] at hparent
        exact absurd hparent (by simp)
      | step hother hway =>
        obtain ⟨found, hfound, hsome⟩ := hother
        rw [hnode, Option.some_inj] at hfound
        rw [← hfound, hparent, Option.some_inj] at hsome
        exact hsome ▸ hway
    obtain ⟨rest, rfl⟩ := hway'.exists_cons
    refine nodeAt_push_eq_ok_iff.mpr ⟨up, above, ?_, ?_, hchild⟩
    · exact ih hup hway' fun other hother => hsame other (List.mem_cons_of_mem _ hother)
    · exact (hsame up (List.mem_cons_self ..)).trans hget

end Tree

end FormulaEditor
