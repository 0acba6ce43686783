/-
The size of a formula.

In a formula that can be written down every node takes up at least one character: a
literal has a text, parentheses are two characters, and an operator with several operands
is written between them.  So a tree that was parsed has no more nodes than the text has
characters, and no child list is longer than that either.

* `Branch.length_handles_le` — the nodes of a writable branch, against its text;
* `Tree.IsWhole.length_children_le` — the children of a node, against all nodes;
* `Tree.length_children_le_of_parse` — the children of a node of a parsed tree, against the
  bytes of the text.
-/
import FormulaEditor.Proofs.Legible
import FormulaEditor.Proofs.Parsing
import Mathlib.Algebra.Order.BigOperators.Group.List
import Mathlib.Algebra.Order.Ring.Nat

namespace FormulaEditor

open Grammar

/-! ### Texts -/

/-- Characters between the members of a list: one less than there are members. -/
theorem length_intercalate_singleton {α : Type} (c : α) {l : List (List α)} (hne : l ≠ []) :
    ([c].intercalate l).length + 1 = l.flatten.length + l.length := by
  induction l with
  | nil => exact absurd rfl hne
  | cons s l ih =>
    cases l with
    | nil => simp
    | cons s' l =>
      have hrest := ih (by simp)
      rw [List.intercalate_cons_cons, List.flatten_cons]
      simp only [List.length_append, List.length_cons, List.length_nil] at hrest ⊢
      omega

/-- Each character takes up at least one byte. -/
theorem length_toList_le (text : String) : text.toList.length ≤ text.utf8ByteSize := by
  induction text using String.push_induction with
  | empty => simp
  | push text c ih =>
    have hpos := c.utf8Size_pos
    rw [String.toList_push, List.length_append, String.utf8ByteSize_push, List.length_singleton]
    omega

theorem length_withoutSpaces_le (text : String) : (withoutSpaces text).length ≤ text.utf8ByteSize :=
  (List.length_filter_le _ _).trans (length_toList_le text)

/-! ### Nodes -/

namespace Branch

/-- If each part has no more nodes than its text has characters, so have all of them. -/
theorem length_flatMap_handles_le {parts : List Branch} {text : Branch → List Char}
    (h : ∀ part ∈ parts, part.handles.length ≤ (text part).length) :
    (parts.flatMap handles).length ≤ (parts.map text).flatten.length := by
  rw [← List.flatMap_def, List.length_flatMap, List.length_flatMap]
  exact List.sum_le_sum h

/-- A chain of several parts has room for one more node, where its operator is written. -/
theorem length_handles_le_of_chain {parts : List Branch} {text : Branch → List Char} (c : Char)
    (htwo : 2 ≤ parts.length)
    (h : ∀ part ∈ parts, part.handles.length ≤ (text part).length) :
    (parts.flatMap handles).length + 1 ≤ ([c].intercalate (parts.map text)).length := by
  have hne : parts.map text ≠ [] := fun heq => by
    rw [List.map_eq_nil_iff.mp heq] at htwo
    exact absurd htwo (by decide)
  have hlen := length_intercalate_singleton c hne
  have hle := length_flatMap_handles_le h
  rw [List.length_map] at hlen
  omega

/-- A branch that can be written down has no more nodes than its text has characters. -/
theorem length_handles_le {b : Branch} (h : b.shape.IsWritable) :
    b.handles.length ≤ b.shape.written.length := by
  induction b with
  | literal id tag text =>
    rw [shape] at h ⊢
    cases h with
    | literal htext =>
      rw [Shape.written_literal, handles, List.length_singleton]
      exact List.length_pos_of_ne_nil htext.ne_nil
  | compound id tag operator parts ih =>
    rw [shape] at h ⊢
    have hparts : ∀ part ∈ parts, part.handles.length ≤ part.shape.written.length :=
      fun part hp => ih part hp (h.of_mem (List.mem_map_of_mem hp))
    rw [handles_eq, List.length_cons]
    -- being writable fixes the form of this list, so it gets a name before the cases
    generalize hshapes : parts.map shape = shapes at h ⊢
    have hmap : shapes.map Shape.written = parts.map fun part => part.shape.written := by
      rw [← hshapes, List.map_map]
      rfl
    have hlen : shapes.length = parts.length := by rw [← hshapes, List.length_map]
    cases h with
    | group =>
      rw [Shape.written, hmap, List.length_append, List.length_cons]
      have := length_flatMap_handles_le hparts
      simp only [Branch.parts] at this ⊢
      omega
    | add htwo =>
      rw [Shape.written_compound (by decide), hmap]
      exact length_handles_le_of_chain '+' (hlen ▸ htwo) hparts
    | mul htwo =>
      rw [Shape.written_compound (by decide), hmap]
      exact length_handles_le_of_chain '*' (hlen ▸ htwo) hparts

end Branch

namespace Tree

variable {t : Tree} {id : Handle} {node : Node}

/-- The children of a node are different nodes of the tree. -/
theorem IsWhole.length_children_le {b : Branch} (h : t.IsWhole b) (hget : t.get? id = some node) :
    node.children.length ≤ b.handles.length := by
  refine (h.isTree.nodup hget).length_le_of_subset fun child hchild => ?_
  obtain ⟨found, hfound, _⟩ := h.isTree.lists_iff.mp ⟨node, hget, hchild⟩
  exact h.mem child (by rw [hfound, Option.isSome_some])

/-- No child list of a parsed tree is longer than the text. -/
theorem length_children_le_of_parse {text : String} (hparse : parse text = .ok t)
    (hget : t.get? id = some node) : node.children.length ≤ text.utf8ByteSize := by
  obtain ⟨b, hb, hformula⟩ := exists_of_parse hparse
  calc node.children.length
    _ ≤ b.handles.length := hb.length_children_le hget
    _ ≤ b.shape.written.length := Branch.length_handles_le hformula.isNormal.isWritable
    _ = (withoutSpaces text).length := by rw [hformula.written]
    _ ≤ text.utf8ByteSize := length_withoutSpaces_le text

end Tree

end FormulaEditor
