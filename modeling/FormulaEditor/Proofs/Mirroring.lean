/-
Nodes that mirror each other.

Two nodes, of one tree or of different ones, mirror each other if they hold the same literal
or the same operator, have the same tag, and have children that mirror each other one by
one.  Handles do not count, and neither does what is around the two subtrees:

* `Tree.Mirrors`, `Tree.MirrorsBelow` — the relation, and the same without the tags of the
  two nodes themselves;
* `Branch.bare_eq_iff` — branches are equal but for their handles if their topmost nodes and
  their parts are so;
* `Tree.Holds.mirrors` — the tops of such branches mirror each other.
-/
import FormulaEditor.Proofs.Copying
import FormulaEditor.Proofs.Matching

namespace FormulaEditor

namespace Tree

/-- The subtrees of two nodes have the same shape, names and tags. -/
inductive Mirrors (t u : Tree) : Handle → Handle → Prop
  | intro {id other : Handle} {node found : Node} : t.get? id = some node →
      u.get? other = some found → node.content.childless = found.content.childless →
      node.tag = found.tag → List.Forall₂ (Mirrors t u) node.children found.children →
      Mirrors t u id other

/-- The subtrees of two nodes have the same shape and names, and below the two nodes the same
tags. -/
def MirrorsBelow (t u : Tree) (id other : Handle) : Prop :=
  ∃ node found, t.get? id = some node ∧ u.get? other = some found ∧
    node.content.childless = found.content.childless ∧
    List.Forall₂ (t.Mirrors u) node.children found.children

end Tree

namespace Branch

variable {b c : Branch}

theorem operator?_eq_of_bare_eq (h : b.bare = c.bare) : b.operator? = c.operator? := by
  rw [← operator?_shape b, shape_eq_of_bare_eq h, operator?_shape]

/-- Branches are equal but for their handles if their topmost nodes are so and their parts
are so one by one. -/
theorem bare_eq_iff : b.bare = c.bare ↔
    b.key = c.key ∧ b.operator? = c.operator? ∧ b.parts.map bare = c.parts.map bare := by
  constructor
  · exact fun h => ⟨key_eq_of_bare_eq h, operator?_eq_of_bare_eq h, map_bare_parts h⟩
  · rintro ⟨hkey, hop, hparts⟩
    obtain ⟨hname, htag⟩ := ChildKey.mk.inj hkey
    cases b with
    | literal id tag text =>
      cases c with
      | literal id' tag' text' =>
        obtain rfl : text = text' := hname
        obtain rfl : tag = tag' := htag
        rw [bare, bare]
      | compound => cases hop
    | compound id tag operator parts =>
      cases c with
      | literal => cases hop
      | compound id' tag' operator' parts' =>
        obtain rfl : operator = operator' := Option.some_inj.mp hop
        obtain rfl : tag = tag' := htag
        rw [bare, bare]
        exact congrArg _ hparts

theorem parts_of_operator?_eq_none (h : b.operator? = none) : b.parts = [] := by
  cases b with
  | literal => rfl
  | compound => cases h

/-- The shape does not depend on the topmost tag. -/
theorem shape_eq_of_map_bare (hname : b.name = c.name) (hop : b.operator? = c.operator?)
    (hparts : b.parts.map bare = c.parts.map bare) : b.shape = c.shape := by
  have hshapes : b.parts.map shape = c.parts.map shape :=
    (map_eq_map_of_forall₂ (forall₂_of_map_eq hparts fun part _ other _ heq =>
      (shape_eq_of_bare_eq heq).symm)).symm
  cases b with
  | literal id tag text =>
    cases c with
    | literal id' tag' text' =>
      rw [shape, shape]
      exact congrArg Shape.literal hname
    | compound => cases hop
  | compound id tag operator parts =>
    cases c with
    | literal => cases hop
    | compound id' tag' operator' parts' =>
      obtain rfl : operator = operator' := Option.some_inj.mp hop
      rw [shape, shape]
      exact congrArg _ hshapes

/-- The content of a node that is not about children. -/
theorem childless_node_eq (hname : b.name = c.name) (hop : b.operator? = c.operator?)
    (place place' : Option Handle) :
    (b.node place).content.childless = (c.node place').content.childless := by
  cases b with
  | literal id tag text =>
    cases c with
    | literal id' tag' text' => exact congrArg Content.literal hname
    | compound => cases hop
  | compound id tag operator parts =>
    cases c with
    | literal => cases hop
    | compound id' tag' operator' parts' =>
      exact congrArg (Content.compound · []) (Option.some_inj.mp hop)

end Branch

namespace Tree

open Branch

variable {t u : Tree} {place place' : Option Handle} {b c : Branch}

/-- The tops of branches mirror each other if they hold the same and their parts mirror each
other. -/
theorem Holds.mirrorsBelow (h : t.Holds place b) (h' : u.Holds place' c)
    (hname : b.name = c.name) (hop : b.operator? = c.operator?)
    (hparts : List.Forall₂ (fun part other => t.Mirrors u part.top other.top) b.parts c.parts) :
    t.MirrorsBelow u b.top c.top := by
  refine ⟨_, _, h.get, h'.get, childless_node_eq hname hop place place', ?_⟩
  rw [children_node, children_node]
  exact List.forall₂_map_left_iff.mpr (List.forall₂_map_right_iff.mpr hparts)

/-- Branches that are equal but for their handles mirror each other. -/
theorem Holds.mirrors (h : t.Holds place b) (h' : u.Holds place' c) (hbare : b.bare = c.bare) :
    t.Mirrors u b.top c.top := by
  induction h generalizing place' c with
  | @intro place b hget hbelow ih =>
    obtain ⟨hkey, hop, hparts⟩ := bare_eq_iff.mp hbare
    have hall : List.Forall₂ (fun part other => t.Mirrors u part.top other.top)
        b.parts c.parts :=
      forall₂_of_map_eq hparts fun part hp other ho heq => ih part hp (h'.part ho) heq
    obtain ⟨node, found, hnode, hfound, hcontent, hchildren⟩ :=
      (Holds.intro hget hbelow).mirrorsBelow h' (congrArg ChildKey.name hkey) hop hall
    refine .intro hnode hfound hcontent ?_ hchildren
    rw [hget, Option.some_inj] at hnode
    rw [h'.get, Option.some_inj] at hfound
    rw [← hnode, ← hfound, tag_node, tag_node]
    exact congrArg ChildKey.tag hkey

/-- The tops of branches that are equal but for handles and for the topmost tags. -/
theorem Holds.mirrorsBelow_of_map_bare (h : t.Holds place b) (h' : u.Holds place' c)
    (hname : b.name = c.name) (hop : b.operator? = c.operator?)
    (hparts : b.parts.map bare = c.parts.map bare) : t.MirrorsBelow u b.top c.top :=
  h.mirrorsBelow h' hname hop
    (forall₂_of_map_eq hparts fun _ hp _ ho heq => (h.part hp).mirrors (h'.part ho) heq)

end Tree

end FormulaEditor
