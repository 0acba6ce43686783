/-
Trees that can be written down.

Not every tree can be drawn so that the drawing can be read again: the text of a
literal may be anything, a sum of one operand looks like that operand, and a sum
under a product loses its place.  A tree is legible if none of this happens in
it (`Tree.IsLegible`), and merged if no chain of one operator is left in it
(`Tree.IsMerged`).  Both are conditions on one node and its children at a time,
and say of the shape of the tree that it is writable and flat:

* `Tree.Reaches` — the nodes below a node, itself included;
* `Tree.Holds.isWritable`, `Tree.Holds.isFlat` — from nodes to shapes;
* `Tree.IsProper` — a tree without stray nodes that is legible and merged;
* `Tree.isProper_iff` — such a tree is one branch of a normal shape.
-/
import FormulaEditor.Proofs.Forest

namespace FormulaEditor

namespace Tree

/-- A node is below another one, or is the same. -/
inductive Reaches (t : Tree) (top : Handle) : Handle → Prop
  | self : Reaches t top top
  | child {parent child : Handle} {node : Node} : Reaches t top parent →
      t.get? parent = some node → child ∈ node.children → Reaches t top child

/-- The operator of the node behind a handle, if there is such a node. -/
def operator? (t : Tree) (id : Handle) : Option Operator := (t.get? id).bind Node.operator?

/-- What a node holds can be written down and read again: a literal of the
grammar, a formula in parentheses, at least two terms, or at least two factors
that are not sums. -/
def Spells (t : Tree) : Content → Prop
  | .literal text => Grammar.IsLiteral text.toList
  | .compound .group children => children.length = 1
  | .compound .add children => 2 ≤ children.length
  | .compound .mul children =>
    2 ≤ children.length ∧ ∀ child ∈ children, t.operator? child ≠ some .add

/-- What a node holds cannot be merged with its children: none of them has its
operator, if that is associative. -/
def Separates (t : Tree) : Content → Prop
  | .literal _ => True
  | .compound operator children =>
    operator.isAssociative = true → ∀ child ∈ children, t.operator? child ≠ some operator

/-- Every node that can be reached from the root can be written down. -/
def IsLegible (t : Tree) : Prop :=
  ∀ id node, t.Reaches t.root id → t.get? id = some node → t.Spells node.content

/-- No node that can be reached from the root can be merged with a child. -/
def IsMerged (t : Tree) : Prop :=
  ∀ id node, t.Reaches t.root id → t.get? id = some node → t.Separates node.content

variable {t : Tree} {parent : Option Handle} {b : Branch}

/-- The nodes of a branch can be reached from its top. -/
theorem Holds.reaches (h : t.Holds parent b) {top : Handle} (htop : t.Reaches top b.top) :
    ∀ id ∈ b.handles, t.Reaches top id := by
  induction h with
  | @intro parent b hget _ ih =>
    intro id hid
    rw [Branch.handles_eq, List.mem_cons, List.mem_flatMap] at hid
    rcases hid with rfl | ⟨part, hp, hid⟩
    · exact htop
    · refine ih part hp (.child htop hget ?_) id hid
      rw [Branch.children_node]
      exact List.mem_map_of_mem hp

theorem Holds.operator?_eq (h : t.Holds parent b) : t.operator? b.top = b.shape.operator? := by
  rw [operator?, h.get, Option.bind_some, Branch.operator?_node, Branch.operator?_shape]

theorem Holds.isWritable (h : t.Holds parent b)
    (hspells : ∀ id ∈ b.handles, ∀ node, t.get? id = some node → t.Spells node.content) :
    b.shape.IsWritable := by
  induction b generalizing parent with
  | literal id tag text =>
    have htext : t.Spells (.literal text) := hspells id (Branch.top_mem_handles _) _ h.get
    rw [Branch.shape]
    exact .literal htext
  | compound id tag operator parts ih =>
    have hhere : t.Spells (.compound operator (parts.map Branch.top)) :=
      hspells id (Branch.top_mem_handles (.compound id tag operator parts)) _ h.get
    have hpart : ∀ part ∈ parts, t.Holds (some id) part := fun part hp => h.part hp
    have hparts : ∀ part ∈ parts, part.shape.IsWritable := by
      intro part hp
      refine ih part hp (hpart part hp) ?_
      intro other hother
      exact hspells other
        (Branch.mem_handles_of_mem_parts (b := .compound id tag operator parts) hp hother)
    rw [Branch.shape]
    -- what is left is the number of parts, and that no factor is a sum
    cases operator with
    | add =>
      rw [Spells, List.length_map] at hhere
      exact .add (by rwa [List.length_map]) (List.forall_mem_map.mpr hparts)
    | mul =>
      rw [Spells, List.length_map] at hhere
      refine .mul (by rw [List.length_map]; exact hhere.1) (List.forall_mem_map.mpr hparts)
        (List.forall_mem_map.mpr ?_)
      intro part hp
      rw [← (hpart part hp).operator?_eq]
      exact hhere.2 part.top (List.mem_map_of_mem hp)
    | group =>
      rw [Spells, List.length_map, List.length_eq_one_iff] at hhere
      obtain ⟨part, rfl⟩ := hhere
      exact .group (hparts part (List.mem_singleton_self part))

theorem Holds.isFlat (h : t.Holds parent b)
    (hseparates : ∀ id ∈ b.handles, ∀ node, t.get? id = some node → t.Separates node.content) :
    b.shape.IsFlat := by
  induction b generalizing parent with
  | literal id tag text =>
    rw [Branch.shape]
    exact .literal text
  | compound id tag operator parts ih =>
    have hhere : t.Separates (.compound operator (parts.map Branch.top)) :=
      hseparates id (Branch.top_mem_handles (.compound id tag operator parts)) _ h.get
    have hpart : ∀ part ∈ parts, t.Holds (some id) part := fun part hp => h.part hp
    rw [Branch.shape]
    refine .compound (List.forall_mem_map.mpr ?_) fun ha => List.forall_mem_map.mpr ?_
    · intro part hp
      refine ih part hp (hpart part hp) ?_
      intro other hother
      exact hseparates other
        (Branch.mem_handles_of_mem_parts (b := .compound id tag operator parts) hp hother)
    · intro part hp
      rw [← (hpart part hp).operator?_eq]
      exact hhere ha part.top (List.mem_map_of_mem hp)

/-- The branch below the root of a legible tree is writable. -/
theorem IsLegible.isWritable (h : t.IsLegible) (hroot : b.top = t.root) (hb : t.Bears parent b) :
    b.shape.IsWritable :=
  hb.holds.isWritable fun id hid node hget =>
    h id node (hb.holds.reaches (hroot ▸ .self) id hid) hget

theorem IsMerged.isFlat (h : t.IsMerged) (hroot : b.top = t.root) (hb : t.Bears parent b) :
    b.shape.IsFlat :=
  hb.holds.isFlat fun id hid node hget =>
    h id node (hb.holds.reaches (hroot ▸ .self) id hid) hget

/-! ### Proper trees -/

/-- What can be reached from the top of a branch belongs to it. -/
theorem Reaches.mem_handles {id : Handle} (h : t.Reaches b.top id) (hb : t.Bears parent b) :
    id ∈ b.handles := by
  induction h with
  | self => exact b.top_mem_handles
  | @child up child node _ hget hmem ih =>
    obtain ⟨c, rfl, hc⟩ := Branch.exists_within ih
    obtain ⟨place, hplace⟩ := hb.within hc
    rw [hplace.get, Option.some_inj] at hget
    rw [← hget, Branch.children_node] at hmem
    obtain ⟨part, hp, rfl⟩ := List.mem_map.mp hmem
    exact hc.handles_subset (Branch.mem_handles_of_mem_parts hp part.top_mem_handles)

/-- What can be reached from a node are its descendants. -/
theorem IsForest.reaches_iff (h : t.IsForest) {top id : Handle} {node : Node} {ids : List Handle}
    (hget : t.get? top = some node) (hids : t.descendants top = .ok ids) :
    t.Reaches top id ↔ id ∈ ids := by
  obtain ⟨b, rfl, hb⟩ := h.exists_bears hget
  rw [hb.descendants_eq, Except.ok.injEq] at hids
  subst hids
  exact ⟨fun hid => hid.mem_handles hb, hb.holds.reaches .self id⟩

/-- A tree as the editor keeps it: every node hangs from the root, what is drawn
can be read again, and no chain is left to merge. -/
structure IsProper (t : Tree) : Prop extends t.IsTree where
  reaches : ∀ id node, t.get? id = some node → t.Reaches t.root id
  isLegible : t.IsLegible
  isMerged : t.IsMerged

theorem IsProper.exists_isWhole (h : t.IsProper) :
    ∃ b : Branch, t.IsWhole b ∧ b.shape.IsNormal := by
  obtain ⟨b, hroot, hb⟩ := h.toIsTree.exists_bears
  refine ⟨b, ⟨hroot.symm, hb, ?_⟩, h.isMerged.isFlat hroot hb, h.isLegible.isWritable hroot hb⟩
  intro id hlive
  obtain ⟨node, hnode⟩ := Option.isSome_iff_exists.mp hlive
  exact (hroot ▸ h.reaches id node hnode).mem_handles hb

/-- From shapes back to nodes: the top of a writable branch can be written
down. -/
theorem Holds.spells (h : t.Holds parent b) (hw : b.shape.IsWritable) :
    t.Spells (b.node parent).content := by
  cases b with
  | literal id tag text =>
    rw [Branch.shape] at hw
    cases hw with
    | literal htext => exact htext
  | compound id tag operator parts =>
    rw [Branch.shape] at hw
    have hlen : (parts.map Branch.top).length = (parts.map Branch.shape).length := by
      rw [List.length_map, List.length_map]
    have hop : ∀ part ∈ parts, t.operator? part.top = part.shape.operator? :=
      fun part hp => (h.part hp).operator?_eq
    show t.Spells (.compound operator (parts.map Branch.top))
    -- the conditions on the node only mention how many parts there are and their operators
    generalize hshapes : parts.map Branch.shape = shapes at hw hlen
    cases hw with
    | group _ => exact hlen
    | add htwo _ =>
      rw [Spells, hlen]
      exact htwo
    | mul htwo _ hne =>
      rw [Spells, hlen]
      refine ⟨htwo, List.forall_mem_map.mpr ?_⟩
      intro part hp
      rw [hop part hp]
      exact hne _ (hshapes ▸ List.mem_map_of_mem hp)

theorem Holds.separates (h : t.Holds parent b) (hf : b.shape.IsFlat) :
    t.Separates (b.node parent).content := by
  cases b with
  | literal => exact trivial
  | compound id tag operator parts =>
    rw [Branch.shape] at hf
    cases hf with
    | compound _ hne =>
      intro ha
      refine List.forall_mem_map.mpr ?_
      intro part hp
      have hpart : t.Holds (some id) part := h.part hp
      rw [hpart.operator?_eq]
      exact hne ha _ (List.mem_map_of_mem hp)

/-- What holds of a shape and of the parts of every shape that it holds of, holds
of every branch further down. -/
theorem shape_of_within {P : Shape → Prop}
    (hparts : ∀ {operator : Operator} {parts : List Shape}, P (.compound operator parts) →
      ∀ {part : Shape}, part ∈ parts → P part)
    {b c : Branch} (h : c.Within b) (hb : P b.shape) : P c.shape := by
  induction h with
  | refl => exact hb
  | @part d part hp _ ih =>
    refine ih ?_
    cases d with
    | literal => exact absurd hp List.not_mem_nil
    | compound id tag operator parts =>
      rw [Branch.shape] at hb
      exact hparts hb (List.mem_map_of_mem hp)

theorem isNormal_of_within {b c : Branch} (h : c.Within b) (hn : b.shape.IsNormal) :
    c.shape.IsNormal :=
  shape_of_within Shape.IsNormal.of_mem h hn

theorem IsWhole.isLegible (h : t.IsWhole b) (hw : b.shape.IsWritable) : t.IsLegible := by
  intro id node _ hget
  obtain ⟨c, place, hc, hbears, _, rfl⟩ := h.exists_within hget
  exact hbears.holds.spells (shape_of_within Shape.IsWritable.of_mem hc hw)

theorem IsWhole.isMerged (h : t.IsWhole b) (hf : b.shape.IsFlat) : t.IsMerged := by
  intro id node _ hget
  obtain ⟨c, place, hc, hbears, _, rfl⟩ := h.exists_within hget
  exact hbears.holds.separates (shape_of_within Shape.IsFlat.of_mem hc hf)

theorem IsWhole.isProper (h : t.IsWhole b) (hn : b.shape.IsNormal) : t.IsProper where
  toIsTree := h.isTree
  reaches id _ hget := h.bears.holds.reaches (h.root ▸ .self) id (h.mem id (hget ▸ rfl))
  isLegible := h.isLegible hn.isWritable
  isMerged := h.isMerged hn.isFlat

theorem isProper_iff : t.IsProper ↔ ∃ b : Branch, t.IsWhole b ∧ b.shape.IsNormal :=
  ⟨IsProper.exists_isWhole, fun ⟨_, hb, hn⟩ => hb.isProper hn⟩

end Tree

end FormulaEditor
