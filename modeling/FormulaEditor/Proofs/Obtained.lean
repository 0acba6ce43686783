/-
The trees that an editor gets to see.

All trees begin as texts.  From there on they are copied, copied in another
arrangement, rearranged, flattened, and their nodes are attached to one another,
in any order and whether or not it works.  None of this takes a tree out of
shape (`Tree.Obtained.isProper`): new trees are copies of branches of proper
ones, rearranging permutes child lists, and there is nothing left to flatten or
to attach.

* `Tree.Obtained` — the trees that can come about;
* `Tree.IsProper.flatten_eq`, `Tree.IsProper.leaves_attach` — edits without an
  effect.
-/
import FormulaEditor.Proofs.Arranging
import FormulaEditor.Proofs.Attaching
import FormulaEditor.Proofs.Parsing
import FormulaEditor.Proofs.Rearranging
import Mathlib

namespace FormulaEditor

namespace Tree

/-- Trees that come from texts by what an editor can do with them.  What is
rearranged may be aimed at any tree, and a drag may be dropped on any tree. -/
inductive Obtained : Tree → Prop
  | parse {text : String} {t : Tree} : FormulaEditor.parse text = .ok t → Obtained t
  | copy {t t' : Tree} {id : Handle} : Obtained t → t.copyOf id = .ok t' → Obtained t'
  | arrangement {t : Tree} {id : Handle} {l : List Arrangement} {a : Arrangement} :
      Obtained t → t.arrangements id = .ok l → a ∈ l → Obtained a.tree
  | rearrange {t : Tree} (id : Handle) (target : Tree) (targetId : Handle) :
      Obtained t → Obtained ((Edit.rearrange id target targetId).leaves t)
  | drop {t : Tree} (drag : Drag) (position : Nat) :
      Obtained t → Obtained ((drag.drop position).leaves t)
  | flatten {t : Tree} (id : Handle) : Obtained t → Obtained ((Edit.flatten id).leaves t)
  | attach {t : Tree} (parent child : Handle) :
      Obtained t → Obtained ((Edit.attach parent child).leaves t)

variable {t : Tree}

/-! ### Copies of proper trees -/

theorem IsCopy.isProper {nextTag : Nat} {b : Branch} (h : t.IsCopy nextTag b)
    (hn : b.shape.IsNormal) : t.IsProper := by
  obtain ⟨c, hc, hbare⟩ := h.exists_isCompact
  refine hc.toIsWhole.isProper ?_
  rwa [Branch.shape_eq_of_bare_eq hbare]

/-- A handle without a node cannot be copied. -/
theorem isSome_of_copyOf {t' : Tree} {id : Handle} (h : t.copyOf id = .ok t') :
    (t.get? id).isSome = true := by
  cases hget : t.get? id with
  | some node => rfl
  | none =>
    rw [copyOf, grow, run_bind_error (Edit.run_addCopy_error hget)] at h
    cases h

/-- What is copied from a whole tree is one of its branches. -/
theorem exists_of_copyOf {t' : Tree} {b : Branch} {id : Handle} (h : t.IsWhole b)
    (hcopy : t.copyOf id = .ok t') : ∃ c : Branch, c.Within b ∧ t'.IsCopy t.nextTag c := by
  obtain ⟨node, hget⟩ := Option.isSome_iff_exists.mp (isSome_of_copyOf hcopy)
  obtain ⟨c, place, hc, hbears, rfl, _⟩ := h.exists_within hget
  obtain ⟨copy, hok, hiscopy⟩ := exists_copyOf hbears
  rw [hok, Except.ok.injEq] at hcopy
  exact ⟨c, hc, hcopy ▸ hiscopy⟩

theorem IsProper.copyOf {t' : Tree} {id : Handle} (h : t.IsProper) (hcopy : t.copyOf id = .ok t') :
    t'.IsProper := by
  obtain ⟨b, hb, hn⟩ := h.exists_isWhole
  obtain ⟨c, hc, hiscopy⟩ := exists_of_copyOf hb hcopy
  exact hiscopy.isProper (isNormal_of_within hc hn)

theorem IsProper.arrangement {id : Handle} {l : List Arrangement} {a : Arrangement}
    (h : t.IsProper) (hl : t.arrangements id = .ok l) (ha : a ∈ l) : a.tree.IsProper := by
  obtain ⟨b, hb, hn⟩ := h.exists_isWhole
  obtain ⟨up, tag, operator, parts, order, hwithin, hperm, hcopy⟩ :=
    exists_of_mem_arrangements hb hl ha
  have hnormal := isNormal_of_within hwithin hn
  rw [Branch.shape] at hnormal
  refine hcopy.isProper ?_
  rw [Branch.shape]
  exact hnormal.perm (hperm.map Branch.shape)

/-! ### Edits without an effect -/

/-- There is nothing to flatten in a proper tree. -/
theorem IsProper.flatten_eq (h : t.IsProper) {id : Handle} {node : Node}
    (hget : t.get? id = some node) : (Edit.flatten id).run t = .ok () t := by
  obtain ⟨b, hb, hn⟩ := h.exists_isWhole
  obtain ⟨c, place, hc, hbears, rfl, _⟩ := hb.exists_within hget
  obtain ⟨t', hrun, hre⟩ := Edit.run_flatten hbears
  -- the branch is flat already, and all of its slots say the same as before
  have hflat : c.flat = c := Branch.flat_eq_of_isFlat (isNormal_of_within hc hn).isFlat
  have heq : t' = t := hre.same.eq (hbears.holds.get_eq (hflat ▸ hre.holds))
  rw [hrun, heq]

theorem IsProper.leaves_flatten (h : t.IsProper) (id : Handle) :
    (Edit.flatten id).leaves t = t := by
  cases hget : t.get? id with
  | some node => rw [Edit.leaves, h.flatten_eq hget]
  | none => rw [Edit.leaves, Edit.run_flatten_error hget]

/-- A node of a proper tree has a parent already, unless it is the root. -/
theorem IsProper.isSome_parent (h : t.IsProper) {id : Handle} {node : Node}
    (hget : t.get? id = some node) (hroot : id ≠ t.root) : node.parent.isSome = true := by
  have hreaches := h.reaches id node hget
  cases hreaches with
  | self => exact absurd rfl hroot
  | child _ hup hmem =>
    -- what is reached from above is listed there, so it has a parent
    obtain ⟨found, hfound, hparent⟩ := h.get_child hup hmem
    rw [hget, Option.some_inj] at hfound
    rw [hfound, hparent, Option.isSome_some]

/-- Every node of a proper tree has its place, so none can be attached. -/
theorem IsProper.attach_eq_error (h : t.IsProper) (parent child : Handle) :
    ∃ e, (Edit.attach parent child).run t = .error e t ∧
      ((t.get? parent).isSome = true → (t.get? child).isSome = true → e.isFault = false) := by
  rcases Edit.attach_cases h.toIsForest parent child with ⟨t', _, hattaches⟩ | hrefused
  · obtain ⟨node, hget, hnone, _⟩ := hattaches.child_get
    have hparent := h.isSome_parent hget hattaches.ne_root
    rw [hnone] at hparent
    exact absurd hparent (by simp)
  · exact hrefused

theorem IsProper.leaves_attach (h : t.IsProper) (parent child : Handle) :
    (Edit.attach parent child).leaves t = t := by
  obtain ⟨e, hrun, _⟩ := h.attach_eq_error parent child
  rw [Edit.leaves, hrun]

/-- Nothing that an editor can do takes a tree out of shape. -/
theorem Obtained.isProper (h : t.Obtained) : t.IsProper := by
  induction h with
  | parse hparse =>
    obtain ⟨b, hwhole, hb⟩ := exists_of_parse hparse
    exact hwhole.isProper hb.isNormal
  | copy _ hcopy ih => exact ih.copyOf hcopy
  | arrangement _ hl ha ih => exact ih.arrangement hl ha
  | rearrange id target targetId _ ih =>
    -- whether or not it succeeds, the order of some child lists is all that changes
    exact (Edit.isPermuting_rearrange id target targetId _ ih.toIsForest).isProper ih
  | drop drag position _ ih => exact (drag.isPermuting_drop position _ ih.toIsForest).isProper ih
  | flatten id _ ih =>
    rw [ih.leaves_flatten]
    exact ih
  | attach parent child _ ih =>
    rw [ih.leaves_attach]
    exact ih

/-- A sum of two terms, and the sum that is offered for its first term to come last. -/
theorem exists_sum_swapped : ∃ t u : Tree, parse "a+b" = .ok t ∧
    t.arrangements ⟨1⟩ = .ok [⟨0, t⟩, ⟨1, u⟩] ∧
    t = ⟨#[some ⟨.compound .add [⟨1⟩, ⟨2⟩], none, ⟨0⟩⟩, some ⟨.literal "a", some ⟨0⟩, ⟨1⟩⟩,
      some ⟨.literal "b", some ⟨0⟩, ⟨2⟩⟩], ⟨0⟩, 3⟩ ∧
    u = ⟨#[some ⟨.compound .add [⟨1⟩, ⟨2⟩], none, ⟨0⟩⟩, some ⟨.literal "b", some ⟨0⟩, ⟨2⟩⟩,
      some ⟨.literal "a", some ⟨0⟩, ⟨1⟩⟩], ⟨0⟩, 3⟩ := by
  refine ⟨_, _, ?_, ?_, rfl, rfl⟩
  · cbv
  · cbv

/-- A sum whose second term is a product. -/
theorem exists_sum_product : ∃ t : Tree, parse "a+b*c" = .ok t ∧
    t = ⟨#[some ⟨.compound .add [⟨1⟩, ⟨2⟩], none, ⟨0⟩⟩, some ⟨.literal "a", some ⟨0⟩, ⟨1⟩⟩,
      some ⟨.compound .mul [⟨3⟩, ⟨4⟩], some ⟨0⟩, ⟨2⟩⟩, some ⟨.literal "b", some ⟨2⟩, ⟨3⟩⟩,
      some ⟨.literal "c", some ⟨2⟩, ⟨4⟩⟩], ⟨0⟩, 5⟩ := by
  refine ⟨_, ?_, rfl⟩
  cbv

end Tree

end FormulaEditor
