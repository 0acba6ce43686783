/-
What is true of every tree that an editor gets to see.

Besides being proper, the tree tells its nodes apart by their tags
(`Tree.Obtained.hasOwnTags`): parsing numbers the nodes, copies are made of branches
of trees that are in order, and no edit gives out a tag twice.

* `Tree.Obtained.hasOwnTags` — tags of their own, by induction on how the tree came
  about;
* `Tree.invariants_of_obtained` — all that holds of such a tree, and what it means for
  flattening, attaching and dragging.
-/
import FormulaEditor.Proofs.Dragging
import FormulaEditor.Proofs.Tagging
import Mathlib

namespace FormulaEditor

namespace Tree

open Branch

variable {t : Tree} {b : Branch}

/-! ### Tags -/

/-- A copy of a branch of a tree with tags of its own has them as well. -/
theorem IsCopy.hasOwnTags_of_within {copy : Tree} {c : Branch} (h : copy.IsCopy t.nextTag c)
    (hb : t.IsWhole b) (ht : t.HasOwnTags) (hc : c.Within b) : copy.HasOwnTags := by
  obtain ⟨hnodup, hlt⟩ := hb.hasOwnTags_iff.mp ht
  exact h.hasOwnTags (hnodup.sublist hc.tags_sublist) fun tag htag =>
    hlt tag (hc.tags_sublist.subset htag)

theorem HasOwnTags.copyOf {t' : Tree} {id : Handle} (ht : t.HasOwnTags) (hb : t.IsWhole b)
    (hcopy : t.copyOf id = .ok t') : t'.HasOwnTags := by
  obtain ⟨c, hc, hiscopy⟩ := exists_of_copyOf hb hcopy
  exact hiscopy.hasOwnTags_of_within hb ht hc

theorem HasOwnTags.arrangement {id : Handle} {l : List Arrangement} {a : Arrangement}
    (ht : t.HasOwnTags) (hb : t.IsWhole b) (hl : t.arrangements id = .ok l) (ha : a ∈ l) :
    a.tree.HasOwnTags := by
  obtain ⟨up, tag, operator, parts, order, hwithin, hperm, hcopy⟩ :=
    exists_of_mem_arrangements hb hl ha
  obtain ⟨hnodup, hlt⟩ := hb.hasOwnTags_iff.mp ht
  -- the parts are there in another order, and so are their tags
  have htags : (compound up tag operator order).tags.Perm (compound up tag operator parts).tags :=
    tags_perm hperm
  refine hcopy.hasOwnTags ?_ ?_
  · exact htags.nodup_iff.mpr (hnodup.sublist hwithin.tags_sublist)
  · intro tag htag
    exact hlt tag (hwithin.tags_sublist.subset (htags.mem_iff.mp htag))

/-- In no tree that an editor gets to see two nodes have the same tag. -/
theorem Obtained.hasOwnTags (h : t.Obtained) : t.HasOwnTags := by
  induction h with
  | parse hparse => exact (isNumbered_of_parse hparse).hasOwnTags
  | copy ht hcopy ih =>
    obtain ⟨b, hb, _⟩ := ht.isProper.exists_isWhole
    exact ih.copyOf hb hcopy
  | arrangement ht hl ha ih =>
    obtain ⟨b, hb, _⟩ := ht.isProper.exists_isWhole
    exact ih.arrangement hb hl ha
  | rearrange id target targetId ht ih =>
    exact (Edit.isPermuting_rearrange id target targetId _ ht.isProper.toIsForest).hasOwnTags ih
  | drop drag position ht ih =>
    exact (drag.isPermuting_drop position _ ht.isProper.toIsForest).hasOwnTags ih
  | flatten id ht ih =>
    rw [ht.isProper.leaves_flatten]
    exact ih
  | attach parent child ht ih =>
    rw [ht.isProper.leaves_attach]
    exact ih

/-! ### All invariants -/

/-- A walk down from the root of a proper tree meets every live node once. -/
theorem IsProper.exists_descendants (h : t.IsProper) :
    ∃ ids, t.descendants t.root = .ok ids ∧ ids.Nodup ∧
      ∀ id, id ∈ ids ↔ (t.get? id).isSome = true := by
  obtain ⟨b, hb, _⟩ := h.exists_isWhole
  refine ⟨b.handles, ?_, hb.bears.nodup, fun id => ⟨hb.bears.holds.isSome id, hb.mem id⟩⟩
  rw [hb.root]
  exact hb.bears.descendants_eq

/-- However a tree came about, it is proper, its nodes are those that hang from the
root, each of them once, and their tags are different ones that were given out.  So
there is nothing to flatten in it, none of its nodes can be attached once more, and
what a drag shows of it has the same properties. -/
theorem invariants_of_obtained (h : t.Obtained) :
    t.IsProper ∧ t.HasOwnTags ∧
    (∃ ids, t.descendants t.root = .ok ids ∧ ids.Nodup ∧
      ∀ id, id ∈ ids ↔ (t.get? id).isSome = true) ∧
    (∀ id, (t.get? id).isSome = true → (Edit.flatten id).run t = .ok () t) ∧
    (∀ parent child, (t.get? parent).isSome = true → (t.get? child).isSome = true →
      ∃ e, e.isFault = false ∧ (Edit.attach parent child).run t = .error e t) ∧
    (∀ path drag, Drag.start t path = .ok drag → drag.preview.Obtained ∧
      ∀ position tree, drag.arrangementAt? position = some tree → tree.Obtained) := by
  have hproper := h.isProper
  refine ⟨hproper, h.hasOwnTags, hproper.exists_descendants, ?_, ?_, ?_⟩
  · intro id hlive
    obtain ⟨node, hget⟩ := Option.isSome_iff_exists.mp hlive
    exact hproper.flatten_eq hget
  · intro parent child hparent hchild
    obtain ⟨e, hrun, hrefusal⟩ := hproper.attach_eq_error parent child
    exact ⟨e, hrefusal hparent hchild, hrun⟩
  · intro path drag hdrag
    exact ⟨h.preview hdrag, fun position tree htree => h.arrangementAt? hdrag htree⟩

theorem invariants_of_parse_sum : ∃ t, parse "a+b" = .ok t ∧ t.IsProper ∧ t.HasOwnTags ∧
    (Edit.flatten ⟨0⟩).run t = .ok () t ∧
    ∃ e, e.isFault = false ∧ (Edit.attach ⟨0⟩ ⟨2⟩).run t = .error e t := by
  have hparse : parse "a+b" = .ok ⟨#[some ⟨.compound .add [⟨1⟩, ⟨2⟩], none, ⟨0⟩⟩,
      some ⟨.literal "a", some ⟨0⟩, ⟨1⟩⟩, some ⟨.literal "b", some ⟨0⟩, ⟨2⟩⟩], ⟨0⟩, 3⟩ := by cbv
  obtain ⟨hproper, htags, _, hflatten, hattach, _⟩ := invariants_of_obtained (.parse hparse)
  exact ⟨_, hparse, hproper, htags, hflatten ⟨0⟩ rfl, hattach ⟨0⟩ ⟨2⟩ rfl rfl⟩

end Tree

end FormulaEditor
