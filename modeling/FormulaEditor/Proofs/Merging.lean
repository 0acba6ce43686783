/-
What flattening takes out, and where the rest goes.

A node that is merged has the operator of the node above it, which is associative
(`Tree.MergesUp`).  Flattening takes these nodes out and no others.  What stood below one
of them moves up to the nearest node above that stays, in the same order, and nothing else
is changed:

* `Branch.lost` — the nodes that a branch loses when it is flattened, and
  `Branch.handles_perm_lost`: those that it keeps are the rest;
* `Tree.Holds.exists_of_mem_parts_flat` — between a part of a flat form and its top there
  were only nodes that are lost;
* `Tree.FlattensAt` — a store before and after flattening at a node;
* `Edit.exists_flattensAt` — flattening does that, to any node of a forest.

Design notes: flattening is known to leave the flat form of a branch (`Edit.run_flatten`),
so all of this is about flat forms.
-/
import FormulaEditor.Proofs.Copying
import FormulaEditor.Proofs.Flatten
import FormulaEditor.Proofs.Legible
import Mathlib

namespace FormulaEditor

namespace Branch

/-! ### Nodes that are lost -/

/-- The topmost node, if it is merged into a compound of the operator above it. -/
def mergedTop (operator : Operator) (b : Branch) : List Handle :=
  if operator.isAssociative = true ∧ b.operator? = some operator then [b.top] else []

/-- The nodes that are merged into the ones above them. -/
def lost : Branch → List Handle
  | literal _ _ _ => []
  | compound _ _ operator parts =>
    parts.flatMap (mergedTop operator) ++ parts.flatMap lost

theorem mem_mergedTop {operator : Operator} {b : Branch} {id : Handle} :
    id ∈ b.mergedTop operator ↔
      operator.isAssociative = true ∧ b.operator? = some operator ∧ id = b.top := by
  rw [mergedTop]
  split
  · next h => simp [h]
  · next h => exact ⟨fun hid => absurd hid List.not_mem_nil, fun hid => absurd ⟨hid.1, hid.2.1⟩ h⟩

theorem handles_perm_operands_flat {operator : Operator} (ha : operator.isAssociative = true)
    {b : Branch} (h : b.handles.Perm (b.lost ++ b.flat.handles)) :
    b.handles.Perm
      ((b.mergedTop operator ++ b.lost) ++ (b.flat.operands operator).flatMap handles) := by
  cases b with
  | literal => simpa [mergedTop, operator?, flat, operands] using h
  | compound id tag own parts =>
    by_cases hown : own = operator
    · -- the top is lost as well, and the operands come without it
      subst hown
      have hflat : (compound id tag own parts).flat.handles
          = id :: (merged own (parts.map flat)).flatMap handles := by rw [flat, handles]
      rw [mergedTop, if_pos ⟨ha, rfl⟩, top, flat, operands, if_pos rfl, List.append_assoc]
      exact (hflat ▸ h).trans List.perm_middle
    · rw [mergedTop, if_neg fun hand => hown (Option.some_inj.mp hand.2), List.nil_append, flat,
        operands, if_neg hown, List.flatMap_singleton, ← flat]
      exact h

/-- A branch consists of the nodes that it loses and of those of its flat form. -/
theorem handles_perm_lost (b : Branch) : b.handles.Perm (b.lost ++ b.flat.handles) := by
  induction b with
  | literal => rw [lost, flat, List.nil_append]
  | compound id tag operator parts ih =>
    rw [flat, handles, handles, lost, merged]
    refine List.Perm.trans ?_ List.perm_middle.symm
    refine List.Perm.cons id ?_
    split
    · next ha =>
      rw [List.flatMap_assoc, List.flatMap_map]
      refine (List.Perm.flatMap_left parts fun part hp =>
        handles_perm_operands_flat ha (ih part hp)).trans ?_
      exact (List.flatMap_append_perm ..).symm.trans
        ((List.flatMap_append_perm ..).symm.append_right _)
    · next ha =>
      have hnone : parts.flatMap (mergedTop operator) = [] :=
        List.flatMap_eq_nil_iff.mpr fun part _ => if_neg fun hand => ha hand.1
      rw [hnone, List.nil_append, List.flatMap_map]
      exact (List.Perm.flatMap_left parts ih).trans (List.flatMap_append_perm ..).symm

theorem mem_flat_handles_iff {b : Branch} (hnodup : b.handles.Nodup) {id : Handle}
    (hid : id ∈ b.handles) : id ∈ b.flat.handles ↔ id ∉ b.lost := by
  have hperm := handles_perm_lost b
  obtain ⟨_, _, hdisjoint⟩ := List.nodup_append.mp (hperm.nodup_iff.mp hnodup)
  constructor
  · exact fun hkept hlost => hdisjoint id hlost id hkept rfl
  · exact (List.mem_append.mp (hperm.mem_iff.mp hid)).resolve_left

theorem top_notMem_lost {b : Branch} (hnodup : b.handles.Nodup) : b.top ∉ b.lost :=
  (mem_flat_handles_iff hnodup b.top_mem_handles).mp (b.top_flat ▸ b.flat.top_mem_handles)

/-- The nodes that are lost have the operator of the node above them. -/
theorem mem_lost_iff {b : Branch} {id : Handle} :
    id ∈ b.lost ↔ ∃ (c part : Branch) (operator : Operator), c.Within b ∧ part ∈ c.parts ∧
      operator.isAssociative = true ∧ c.operator? = some operator ∧
      part.operator? = some operator ∧ part.top = id := by
  induction b with
  | literal =>
    rw [lost]
    refine ⟨fun h => absurd h List.not_mem_nil, ?_⟩
    rintro ⟨c, part, operator, hc, hpart, _⟩
    cases hc with
    | refl => exact absurd hpart List.not_mem_nil
    | part hp => exact absurd hp List.not_mem_nil
  | compound top tag own parts ih =>
    rw [lost, List.mem_append, List.mem_flatMap, List.mem_flatMap]
    constructor
    · rintro (⟨part, hp, hid⟩ | ⟨part, hp, hid⟩)
      · obtain ⟨ha, hop, rfl⟩ := mem_mergedTop.mp hid
        exact ⟨_, part, own, .refl, hp, ha, rfl, hop, rfl⟩
      · obtain ⟨c, below, operator, hc, hrest⟩ := (ih part hp).mp hid
        exact ⟨c, below, operator, .part hp hc, hrest⟩
    · rintro ⟨c, below, operator, hc, hbelow, ha, hop, hop', rfl⟩
      cases hc with
      | refl =>
        obtain rfl : own = operator := Option.some_inj.mp hop
        exact .inl ⟨below, hbelow, mem_mergedTop.mpr ⟨ha, hop', rfl⟩⟩
      | part hp hc =>
        exact .inr ⟨_, hp, (ih _ hp).mpr ⟨c, below, operator, hc, hbelow, ha, hop, hop', rfl⟩⟩

theorem Within.lost_subset {b c : Branch} (h : b.Within c) : b.lost ⊆ c.lost := by
  intro id hid
  obtain ⟨d, part, operator, hd, hrest⟩ := mem_lost_iff.mp hid
  exact mem_lost_iff.mpr ⟨d, part, operator, hd.trans h, hrest⟩

/-! ### Parts of flat forms -/

/-- A part of a flat form was a part already, or it comes from a part that is merged. -/
theorem mem_parts_flat {b q : Branch} (hq : q ∈ b.flat.parts) :
    ∃ part ∈ b.parts, part.flat = q ∨ (part.top ∈ b.lost ∧ q ∈ part.flat.parts) := by
  cases b with
  | literal =>
    rw [flat] at hq
    exact absurd hq List.not_mem_nil
  | compound id tag operator parts =>
    rw [flat, Branch.parts, merged] at hq
    split at hq
    · next ha =>
      obtain ⟨_, hmem, hq⟩ := List.mem_flatMap.mp hq
      obtain ⟨part, hp, rfl⟩ := List.mem_map.mp hmem
      refine ⟨part, hp, ?_⟩
      cases part with
      | literal =>
        rw [flat, operands, List.mem_singleton] at hq
        exact .inl (hq ▸ flat.eq_1 ..)
      | compound id' tag' own parts' =>
        rw [flat, operands] at hq
        split at hq
        · next hown =>
          refine .inr ⟨?_, by rwa [flat, Branch.parts]⟩
          exact mem_lost_iff.mpr
            ⟨_, _, operator, .refl, hp, ha, rfl, congrArg some hown, rfl⟩
        · rw [List.mem_singleton, ← flat] at hq
          exact .inl hq.symm
    · obtain ⟨part, hp, rfl⟩ := List.mem_map.mp hq
      exact ⟨part, hp, .inl rfl⟩

/-- Each part of a flat form is the flat form of a branch further down. -/
theorem exists_of_mem_parts_flat {b q : Branch} (hq : q ∈ b.flat.parts) :
    ∃ c : Branch, c.Within b ∧ c.flat = q := by
  induction b generalizing q with
  | literal =>
    rw [flat] at hq
    exact absurd hq List.not_mem_nil
  | compound id tag operator parts ih =>
    obtain ⟨part, hp, rfl | ⟨_, hq⟩⟩ := mem_parts_flat hq
    · exact ⟨part, .part hp .refl, rfl⟩
    · obtain ⟨c, hc, hflat⟩ := ih part hp hq
      exact ⟨c, .part hp hc, hflat⟩

theorem Within.exists_of_flat {b d : Branch} (h : d.Within b.flat) :
    ∃ c : Branch, c.Within b ∧ c.flat = d := by
  generalize hb : b.flat = whole at h
  induction h generalizing b with
  | refl => exact ⟨b, .refl, hb⟩
  | part hp _ ih =>
    subst hb
    obtain ⟨c, hc, rfl⟩ := exists_of_mem_parts_flat hp
    obtain ⟨e, he, hflat⟩ := ih rfl
    exact ⟨e, he.trans hc, hflat⟩

/-- Merging changes nothing about the topmost node but its children. -/
theorem childless_node_flat (up above : Option Handle) (b : Branch) :
    (b.flat.node up).content.childless = (b.node above).content.childless ∧
      (b.flat.node up).tag = (b.node above).tag := by
  cases b with
  | literal =>
    rw [flat]
    exact ⟨rfl, rfl⟩
  | compound =>
    rw [flat]
    exact ⟨rfl, rfl⟩

end Branch

namespace Tree

open Branch

variable {t t' : Tree} {place : Option Handle} {b : Branch} {id : Handle}

/-- A node is a sum right below a sum, or a product right below a product. -/
def MergesUp (t : Tree) (id : Handle) : Prop :=
  ∃ (up : Handle) (operator : Operator), t.HasParent id up ∧ operator.isAssociative = true ∧
    t.operator? up = some operator ∧ t.operator? id = some operator

theorem Bears.mem_lost_iff (h : t.Bears place b) (hid : id ∈ b.handles) :
    id ∈ b.lost ↔ id ≠ b.top ∧ t.MergesUp id := by
  rw [Branch.mem_lost_iff]
  constructor
  · rintro ⟨c, part, operator, hc, hpart, ha, hop, hop', rfl⟩
    obtain ⟨_, hbears⟩ := h.within hc
    have hbelow := hbears.part hpart
    refine ⟨?_, c.top, operator, ⟨_, hbelow.get, parent_node _ _⟩, ha, ?_, ?_⟩
    · intro htop
      refine top_notMem_lost h.nodup (htop ▸ Branch.mem_lost_iff.mpr ?_)
      exact ⟨c, part, operator, hc, hpart, ha, hop, hop', rfl⟩
    · rw [hbears.holds.operator?_eq, operator?_shape, hop]
    · rw [hbelow.holds.operator?_eq, operator?_shape, hop']
  · rintro ⟨hne, up, operator, hparent, ha, hop, hop'⟩
    obtain ⟨part, _, hpart, hbelow, rfl⟩ := h.exists_within hid
    rcases hpart.eq_or_exists with rfl | ⟨c, hc, hmem⟩
    · exact absurd rfl hne
    · obtain ⟨_, hbears⟩ := h.within hc
      obtain rfl : c.top = up := by
        obtain ⟨node, hget, hup⟩ := hparent
        rw [(hbears.part hmem).get, Option.some_inj] at hget
        rw [← hget, parent_node] at hup
        exact Option.some_inj.mp hup
      rw [hbears.holds.operator?_eq, operator?_shape] at hop
      rw [hbelow.holds.operator?_eq, operator?_shape] at hop'
      exact ⟨c, part, operator, hc, hmem, ha, hop, hop', rfl⟩

/-- A part of a flat form stood below the topmost node before, with only nodes in between
that are lost. -/
theorem Holds.exists_of_mem_parts_flat (h : t.Holds place b) {q : Branch}
    (hq : q ∈ b.flat.parts) :
    ∃ between ⊆ b.lost, List.IsChain t.HasParent (q.top :: (between ++ [b.top])) := by
  induction b generalizing place q with
  | literal =>
    rw [flat] at hq
    exact absurd hq List.not_mem_nil
  | compound id tag operator parts ih =>
    obtain ⟨part, hp, hcases⟩ := mem_parts_flat hq
    have hpart : t.Holds (some id) part := h.part hp
    have hlink : List.IsChain t.HasParent [part.top, id] :=
      .cons_cons ⟨_, hpart.get, parent_node _ _⟩ (.singleton id)
    rcases hcases with rfl | ⟨hlost, hq⟩
    · refine ⟨[], List.nil_subset _, ?_⟩
      rwa [top_flat]
    · -- the part is lost, and what it would have kept moves on to the node above it
      obtain ⟨between, hbetween, hchain⟩ := ih part hp hpart hq
      have hsub : part.lost ⊆ (compound id tag operator parts).lost :=
        Within.lost_subset (.part hp .refl)
      refine ⟨between ++ [part.top], ?_, ?_⟩
      · exact List.append_subset.mpr
          ⟨List.Subset.trans hbetween hsub, List.cons_subset.mpr ⟨hlost, List.nil_subset _⟩⟩
      · rw [List.append_assoc, List.singleton_append, ← List.cons_append]
        exact List.isChain_split.mpr ⟨hchain, hlink⟩

/-- The second store is the first one, flattened at a node.  Below the node, those that have
the associative operator of the node above them are gone.  The others are children of the
nearest node above that is left. -/
structure FlattensAt (t t' : Tree) (id : Handle) (ids : List Handle) : Prop where
  descendants : t.descendants id = .ok ids
  vacated_iff : ∀ other ∈ ids, t'.get? other = none ↔ other ≠ id ∧ t.MergesUp other
  /-- What is left below the node stands right below the first node of the old way up that
  is left. -/
  moves_up : ∀ other ∈ ids, other ≠ id → (t'.get? other).isSome = true →
    ∃ (between : List Handle) (up : Handle),
      List.IsChain t.HasParent (other :: (between ++ [up])) ∧
      (∀ gone ∈ between, gone ∈ ids ∧ t'.get? gone = none) ∧ up ∈ ids ∧
      t'.Lists up other ∧ t'.HasParent other up
  /-- What is left has kept its order. -/
  descendants_left : t'.descendants id = .ok (ids.filter fun other => (t'.get? other).isSome)
  /-- There is nothing left to merge. -/
  separates : ∀ other ∈ ids, ∀ node, t'.get? other = some node → t'.Separates node.content
  /-- What is left is the same literal or the same operator, and has the same tag. -/
  left : ∀ other ∈ ids, ∀ node', t'.get? other = some node' → ∃ node, t.get? other = some node ∧
    node'.content.childless = node.content.childless ∧ node'.tag = node.tag
  /-- The node itself keeps its place. -/
  parent : (t'.get? id).map (·.parent) = (t.get? id).map (·.parent)
  same : t.SameExcept t' ids

namespace Reshapes

variable (h : t.Reshapes t' place b b.flat) (hb : t.Bears place b)
include h hb

/-- What is live among the nodes of the branch are the nodes of its flat form. -/
theorem mem_flat_iff {other : Handle} (hother : other ∈ b.handles) :
    other ∈ b.flat.handles ↔ (t'.get? other).isSome = true := by
  refine ⟨(h.bears_flat hb).holds.isSome other, fun hsome => ?_⟩
  by_contra hnot
  rw [h.gone other hother hnot] at hsome
  cases hsome

theorem get?_eq_none_iff {other : Handle} (hother : other ∈ b.handles) :
    t'.get? other = none ↔ other ∈ b.lost := by
  rw [← Option.not_isSome_iff_eq_none, ← h.mem_flat_iff hb hother,
    mem_flat_handles_iff hb.nodup hother, not_not]

/-- Behind every node that is left there are a branch of the flat form and the one that it
was made from. -/
theorem exists_within {other : Handle} (hother : other ∈ b.handles)
    (hsome : (t'.get? other).isSome = true) :
    ∃ (c : Branch) (up above : Option Handle), c.flat.Within b.flat ∧ c.Within b ∧
      t'.Bears up c.flat ∧ t.Bears above c ∧ c.top = other := by
  obtain ⟨q, up, hq, hbears, rfl⟩ :=
    (h.bears_flat hb).exists_within ((h.mem_flat_iff hb hother).mpr hsome)
  obtain ⟨c, hc, rfl⟩ := hq.exists_of_flat
  obtain ⟨above, hold⟩ := hb.within hc
  exact ⟨c, up, above, hq, hc, hbears, hold, c.top_flat.symm⟩

/-- A part of the flat form of a branch further down is where the nodes between it and the
top of that branch have let it. -/
theorem exists_up {c q : Branch} (hflat : c.flat.Within b.flat) (hc : c.Within b)
    (hq : q ∈ c.flat.parts) :
    ∃ between : List Handle, List.IsChain t.HasParent (q.top :: (between ++ [c.top])) ∧
      (∀ gone ∈ between, gone ∈ b.handles ∧ t'.get? gone = none) ∧
      t'.Lists c.top q.top ∧ t'.HasParent q.top c.top := by
  obtain ⟨_, hold⟩ := hb.within hc
  obtain ⟨_, hplace⟩ := (h.bears_flat hb).within hflat
  obtain ⟨between, hbetween, hchain⟩ := hold.holds.exists_of_mem_parts_flat hq
  refine ⟨between, hchain, ?_, ⟨_, c.top_flat ▸ hplace.get, ?_⟩, ⟨_, (hplace.part hq).get, ?_⟩⟩
  · intro gone hmem
    have hlost := hc.lost_subset (hbetween hmem)
    have hin : gone ∈ b.handles :=
      (handles_perm_lost b).mem_iff.mpr (List.mem_append_left _ hlost)
    exact ⟨hin, (h.get?_eq_none_iff hb hin).mpr hlost⟩
  · rw [children_node]
    exact List.mem_map_of_mem hq
  · rw [parent_node, top_flat]

/-- To bring a branch to its flat form is to flatten it at its top. -/
theorem flattensAt : t.FlattensAt t' b.top b.handles where
  descendants := hb.descendants_eq
  vacated_iff other hother := (h.get?_eq_none_iff hb hother).trans (hb.mem_lost_iff hother)
  moves_up other hother hne hsome := by
    obtain ⟨q, _, _, hq, _, _, _, rfl⟩ := h.exists_within hb hother hsome
    rcases hq.eq_or_exists with heq | ⟨d, hd, hmem⟩
    · exact absurd (by rw [← top_flat q, heq, top_flat]) hne
    · obtain ⟨c, hc, rfl⟩ := hd.exists_of_flat
      obtain ⟨between, hchain, hgone, hlists, hparent⟩ := h.exists_up hb hd hc hmem
      rw [top_flat] at hchain hlists hparent
      exact ⟨between, c.top, hchain, hgone, hc.handles_subset c.top_mem_handles, hlists, hparent⟩
  descendants_left := by
    have hdescendants := (h.bears_flat hb).descendants_eq
    rw [top_flat] at hdescendants
    rw [hdescendants, eq_filter_of_sublist hb.nodup (handles_flat_sublist b)
      fun other hother => h.mem_flat_iff hb hother]
  separates other hother node hget := by
    obtain ⟨c, _, _, hq, _, hbears, _, rfl⟩ := h.exists_within hb hother (hget ▸ rfl)
    rw [← top_flat c, hbears.get, Option.some_inj] at hget
    refine hget ▸ hbears.holds.separates (shape_of_within Shape.IsFlat.of_mem hq ?_)
    rw [shape_flat]
    exact Shape.isFlat_flat b.shape
  left other hother node' hget := by
    obtain ⟨c, up, above, _, _, hbears, hold, rfl⟩ := h.exists_within hb hother (hget ▸ rfl)
    rw [← top_flat c, hbears.get, Option.some_inj] at hget
    exact ⟨c.node above, hold.get, hget ▸ childless_node_flat up above c⟩
  parent := by
    have hget := (h.bears_flat hb).get
    rw [top_flat] at hget
    rw [hget, hb.get, Option.map_some, Option.map_some, parent_node, parent_node]
  same := h.same

end Reshapes

end Tree

namespace Edit

/-- Flattening at a node of a forest takes the nodes out that have the associative operator
of the node above them, moves what is below them up, and changes nothing else. -/
theorem exists_flattensAt {t : Tree} (ht : t.IsForest) {id : Handle}
    (hid : (t.get? id).isSome = true) :
    ∃ (t' : Tree) (ids : List Handle), (flatten id).run t = .ok () t' ∧
      t.FlattensAt t' id ids := by
  obtain ⟨node, hget⟩ := Option.isSome_iff_exists.mp hid
  obtain ⟨b, rfl, hb⟩ := ht.exists_bears hget
  obtain ⟨t', hrun, hreshapes⟩ := run_flatten hb
  exact ⟨t', b.handles, hrun, hreshapes.flattensAt hb⟩

/-- In a sum under a sum the inner one is taken out, and its terms move up. -/
theorem exists_flattensAt_sum : ∃ t t' : Tree,
    t = ⟨#[some ⟨.compound .add [⟨1⟩, ⟨2⟩], none, ⟨0⟩⟩, some ⟨.literal "a", some ⟨0⟩, ⟨1⟩⟩,
      some ⟨.compound .add [⟨3⟩, ⟨4⟩], some ⟨0⟩, ⟨2⟩⟩, some ⟨.literal "b", some ⟨2⟩, ⟨3⟩⟩,
      some ⟨.literal "c", some ⟨2⟩, ⟨4⟩⟩], ⟨0⟩, 5⟩ ∧
    t' = ⟨#[some ⟨.compound .add [⟨1⟩, ⟨3⟩, ⟨4⟩], none, ⟨0⟩⟩, some ⟨.literal "a", some ⟨0⟩, ⟨1⟩⟩,
      none, some ⟨.literal "b", some ⟨0⟩, ⟨3⟩⟩, some ⟨.literal "c", some ⟨0⟩, ⟨4⟩⟩], ⟨0⟩, 5⟩ ∧
    (flatten ⟨0⟩).run t = .ok () t' ∧
    t.FlattensAt t' ⟨0⟩ [⟨0⟩, ⟨1⟩, ⟨2⟩, ⟨3⟩, ⟨4⟩] := by
  obtain ⟨u, hu⟩ : ∃ u : Tree, u = ⟨#[some ⟨.compound .add [⟨1⟩, ⟨2⟩], none, ⟨0⟩⟩,
      some ⟨.literal "a", some ⟨0⟩, ⟨1⟩⟩, some ⟨.compound .add [⟨3⟩, ⟨4⟩], some ⟨0⟩, ⟨2⟩⟩,
      some ⟨.literal "b", some ⟨2⟩, ⟨3⟩⟩, some ⟨.literal "c", some ⟨2⟩, ⟨4⟩⟩], ⟨0⟩, 5⟩ := ⟨_, rfl⟩
  obtain ⟨t, b, ht, hwhole, _⟩ := Tree.exists_ofShape
    (.compound .add [.literal "a", .compound .add [.literal "b", .literal "c"]])
  have htu : t = u := by
    have hplanted : Tree.ofShape (.compound .add [.literal "a",
        .compound .add [.literal "b", .literal "c"]]) = .ok u := by
      rw [hu]
      cbv
    exact Except.ok.inj (ht.symm.trans hplanted)
  have hroot : (t.get? ⟨0⟩).isSome = true := by
    rw [htu, hu]
    rfl
  obtain ⟨t', ids, hrun, hflattens⟩ := exists_flattensAt hwhole.isTree.toIsForest hroot
  obtain rfl : ids = [⟨0⟩, ⟨1⟩, ⟨2⟩, ⟨3⟩, ⟨4⟩] := by
    have hids := hflattens.descendants
    rw [htu, hu] at hids
    exact Except.ok.inj (hids.symm.trans (by cbv))
  refine ⟨t, t', htu.trans hu, ?_, hrun, hflattens⟩
  rw [htu, hu] at hrun
  cbv at hrun
  cases hrun
  rfl

end Edit

end FormulaEditor
