/-
The order in which chains are merged.

Flattening at nodes further down merges some of the chains that flattening at a node above
them would merge, and leaves that the others.  The flat form of the branch stays the same,
and since the branch determines the store, so does what flattening comes to in the end:

* `Tree.MergesSome` — some of the chains of a branch have been merged;
* `Tree.MergesSome.within` — merging in a branch further down is merging in the branch;
* `Edit.flattenEach` — flattening at several nodes one after the other;
* `Edit.flatten_confluent` — flattening at other nodes first makes no difference, and
  neither does merging while a text is read.
-/
import FormulaEditor.Proofs.Copying
import FormulaEditor.Proofs.Forest
import FormulaEditor.Proofs.Parsing
import Mathlib

namespace FormulaEditor

open Branch

namespace Tree

variable {t t' t'' u : Tree} {place up : Option Handle} {b b' b'' c c' : Branch}

/-- What a branch has been reshaped to determines the store. -/
theorem Reshapes.unique (h : t.Reshapes t' place b b') (h' : t.Reshapes t'' place b b') :
    t'' = t' := by
  refine (h.same.symm.trans h'.same).eq fun id hid => ?_
  by_cases hmem : id ∈ b'.handles
  · exact h.holds.get_eq h'.holds id hmem
  · rw [h.gone id hid hmem, h'.gone id hid hmem]

/-- A branch among others is replaced, and the others are not touched. -/
theorem BearsAll.replace {l l' : List Branch} (h : t.BearsAll place (l ++ c :: l'))
    (hsame : t.SameExcept t' c.handles) (hc : t'.Holds place c') :
    ∀ part ∈ l ++ c' :: l', t'.Holds place part := by
  have hall := h.perm List.perm_middle
  have hold : ∀ part ∈ l ++ l', t'.Holds place part := by
    intro part hp
    refine (hall.tail.holds part hp).congr fun other hother => hsame.get? other fun hmem => ?_
    exact hall.notMem_of_mem_head hmem (List.mem_flatMap.mpr ⟨part, hp, hother⟩)
  intro part hp
  rcases List.mem_append.mp hp with hp | hp
  · exact hold part (List.mem_append_left _ hp)
  · rcases List.mem_cons.mp hp with rfl | hp
    · exact hc
    · exact hold part (List.mem_append_right _ hp)

/-- In the second store some of the chains of a branch have been merged, and the same is
left to be made of it in the end. -/
structure MergesSome (t t' : Tree) (place : Option Handle) (b b' : Branch) : Prop
    extends t.Reshapes t' place b b' where
  sublist : b'.handles.Sublist b.handles
  flat_eq : b'.flat = b.flat

namespace MergesSome

theorem refl (h : t.Holds place b) : t.MergesSome t place b b :=
  ⟨.refl h, .refl _, rfl⟩

theorem trans (h : t.MergesSome t' place b b') (h' : t'.MergesSome t'' place b' b'') :
    t.MergesSome t'' place b b'' :=
  ⟨h.toReshapes.trans h'.toReshapes, h'.sublist.trans h.sublist, h'.flat_eq.trans h.flat_eq⟩

theorem top_eq (h : t.MergesSome t' place b b') : b'.top = b.top := by
  rw [← top_flat b', h.flat_eq, top_flat]

theorem bears (h : t.MergesSome t' place b b') (hb : t.Bears place b) : t'.Bears place b' :=
  ⟨h.holds, hb.nodup.sublist h.sublist⟩

/-- Merging in one of the parts of a compound. -/
theorem part {id : Handle} {tag : Tag} {operator : Operator} {l l' : List Branch}
    (hb : t.Bears place (.compound id tag operator (l ++ c :: l')))
    (h : t.MergesSome t' (some id) c c') :
    t.MergesSome t' place (.compound id tag operator (l ++ c :: l'))
      (.compound id tag operator (l ++ c' :: l')) := by
  have hid : id ∉ (l ++ c :: l').flatMap handles := top_notMem_parts hb.nodup
  have hsub : c.handles ⊆ (l ++ c :: l').flatMap handles := fun other hother =>
    List.mem_flatMap.mpr ⟨c, List.mem_append_right _ (List.mem_cons_self ..), hother⟩
  have hsublist : ((l ++ c' :: l').flatMap handles).Sublist ((l ++ c :: l').flatMap handles) := by
    rw [List.flatMap_append, List.flatMap_append, List.flatMap_cons, List.flatMap_cons]
    exact (List.Sublist.refl _).append (h.sublist.append (List.Sublist.refl _))
  refine ⟨⟨h.same.mono ?_, .intro ?_ (hb.parts.replace h.same h.holds), ?_, ?_⟩, ?_, ?_⟩
  · rw [handles]
    exact List.Subset.trans hsub (List.subset_cons_self ..)
  · rw [top, h.same.get? id fun hmem => hid (hsub hmem), Branch.node, List.map_append,
      List.map_cons, h.top_eq, ← List.map_cons, ← List.map_append]
    exact hb.get
  · rw [handles, handles]
    exact List.cons_subset_cons id hsublist.subset
  · intro other hother hnot
    rw [handles, List.flatMap_append, List.flatMap_cons] at hother hnot
    simp only [List.mem_cons, List.mem_append, not_or] at hother hnot
    -- only the part has lost anything
    rcases hother with heq | hother | hother | hother
    · exact absurd heq hnot.1
    · exact absurd hother hnot.2.1
    · exact h.gone other hother hnot.2.2.1
    · exact absurd hother hnot.2.2.2
  · rw [handles, handles]
    exact hsublist.cons_cons id
  · simp only [flat, List.map_append, List.map_cons, h.flat_eq]

/-- Merging in a branch further down. -/
theorem within (h : t.MergesSome t' up c c') (hb : t.Bears place b) (hc : c.Within b)
    (hup : t.Holds up c) : ∃ b', t.MergesSome t' place b b' := by
  induction hc generalizing place with
  | refl =>
    obtain rfl := hb.holds.parent_eq hup rfl
    exact ⟨c', h⟩
  | @part d p hp _ ih =>
    obtain ⟨p', hp'⟩ := ih (hb.part hp)
    cases d with
    | literal => exact absurd hp List.not_mem_nil
    | compound id tag operator parts =>
      obtain ⟨l, l', rfl⟩ : ∃ l l', parts = l ++ p :: l' := List.append_of_mem hp
      exact ⟨_, .part hb hp'⟩

end MergesSome

end Tree

namespace Edit

variable {t t' : Tree} {place : Option Handle} {b b' : Branch}

/-- Flattens at several nodes one after the other, except for those that have been merged
away by then. -/
def flattenEach (ids : List Handle) : Edit Unit :=
  ids.forM fun id => do
    if ((← get).get? id).isSome then
      flatten id

theorem run_flattenEach_cons (id : Handle) (ids : List Handle) :
    (flattenEach (id :: ids)).run t = (if (t.get? id).isSome = true then
      flatten id >>= fun _ => flattenEach ids else flattenEach ids).run t := by
  show ((if (t.get? id).isSome = true then flatten id else pure ()) >>=
    fun _ => flattenEach ids : Edit Unit).run t = _
  split <;> rfl

/-- Flattening at a node merges all of its chains. -/
theorem exists_mergesSome_flatten (h : t.Bears place b) :
    ∃ t', (flatten b.top).run t = .ok () t' ∧ t.MergesSome t' place b b.flat := by
  obtain ⟨t', hrun, hreshapes⟩ := run_flatten h
  exact ⟨t', hrun, hreshapes, handles_flat_sublist b, flat_flat b⟩

/-- Flattening at a node further down merges some of them. -/
theorem exists_mergesSome_flatten_within (h : t.Bears place b) {id : Handle}
    (hid : id ∈ b.handles) :
    ∃ t' b', (flatten id).run t = .ok () t' ∧ t.MergesSome t' place b b' := by
  obtain ⟨c, up, hc, hup, rfl⟩ := h.exists_within hid
  obtain ⟨t', hrun, hmerges⟩ := exists_mergesSome_flatten hup
  obtain ⟨b', hb'⟩ := hmerges.within h hc hup.holds
  exact ⟨t', b', hrun, hb'⟩

theorem exists_run_flattenEach {ids : List Handle} (hb : t.Bears place b)
    (h : t.MergesSome t' place b b') (hids : ids ⊆ b.handles) :
    ∃ t'' b'', (flattenEach ids).run t' = .ok () t'' ∧ t.MergesSome t'' place b b'' := by
  induction ids generalizing t' b' with
  | nil => exact ⟨t', b', rfl, h⟩
  | cons id ids ih =>
    obtain ⟨hid, hids⟩ := List.cons_subset.mp hids
    by_cases hlive : (t'.get? id).isSome = true
    · have hmem : id ∈ b'.handles := by
        by_contra hnot
        rw [h.gone id hid hnot] at hlive
        cases hlive
      obtain ⟨t₁, b₁, hrun₁, hmerges₁⟩ := exists_mergesSome_flatten_within (h.bears hb) hmem
      obtain ⟨t₂, b₂, hrun₂, hmerges₂⟩ := ih (h.trans hmerges₁) hids
      refine ⟨t₂, b₂, ?_, hmerges₂⟩
      rw [run_flattenEach_cons, if_pos hlive, run_bind_ok hrun₁, hrun₂]
    · obtain ⟨t₂, b₂, hrun₂, hmerges₂⟩ := ih h hids
      refine ⟨t₂, b₂, ?_, hmerges₂⟩
      rw [run_flattenEach_cons, if_neg hlive, hrun₂]

/-- Whatever has been merged in a branch, flattening it makes the same of it. -/
theorem run_flatten_of_mergesSome (hb : t.Bears place b) (h : t.MergesSome t' place b b')
    {u : Tree} (hrun : (flatten b.top).run t = .ok () u) : (flatten b.top).run t' = .ok () u := by
  obtain ⟨u', hrun', hmerges⟩ := exists_mergesSome_flatten hb
  rw [hrun] at hrun'
  cases hrun'
  obtain ⟨t₁, hrun₁, hmerges₁⟩ := exists_mergesSome_flatten (h.bears hb)
  rw [h.top_eq] at hrun₁
  have hflat : t.Reshapes t₁ place b b.flat := h.flat_eq ▸ (h.trans hmerges₁).toReshapes
  rw [hrun₁, hmerges.unique hflat]

/-- Flattening at nodes of a subtree one after the other and then at its top leaves the same
store as flattening at the top alone, and so does flattening at the top twice.  The tree that
a text is parsed into, merging as it goes, is the one that comes from merging nothing before
the whole text is read. -/
theorem flatten_confluent :
    (∀ {t : Tree} {id : Handle}, t.IsForest → (t.get? id).isSome = true →
      ∃ (t' : Tree) (ids : List Handle), (flatten id).run t = .ok () t' ∧
        t.descendants id = .ok ids ∧
        (∀ earlier ⊆ ids, (do flattenEach earlier; flatten id).run t = .ok () t') ∧
        (flatten id).run t' = .ok () t') ∧
    (∀ {text : String} {t : Tree}, parse text = .ok t →
      ∃ u, parseUnmerged text = .ok u ∧ (flatten u.root).run u = .ok () t) := by
  constructor
  · intro t id ht hid
    obtain ⟨node, hget⟩ := Option.isSome_iff_exists.mp hid
    obtain ⟨b, rfl, hb⟩ := ht.exists_bears hget
    obtain ⟨t', hrun, hmerges⟩ := exists_mergesSome_flatten hb
    refine ⟨t', b.handles, hrun, hb.descendants_eq, ?_, run_flatten_of_mergesSome hb hmerges hrun⟩
    intro earlier hsub
    obtain ⟨t₁, b₁, hrun₁, hmerges₁⟩ := exists_run_flattenEach hb (.refl hb.holds) hsub
    rw [run_bind_ok hrun₁, run_flatten_of_mergesSome hb hmerges₁ hrun]
  · intro text t hparse
    obtain ⟨cut, hcut, hwhole, hslots⟩ := exists_cut_of_parse hparse
    obtain ⟨u, hu, hall, hslots'⟩ := Text.run_parseUnmerged hcut
    obtain ⟨t', hrun, hflat⟩ := run_flatten_whole hall
    have heq : t' = t :=
      hflat.eq hwhole ((keeps_flatten_hasSlots _ _ _).of_ok hslots' hrun) hslots
    exact ⟨u, hu, by rw [hall.root, hrun, heq]⟩

/-- In a sum under a sum under a sum the inner ones may be flattened before.  The innermost
one is gone when its turn comes. -/
theorem flatten_confluent_sum :
    (∃ t t' : Tree, Tree.ofShape (.compound .add [.literal "a", .compound .add [.literal "b",
        .compound .add [.literal "c", .literal "d"]]]) = .ok t ∧
      (flatten ⟨0⟩).run t = .ok () t' ∧
      (do flattenEach [⟨2⟩, ⟨4⟩]; flatten ⟨0⟩).run t = .ok () t' ∧
      (flatten ⟨0⟩).run t' = .ok () t') ∧
    (∃ t u : Tree, parse "a+b+c" = .ok t ∧ parseUnmerged "a+b+c" = .ok u ∧
      (flatten u.root).run u = .ok () t) := by
  constructor
  · obtain ⟨t, b, ht, hwhole, _⟩ := Tree.exists_ofShape (.compound .add [.literal "a",
      .compound .add [.literal "b", .compound .add [.literal "c", .literal "d"]]])
    have hknown : (Tree.ofShape (.compound .add [.literal "a", .compound .add [.literal "b",
        .compound .add [.literal "c", .literal "d"]]])).map
          (fun t => (t.descendants ⟨0⟩, (t.get? ⟨0⟩).isSome))
        = .ok (.ok [⟨0⟩, ⟨1⟩, ⟨2⟩, ⟨3⟩, ⟨4⟩, ⟨5⟩, ⟨6⟩], true) := by cbv
    rw [ht] at hknown
    obtain ⟨hids, hroot⟩ := Prod.mk.inj (Except.ok.inj hknown)
    obtain ⟨t', ids, hrun, hdescendants, heach, hagain⟩ :=
      flatten_confluent.1 hwhole.isTree.toIsForest hroot
    rw [hids, Except.ok.injEq] at hdescendants
    subst hdescendants
    exact ⟨t, t', ht, hrun, heach _ (by simp), hagain⟩
  · have hparse : parse "a+b+c" = .ok ⟨#[some ⟨.compound .add [⟨1⟩, ⟨3⟩, ⟨4⟩], none, ⟨0⟩⟩,
        some ⟨.literal "a", some ⟨0⟩, ⟨1⟩⟩, none, some ⟨.literal "b", some ⟨0⟩, ⟨3⟩⟩,
        some ⟨.literal "c", some ⟨0⟩, ⟨4⟩⟩], ⟨0⟩, 5⟩ := by cbv
    obtain ⟨u, hu, hflatten⟩ := flatten_confluent.2 hparse
    exact ⟨_, u, hparse, hu, hflatten⟩

end Edit

end FormulaEditor
