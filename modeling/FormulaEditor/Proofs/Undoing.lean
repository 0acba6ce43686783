/-
Rearranging one way after another.

What a node becomes when it is rearranged depends on the target alone, and not on the
order in which the node stood before.  The orders of a branch that match the one target
or the other are orders of each other, so there is always a way on from either, and a way
back:

* `Branch.Matches.self_of_shuffles` — a branch that can be rearranged at all matches
  itself;
* `Edit.run_rearrange_of_reorders` — the way from one order to another;
* `Edit.rearrange_rearrange` — a rearrangement leads to the same tree whatever
  rearrangement came before it, can be undone, and can be repeated.
-/
import FormulaEditor.Proofs.Matching
import FormulaEditor.Proofs.Obtained

namespace FormulaEditor

open Branch

namespace Branch

/-- If an order of a branch matches anything, no two parts of the branch have the same key,
nor have those of its parts, so the branch matches itself. -/
theorem Matches.self_of_shuffles {b r d : Branch} (h : r.Matches d) (hr : b.Shuffles r) :
    b.Matches b := by
  induction h generalizing b with
  | @intro r d hname hkeys hnodup hbelow ih =>
    have hperm := hr.map_key_perm
    refine .intro rfl rfl (hperm.nodup_iff.mp hnodup) fun part child hpair hop => ?_
    obtain rfl : part = child := eq_of_mem_zip (f := id) (g := id) rfl hpair
    have hpart := (List.of_mem_zip hpair).1
    -- the target has a part with the key of this one
    have hmem : part.key ∈ d.parts.map key :=
      hkeys ▸ hperm.mem_iff.mpr (List.mem_map_of_mem hpart)
    obtain ⟨child, hchild, hkey⟩ := List.mem_map.mp hmem
    obtain ⟨new, hnew, hpair'⟩ :=
      (Matches.intro hname hkeys hnodup hbelow).exists_part hr hpart hchild hkey.symm
    exact ih new child hpair' (by rwa [hnew.operator?]) hnew

end Branch

namespace Edit

variable {t t₁ t₂ target : Tree} {place place' : Option Handle} {b d r s : Branch}
  {id targetId : Handle}

/-- Only live nodes can be rearranged, and only to match live ones. -/
theorem isSome_of_run_rearrange (h : (rearrange id target targetId).run t = .ok () t₁) :
    (t.get? id).isSome = true ∧ (target.get? targetId).isSome = true := by
  cases hplan : t.rearrangement target id targetId with
  | error e =>
    rw [rearrange, run_bind_error (run_ask_error (s := t) hplan)] at h
    cases h
  | ok plan =>
    rw [Tree.rearrangement, Tree.walkBound, Tree.rearrangementWithin] at hplan
    obtain ⟨here, hhere, hplan⟩ := exists_of_bind_eq_ok hplan
    obtain ⟨there, hthere, _⟩ := exists_of_bind_eq_ok hplan
    rw [Tree.node_eq_ok_iff.mp hhere, Tree.node_eq_ok_iff.mp hthere]
    exact ⟨rfl, rfl⟩

/-- A successful rearrangement reorders the branch so that it matches the target. -/
theorem exists_reorders_of_run_rearrange (hb : t.Bears place b) (htarget : target.IsForest)
    (h : (rearrange b.top target targetId).run t = .ok () t₁) :
    ∃ place' d r, d.top = targetId ∧ target.Bears place' d ∧ r.Matches d ∧
      t.Reorders t₁ place b r := by
  obtain ⟨node, hget⟩ := Option.isSome_iff_exists.mp (isSome_of_run_rearrange h).2
  obtain ⟨d, rfl, hd⟩ := htarget.exists_bears hget
  obtain ⟨r, hmatches, hreorders⟩ := exists_of_run_rearrange hb hd h
  exact ⟨_, d, r, rfl, hd, hmatches, hreorders⟩

/-- From whatever order the branch is in, the way is open to any order that matches a
target. -/
theorem run_rearrange_of_reorders (h₁ : t.Reorders t₁ place b r) (h₂ : t.Reorders t₂ place b s)
    (hd : target.Bears place' d) (hmatches : s.Matches d) :
    (rearrange b.top target d.top).run t₁ = .ok () t₂ := by
  obtain ⟨t₃, hrun, h₃⟩ :=
    run_rearrange h₁.bears (h₁.shuffles.symm.trans h₂.shuffles) hd hmatches
  have heq : t₃ = t₂ := (h₁.trans h₃).unique h₂
  rw [← h₁.shuffles.top, hrun, heq]

/-- A node is rearranged to match a node of one tree, and then one of another tree.  If both
could be done to the tree as it was at first, the second rearrangement succeeds and leads
to the same tree that it leads to directly.  So a rearrangement is undone by one that
aims at the tree from before, and to repeat it changes nothing. -/
theorem rearrange_rearrange {u v : Tree} (ht : t.IsForest) (hu : u.IsForest) (hv : v.IsForest)
    {first second : Handle} (hfirst : (rearrange id u first).run t = .ok () t₁)
    (hsecond : (rearrange id v second).run t = .ok () t₂) :
    (rearrange id v second).run t₁ = .ok () t₂ ∧
    (rearrange id t id).run t₁ = .ok () t ∧
    (rearrange id u first).run t₁ = .ok () t₁ := by
  obtain ⟨node, hget⟩ := Option.isSome_iff_exists.mp (isSome_of_run_rearrange hfirst).1
  obtain ⟨b, rfl, hb⟩ := ht.exists_bears hget
  obtain ⟨_, d₁, r, rfl, hd₁, hmatches₁, h₁⟩ := exists_reorders_of_run_rearrange hb hu hfirst
  obtain ⟨_, d₂, s, rfl, hd₂, hmatches₂, h₂⟩ := exists_reorders_of_run_rearrange hb hv hsecond
  refine ⟨?_, ?_, ?_⟩
  · exact run_rearrange_of_reorders h₁ h₂ hd₂ hmatches₂
  · exact run_rearrange_of_reorders h₁ (.refl hb) hb (hmatches₁.self_of_shuffles h₁.shuffles)
  · exact run_rearrange_of_reorders h₁ h₁ hd₁ hmatches₁

/-- The terms of a sum are swapped, and swapped back. -/
theorem rearrange_rearrange_sum : ∃ (t t₁ u : Tree) (l : List Arrangement),
    parse "a+b" = .ok t ∧ t.arrangements ⟨1⟩ = .ok l ∧ ⟨1, u⟩ ∈ l ∧ t₁ ≠ t ∧
    (rearrange t.root u u.root).run t = .ok () t₁ ∧
    (rearrange t.root t t.root).run t₁ = .ok () t ∧
    (rearrange t.root u u.root).run t₁ = .ok () t₁ := by
  obtain ⟨t, u, hparse, hl, ht, hu⟩ := Tree.exists_sum_swapped
  obtain ⟨t₁, ht₁⟩ : ∃ t₁ : Tree, t₁ = ⟨#[some ⟨.compound .add [⟨2⟩, ⟨1⟩], none, ⟨0⟩⟩,
      some ⟨.literal "a", some ⟨0⟩, ⟨1⟩⟩, some ⟨.literal "b", some ⟨0⟩, ⟨2⟩⟩], ⟨0⟩, 3⟩ := ⟨_, rfl⟩
  have hswapped : (⟨1, u⟩ : Arrangement) ∈ [⟨0, t⟩, ⟨1, u⟩] := by simp
  have hforest : t.IsForest := (Tree.Obtained.parse hparse).isProper.toIsForest
  have hforest' : u.IsForest :=
    (Tree.Obtained.arrangement (.parse hparse) hl hswapped).isProper.toIsForest
  have hswap : (rearrange t.root u u.root).run t = .ok () t₁ := by
    rw [ht, ht₁, hu]
    cbv
  have hstay : (rearrange t.root t t.root).run t = .ok () t := by
    rw [ht]
    cbv
  obtain ⟨hback, _, hagain⟩ := rearrange_rearrange hforest hforest' hforest hswap hstay
  have hne : t₁ ≠ t := by
    rw [ht, ht₁]
    decide
  exact ⟨t, t₁, u, _, hparse, hl, hswapped, hne, hswap, hback, hagain⟩

end Edit

end FormulaEditor
