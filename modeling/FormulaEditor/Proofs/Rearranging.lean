/-
Rearranging a tree permutes child lists and does nothing else.

A rearrangement matches children by their keys, and since as many are wanted as
there are and no key counts twice, what it plans for a node is a permutation of
its children (`Tree.perm_of_matchChildren`).  So whatever a rearrangement is
aimed at, and whether or not it succeeds, the store that it leaves behind
differs in the order of child lists at most:

* `Edit.IsPermuting` — edits of which this is true;
* `Edit.isPermuting_rearrange`, `Drag.isPermuting_drop` — rearranging and
  dropping are among them.

Design notes: an edit that fails keeps the changes it has made, so the
statements are about the store that is left behind in either case
(`Edit.leaves`).
-/
import FormulaEditor.Drag
import FormulaEditor.Proofs.Permuting
import Mathlib.Data.List.Perm.Subperm

namespace FormulaEditor

namespace Tree

variable {t target : Tree}

/-! ### Matching children -/

/-- What a collection of keyed children looks like: the children in order, each
under its own key, which is wanted. -/
structure IsKeyed (t : Tree) (wanted : List ChildKey) (children : List Handle)
    (found : List (ChildKey × Handle)) : Prop where
  children_eq : found.map (·.2) = children
  key_eq : ∀ entry ∈ found, t.childKey entry.2 = .ok entry.1
  nodup : (found.map (·.1)).Nodup
  sub : found.map (·.1) ⊆ wanted

/-- One more child is collected. -/
def collectChild (t : Tree) (wanted : List ChildKey) (found : List (ChildKey × Handle))
    (child : Handle) : Except EditError (List (ChildKey × Handle)) := do
  let key ← t.childKey child
  if key ∈ wanted ∧ key ∉ found.map (·.1) then
    return found ++ [(key, child)]
  else
    throw .mismatchedChildren

theorem keyedChildren_eq (t : Tree) (wanted : List ChildKey) (children : List Handle) :
    t.keyedChildren wanted children = children.foldlM (t.collectChild wanted) [] := rfl

theorem isKeyed_foldlM {wanted : List ChildKey} {done children : List Handle}
    {acc found : List (ChildKey × Handle)} (hacc : t.IsKeyed wanted done acc)
    (h : children.foldlM (t.collectChild wanted) acc = .ok found) :
    t.IsKeyed wanted (done ++ children) found := by
  induction children generalizing done acc with
  | nil =>
    cases h
    rwa [List.append_nil]
  | cons child children ih =>
    rw [List.foldlM_cons] at h
    obtain ⟨acc', hstep, h⟩ := exists_of_bind_eq_ok h
    rw [collectChild] at hstep
    obtain ⟨key, hchild, hstep⟩ := exists_of_bind_eq_ok hstep
    split at hstep
    · next hkey =>
      cases hstep
      rw [List.append_cons]
      refine ih ⟨?_, ?_, ?_, ?_⟩ h
      · rw [List.map_append, hacc.children_eq, List.map_singleton]
      · refine List.forall_mem_append.mpr ⟨hacc.key_eq, ?_⟩
        exact List.forall_mem_singleton.mpr hchild
      · rw [List.map_append, List.map_singleton, List.nodup_append]
        refine ⟨hacc.nodup, List.nodup_singleton _, ?_⟩
        intro k hk k' hk'
        rw [List.mem_singleton.mp hk']
        rintro rfl
        exact hkey.2 hk
      · rw [List.map_append, List.map_singleton]
        exact List.append_subset.mpr ⟨hacc.sub, by simpa using hkey.1⟩
    · cases hstep

theorem isKeyed_of_keyedChildren {wanted : List ChildKey} {children : List Handle}
    {found : List (ChildKey × Handle)} (h : t.keyedChildren wanted children = .ok found) :
    t.IsKeyed wanted children found := by
  have hnil : t.IsKeyed wanted [] [] :=
    ⟨rfl, fun _ hmem => absurd hmem List.not_mem_nil, List.nodup_nil, List.nil_subset wanted⟩
  rw [keyedChildren_eq] at h
  exact isKeyed_foldlM hnil h

/-- No key is wanted in vain if there are as many wanted as found. -/
theorem IsKeyed.perm {wanted : List ChildKey} {children : List Handle}
    {found : List (ChildKey × Handle)} (h : t.IsKeyed wanted children found)
    (hlen : children.length = wanted.length) : (found.map (·.1)).Perm wanted := by
  refine (List.Nodup.subperm h.nodup h.sub).perm_of_length_le ?_
  rw [← hlen, ← h.children_eq, List.length_map, List.length_map]

/-- A lookup finds what is under a key that occurs once. -/
theorem lookup_of_mem {α β : Type} [BEq α] [LawfulBEq α] {l : List (α × β)}
    (hnodup : (l.map (·.1)).Nodup) {a : α} {b : β} (h : (a, b) ∈ l) : l.lookup a = some b := by
  obtain ⟨left, right, rfl⟩ := List.append_of_mem h
  refine List.lookup_eq_some_iff.mpr ⟨left, right, rfl, ?_⟩
  intro p hp
  rw [List.map_append, List.nodup_append] at hnodup
  have hne := hnodup.2.2 p.1 (List.mem_map_of_mem hp) a
    (List.mem_map_of_mem (List.mem_cons_self ..))
  simpa using hne.symm

/-- What is found for the wanted keys, one by one. -/
theorem forall₂_of_matchChildren {wanted : List ChildKey} {children l : List Handle}
    (h : t.matchChildren wanted children = .ok l) :
    ∃ found, t.IsKeyed wanted children found ∧
      List.Forall₂ (fun key child => found.lookup key = some child) wanted l := by
  rw [matchChildren] at h
  obtain ⟨found, hfound, h⟩ := exists_of_bind_eq_ok h
  refine ⟨found, isKeyed_of_keyedChildren hfound, (forall₂_of_mapM h).imp fun key child hkey => ?_⟩
  split at hkey
  · next hlookup =>
    cases hkey
    exact hlookup
  · cases hkey

/-- Children that are matched are permuted. -/
theorem perm_of_matchChildren {wanted : List ChildKey} {children l : List Handle}
    (h : t.matchChildren wanted children = .ok l) (hlen : children.length = wanted.length) :
    l.Perm children := by
  obtain ⟨found, hkeyed, hfound⟩ := forall₂_of_matchChildren h
  have hl : l.map some = wanted.map (List.lookup · found) :=
    map_eq_map_of_forall₂ (hfound.imp fun _ _ h => h.symm)
  have hall : children.map some = (found.map (·.1)).map (List.lookup · found) := by
    rw [← hkeyed.children_eq, List.map_map, List.map_map]
    exact List.map_congr_left fun pair hmem => (lookup_of_mem hkeyed.nodup hmem).symm
  refine (List.map_perm_map_iff fun _ _ => Option.some.inj).mp ?_
  rw [hl, hall]
  exact ((hkeyed.perm hlen).map _).symm

/-! ### Plans -/

theorem permits_of_rearrangementWithin {bound : Nat} {id targetId : Handle}
    {plan : List (Handle × List Handle)}
    (h : t.rearrangementWithin target bound id targetId = .ok plan) : t.Permits plan := by
  induction bound generalizing id targetId plan with
  | zero => cases h
  | succ bound ih =>
    rw [rearrangementWithin] at h
    obtain ⟨here, hhere, h⟩ := exists_of_bind_eq_ok h
    obtain ⟨there, _, h⟩ := exists_of_bind_eq_ok h
    split at h
    · cases h
    · next hmatch =>
      split at h
      · cases h
        exact fun _ hmem => absurd hmem List.not_mem_nil
      · next hempty =>
        obtain ⟨wanted, hwanted, h⟩ := exists_of_bind_eq_ok h
        obtain ⟨reordered, hreordered, h⟩ := exists_of_bind_eq_ok h
        obtain ⟨below, hbelow, h⟩ := exists_of_bind_eq_ok h
        cases h
        intro entry hentry
        rcases List.mem_append.mp hentry with hentry | hentry
        · -- entries for what is below the children, unless these are literals
          obtain ⟨part, hpart, hentry⟩ := List.mem_flatten.mp hentry
          obtain ⟨⟨child, targetChild⟩, _, hchild⟩ := exists_of_mem_mapM hbelow hpart
          obtain ⟨node, _, hchild⟩ := exists_of_bind_eq_ok hchild
          split at hchild
          · cases hchild
            exact absurd hentry List.not_mem_nil
          · exact ih hchild entry hentry
        · -- and last the one for the node itself
          rw [List.mem_singleton.mp hentry]
          refine ⟨here, node_eq_ok_iff.mp hhere, ?_, ?_⟩
          · obtain ⟨content, _, _⟩ := here
            cases content with
            | literal => exact absurd rfl hempty
            | compound => rfl
          · rw [not_or, not_not, not_not] at hmatch
            refine perm_of_matchChildren hreordered ?_
            rw [hmatch.2, (forall₂_of_mapM hwanted).length_eq]

end Tree

namespace Edit

/-! ### Edits that permute -/

variable {α β : Type}

/-- The store that an edit leaves behind, whether or not it succeeds. -/
def leaves (edit : Edit α) (t : Tree) : Tree :=
  match edit.run t with
  | .ok _ t' => t'
  | .error _ t' => t'

theorem leaves_of_run {edit : Edit α} {a : α} {t t' : Tree} (hrun : edit.run t = .ok a t') :
    edit.leaves t = t' := by
  rw [leaves, hrun]

/-- The edit changes nothing but the order of child lists. -/
def IsPermuting (edit : Edit α) : Prop := ∀ t : Tree, t.IsForest → t.Permutes (edit.leaves t)

theorem isPermuting_ask (question : Tree → Except EditError α) :
    IsPermuting (ask question) := by
  intro t _
  have hsame : leaves (ask question) t = t := by
    simp only [leaves, ask, EStateM.run]
    cases question t <;> rfl
  rw [hsame]
  exact .refl t

theorem IsPermuting.permutes {edit : Edit α} (h : edit.IsPermuting) {a : α} {t t' : Tree}
    (ht : t.IsForest) (hrun : edit.run t = .ok a t') : t.Permutes t' :=
  leaves_of_run hrun ▸ h t ht

theorem isPermuting_pure (a : α) : (pure a : Edit α).IsPermuting := fun t _ => .refl t

theorem isPermuting_throw (e : EditError) : (throw e : Edit α).IsPermuting := fun t _ => .refl t

theorem IsPermuting.bind {x : Edit α} {f : α → Edit β} (hx : x.IsPermuting)
    (hf : ∀ a, (f a).IsPermuting) : (x >>= f).IsPermuting := by
  intro t ht
  have hpermutes := hx t ht
  cases hrun : x.run t with
  | ok a t' =>
    simp only [leaves, hrun] at hpermutes
    have hrest := hf a t' (hpermutes.isForest ht)
    simp only [leaves, run_bind_ok hrun]
    exact hpermutes.trans hrest
  | error e t' =>
    simp only [leaves, hrun] at hpermutes
    simp only [leaves, run_bind_error hrun]
    exact hpermutes

theorem isPermuting_rearrange (id : Handle) (target : Tree) (targetId : Handle) :
    (rearrange id target targetId).IsPermuting := by
  intro t ht
  cases hplan : t.rearrangement target id targetId with
  | error e =>
    have hleaves : (rearrange id target targetId).leaves t = t := by
      rw [leaves, rearrange, run_bind_error (run_ask_error (s := t) hplan)]
    rw [hleaves]
    exact .refl t
  | ok plan =>
    obtain ⟨t', hrun, hpermutes⟩ :=
      run_forM_replaceChildren ht (Tree.permits_of_rearrangementWithin hplan)
    have hleaves : (rearrange id target targetId).leaves t = t' := by
      rw [leaves, rearrange, run_bind_ok (run_ask (s := t) hplan)]
      rw [hrun]
    rw [hleaves]
    exact hpermutes

end Edit

/-- Dropping a node rearranges its siblings, even if that turns out to be the
wrong place. -/
theorem Drag.isPermuting_drop (drag : Drag) (position : Nat) :
    (drag.drop position).IsPermuting := by
  rw [drop]
  split
  · exact Edit.isPermuting_throw _
  · next arrangement _ =>
    refine (Edit.isPermuting_ask _).bind ?_
    intro parent
    refine (Edit.isPermuting_rearrange parent arrangement arrangement.root).bind ?_
    intro _
    refine (Edit.isPermuting_ask _).bind ?_
    intro moved
    refine (Edit.isPermuting_ask _).bind ?_
    intro node
    -- the check of the place comes too late to take anything back
    split
    · exact Edit.isPermuting_pure _
    · exact Edit.isPermuting_throw _

end FormulaEditor
