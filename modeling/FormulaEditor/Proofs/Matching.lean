/-
When a branch can be rearranged to match another one.

Two nodes match if they have the same name and if their children go together one by
one, by keys none of which occurs twice; children that are compounds have to match in
turn (`Branch.Matches`).  A rearrangement is planned by looking for an order of a branch
that matches its target:

* `Tree.rearrangement_eq_ok` — if there is such an order, the plan is to write it down;
* `Tree.exists_of_rearrangement` — nothing else is ever planned;
* `Tree.failsWith_rearrangement` — if there is none, that is the only cause of failure;
* `Branch.matches_of_bare_eq` — a branch matches its copies, if its tags are different
  ones;
* `Tree.Reorders` — a store in which a branch has got another order;
* `Edit.run_rearrange`, `Edit.exists_of_run_rearrange`, `Edit.run_rearrange_of_mismatch` —
  the outcomes of rearranging.
-/
import FormulaEditor.Proofs.Rearranging
import FormulaEditor.Proofs.Shuffling
import FormulaEditor.Proofs.Tagging

namespace FormulaEditor

namespace Branch

/-- The text of the topmost literal, or the symbol of the topmost operator. -/
def name : Branch → String
  | literal _ _ text => text
  | compound _ _ operator _ => operator.symbol

/-- The key of the topmost node. -/
def key (b : Branch) : ChildKey := ⟨b.name, b.tag⟩

@[simp] theorem name_node (parent : Option Handle) (b : Branch) :
    (b.node parent).name = b.name := by
  cases b <;> rfl

@[simp] theorem isLiteral_node (parent : Option Handle) (b : Branch) :
    (b.node parent).isLiteral = b.operator?.isNone := by
  cases b <;> rfl

theorem Shuffles.key {b r : Branch} (h : b.Shuffles r) : r.key = b.key := by
  cases h <;> rfl

/-- The parts keep their keys. -/
theorem Shuffles.map_key_perm {b r : Branch} (h : b.Shuffles r) :
    (r.parts.map Branch.key).Perm (b.parts.map Branch.key) := by
  obtain ⟨l, hl, hlr⟩ := h.exists_aligned
  rw [map_eq_map_of_forall₂ (hlr.imp fun _ _ h => h.key)]
  exact hl.map Branch.key

/-- The branch goes together with another one, node by node: the children have the same
keys in the same order, no key twice, and where a child is a compound it matches as
well. -/
inductive Matches : Branch → Branch → Prop
  | intro {r d : Branch} : r.name = d.name → r.parts.map key = d.parts.map key →
      (r.parts.map key).Nodup →
      (∀ part child, (part, child) ∈ r.parts.zip d.parts → part.operator? ≠ none →
        Matches part child) → Matches r d

theorem Matches.of_parts_eq_nil {r d : Branch} (hname : r.name = d.name) (hr : r.parts = [])
    (hd : d.parts = []) : r.Matches d := by
  refine .intro hname ?_ ?_ ?_
  · rw [hr, hd]
  · rw [hr]
    exact List.nodup_nil
  · simp [hr]

/-- Where an order of a branch matches a target, each part has become one that stands at the
place of the target's part with the same key. -/
theorem Matches.exists_part {b r d : Branch} (h : r.Matches d) (hr : b.Shuffles r)
    {part child : Branch} (hpart : part ∈ b.parts) (hchild : child ∈ d.parts)
    (hkey : part.key = child.key) :
    ∃ new, part.Shuffles new ∧ (new, child) ∈ r.parts.zip d.parts := by
  obtain ⟨_, hkeys, hnodup, _⟩ := h
  obtain ⟨new, hnew, hback⟩ := hr.symm.exists_of_mem_parts hpart
  exact ⟨new, hback.symm, mem_zip_of_map_eq hkeys hnodup hnew hchild (hback.key.symm.trans hkey)⟩

/-! ### Copies match -/

@[simp] theorem parts_bare (b : Branch) : b.bare.parts = b.parts.map bare := by
  cases b with
  | literal => rw [bare, parts, parts, List.map_nil]
  | compound => rw [bare, parts, parts]

@[simp] theorem key_bare (b : Branch) : b.bare.key = b.key := by
  cases b with
  | literal => rw [bare]; rfl
  | compound => rw [bare]; rfl

theorem key_eq_of_bare_eq {b c : Branch} (h : b.bare = c.bare) : b.key = c.key := by
  rw [← key_bare b, h, key_bare]

theorem map_bare_parts {b c : Branch} (h : b.bare = c.bare) :
    b.parts.map bare = c.parts.map bare := by
  rw [← parts_bare, h, parts_bare]

/-- What stands in the same place of a copy has the same key. -/
theorem exists_getElem?_of_bare_eq {b c part : Branch} {index : Nat} (h : c.bare = b.bare)
    (hpart : b.parts[index]? = some part) :
    ∃ child, c.parts[index]? = some child ∧ child.key = part.key := by
  have hbare : (c.parts.map bare)[index]? = some part.bare := by
    rw [map_bare_parts h, List.getElem?_map, hpart, Option.map_some]
  rw [List.getElem?_map] at hbare
  obtain ⟨child, hchild, heq⟩ := Option.map_eq_some_iff.mp hbare
  exact ⟨child, hchild, key_eq_of_bare_eq heq⟩

/-- If the tags of a branch are different ones, the keys of its parts are so too. -/
theorem nodup_keys {b : Branch} (h : b.tags.Nodup) : (b.parts.map key).Nodup := by
  rw [tags_eq, List.nodup_cons] at h
  refine List.Nodup.of_map ChildKey.tag ?_
  rw [List.map_map]
  refine nodup_map_of_nodup_flatMap h.2 fun part => ?_
  show part.tag ∈ part.tags
  rw [tags_eq]
  exact List.mem_cons_self ..

/-- A branch matches its copies, as long as its tags tell its nodes apart. -/
theorem matches_of_bare_eq {b c : Branch} (h : b.bare = c.bare) (hnodup : b.tags.Nodup) :
    b.Matches c := by
  have hparts := map_bare_parts h
  have hkeys : b.parts.map key = c.parts.map key := by
    have hmap (d : Branch) : d.parts.map key = (d.parts.map bare).map key := by
      rw [List.map_map]
      exact List.map_congr_left fun part _ => (key_bare part).symm
    rw [hmap b, hparts, ← hmap c]
  refine .intro (congrArg ChildKey.name (key_eq_of_bare_eq h)) hkeys (nodup_keys hnodup) ?_
  intro part child hpair _
  have hpart := (List.of_mem_zip hpair).1
  exact matches_of_bare_eq (eq_of_mem_zip hparts hpair)
    (hnodup.sublist (tags_sublist_of_mem_parts hpart))
termination_by b.handles.length
decreasing_by exact length_lt_of_mem_parts hpart

end Branch

namespace Tree

open Branch

variable {t t' target : Tree} {place place' : Option Handle} {b d r : Branch}

theorem Holds.childKey_eq (h : t.Holds place b) : t.childKey b.top = .ok b.key := by
  rw [childKey, node_eq_ok_iff.mpr h.get]
  simp only [bind, Except.bind, name_node, tag_node]
  rfl

theorem mapM_childKey_eq {parts : List Branch} (h : ∀ part ∈ parts, t.Holds place part) :
    (parts.map top).mapM t.childKey = .ok (parts.map key) := by
  rw [List.mapM_map]
  exact mapM_eq_ok fun part hp => (h part hp).childKey_eq

/-! ### Children that match -/

theorem foldlM_collectChild_eq {wanted : List ChildKey} {parts : List Branch}
    {acc : List (ChildKey × Handle)} (h : ∀ part ∈ parts, t.Holds place part)
    (hnodup : (acc.map (·.1) ++ parts.map key).Nodup) (hsub : parts.map key ⊆ wanted) :
    (parts.map top).foldlM (t.collectChild wanted) acc
      = .ok (acc ++ parts.map fun part => (part.key, part.top)) := by
  induction parts generalizing acc with
  | nil =>
    rw [List.map_nil, List.map_nil, List.append_nil]
    rfl
  | cons part parts ih =>
    rw [List.map_cons] at hnodup hsub
    have hkey : part.key ∈ wanted ∧ part.key ∉ acc.map (·.1) := by
      refine ⟨hsub (List.mem_cons_self ..), fun hmem => ?_⟩
      exact (List.nodup_append.mp hnodup).2.2 _ hmem _ (List.mem_cons_self ..) rfl
    rw [List.map_cons, List.foldlM_cons, collectChild, (h part (List.mem_cons_self ..)).childKey_eq]
    simp only [bind, Except.bind, if_pos hkey]
    refine (ih (fun c hc => h c (List.mem_cons_of_mem _ hc)) ?_ ?_).trans ?_
    · rw [List.map_append, List.map_singleton, List.append_assoc]
      exact hnodup
    · exact fun k hk => hsub (List.mem_cons_of_mem _ hk)
    · rw [List.map_cons, List.append_assoc]
      rfl

/-- Children that have the wanted keys, no key twice, are found in the order of these. -/
theorem matchChildren_eq_ok {parts l : List Branch} (h : ∀ part ∈ parts, t.Holds place part)
    (hl : l.Perm parts) (hnodup : (l.map key).Nodup) :
    t.matchChildren (l.map key) (parts.map top) = .ok (l.map top) := by
  have hkeys : (l.map key).Perm (parts.map key) := hl.map key
  have hfound : t.keyedChildren (l.map key) (parts.map top)
      = .ok (parts.map fun part => (part.key, part.top)) :=
    foldlM_collectChild_eq h (hkeys.nodup_iff.mp hnodup) hkeys.symm.subset
  rw [matchChildren, hfound]
  simp only [bind, Except.bind]
  rw [List.mapM_map]
  refine mapM_eq_ok fun part hp => ?_
  have hlookup : (parts.map fun part => (part.key, part.top)).lookup part.key = some part.top := by
    refine lookup_of_mem ?_ (List.mem_map.mpr ⟨part, hl.mem_iff.mp hp, rfl⟩)
    rw [List.map_map]
    exact hkeys.nodup_iff.mp hnodup
  simp only [Function.comp, hlookup]
  rfl

/-- Children that were matched have the wanted keys, and no key is wanted twice. -/
theorem map_key_of_matchChildren {wanted : List ChildKey} {children : List Handle}
    {l : List Branch} (h : t.matchChildren wanted children = .ok (l.map top))
    (hlen : children.length = wanted.length) (hl : ∀ part ∈ l, t.Holds place part) :
    l.map key = wanted ∧ wanted.Nodup := by
  obtain ⟨found, hkeyed, hfound⟩ := forall₂_of_matchChildren h
  refine ⟨?_, (hkeyed.perm hlen).nodup_iff.mp hkeyed.nodup⟩
  have hkey : List.Forall₂ (fun part key => key = part.key) l wanted := by
    refine forall₂_imp_of_mem (List.forall₂_map_right_iff.mp hfound).flip fun part hp key hkey => ?_
    obtain ⟨left, right, rfl, _⟩ := List.lookup_eq_some_iff.mp hkey
    have heq := hkeyed.key_eq (key, part.top) (List.mem_append_right _ (List.mem_cons_self ..))
    rw [(hl part hp).childKey_eq, Except.ok.injEq] at heq
    exact heq.symm
  rw [← map_eq_map_of_forall₂ (g := id) hkey, List.map_id]

/-! ### Plans -/

/-- The step of the plan for one child. -/
theorem rearrangement_of_child {bound : Nat} (hb : t.Holds place b) (hr : b.Shuffles r)
    (h : r.operator? ≠ none → t.rearrangementWithin target bound b.top d.top = .ok r.orders) :
    (do
      if (← t.node b.top).isLiteral then
        return []
      else
        t.rearrangementWithin target bound b.top d.top) = .ok r.orders := by
  rw [node_eq_ok_iff.mpr hb.get]
  simp only [bind, Except.bind, isLiteral_node, ← hr.operator?]
  cases hop : r.operator? with
  | none =>
    cases r with
    | literal id tag text =>
      rw [orders]
      rfl
    | compound => cases hop
  | some operator => exact h (by rw [hop]; simp)

/-- The steps of the plan for all children: each is to write down the part that the child
becomes. -/
theorem rearrangements_of_children {bound : Nat} (hb : t.Holds place b) (hr : b.Shuffles r)
    (hlen : r.parts.length = d.parts.length)
    (h : ∀ old ∈ b.parts, ∀ part child, (part, child) ∈ r.parts.zip d.parts →
      old.Shuffles part → part.operator? ≠ none →
      t.rearrangementWithin target bound old.top child.top = .ok part.orders) :
    ((r.parts.map top).zip (d.parts.map top)).mapM (fun (child, targetChild) => do
      if (← t.node child).isLiteral then
        return []
      else
        t.rearrangementWithin target bound child targetChild) = .ok (r.parts.map orders) := by
  refine mapM_zip_eq_ok hlen fun part child hpair => ?_
  obtain ⟨old, hold, hshuffles⟩ := hr.exists_of_mem_parts (List.of_mem_zip hpair).1
  have hplan := rearrangement_of_child (hb.part hold) hshuffles
    (h old hold part child hpair hshuffles)
  rwa [← hshuffles.top] at hplan

/-- If there is an order of the branch that matches the target, the plan is to write it
down. -/
theorem Holds.rearrangementWithin_eq {bound : Nat} (hb : t.Holds place b)
    (hbound : b.handles.length ≤ bound) (hr : b.Shuffles r) (hd : target.Holds place' d)
    (hmatches : r.Matches d) :
    t.rearrangementWithin target bound b.top d.top = .ok r.orders := by
  induction bound generalizing place place' b r d with
  | zero => exact absurd (List.length_pos_of_ne_nil b.handles_ne_nil) (by omega)
  | succ bound ih =>
    obtain ⟨hname, hkeys, hnodup, hbelow⟩ := hmatches
    obtain ⟨l, hl, hlr⟩ := hr.exists_aligned
    have hlkeys : l.map key = r.parts.map key :=
      (map_eq_map_of_forall₂ (hlr.imp fun _ _ h => h.key)).symm
    have hltops : l.map top = r.parts.map top :=
      (map_eq_map_of_forall₂ (hlr.imp fun _ _ h => h.top)).symm
    have hlen : b.parts.length = r.parts.length := hl.length_eq.symm.trans hlr.length_eq
    have hlen' : r.parts.length = d.parts.length := by
      simpa using congrArg List.length hkeys
    have hbname : b.name = d.name := (congrArg ChildKey.name hr.key).symm.trans hname
    have hmatch : t.matchChildren (d.parts.map key) (b.parts.map top) = .ok (r.parts.map top) := by
      rw [← hkeys, ← hlkeys, ← hltops]
      exact matchChildren_eq_ok (fun part hp => hb.part hp) hl (hlkeys ▸ hnodup)
    have hchildren := rearrangements_of_children hb hr hlen'
      fun old hold part child hpair hshuffles hop =>
        ih (hb.part hold) (length_le_of_mem_parts hold hbound) hshuffles
          (hd.part (List.of_mem_zip hpair).2) (hbelow part child hpair hop)
    rw [rearrangementWithin, node_eq_ok_iff.mpr hb.get, node_eq_ok_iff.mpr hd.get]
    simp only [bind, Except.bind, name_node, children_node, hbname, List.length_map, hlen, hlen',
      mapM_childKey_eq fun part hp => hd.part hp, hmatch] at hchildren ⊢
    rw [if_neg (by simp), hchildren, orders_eq]
    cases hparts : b.parts with
    | nil =>
      rw [hparts, eq_comm, List.length_nil, List.length_eq_zero_iff] at hlen
      rw [hlen]
      rfl
    | cons part parts =>
      have hne : r.parts ≠ [] := by
        rw [← List.length_pos_iff, ← hlen, hparts]
        exact Nat.succ_pos _
      rw [if_neg (by simp), if_neg (by simpa using hne), hr.top, List.flatMap_def]
      rfl

theorem rearrangement_eq_ok (hb : t.Bears place b) (hr : b.Shuffles r) (hd : target.Bears place' d)
    (hmatches : r.Matches d) : t.rearrangement target b.top d.top = .ok r.orders :=
  hb.holds.rearrangementWithin_eq hb.length_le_walkBound hr hd.holds hmatches

/-- The parts that the plans for the children bring about, next to each other. -/
theorem exists_of_plans {l children : List Branch} {plans : List (List (Handle × List Handle))}
    (hlen : l.length = children.length)
    (h : List.Forall₂ (fun (pair : Branch × Branch) plan => ∃ r, pair.1.Shuffles r ∧
      (r.operator? ≠ none → r.Matches pair.2) ∧ plan = r.orders) (l.zip children) plans) :
    ∃ order, List.Forall₂ Shuffles l order ∧
      (∀ part child, (part, child) ∈ order.zip children → part.operator? ≠ none →
        part.Matches child) ∧ plans = order.map orders := by
  induction l generalizing children plans with
  | nil =>
    rw [List.zip_nil_left] at h
    cases h
    exact ⟨[], .nil, by simp, rfl⟩
  | cons b l ih =>
    cases children with
    | nil => cases hlen
    | cons d children =>
      rw [List.zip_cons_cons] at h
      cases h with
      | cons hhead htail =>
        obtain ⟨r, hr, hmatches, rfl⟩ := hhead
        obtain ⟨order, horder, hall, rfl⟩ := ih (Nat.succ.inj hlen) htail
        refine ⟨r :: order, .cons hr horder, ?_, rfl⟩
        intro part child hpair
        rw [List.zip_cons_cons, List.mem_cons] at hpair
        rcases hpair with heq | hpair
        · cases heq
          exact hmatches
        · exact hall part child hpair

theorem exists_of_rearrangement_of_child {bound : Nat} {plan : List (Handle × List Handle)}
    (hb : t.Holds place b)
    (h : (do
      if (← t.node b.top).isLiteral then
        return []
      else
        t.rearrangementWithin target bound b.top d.top) = .ok plan)
    (hplan : ∀ plan, t.rearrangementWithin target bound b.top d.top = .ok plan →
      ∃ r, b.Shuffles r ∧ r.Matches d ∧ plan = r.orders) :
    ∃ r, b.Shuffles r ∧ (r.operator? ≠ none → r.Matches d) ∧ plan = r.orders := by
  obtain ⟨node, hnode, h⟩ := exists_of_bind_eq_ok h
  rw [node_eq_ok_iff, hb.get, Option.some_inj] at hnode
  subst hnode
  cases b with
  | literal id tag text =>
    cases h
    refine ⟨.literal id tag text, .refl _, fun hop => absurd rfl hop, ?_⟩
    rw [orders]
  | compound id tag operator parts =>
    obtain ⟨r, hr, hmatches, hplan⟩ := hplan plan h
    exact ⟨r, hr, fun _ => hmatches, hplan⟩

/-- The plan for a compound, put together from the plans for its children, is to write down
an order of it. -/
theorem Holds.exists_of_children {bound : Nat} {reordered : List Handle}
    {plans : List (List (Handle × List Handle))} (hb : t.Holds place b) (hname : b.name = d.name)
    (hlen : b.parts.length = d.parts.length) (hne : b.parts ≠ [])
    (hreordered : t.matchChildren (d.parts.map key) (b.parts.map top) = .ok reordered)
    (hplans : (reordered.zip (d.parts.map top)).mapM (fun (child, targetChild) => do
      if (← t.node child).isLiteral then
        return []
      else
        t.rearrangementWithin target bound child targetChild) = .ok plans)
    (h : ∀ part ∈ b.parts, ∀ child ∈ d.parts, ∀ plan,
      t.rearrangementWithin target bound part.top child.top = .ok plan →
      ∃ r, part.Shuffles r ∧ r.Matches child ∧ plan = r.orders) :
    ∃ r, b.Shuffles r ∧ r.Matches d ∧ plans.flatten ++ [(b.top, reordered)] = r.orders := by
  have hlen' : (b.parts.map top).length = (d.parts.map key).length := by
    rwa [List.length_map, List.length_map]
  obtain ⟨l, hl, rfl⟩ := exists_perm_of_perm_map (perm_of_matchChildren hreordered hlen')
  obtain ⟨hkeys, hnodup⟩ := map_key_of_matchChildren hreordered hlen'
    fun part hp => hb.part (hl.mem_iff.mp hp)
  have hplans := forall₂_of_mapM hplans
  rw [List.zip_map, List.forall₂_map_left_iff] at hplans
  obtain ⟨order, horder, hbelow, rfl⟩ := exists_of_plans (hl.length_eq.trans hlen) <| by
    refine forall₂_imp_of_mem hplans ?_
    rintro ⟨part, child⟩ hpair plan hplan
    obtain ⟨hpart, hchild⟩ := List.of_mem_zip hpair
    have hpart := hl.mem_iff.mp hpart
    exact exists_of_rearrangement_of_child (hb.part hpart) hplan (h part hpart child hchild)
  obtain ⟨r, hr, rfl⟩ := Shuffles.exists_of_aligned hl horder
  have hrKeys : r.parts.map key = d.parts.map key :=
    (map_eq_map_of_forall₂ (horder.imp fun _ _ h => h.key)).trans hkeys
  have hrTops : r.parts.map top = l.map top :=
    map_eq_map_of_forall₂ (horder.imp fun _ _ h => h.top)
  have hrName : r.name = d.name := (congrArg ChildKey.name hr.key).trans hname
  have hnonempty : r.parts.isEmpty = false := by
    rw [List.isEmpty_eq_false_iff, ← List.length_pos_iff, ← horder.length_eq, hl.length_eq]
    exact List.length_pos_of_ne_nil hne
  refine ⟨r, hr, .intro hrName hrKeys (hrKeys ▸ hnodup) hbelow, ?_⟩
  rw [orders_eq, hnonempty, hrTops, hr.top, List.flatMap_def]
  rfl

/-- Whatever is planned is to write down an order of the branch that matches the
target. -/
theorem Holds.exists_of_rearrangementWithin {bound : Nat} {plan : List (Handle × List Handle)}
    (hb : t.Holds place b) (hd : target.Holds place' d)
    (h : t.rearrangementWithin target bound b.top d.top = .ok plan) :
    ∃ r, b.Shuffles r ∧ r.Matches d ∧ plan = r.orders := by
  induction bound generalizing place place' b d plan with
  | zero => cases h
  | succ bound ih =>
    rw [rearrangementWithin, node_eq_ok_iff.mpr hb.get, node_eq_ok_iff.mpr hd.get] at h
    obtain ⟨here, hhere, h⟩ := exists_of_bind_eq_ok h
    obtain ⟨there, hthere, h⟩ := exists_of_bind_eq_ok h
    cases hhere
    cases hthere
    rw [name_node, name_node, children_node, children_node, List.length_map, List.length_map] at h
    split at h
    · cases h
    · next hsame =>
      rw [not_or, not_not, not_not] at hsame
      obtain ⟨hname, hlen⟩ := hsame
      split at h
      · next hempty =>
        -- there are no children on either side
        cases h
        have hnil : b.parts = [] := by simpa using hempty
        rw [hnil, List.length_nil, eq_comm, List.length_eq_zero_iff] at hlen
        refine ⟨b, .refl b, .of_parts_eq_nil hname hnil hlen, ?_⟩
        rw [orders_eq, hnil]
        rfl
      · next hne =>
        obtain ⟨wanted, hwanted, h⟩ := exists_of_bind_eq_ok h
        obtain ⟨reordered, hreordered, h⟩ := exists_of_bind_eq_ok h
        obtain ⟨plans, hplans, h⟩ := exists_of_bind_eq_ok h
        cases h
        rw [mapM_childKey_eq fun part hp => hd.part hp, Except.ok.injEq] at hwanted
        subst hwanted
        obtain ⟨r, hr, hmatches, hplan⟩ := hb.exists_of_children hname hlen (by simpa using hne)
          hreordered hplans fun part hpart child hchild _ => ih (hb.part hpart) (hd.part hchild)
        exact ⟨r, hr, hmatches, hplan⟩

theorem exists_of_rearrangement {plan : List (Handle × List Handle)} (hb : t.Bears place b)
    (hd : target.Bears place' d) (h : t.rearrangement target b.top d.top = .ok plan) :
    ∃ r, b.Shuffles r ∧ r.Matches d ∧ plan = r.orders :=
  hb.holds.exists_of_rearrangementWithin hd.holds h

/-! ### Failures -/

theorem failsWith_foldlM_collectChild {wanted : List ChildKey} {parts : List Branch}
    (acc : List (ChildKey × Handle)) (h : ∀ part ∈ parts, t.Holds place part) :
    FailsWith .mismatchedChildren ((parts.map top).foldlM (t.collectChild wanted) acc) := by
  induction parts generalizing acc with
  | nil => exact .ok acc
  | cons part parts ih =>
    rw [List.map_cons, List.foldlM_cons, collectChild, (h part (List.mem_cons_self ..)).childKey_eq]
    refine .bind ?_ fun acc' _ => ih acc' fun c hc => h c (List.mem_cons_of_mem _ hc)
    refine .bind (.ok _) fun key _ => ?_
    split
    · exact .ok _
    · exact .error

theorem failsWith_matchChildren {wanted : List ChildKey} {parts : List Branch}
    (h : ∀ part ∈ parts, t.Holds place part) :
    FailsWith .mismatchedChildren (t.matchChildren wanted (parts.map top)) := by
  refine .bind (failsWith_foldlM_collectChild [] h) fun found _ => .mapM fun key _ => ?_
  split
  · exact .ok _
  · exact .error

theorem Holds.failsWith_rearrangementWithin {bound : Nat} (hb : t.Holds place b)
    (hbound : b.handles.length ≤ bound) (hd : target.Holds place' d) :
    FailsWith .mismatchedChildren (t.rearrangementWithin target bound b.top d.top) := by
  induction bound generalizing place place' b d with
  | zero => exact absurd (List.length_pos_of_ne_nil b.handles_ne_nil) (by omega)
  | succ bound ih =>
    rw [rearrangementWithin, node_eq_ok_iff.mpr hb.get, node_eq_ok_iff.mpr hd.get]
    refine .bind (.ok _) fun here hhere => .bind (.ok _) fun there hthere => ?_
    cases hhere
    cases hthere
    rw [children_node, children_node]
    split
    · exact .error
    · next hsame =>
      rw [not_or, not_not, not_not, List.length_map, List.length_map] at hsame
      split
      · exact .ok _
      · rw [mapM_childKey_eq fun part hp => hd.part hp]
        refine .bind (.ok _) fun wanted hwanted => ?_
        cases hwanted
        refine .bind (failsWith_matchChildren fun part hp => hb.part hp) fun reordered hre => ?_
        have hperm := perm_of_matchChildren hre (by
          rw [List.length_map, List.length_map]
          exact hsame.2)
        refine .bind (.mapM ?_) fun _ _ => .ok _
        rintro ⟨child, targetChild⟩ hpair
        obtain ⟨hchild, htarget⟩ := List.of_mem_zip hpair
        obtain ⟨part, hp, rfl⟩ := List.mem_map.mp (hperm.mem_iff.mp hchild)
        obtain ⟨other, hother, rfl⟩ := List.mem_map.mp htarget
        refine .bind ?_ fun node _ => ?_
        · rw [node_eq_ok_iff.mpr (hb.part hp).get]
          exact .ok _
        · split
          · exact .ok _
          · exact ih (hb.part hp) (length_le_of_mem_parts hp hbound) (hd.part hother)

/-- The only cause for which there is no plan is that the branches do not match. -/
theorem failsWith_rearrangement (hb : t.Bears place b) (hd : target.Bears place' d) :
    FailsWith .mismatchedChildren (t.rearrangement target b.top d.top) :=
  hb.holds.failsWith_rearrangementWithin hb.length_le_walkBound hd.holds

/-! ### Outcomes -/

/-- The second store has an order of the branch in place of the branch, and is the same
everywhere else. -/
structure Reorders (t t' : Tree) (place : Option Handle) (b r : Branch) : Prop where
  shuffles : b.Shuffles r
  bears : t'.Bears place r
  same : t.SameExcept t' b.handles

theorem Reorders.refl (hb : t.Bears place b) : t.Reorders t place b b :=
  ⟨.refl b, hb, .refl t _⟩

/-- From one order of the branch to another. -/
theorem Reorders.trans {t'' : Tree} {s : Branch} (h : t.Reorders t' place b r)
    (h' : t'.Reorders t'' place r s) : t.Reorders t'' place b s :=
  ⟨h.shuffles.trans h'.shuffles, h'.bears,
    h.same.trans (h'.same.mono h.shuffles.handles_perm.subset)⟩

/-- The order says what the store is. -/
theorem Reorders.unique {t'' : Tree} (h : t.Reorders t' place b r)
    (h' : t.Reorders t'' place b r) : t' = t'' := by
  have hsame := h'.same.symm.trans h.same
  exact hsame.eq fun id hid => h'.bears.holds.get_eq h.bears.holds id
    (h.shuffles.handles_perm.mem_iff.mpr hid)

end Tree

namespace Edit

open Branch

variable {t t' target : Tree} {place place' : Option Handle} {b d r : Branch}

/-- Rearranging, where an order of the branch matches the target. -/
theorem run_rearrange (hb : t.Bears place b) (hr : b.Shuffles r) (hd : target.Bears place' d)
    (hmatches : r.Matches d) :
    ∃ t', (rearrange b.top target d.top).run t = .ok () t' ∧ t.Reorders t' place b r := by
  obtain ⟨t', hrun, hr', hsame⟩ := run_orders hb hr
  refine ⟨t', ?_, hr, hr', hsame⟩
  rw [rearrange, run_bind_ok (run_ask (s := t) (Tree.rearrangement_eq_ok hb hr hd hmatches))]
  exact hrun

/-- What was rearranged is an order of the branch that matches the target. -/
theorem exists_of_run_rearrange (hb : t.Bears place b) (hd : target.Bears place' d)
    (hrun : (rearrange b.top target d.top).run t = .ok () t') :
    ∃ r, r.Matches d ∧ t.Reorders t' place b r := by
  cases hplan : t.rearrangement target b.top d.top with
  | error e =>
    rw [rearrange, run_bind_error (run_ask_error (s := t) hplan)] at hrun
    cases hrun
  | ok plan =>
    obtain ⟨r, hr, hmatches, _⟩ := Tree.exists_of_rearrangement hb hd hplan
    obtain ⟨t'', hrun', hreorders⟩ := run_rearrange hb hr hd hmatches
    rw [hrun] at hrun'
    cases hrun'
    exact ⟨r, hmatches, hreorders⟩

/-- Where no order of the branch matches the target, nothing is changed. -/
theorem run_rearrange_of_mismatch (hb : t.Bears place b) (hd : target.Bears place' d)
    (hno : ¬∃ r, b.Shuffles r ∧ r.Matches d) :
    (rearrange b.top target d.top).run t = .error .mismatchedChildren t := by
  cases hplan : t.rearrangement target b.top d.top with
  | error e =>
    obtain rfl := Tree.failsWith_rearrangement hb hd e hplan
    rw [rearrange]
    exact run_bind_error (run_ask_error hplan)
  | ok plan =>
    obtain ⟨r, hr, hmatches, _⟩ := Tree.exists_of_rearrangement hb hd hplan
    exact absurd ⟨r, hr, hmatches⟩ hno

end Edit

end FormulaEditor
