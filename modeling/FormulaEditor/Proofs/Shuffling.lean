/-
Branches in another order.

A branch is shuffled by putting the parts of each of its compounds into another
order.  The nodes are the same ones, and what is below a node stays below it.  This
is what happens to the branches of a store that is rearranged:

* `Branch.Shuffles` — the same branch in another order;
* `Branch.orders` — the child lists to write in order to bring a store there, deeper
  nodes first, and `Edit.run_orders` for the outcome;
* `Tree.Permutes.exists_shuffles` — stores that differ in the order of child lists
  bear shuffled branches.
-/
import FormulaEditor.Proofs.Permuting

namespace FormulaEditor

namespace Branch

/-- The second branch is the first one in another order: at each compound the parts,
themselves in another order, are permuted. -/
inductive Shuffles : Branch → Branch → Prop
  | literal (id : Handle) (tag : Tag) (text : String) :
      Shuffles (literal id tag text) (literal id tag text)
  | compound (id : Handle) (tag : Tag) (operator : Operator) {parts mid order : List Branch} :
      List.Forall₂ Shuffles parts mid → mid.Perm order →
      Shuffles (compound id tag operator parts) (compound id tag operator order)

namespace Shuffles

variable {b r : Branch}

theorem top (h : b.Shuffles r) : r.top = b.top := by
  cases h <;> rfl

theorem operator? (h : b.Shuffles r) : r.operator? = b.operator? := by
  cases h <;> rfl

theorem refl (b : Branch) : b.Shuffles b := by
  induction b with
  | literal id tag text => exact .literal id tag text
  | compound id tag operator parts ih =>
    exact .compound id tag operator (List.forall₂_same.mpr ih) (.refl parts)

/-- The parts of the topmost compound may be permuted once more. -/
theorem permute {id : Handle} {tag : Tag} {operator : Operator} {parts order : List Branch}
    (h : b.Shuffles (Branch.compound id tag operator parts)) (hperm : parts.Perm order) :
    b.Shuffles (Branch.compound id tag operator order) := by
  cases h with
  | compound _ _ _ hall hmid => exact .compound id tag operator hall (hmid.trans hperm)

theorem of_perm {id : Handle} {tag : Tag} {operator : Operator} {parts order : List Branch}
    (hperm : parts.Perm order) :
    (Branch.compound id tag operator parts).Shuffles (Branch.compound id tag operator order) :=
  (refl _).permute hperm

/-- Every part of the shuffled branch comes from a part of the branch. -/
theorem exists_of_mem_parts (h : b.Shuffles r) {part : Branch} (hp : part ∈ r.parts) :
    ∃ old ∈ b.parts, old.Shuffles part := by
  cases h with
  | literal => exact absurd hp List.not_mem_nil
  | compound id tag operator hall hperm => exact exists_of_mem_forall₂ hall (hperm.mem_iff.mpr hp)

/-- The parts of the branch in an order in which they go with those of the shuffled
one. -/
theorem exists_aligned (h : b.Shuffles r) :
    ∃ l, l.Perm b.parts ∧ List.Forall₂ Shuffles l r.parts := by
  cases h with
  | literal => exact ⟨[], .refl _, .nil⟩
  | compound id tag operator hall hperm =>
    obtain ⟨l, hl, hparts⟩ := List.perm_comp_forall₂ hperm.symm hall.flip
    exact ⟨l, hparts, hl.flip⟩

theorem of_aligned (id : Handle) (tag : Tag) (operator : Operator) {parts l order : List Branch}
    (hl : l.Perm parts) (h : List.Forall₂ Shuffles l order) :
    (Branch.compound id tag operator parts).Shuffles (.compound id tag operator order) := by
  obtain ⟨mid, hmid, horder⟩ := List.perm_comp_forall₂ hl.symm h
  exact .compound id tag operator hmid horder

theorem exists_of_aligned {l order : List Branch} (hl : l.Perm b.parts)
    (h : List.Forall₂ Shuffles l order) : ∃ r, b.Shuffles r ∧ r.parts = order := by
  cases b with
  | literal id tag text =>
    obtain rfl := hl.eq_nil
    cases h
    exact ⟨_, .literal id tag text, rfl⟩
  | compound id tag operator parts => exact ⟨_, .of_aligned id tag operator hl h, rfl⟩

/-- Any order of a branch can be brought back. -/
theorem symm (h : b.Shuffles r) : r.Shuffles b := by
  induction b generalizing r with
  | literal id tag text =>
    cases h
    exact .literal id tag text
  | compound id tag operator parts ih =>
    cases h with
    | compound _ _ _ hall hperm =>
      exact .of_aligned id tag operator hperm
        (forall₂_imp_of_mem hall fun part hp mid hmid => ih part hp hmid).flip

/-- An order of an order is one of the branch. -/
theorem trans {s : Branch} (h : b.Shuffles r) (h' : r.Shuffles s) : b.Shuffles s := by
  induction b generalizing r s with
  | literal id tag text =>
    cases h
    exact h'
  | compound id tag operator parts ih =>
    cases h with
    | compound _ _ _ hall hperm =>
      cases h' with
      | compound _ _ _ hall' hperm' =>
        -- the second order of each part, in the order before the first permutation
        obtain ⟨mid, hmid, hmidPerm⟩ := List.perm_comp_forall₂ hperm hall'
        refine .compound id tag operator ?_ (hmidPerm.trans hperm')
        exact forall₂_comp_of_mem hall hmid fun part hp _ _ => ih part hp

/-- The nodes are the same ones. -/
theorem handles_perm (h : b.Shuffles r) : r.handles.Perm b.handles := by
  induction b generalizing r with
  | literal =>
    cases h
    exact .refl _
  | compound id tag operator parts ih =>
    cases h with
    | compound _ _ _ hall hperm =>
      rw [handles, handles]
      have hparts := perm_flatMap_of_forall₂
        (forall₂_imp_of_mem hall fun part hp mid hmid => ih part hp hmid)
      exact ((hperm.symm.flatMap_right handles).trans hparts).cons id

end Shuffles

/-! ### Child lists to write -/

/-- The child lists of a branch, each with the node it is for, deeper nodes first.
Nodes without children are left out. -/
def orders : Branch → List (Handle × List Handle)
  | literal _ _ _ => []
  | compound id _ _ parts =>
    parts.flatMap orders ++ if parts.isEmpty then [] else [(id, parts.map top)]

theorem orders_eq (b : Branch) : b.orders
    = b.parts.flatMap orders ++ if b.parts.isEmpty then [] else [(b.top, b.parts.map top)] := by
  cases b with
  | literal =>
    rw [orders]
    rfl
  | compound => rw [orders, parts, top]

end Branch

namespace Edit

open Branch

variable {t : Tree} {place : Option Handle}

/-- Writing the child lists of branches one after the other, when it is known what it
does for each of them. -/
theorem run_forM_orders {l m : List Branch} (hbears : t.BearsAll place l)
    (h : List.Forall₂ Shuffles l m)
    (hstep : ∀ b ∈ l, ∀ r, b.Shuffles r → ∀ t : Tree, t.Bears place b →
      ∃ t', (r.orders.forM fun (id, children) => replaceChildren id children).run t = .ok () t' ∧
        t'.Bears place r ∧ t.SameExcept t' b.handles) :
    ∃ t', ((m.flatMap orders).forM fun (id, children) => replaceChildren id children).run t
        = .ok () t' ∧
      t'.BearsAll place m ∧ t.SameExcept t' (l.flatMap handles) := by
  induction h generalizing t with
  | nil => exact ⟨t, rfl, ⟨by simp, by simp⟩, .refl t _⟩
  | @cons b r l m hbr hlm ih =>
    obtain ⟨t₁, hrun₁, hr, hsame₁⟩ :=
      hstep b (List.mem_cons_self ..) r hbr t (hbears.bears (List.mem_cons_self ..))
    -- the other branches have no node in common with this one
    have hrest : t₁.BearsAll place l :=
      hbears.tail.congr fun id hid => hsame₁.get? id fun hmem => hbears.notMem_of_mem_head hmem hid
    obtain ⟨t₂, hrun₂, hall, hsame₂⟩ := ih hrest fun c hc => hstep c (List.mem_cons_of_mem _ hc)
    have hperm := perm_flatMap_of_forall₂ (hlm.imp fun _ _ h => h.handles_perm)
    refine ⟨t₂, ?_, ⟨?_, ?_⟩, ?_⟩
    · rw [List.flatMap_cons, List.forM_eq_forM, List.forM_append, ← List.forM_eq_forM,
        run_bind_ok hrun₁]
      exact hrun₂
    · intro c hc
      rcases List.mem_cons.mp hc with rfl | hc
      · refine hr.holds.congr fun id hid => hsame₂.get? id fun hmem => ?_
        exact hbears.notMem_of_mem_head (hbr.handles_perm.mem_iff.mp hid) hmem
      · exact hall.holds c hc
    · rw [List.flatMap_cons]
      have hnodup := hbears.nodup
      rw [List.flatMap_cons] at hnodup
      exact (hbr.handles_perm.append hperm).nodup_iff.mpr hnodup
    · rw [List.flatMap_cons]
      exact (hsame₁.mono (List.subset_append_left ..)).trans
        (hsame₂.mono (List.subset_append_right ..))

/-- Writing the child list of a compound whose parts stand ready. -/
theorem run_order {id : Handle} {tag : Tag} {operator : Operator} {old : List Handle}
    {order : List Branch} (hid : t.get? id = some ⟨.compound operator old, place, tag⟩)
    (hall : t.BearsAll (some id) order) (hnot : id ∉ order.flatMap handles)
    (hold : order = [] → old = []) :
    ∃ t', ((if order.isEmpty then [] else [(id, order.map top)]).forM
        fun (id, children) => replaceChildren id children).run t = .ok () t' ∧
      t'.Bears place (compound id tag operator order) ∧
      t.SameExcept t' (compound id tag operator order).handles := by
  have hnodup : (compound id tag operator order).handles.Nodup := by
    rw [handles]
    exact List.nodup_cons.mpr ⟨hnot, hall.nodup⟩
  cases order with
  | nil =>
    -- without children there is nothing to write
    obtain rfl := hold rfl
    exact ⟨t, rfl, ⟨.intro hid hall.holds, hnodup⟩, .refl t _⟩
  | cons c order =>
    obtain ⟨t', hrun, hsame, hid', hall'⟩ := run_replaceChildren_branches hid
      (fun c hc => ⟨some id, hall.holds c hc⟩) hall.nodup hnot
    refine ⟨t', (run_bind_ok hrun).trans rfl, ⟨.intro hid' hall'.holds, hnodup⟩, hsame.mono ?_⟩
    rw [handles]
    exact List.cons_subset_cons id (map_top_subset _)

/-- Writing the child lists of a shuffled branch brings it about, and leaves the rest of
the store alone. -/
theorem run_orders {b r : Branch} (h : t.Bears place b) (hr : b.Shuffles r) :
    ∃ t', (r.orders.forM fun (id, children) => replaceChildren id children).run t = .ok () t' ∧
      t'.Bears place r ∧ t.SameExcept t' b.handles := by
  induction b generalizing t place r with
  | literal id tag text =>
    cases hr
    rw [orders]
    exact ⟨t, rfl, h, .refl t _⟩
  | compound id tag operator parts ih =>
    have hhandles := hr.handles_perm
    cases hr with
    | @compound _ _ _ _ mid order hall hperm =>
      obtain ⟨l, (hl : l.Perm parts), (horder : List.Forall₂ Shuffles l order)⟩ :=
        (Shuffles.compound id tag operator hall hperm).exists_aligned
      have hparts : t.BearsAll (some id) parts := h.parts
      obtain ⟨t₁, hrun₁, hall₁, hsame₁⟩ := run_forM_orders (hparts.perm hl.symm) horder
        fun part hp r hr t ht => ih part (hl.mem_iff.mp hp) ht hr
      have hsub : l.flatMap handles ⊆ parts.flatMap handles := (hl.flatMap_right handles).subset
      -- the node itself has its old children until the end
      have hid : t₁.get? id = some ⟨.compound operator (parts.map top), place, tag⟩ :=
        (hsame₁.get? id fun hmem => top_notMem_parts h.nodup (hsub hmem)).trans h.get
      obtain ⟨t₂, hrun₂, hb, hsame₂⟩ := run_order hid hall₁
        (top_notMem_parts (hhandles.nodup_iff.mpr h.nodup)) fun hnil => by
          rw [List.map_eq_nil_iff, ← List.length_eq_zero_iff, ← hl.length_eq, horder.length_eq,
            hnil]
          rfl
      refine ⟨t₂, ?_, hb, (hsame₁.mono ?_).trans (hsame₂.mono hhandles.subset)⟩
      · rw [orders, List.forM_eq_forM, List.forM_append, ← List.forM_eq_forM, run_bind_ok hrun₁]
        exact hrun₂
      · rw [handles]
        exact fun other hother => List.mem_cons_of_mem _ (hsub hother)

end Edit

namespace Tree

open Branch

variable {t t' : Tree} {place : Option Handle} {b : Branch}

theorem Permutes.exists_holds (h : t.Permutes t') (hb : t.Holds place b) :
    ∃ b', t'.Holds place b' ∧ b.Shuffles b' := by
  induction b generalizing place with
  | literal id tag text =>
    obtain ⟨⟨content, parent, tag'⟩, hget, hnode⟩ := h.get hb.get
    obtain rfl : parent = place := hnode.parent
    obtain rfl : tag' = tag := hnode.tag
    cases hnode.content with
    | literal =>
      exact ⟨.literal id tag' text, .intro hget fun part hp => absurd hp List.not_mem_nil,
        .literal id tag' text⟩
  | compound id tag operator parts ih =>
    obtain ⟨⟨content, parent, tag'⟩, hget, hnode⟩ := h.get hb.get
    obtain rfl : parent = place := hnode.parent
    obtain rfl : tag' = tag := hnode.tag
    cases hnode.content with
    | @compound _ _ children hperm =>
      -- each part in another order, and then these in the order of the new child list
      have hmid : ∃ mid, List.Forall₂
          (fun part part' => t'.Holds (some id) part' ∧ part.Shuffles part') parts mid :=
        exists_forall₂ fun part hp => ih part hp (hb.part hp)
      obtain ⟨mid, hmid⟩ := hmid
      have htops : mid.map top = parts.map top :=
        map_eq_map_of_forall₂ (hmid.imp fun _ _ h => h.2.top)
      have hchildren : children.Perm (mid.map top) := htops ▸ hperm.symm
      obtain ⟨order, horder, rfl⟩ := exists_perm_of_perm_map hchildren
      refine ⟨.compound id tag' operator order, .intro hget ?_,
        .compound id tag' operator (hmid.imp fun _ _ h => h.2) horder.symm⟩
      intro part hp
      obtain ⟨_, _, hpart, _⟩ := exists_of_mem_forall₂ hmid (horder.mem_iff.mp hp)
      exact hpart

/-- A store that differs in the order of child lists bears the branch in another
order. -/
theorem Permutes.exists_shuffles (h : t.Permutes t') (hb : t.Bears place b) :
    ∃ b', t'.Bears place b' ∧ b.Shuffles b' := by
  obtain ⟨b', hb', hshuffles⟩ := h.exists_holds hb.holds
  exact ⟨b', ⟨hb', hshuffles.handles_perm.nodup_iff.mpr hb.nodup⟩, hshuffles⟩

end Tree

end FormulaEditor
