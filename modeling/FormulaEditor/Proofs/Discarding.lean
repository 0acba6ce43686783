/-
Flattening uses live handles only.

A node is given up once its operands have been collected, and these are nodes of other parts of
the store, so the node is still there at that moment.  The same is true of the node that the
operands end up under.  So a look at every handle finds nothing wrong, and changes nothing:

* `Edit.run_operandsCheckedWithin`, `Edit.run_flattenCheckedWithin` — on a branch that the store
  bears, the steps with a look at every handle are the steps without;
* `Edit.run_flattenChecked` — so is flattening as a whole;
* `Text.finishes_flattenChecked` — it may take the place of flattening when a text is read.
-/
import FormulaEditor.Proofs.Reading

namespace FormulaEditor

namespace Edit

open Branch

variable {α : Type} {t : Tree} {parent : Option Handle} {operator : Operator} {bound : Nat}
  {l : List Branch}

/-! ### Steps on branches next to each other -/

theorem run_mapM_congr {f g : Handle → Edit α} (h : t.BearsAll parent l)
    (heq : ∀ b ∈ l, ∀ t : Tree, t.Bears parent b → (f b.top).run t = (g b.top).run t)
    (hstep : ∀ b ∈ l, ∀ t : Tree, t.Bears parent b →
      ∃ a t', (g b.top).run t = .ok a t' ∧ t.SameExcept t' b.handles) :
    ((l.map top).mapM f).run t = ((l.map top).mapM g).run t := by
  induction l generalizing t with
  | nil => rfl
  | cons b l ih =>
    have hb := h.bears (List.mem_cons_self ..)
    obtain ⟨a, t₁, hrun, hsame⟩ := hstep b (List.mem_cons_self ..) t hb
    have hrest : t₁.BearsAll parent l := h.tail.congr fun id hid =>
      hsame.get? id fun hmem => h.notMem_of_mem_head hmem hid
    have ih := ih hrest (fun c hc => heq c (List.mem_cons_of_mem _ hc)) fun c hc =>
      hstep c (List.mem_cons_of_mem _ hc)
    rw [List.map_cons, List.mapM_cons, List.mapM_cons, run_bind_ok hrun,
      run_bind_ok ((heq b (List.mem_cons_self ..) t hb).trans hrun)]
    simp only [EStateM.run, bind, EStateM.bind] at ih ⊢
    rw [ih]

theorem run_forM_congr {f g : Handle → Edit Unit} (h : t.BearsAll parent l)
    (heq : ∀ b ∈ l, ∀ t : Tree, t.Bears parent b → (f b.top).run t = (g b.top).run t)
    (hstep : ∀ b ∈ l, ∀ t : Tree, t.Bears parent b →
      ∃ t', (g b.top).run t = .ok () t' ∧ t.SameExcept t' b.handles) :
    ((l.map top).forM f).run t = ((l.map top).forM g).run t := by
  induction l generalizing t with
  | nil => rfl
  | cons b l ih =>
    have hb := h.bears (List.mem_cons_self ..)
    obtain ⟨t₁, hrun, hsame⟩ := hstep b (List.mem_cons_self ..) t hb
    have hrest : t₁.BearsAll parent l := h.tail.congr fun id hid =>
      hsame.get? id fun hmem => h.notMem_of_mem_head hmem hid
    rw [List.map_cons, run_forM_cons, run_forM_cons, run_bind_ok hrun,
      run_bind_ok ((heq b (List.mem_cons_self ..) t hb).trans hrun)]
    exact ih hrest (fun c hc => heq c (List.mem_cons_of_mem _ hc)) fun c hc =>
      hstep c (List.mem_cons_of_mem _ hc)

/-! ### Collecting operands -/

theorem run_discard {id : Handle} {found : Node} (h : t.get? id = some found) :
    (discard id).run t = .ok () (t.put id none) := by
  rw [discard, run_bind_ok (run_node h), run_vacate (Tree.lt_size_of_get? h)]

theorem absorbed_subset (operator : Operator) (b : Branch) : b.absorbed operator ⊆ b.handles :=
  fun _ hid => (handles_perm_gathered operator b).mem_iff.mpr (List.mem_append_left _ hid)

theorem run_mapM_operandsCheckedWithin (operator : Operator) (h : t.BearsAll parent l)
    (hbound : ∀ b ∈ l, b.handles.length ≤ bound)
    (heq : ∀ b ∈ l, ∀ t : Tree, t.Bears parent b →
      (operandsCheckedWithin operator bound b.top).run t
        = (operandsWithin operator bound b.top).run t) :
    ((l.map top).mapM (operandsCheckedWithin operator bound)).run t
      = ((l.map top).mapM (operandsWithin operator bound)).run t := by
  refine run_mapM_congr h heq fun b hb t ht => ?_
  obtain ⟨t', hrun, hvac⟩ : ∃ t', (operandsWithin operator bound b.top).run t = _ ∧ _ :=
    run_operandsWithin ht (hbound b hb)
  exact ⟨_, t', hrun, hvac.same.mono (absorbed_subset operator b)⟩

theorem run_operandsCheckedWithin {b : Branch} (h : t.Bears parent b)
    (hbound : b.handles.length ≤ bound) :
    (operandsCheckedWithin operator bound b.top).run t
      = (operandsWithin operator bound b.top).run t := by
  induction b generalizing t parent bound with
  | literal id tag text =>
    obtain ⟨bound, rfl⟩ := exists_bound_eq_succ hbound
    rw [operandsCheckedWithin, operandsWithin, run_bind_ok (run_node h.get),
      run_bind_ok (run_node h.get)]
    rfl
  | compound id tag own parts ih =>
    obtain ⟨bound, rfl⟩ := exists_bound_eq_succ hbound
    rw [operandsCheckedWithin, operandsWithin, run_bind_ok (run_node h.get),
      run_bind_ok (run_node h.get), operator?_node, operator?]
    by_cases heq : own = operator
    · rw [if_pos (congrArg some heq), if_pos (congrArg some heq), run_bind_ok (run_node h.get),
        children_node, Branch.parts]
      have hparts : t.BearsAll (some id) parts := h.parts
      have hlen : ∀ part ∈ parts, part.handles.length ≤ bound := fun part hp =>
        length_le_of_mem_parts (b := compound id tag own parts) hp hbound
      have hmapM := run_mapM_operandsCheckedWithin operator hparts hlen
        fun part hp t ht => ih part hp ht (hlen part hp)
      obtain ⟨t₁, hrun, hvac⟩ := run_mapM_operandsWithin operator hparts
        fun part hp t ht => run_operandsWithin ht (hlen part hp)
      -- the node itself was not among those given up
      have hid : t₁.get? id = _ := (hvac.same.get? id fun hmem => by
        obtain ⟨part, hp, hmem⟩ := List.mem_flatMap.mp hmem
        exact top_notMem_parts h.nodup
          (List.mem_flatMap.mpr ⟨part, hp, absorbed_subset operator part hmem⟩)).trans h.get
      rw [run_bind_ok (hmapM.trans hrun), run_bind_ok hrun, top, run_bind_ok (run_discard hid),
        run_bind_ok (run_vacate (Tree.lt_size_of_get? hid))]
    · rw [if_neg fun h => heq (Option.some_inj.mp h), if_neg fun h => heq (Option.some_inj.mp h)]

theorem run_mergedCheckedWithin (h : t.BearsAll parent l)
    (hbound : ∀ b ∈ l, b.handles.length ≤ bound) :
    (mergedCheckedWithin operator bound (l.map top)).run t
      = (mergedWithin operator bound (l.map top)).run t := by
  have hmapM := run_mapM_operandsCheckedWithin operator h hbound
    fun b hb t ht => run_operandsCheckedWithin ht (hbound b hb)
  rw [mergedCheckedWithin, mergedWithin]
  split
  · simp only [EStateM.run, bind, EStateM.bind] at hmapM ⊢
    rw [hmapM]
  · rfl

/-! ### Flattening -/

/-- With a look at every handle, flattening a branch that the store bears comes to the same. -/
theorem run_flattenCheckedWithin {b : Branch} (h : t.Bears parent b)
    (hbound : b.handles.length ≤ bound) :
    (flattenCheckedWithin bound b.top).run t = (flattenWithin bound b.top).run t := by
  induction bound generalizing t parent b with
  | zero => exact absurd (List.length_pos_of_ne_nil b.handles_ne_nil) (by omega)
  | succ bound ih =>
    rw [flattenCheckedWithin, flattenWithin, run_bind_ok (run_node h.get),
      run_bind_ok (run_node h.get)]
    cases b with
    | literal id tag text => rfl
    | compound id tag operator parts =>
      have hlen : ∀ part ∈ parts, part.handles.length ≤ bound := fun part hp =>
        length_le_of_mem_parts (b := compound id tag operator parts) hp hbound
      have hparts : t.BearsAll (some id) parts := h.parts
      obtain ⟨t₁, t₂, hrun₁, hrun₂, hmerge⟩ := run_merge h hlen
      obtain ⟨_, hrun, hvac⟩ := run_mergedWithin operator hparts hlen
      cases hrun₁.symm.trans hrun
      -- the node is not among those merged away
      have hid : t₁.get? id = some ((compound id tag operator parts).node parent) :=
        (hvac.same.get? id fun hmem => top_notMem_parts h.nodup
          ((handles_perm_chained operator parts).mem_iff.mpr
            (List.mem_append_left _ hmem))).trans h.get
      have h₂ : t₂.Bears parent (compound id tag operator (chained operator parts)) :=
        ⟨hmerge.holds, nodup_handles_chained h.nodup⟩
      have hid₂ : t₂.get? id = _ := h₂.get
      have hlen₂ : ∀ c ∈ chained operator parts, c.handles.length ≤ bound := by
        intro c hc
        have := length_le_of_mem_chained hc
        rw [handles, List.length_cons] at hbound
        omega
      have hforM := run_forM_congr (f := flattenCheckedWithin bound) (g := flattenWithin bound)
        h₂.parts (fun c hc t ht => ih ht (hlen₂ c hc)) fun c hc t ht => by
          obtain ⟨t', hrun, hc⟩ := run_flattenWithin ht (hlen₂ c hc)
          exact ⟨t', hrun, hc.same⟩
      show (_ >>= _ : Edit Unit).run t = (_ >>= _ : Edit Unit).run t
      rw [run_bind_ok (run_node h.get), children_node, Branch.parts,
        run_bind_ok ((run_mergedCheckedWithin hparts hlen).trans hrun₁), run_bind_ok hrun₁]
      rw [top, run_bind_ok (run_node hid), children_node, Branch.parts]
      refine (run_ite_bind_ok hrun₂).trans (.trans ?_ (run_ite_bind_ok hrun₂).symm)
      rw [run_bind_ok (run_node hid₂), children_node, Branch.parts]
      exact hforM

/-- Every handle that flattening uses has a live node, also the handles of the nodes that it gives
up. -/
theorem run_flattenChecked {b : Branch} (h : t.Bears parent b) :
    (flattenChecked b.top).run t = (flatten b.top).run t :=
  run_flattenCheckedWithin h h.length_le_walkBound

theorem keeps_discard {P : Tree → Prop}
    (hvacate : ∀ {t : Tree} (id : Handle), P t → P (t.put id none)) (id : Handle) :
    Keeps P (discard id) :=
  .bind (keeps_node id) fun _ => keeps_vacate hvacate id

theorem keeps_operandsCheckedWithin {P : Tree → Prop}
    (hvacate : ∀ {t : Tree} (id : Handle), P t → P (t.put id none)) (operator : Operator)
    (bound : Nat) (id : Handle) : Keeps P (operandsCheckedWithin operator bound id) := by
  induction bound generalizing id with
  | zero => exact .throw _
  | succ bound ih =>
    refine .bind (keeps_node id) fun here => ?_
    split
    · exact .bind (keeps_node id) fun again => .bind (.mapM fun child _ => ih child) fun _ =>
        .bind (keeps_discard hvacate id) fun _ => .pure _
    · exact .pure _

theorem keeps_mergedCheckedWithin {P : Tree → Prop}
    (hvacate : ∀ {t : Tree} (id : Handle), P t → P (t.put id none)) (operator : Operator)
    (bound : Nat) (children : List Handle) :
    Keeps P (mergedCheckedWithin operator bound children) := by
  rw [mergedCheckedWithin]
  split
  · exact .bind (.mapM fun child _ => keeps_operandsCheckedWithin hvacate operator bound child)
      fun _ => .pure _
  · exact .pure _

theorem keeps_flattenCheckedWithin {P : Tree → Prop} (hP : Tree.IgnoresLinks P)
    (hvacate : ∀ {t : Tree} (id : Handle), P t → P (t.put id none)) (bound : Nat)
    (id : Handle) : Keeps P (flattenCheckedWithin bound id) := by
  induction bound generalizing id with
  | zero => exact .throw _
  | succ bound ih =>
    refine .bind (keeps_node id) fun here => ?_
    split
    · exact .pure _
    · refine .bind (keeps_node id) fun again =>
        .bind (keeps_mergedCheckedWithin hvacate _ bound _) fun merged =>
        .bind (keeps_node id) fun again => ?_
      have hrest : Keeps P (do (← node id).children.forM (flattenCheckedWithin bound)) :=
        .bind (keeps_node id) fun again => .forM fun child _ => ih child
      split
      · exact .bind (keeps_replaceChildren hP id merged) fun _ => hrest
      · exact hrest

end Edit

namespace Text

/-- Flattening with a look at every handle may take the place of flattening. -/
theorem finishes_flattenChecked : Finishes Edit.flattenChecked Branch.flat where
  top := finishes_flatten.top
  literal := finishes_flatten.literal
  group := finishes_flatten.group
  gains {t t' id tag operator left right} h := by
    obtain ⟨t'', hrun, hgains⟩ := finishes_flatten.gains h
    refine ⟨t'', ?_, hgains⟩
    rw [← hrun]
    exact Edit.run_flattenChecked (h.bears.bears (List.mem_singleton_self _))
  keeps slots tags id := .bind Edit.keeps_get fun _ =>
    Edit.keeps_flattenCheckedWithin (Tree.ignoresLinks_hasSlots slots tags)
      (fun id h => h.vacate id) _ id

end Text

end FormulaEditor
