/-
What flattening does.

On a branch that the store bears, flattening leaves the flat form of that
branch, in the same place.  The slots of the nodes that were merged away are
vacated, and no slot outside of the branch is touched:

* `Branch.flat` — the flat form of a branch;
* `Branch.gathered`, `Branch.absorbed` — what a branch contributes to a chain
  above it, and the nodes that it gives up for that;
* `Edit.run_flatten` — the outcome of flattening.

Design notes: `Branch.flat` merges bottom-up, one level at a time, while the
edit collects the operands of a chain through all levels before it goes on
below them.  `Branch.map_flat_gathered` says that this comes to the same.
-/
import FormulaEditor.Proofs.Edit
import FormulaEditor.Tree.Flatten
import Mathlib.Data.List.Flatten
import Mathlib.Data.List.Perm.Basic

namespace FormulaEditor

namespace Branch

/-! ### Merging -/

/-- What a branch contributes to a chain of an operator: its parts if it has
that operator, and else itself. -/
def operands (operator : Operator) : Branch → List Branch
  | literal id tag text => [literal id tag text]
  | compound id tag own parts => if own = operator then parts else [compound id tag own parts]

/-- The parts of a compound after nested uses of its operator were merged. -/
def merged (operator : Operator) (parts : List Branch) : List Branch :=
  if operator.isAssociative then parts.flatMap (operands operator) else parts

/-- The branch with nested sums and products merged. -/
def flat : Branch → Branch
  | literal id tag text => literal id tag text
  | compound id tag operator parts => compound id tag operator (merged operator (parts.map flat))

theorem map_shape_operands (operator : Operator) (b : Branch) :
    (b.operands operator).map shape = b.shape.operands operator := by
  cases b with
  | literal => rw [operands, shape, Shape.operands, List.map_singleton, shape]
  | compound =>
    rw [operands, shape, Shape.operands]
    split
    · rfl
    · rw [List.map_singleton, shape]

theorem map_shape_merged (operator : Operator) (parts : List Branch) :
    (merged operator parts).map shape = Shape.merged operator (parts.map shape) := by
  rw [merged, Shape.merged]
  split
  · rw [List.map_flatMap, List.flatMap_map]
    exact List.flatMap_congr fun part _ => map_shape_operands operator part
  · rfl

/-- The flat form has the flat shape. -/
theorem shape_flat (b : Branch) : b.flat.shape = b.shape.flat := by
  induction b with
  | literal => rw [flat, shape, Shape.flat]
  | compound id tag operator parts ih =>
    rw [flat, shape, shape, Shape.flat, map_shape_merged, List.map_map, List.map_map]
    congr 2
    exact List.map_congr_left ih

@[simp] theorem top_flat (b : Branch) : b.flat.top = b.top := by
  cases b with
  | literal => rw [flat]
  | compound => rw [flat, top, top]

/-- A branch of a flat shape is left as it is. -/
theorem flat_eq_of_isFlat {b : Branch} (h : b.shape.IsFlat) : b.flat = b := by
  induction b with
  | literal => rw [flat]
  | compound id tag operator parts ih =>
    rw [shape] at h
    cases h with
    | compound hparts hne =>
      have hflat : parts.map flat = parts := by
        rw [List.map_congr_left fun part hp => ih part hp (hparts _ (List.mem_map_of_mem hp))]
        exact List.map_id' parts
      rw [flat, hflat, merged]
      split
      · -- none of the parts has operands of its own to contribute
        next ha =>
        have hoperands : ∀ part ∈ parts, part.operands operator = [part] := by
          intro part hp
          have hop := hne ha _ (List.mem_map_of_mem hp)
          rw [operator?_shape] at hop
          cases part with
          | literal => rw [operands]
          | compound _ _ own _ =>
            rw [operands, if_neg fun heq => hop (congrArg some heq)]
        rw [List.flatMap_congr hoperands, List.flatMap_singleton']
      · rfl

/-- Merging once is enough. -/
@[simp] theorem flat_flat (b : Branch) : b.flat.flat = b.flat := by
  refine flat_eq_of_isFlat ?_
  rw [shape_flat]
  exact Shape.isFlat_flat b.shape

theorem handles_operands_sublist (operator : Operator) (b : Branch) :
    ((b.operands operator).flatMap handles).Sublist b.handles := by
  cases b with
  | literal => rw [operands, List.flatMap_singleton]
  | compound =>
    rw [operands]
    split
    · rw [handles]
      exact List.sublist_cons_self ..
    · rw [List.flatMap_singleton]

/-- Flattening takes nodes out and leaves the others in order. -/
theorem handles_flat_sublist (b : Branch) : b.flat.handles.Sublist b.handles := by
  induction b with
  | literal => rw [flat]
  | compound id tag operator parts ih =>
    rw [flat, handles, handles, merged]
    refine List.Sublist.cons_cons id ?_
    split
    · rw [List.flatMap_assoc, List.flatMap_map]
      exact List.Sublist.flatMap_right parts fun part hp =>
        (handles_operands_sublist operator part.flat).trans (ih part hp)
    · rw [List.flatMap_map]
      exact List.Sublist.flatMap_right parts ih

/-! ### Gathering the operands of a chain -/

/-- What a branch contributes to a chain of an operator, to any depth. -/
def gathered (operator : Operator) : Branch → List Branch
  | literal id tag text => [literal id tag text]
  | compound id tag own parts =>
    if own = operator then parts.flatMap (gathered operator) else [compound id tag own parts]

/-- The nodes that a branch gives up for a chain of an operator. -/
def absorbed (operator : Operator) : Branch → List Handle
  | literal _ _ _ => []
  | compound id _ own parts =>
    if own = operator then id :: parts.flatMap (absorbed operator) else []

/-- Flattening what was gathered is gathering from what was flattened. -/
theorem map_flat_gathered {operator : Operator} (ha : operator.isAssociative = true)
    (b : Branch) : (b.gathered operator).map flat = b.flat.operands operator := by
  induction b with
  | literal => rw [gathered, List.map_singleton, flat, operands]
  | compound id tag own parts ih =>
    rw [gathered, flat, operands]
    split
    · next heq =>
      rw [heq, merged, if_pos ha, List.map_flatMap, List.flatMap_map]
      exact List.flatMap_congr ih
    · rw [List.map_singleton, flat]

/-- The parts of a compound after merging, before they are flattened. -/
def chained (operator : Operator) (parts : List Branch) : List Branch :=
  if operator.isAssociative then parts.flatMap (gathered operator) else parts

/-- The nodes that are merged into a compound above them. -/
def chainedAway (operator : Operator) (parts : List Branch) : List Handle :=
  if operator.isAssociative then parts.flatMap (absorbed operator) else []

theorem flat_compound (id : Handle) (tag : Tag) (operator : Operator) (parts : List Branch) :
    (compound id tag operator parts).flat
      = compound id tag operator ((chained operator parts).map flat) := by
  rw [flat, merged, chained]
  congr 1
  split
  · next ha =>
    rw [List.flatMap_map, List.map_flatMap]
    exact List.flatMap_congr fun part _ => (map_flat_gathered ha part).symm
  · rfl

/-- A branch consists of the nodes that it gives up and of what it
contributes. -/
theorem handles_perm_gathered (operator : Operator) (b : Branch) :
    b.handles.Perm (b.absorbed operator ++ (b.gathered operator).flatMap handles) := by
  induction b with
  | literal => rw [absorbed, gathered, List.flatMap_singleton, List.nil_append]
  | compound id tag own parts ih =>
    rw [absorbed, gathered]
    split
    · rw [handles, List.flatMap_assoc, List.cons_append]
      exact ((List.Perm.flatMap_left parts ih).trans (List.flatMap_append_perm ..).symm).cons id
    · rw [List.flatMap_singleton, List.nil_append]

theorem handles_perm_chained (operator : Operator) (parts : List Branch) :
    (parts.flatMap handles).Perm
      (chainedAway operator parts ++ (chained operator parts).flatMap handles) := by
  rw [chainedAway, chained]
  split
  · rw [List.flatMap_assoc]
    exact (List.Perm.flatMap_left parts fun part _ => handles_perm_gathered operator part).trans
      (List.flatMap_append_perm ..).symm
  · rw [List.nil_append]

theorem length_le_of_mem_chained {operator : Operator} {parts : List Branch} {c : Branch}
    (hc : c ∈ chained operator parts) : c.handles.length ≤ (parts.flatMap handles).length := by
  have hle := (List.sublist_flatten_of_mem (List.mem_map_of_mem (f := handles) hc)).length_le
  rw [(handles_perm_chained operator parts).length_eq, List.length_append, List.flatMap_def]
  omega

theorem nodup_handles_chained {id : Handle} {tag : Tag} {operator : Operator}
    {parts : List Branch} (h : (compound id tag operator parts).handles.Nodup) :
    (compound id tag operator (chained operator parts)).handles.Nodup := by
  have hperm := handles_perm_chained operator parts
  rw [handles, List.nodup_cons] at h ⊢
  exact ⟨fun hmem => h.1 (hperm.mem_iff.mpr (List.mem_append_right _ hmem)),
    (List.nodup_append.mp (hperm.nodup_iff.mp h.2)).2.1⟩

theorem holds_of_mem_gathered {t : Tree} {parent : Option Handle} {operator : Operator}
    {b c : Branch} (h : t.Holds parent b) (hc : c ∈ b.gathered operator) :
    ∃ place, t.Holds place c := by
  induction b generalizing parent with
  | literal =>
    rw [gathered, List.mem_singleton] at hc
    exact ⟨parent, hc ▸ h⟩
  | compound id tag own parts ih =>
    rw [gathered] at hc
    split at hc
    · obtain ⟨part, hp, hc⟩ := List.mem_flatMap.mp hc
      exact ih part hp (h.part hp) hc
    · rw [List.mem_singleton] at hc
      exact ⟨parent, hc ▸ h⟩

theorem holds_of_mem_chained {t : Tree} {parent : Option Handle} {operator : Operator}
    {parts : List Branch} {c : Branch} (h : ∀ part ∈ parts, t.Holds parent part)
    (hc : c ∈ chained operator parts) : ∃ place, t.Holds place c := by
  rw [chained] at hc
  split at hc
  · obtain ⟨part, hp, hc⟩ := List.mem_flatMap.mp hc
    exact holds_of_mem_gathered (h part hp) hc
  · exact ⟨parent, h c hc⟩

end Branch

namespace Tree

/-- The second store is the first one with these slots vacated. -/
structure Vacates (t t' : Tree) (ids : List Handle) : Prop where
  same : t.SameExcept t' ids
  gone : ∀ id ∈ ids, t'.get? id = none

theorem Vacates.nil (t : Tree) : t.Vacates t [] :=
  ⟨.refl t [], fun _ hid => absurd hid List.not_mem_nil⟩

theorem Vacates.trans {t t' t'' : Tree} {ids ids' : List Handle} (h : t.Vacates t' ids)
    (h' : t'.Vacates t'' ids') : t.Vacates t'' (ids ++ ids') := by
  refine ⟨(h.same.mono (List.subset_append_left ..)).trans
    (h'.same.mono (List.subset_append_right ..)), ?_⟩
  intro id hid
  by_cases hmem : id ∈ ids'
  · exact h'.gone id hmem
  · rw [h'.same.get? id hmem]
    exact h.gone id ((List.mem_append.mp hid).resolve_right hmem)

theorem Vacates.put {t t' : Tree} {ids : List Handle} (h : t.Vacates t' ids) {id : Handle}
    (hid : id.index < t'.slots.size) : t.Vacates (t'.put id none) (id :: ids) := by
  refine ⟨(h.same.mono (List.subset_cons_self ..)).trans ((SameExcept.put ..).mono (by simp)), ?_⟩
  intro other hother
  rw [get?_put]
  split
  · rfl
  · next hne =>
    exact h.gone other ((List.mem_cons.mp hother).resolve_left fun heq => hne ⟨heq, hid⟩)

/-- Those of the parts that are still there know their parent. -/
theorem Vacates.parent_eq {t t' : Tree} {parent : Option Handle} {parts : List Branch}
    {ids : List Handle} (h : t.Vacates t' ids) (hparts : t.BearsAll parent parts) :
    ∀ child ∈ parts.map Branch.top, ∀ node, t'.get? child = some node → node.parent = parent := by
  intro child hchild node hnode
  obtain ⟨part, hp, rfl⟩ := List.mem_map.mp hchild
  by_cases hmem : part.top ∈ ids
  · rw [h.gone _ hmem] at hnode
    exact absurd hnode (by simp)
  · rw [h.same.get? _ hmem, (hparts.holds part hp).get, Option.some_inj] at hnode
    rw [← hnode, Branch.parent_node]

/-- What parts contribute to a chain stays when the nodes merged away are
vacated. -/
theorem Vacates.exists_holds {t t' : Tree} {parent : Option Handle} {operator : Operator}
    {parts : List Branch} {c : Branch} (h : t.Vacates t' (Branch.chainedAway operator parts))
    (hparts : t.BearsAll parent parts) (hc : c ∈ Branch.chained operator parts) :
    ∃ place, t'.Holds place c := by
  have hnodup := (Branch.handles_perm_chained operator parts).nodup_iff.mp hparts.nodup
  obtain ⟨place, hplace⟩ := Branch.holds_of_mem_chained hparts.holds hc
  refine ⟨place, hplace.congr ?_⟩
  intro other hother
  refine h.same.get? other ?_
  intro hmem
  exact (List.nodup_append.mp hnodup).2.2 other hmem other
    (List.mem_flatMap.mpr ⟨c, hc, hother⟩) rfl

/-- In the second store a branch has taken the place of another one and made do
with its nodes.  Those that it has no use for are gone. -/
structure Reshapes (t t' : Tree) (parent : Option Handle) (b b' : Branch) : Prop where
  same : t.SameExcept t' b.handles
  holds : t'.Holds parent b'
  sub : b'.handles ⊆ b.handles
  gone : ∀ id ∈ b.handles, id ∉ b'.handles → t'.get? id = none

theorem Reshapes.refl {t : Tree} {parent : Option Handle} {b : Branch} (h : t.Holds parent b) :
    t.Reshapes t parent b b :=
  ⟨.refl t _, h, List.Subset.refl _, fun _ hid hnot => absurd hid hnot⟩

theorem Reshapes.trans {t t' t'' : Tree} {parent : Option Handle} {b b' b'' : Branch}
    (h : t.Reshapes t' parent b b') (h' : t'.Reshapes t'' parent b' b'') :
    t.Reshapes t'' parent b b'' := by
  refine ⟨h.same.trans (h'.same.mono h.sub), h'.holds, List.Subset.trans h'.sub h.sub, ?_⟩
  intro id hid hnot
  -- the node went away in the second step, or in the first one for good
  by_cases hmem : id ∈ b'.handles
  · exact h'.gone id hmem hnot
  · rw [h'.same.get? id hmem]
    exact h.gone id hid hmem

theorem Reshapes.bears_flat {t t' : Tree} {parent : Option Handle} {b : Branch}
    (h : t.Reshapes t' parent b b.flat) (hb : t.Bears parent b) : t'.Bears parent b.flat :=
  ⟨h.holds, hb.nodup.sublist (Branch.handles_flat_sublist b)⟩

/-- The same for several branches next to each other. -/
structure ReshapesAll (t t' : Tree) (parent : Option Handle) (l : List Branch)
    (f : Branch → Branch) : Prop where
  same : t.SameExcept t' (l.flatMap Branch.handles)
  each : ∀ b ∈ l, t'.Holds parent (f b) ∧ (f b).handles ⊆ b.handles ∧ (f b).top = b.top
  gone : ∀ id ∈ l.flatMap Branch.handles, id ∉ (l.map f).flatMap Branch.handles →
    t'.get? id = none

/-- Reshaping the parts of a compound reshapes the compound. -/
theorem ReshapesAll.compound {t t' : Tree} {parent : Option Handle} {id : Handle} {tag : Tag}
    {operator : Operator} {l : List Branch} {f : Branch → Branch}
    (hb : t.Bears parent (.compound id tag operator l)) (h : t.ReshapesAll t' (some id) l f) :
    t.Reshapes t' parent (.compound id tag operator l) (.compound id tag operator (l.map f)) := by
  have htops : (l.map f).map Branch.top = l.map Branch.top := by
    rw [List.map_map]
    exact List.map_congr_left fun b hb => (h.each b hb).2.2
  have hid : t'.get? id = t.get? id := h.same.get? id (Branch.top_notMem_parts hb.nodup)
  refine ⟨?_, .intro ?_ ?_, ?_, ?_⟩
  · rw [Branch.handles]
    exact h.same.mono (List.subset_cons_self ..)
  · rw [Branch.top, hid, Branch.node, htops]
    exact hb.get
  · intro b hb
    obtain ⟨c, hc, rfl⟩ := List.mem_map.mp hb
    exact (h.each c hc).1
  · rw [Branch.handles, Branch.handles, List.flatMap_map]
    refine List.cons_subset_cons id ?_
    intro other hother
    obtain ⟨b, hb, hother⟩ := List.mem_flatMap.mp hother
    exact List.mem_flatMap.mpr ⟨b, hb, (h.each b hb).2.1 hother⟩
  · intro other hother hnot
    rw [Branch.handles, List.mem_cons] at hother hnot
    rw [not_or] at hnot
    exact h.gone other (hother.resolve_left hnot.1) hnot.2

end Tree

namespace Edit

open Branch

variable {t : Tree} {parent : Option Handle} {operator : Operator} {bound : Nat}

/-! ### Collecting operands -/

/-- Collecting from branches one after the other, when it is known what it does
to each of them. -/
theorem run_mapM_operandsWithin (operator : Operator) {l : List Branch} (h : t.BearsAll parent l)
    (hstep : ∀ b ∈ l, ∀ t : Tree, t.Bears parent b →
      ∃ t', (operandsWithin operator bound b.top).run t
        = .ok ((b.gathered operator).map top) t' ∧ t.Vacates t' (b.absorbed operator)) :
    ∃ t', ((l.map top).mapM (operandsWithin operator bound)).run t
        = .ok (l.map fun b => (b.gathered operator).map top) t' ∧
      t.Vacates t' (l.flatMap (absorbed operator)) := by
  induction l generalizing t with
  | nil => exact ⟨t, rfl, .nil t⟩
  | cons b l ih =>
    obtain ⟨t₁, hrun, hvac⟩ := hstep b (List.mem_cons_self ..) t (h.bears (List.mem_cons_self ..))
    -- what was vacated belongs to `b`, so the other branches are still there
    have hrest : t₁.BearsAll parent l := by
      refine h.tail.congr ?_
      intro id hid
      refine hvac.same.get? id ?_
      intro hmem
      exact h.notMem_of_mem_head ((handles_perm_gathered operator b).mem_iff.mpr
        (List.mem_append_left _ hmem)) hid
    obtain ⟨t₂, hrun', hvac'⟩ := ih hrest fun c hc => hstep c (List.mem_cons_of_mem _ hc)
    refine ⟨t₂, ?_, hvac.trans hvac'⟩
    rw [List.map_cons, List.mapM_cons, run_bind_ok hrun, run_bind_ok hrun']
    rfl

theorem run_operandsWithin {b : Branch} (h : t.Bears parent b)
    (hbound : b.handles.length ≤ bound) :
    ∃ t', (operandsWithin operator bound b.top).run t = .ok ((b.gathered operator).map top) t' ∧
      t.Vacates t' (b.absorbed operator) := by
  induction b generalizing t parent bound with
  | literal id tag text =>
    obtain ⟨bound, rfl⟩ := exists_bound_eq_succ hbound
    rw [operandsWithin, run_bind_ok (run_node h.get), gathered, absorbed, if_neg]
    · exact ⟨t, rfl, .nil t⟩
    · simp [operator?]
  | compound id tag own parts ih =>
    obtain ⟨bound, rfl⟩ := exists_bound_eq_succ hbound
    rw [operandsWithin, run_bind_ok (run_node h.get), operator?_node, operator?, children_node,
      Branch.parts, gathered, absorbed]
    by_cases heq : own = operator
    · -- the node is merged away once its parts are collected
      rw [if_pos (congrArg some heq), if_pos heq, if_pos heq]
      have hparts : t.BearsAll (some id) parts := h.parts
      obtain ⟨t₁, hrun, hvac⟩ := run_mapM_operandsWithin operator hparts
        fun part hp t ht =>
          ih part hp ht (length_le_of_mem_parts (b := compound id tag own parts) hp hbound)
      have hlt : id.index < t₁.slots.size := hvac.same.size ▸ Tree.lt_size_of_get? h.get
      refine ⟨t₁.put id none, ?_, hvac.put hlt⟩
      show (_ >>= _ : Edit (List Handle)).run t = _
      rw [run_bind_ok hrun, top, run_bind_ok (run_vacate hlt), List.map_flatMap]
      rfl
    · rw [if_neg fun h => heq (Option.some_inj.mp h), if_neg heq, if_neg heq]
      exact ⟨t, rfl, .nil t⟩

/-- The new children of a compound node, before they are linked to it. -/
theorem run_mergedWithin (operator : Operator) {l : List Branch} (h : t.BearsAll parent l)
    (hbound : ∀ b ∈ l, b.handles.length ≤ bound) :
    ∃ t', (mergedWithin operator bound (l.map top)).run t
        = .ok ((chained operator l).map top) t' ∧ t.Vacates t' (chainedAway operator l) := by
  rw [mergedWithin, chained, chainedAway]
  split
  · obtain ⟨t', hrun, hvac⟩ := run_mapM_operandsWithin operator h
      fun b hb t ht => run_operandsWithin ht (hbound b hb)
    refine ⟨t', ?_, hvac⟩
    rw [run_bind_ok hrun, List.map_flatMap]
    rfl
  · exact ⟨t, rfl, .nil t⟩

/-! ### Flattening -/

/-- Linking a compound to its new children.  If they are the ones that it has,
nothing needs to be written, since they know their parent already. -/
theorem run_link {id : Handle} {old : List Handle} {tag : Tag} {l : List Branch}
    (hid : t.get? id = some ⟨.compound operator old, parent, tag⟩)
    (hold : ∀ child ∈ old, ∀ node, t.get? child = some node → node.parent = some id)
    (hl : ∀ b ∈ l, ∃ place, t.Holds place b) (hnodup : (id :: l.flatMap handles).Nodup) :
    ∃ t', (if l.map top ≠ old then replaceChildren id (l.map top) else pure ()).run t
        = .ok () t' ∧ t.SameExcept t' (id :: l.flatMap handles) ∧
      t'.Holds parent (compound id tag operator l) := by
  obtain ⟨hnot, hnodup⟩ := List.nodup_cons.mp hnodup
  by_cases heq : l.map top = old
  · subst heq
    refine ⟨t, by rw [if_neg (not_not.mpr rfl)]; rfl, .refl t _, .intro hid ?_⟩
    intro b hb
    obtain ⟨place, hplace⟩ := hl b hb
    have := hold b.top (List.mem_map_of_mem hb) _ hplace.get
    rw [parent_node] at this
    exact this ▸ hplace
  · rw [if_pos heq]
    obtain ⟨t', hrun, hsame, hid', hall⟩ := run_replaceChildren_branches hid hl hnodup hnot
    exact ⟨t', hrun, hsame.mono (List.cons_subset_cons id (map_top_subset _)),
      .intro hid' hall.holds⟩

/-- Merging at one node: the operands of its chain become its children. -/
theorem run_merge {id : Handle} {tag : Tag} {parts : List Branch}
    (h : t.Bears parent (compound id tag operator parts))
    (hbound : ∀ part ∈ parts, part.handles.length ≤ bound) :
    ∃ t₁ t₂, (mergedWithin operator bound (parts.map top)).run t
        = .ok ((chained operator parts).map top) t₁ ∧
      (if (chained operator parts).map top ≠ parts.map top then
        replaceChildren id ((chained operator parts).map top) else pure ()).run t₁ = .ok () t₂ ∧
      t.Reshapes t₂ parent (compound id tag operator parts)
        (compound id tag operator (chained operator parts)) := by
  have hparts : t.BearsAll (some id) parts := h.parts
  have hperm := handles_perm_chained operator parts
  have hnodup := hperm.nodup_iff.mp hparts.nodup
  have hid : id ∉ parts.flatMap handles := top_notMem_parts h.nodup
  obtain ⟨t₁, hrun₁, hvac⟩ := run_mergedWithin operator hparts hbound
  have hid₁ : t₁.get? id = some ⟨.compound operator (parts.map top), parent, tag⟩ := by
    rw [hvac.same.get? id fun hmem => hid (hperm.mem_iff.mpr (List.mem_append_left _ hmem))]
    exact h.get
  have hsub : (chained operator parts).flatMap handles ⊆ parts.flatMap handles := by
    intro other ho
    exact hperm.mem_iff.mpr (List.mem_append_right _ ho)
  obtain ⟨t₂, hrun₂, hsame, hholds₂⟩ := run_link hid₁ (hvac.parent_eq hparts)
    (fun c hc => hvac.exists_holds hparts hc)
    (List.nodup_cons.mpr ⟨fun hmem => hid (hsub hmem), (List.nodup_append.mp hnodup).2.1⟩)
  refine ⟨t₁, t₂, hrun₁, hrun₂, ?_, hholds₂, ?_, ?_⟩
  · rw [handles]
    refine (hvac.same.mono ?_).trans (hsame.mono (List.cons_subset_cons id hsub))
    intro other ho
    exact List.mem_cons_of_mem _ (hperm.mem_iff.mpr (List.mem_append_left _ ho))
  · rw [handles, handles]
    exact List.cons_subset_cons id hsub
  · intro other ho hnot
    rw [handles] at ho hnot
    rw [hsame.get? other hnot]
    rw [List.mem_cons, not_or] at hnot
    have := hperm.mem_iff.mp ((List.mem_cons.mp ho).resolve_left hnot.1)
    exact hvac.gone other ((List.mem_append.mp this).resolve_right hnot.2)

/-- Flattening branches one after the other, when it is known what it does to
each of them. -/
theorem run_forM_flattenWithin (bound : Nat) {l : List Branch} (h : t.BearsAll parent l)
    (hstep : ∀ b ∈ l, ∀ t : Tree, t.Bears parent b →
      ∃ t', (flattenWithin bound b.top).run t = .ok () t' ∧ t.Reshapes t' parent b b.flat) :
    ∃ t', ((l.map top).forM (flattenWithin bound)).run t = .ok () t' ∧
      t.ReshapesAll t' parent l flat := by
  induction l generalizing t with
  | nil => exact ⟨t, rfl, .refl t _, by simp, by simp⟩
  | cons b l ih =>
    obtain ⟨t₁, hrun, hb⟩ := hstep b (List.mem_cons_self ..) t (h.bears (List.mem_cons_self ..))
    have hrest : t₁.BearsAll parent l := by
      refine h.tail.congr ?_
      intro id hid
      exact hb.same.get? id fun hmem => h.notMem_of_mem_head hmem hid
    obtain ⟨t₂, hrun', hl⟩ := ih hrest fun c hc => hstep c (List.mem_cons_of_mem _ hc)
    refine ⟨t₂, ?_, ?_, ?_, ?_⟩
    · rw [List.map_cons, run_forM_cons, run_bind_ok hrun, hrun']
    · rw [List.flatMap_cons]
      exact (hb.same.mono (List.subset_append_left ..)).trans
        (hl.same.mono (List.subset_append_right ..))
    · intro c hc
      rcases List.mem_cons.mp hc with rfl | hc
      · refine ⟨hb.holds.congr fun id hid => ?_, hb.sub, top_flat c⟩
        exact hl.same.get? id (h.notMem_of_mem_head (hb.sub hid))
      · exact hl.each c hc
    · intro id hid hnot
      rw [List.map_cons, List.flatMap_cons, List.mem_append, not_or] at hnot
      rw [List.flatMap_cons, List.mem_append] at hid
      by_cases hmem : id ∈ l.flatMap handles
      · exact hl.gone id hmem hnot.2
      · rw [hl.same.get? id hmem]
        exact hb.gone id (hid.resolve_right hmem) hnot.1

/-- Flattening a branch that the store bears, to a sufficient depth.  Merging at
the top may give it parts from further down, so the induction is on the bound and
not on the branch. -/
theorem run_flattenWithin {b : Branch} (h : t.Bears parent b)
    (hbound : b.handles.length ≤ bound) :
    ∃ t', (flattenWithin bound b.top).run t = .ok () t' ∧ t.Reshapes t' parent b b.flat := by
  induction bound generalizing t parent b with
  | zero => exact absurd (List.length_pos_of_ne_nil b.handles_ne_nil) (by omega)
  | succ bound ih =>
    rw [flattenWithin, run_bind_ok (run_node h.get)]
    cases b with
    | literal id tag text =>
      rw [flat]
      exact ⟨t, rfl, .refl h.holds⟩
    | compound id tag operator parts =>
      obtain ⟨t₁, t₂, hrun₁, hrun₂, hmerge⟩ := run_merge h fun part hp =>
        length_le_of_mem_parts (b := compound id tag operator parts) hp hbound
      -- the operands of the chain are the parts from here on
      have h₂ : t₂.Bears parent (compound id tag operator (chained operator parts)) :=
        ⟨hmerge.holds, nodup_handles_chained h.nodup⟩
      have hlen₂ : ∀ c ∈ chained operator parts, c.handles.length ≤ bound := by
        intro c hc
        have := length_le_of_mem_chained hc
        rw [handles, List.length_cons] at hbound
        omega
      obtain ⟨t₃, hrun₃, hparts⟩ := run_forM_flattenWithin bound h₂.parts
        fun c hc t ht => ih ht (hlen₂ c hc)
      refine ⟨t₃, ?_, ?_⟩
      · show (_ >>= _ : Edit Unit).run t = _
        rw [run_bind_ok hrun₁]
        exact (run_ite_bind_ok hrun₂).trans hrun₃
      · rw [flat_compound]
        exact hmerge.trans (hparts.compound h₂)

theorem run_flatten_error {id : Handle} (h : t.get? id = none) :
    (flatten id).run t = .error .deadHandle t := by
  rw [flatten, run_bind_ok run_get, Tree.walkBound, flattenWithin]
  exact run_bind_error (run_node_error h)

/-- Flattening merges what can be merged in a branch, and leaves the rest of the
store alone. -/
theorem run_flatten {b : Branch} (h : t.Bears parent b) :
    ∃ t', (flatten b.top).run t = .ok () t' ∧ t.Reshapes t' parent b b.flat :=
  run_flattenWithin h h.length_le_walkBound

end Edit

end FormulaEditor
