/-
What copies are made of, and trees that are grown from a shape.

A copy has the texts, the operators and the tags of what it was made from, and
handles of its own.  Without handles the two branches are the same
(`Branch.bare`).  A copy as a tree of its own has a slot for each of its nodes,
in depth-first order, so there is only one such tree (`Tree.IsCopy.eq`):

* `Edit.adds_addCopy` — a copy as new nodes of another store;
* `Tree.IsFilledFrom`, `Tree.HasNoGaps` — copying leaves no slot vacant;
* `Tree.exists_copyOf` — a copy as a tree of its own;
* `Tree.exists_arranged` — a copy with the parts of its topmost node in another
  order;
* `Tree.exists_ofShape` — a tree of any shape, which holds nothing else.
-/
import FormulaEditor.Proofs.Growth
import FormulaEditor.Proofs.Keeping

namespace FormulaEditor

namespace Branch

/-- The branch without its handles. -/
def bare : Branch → Branch
  | literal _ tag text => literal ⟨0⟩ tag text
  | compound _ tag operator parts => compound ⟨0⟩ tag operator (parts.map bare)

@[simp] theorem shape_bare (b : Branch) : b.bare.shape = b.shape := by
  induction b with
  | literal => rw [bare, shape, shape]
  | compound id tag operator parts ih =>
    rw [bare, shape, shape, List.map_map]
    exact congrArg _ (List.map_congr_left ih)

theorem shape_eq_of_bare_eq {b c : Branch} (h : b.bare = c.bare) : b.shape = c.shape := by
  rw [← shape_bare b, h, shape_bare]

theorem length_handles_bare (b : Branch) : b.bare.handles.length = b.handles.length := by
  induction b with
  | literal => rw [bare, handles, handles]; rfl
  | compound id tag operator parts ih =>
    rw [bare, handles, handles, List.length_cons, List.length_cons, List.length_flatMap,
      List.length_flatMap, List.map_map]
    exact congrArg (·.sum + 1) (List.map_congr_left ih)

/-- Branches side by side that are the same without handles, and have the same
handles when these are read off one after the other. -/
theorem eq_of_map_bare_eq {l m : List Branch} (hbare : l.map bare = m.map bare)
    (hhandles : l.flatMap handles = m.flatMap handles)
    (heq : ∀ b ∈ l, ∀ c, b.bare = c.bare → b.handles = c.handles → b = c) : l = m := by
  induction l generalizing m with
  | nil => exact (List.map_eq_nil_iff.mp hbare.symm).symm
  | cons b l ih =>
    cases m with
    | nil => simp at hbare
    | cons c m =>
      rw [List.map_cons, List.map_cons, List.cons.injEq] at hbare
      rw [List.flatMap_cons, List.flatMap_cons] at hhandles
      -- as many of the handles belong to the one branch as to the other
      have hlen : b.handles.length = c.handles.length := by
        rw [← length_handles_bare, hbare.1, length_handles_bare]
      obtain ⟨hhead, htail⟩ := List.append_inj hhandles hlen
      rw [heq b (List.mem_cons_self ..) c hbare.1 hhead,
        ih hbare.2 htail fun d hd => heq d (List.mem_cons_of_mem _ hd)]

/-- A branch is determined by its handles and by what it is without them. -/
theorem eq_of_bare_eq {b c : Branch} (hbare : b.bare = c.bare) (hhandles : b.handles = c.handles) :
    b = c := by
  induction b generalizing c with
  | literal id tag text =>
    cases c with
    | compound => simp [bare] at hbare
    | literal =>
      simp only [bare, literal.injEq, true_and] at hbare
      simp only [handles, List.cons.injEq, and_true] at hhandles
      rw [hbare.1, hbare.2, hhandles]
  | compound id tag operator parts ih =>
    cases c with
    | literal => simp [bare] at hbare
    | compound =>
      simp only [bare, compound.injEq, true_and] at hbare
      simp only [handles, List.cons.injEq] at hhandles
      rw [hbare.1, hbare.2.1, hhandles.1,
        eq_of_map_bare_eq hbare.2.2 hhandles.2 fun b hb c => ih b hb]

/-- A new node like the topmost one. -/
def sprout (id : Handle) : Branch → Branch
  | literal _ tag text => literal id tag text
  | compound _ tag operator _ => compound id tag operator []

end Branch

namespace Edit

open Branch

variable {t t' source : Tree} {parent : Option Handle} {tag : Tag} {operator : Operator}

/-! ### Copies of branches -/

theorem gains_addLike (t : Tree) (parent : Option Handle) (b : Branch) :
    ∃ t', (addLike (b.node parent)).run t = .ok ⟨t.slots.size⟩ t' ∧
      t.Gains t' [b.sprout ⟨t.slots.size⟩] := by
  have htop : (b.sprout ⟨t.slots.size⟩).top = ⟨t.slots.size⟩ := by
    cases b <;> rfl
  have hparts : (b.sprout ⟨t.slots.size⟩).parts = [] := by
    cases b <;> rfl
  have hnode : (b.sprout ⟨t.slots.size⟩).node none
      = ⟨(b.node parent).content.childless, none, (b.node parent).tag⟩ := by
    cases b <;> rfl
  refine ⟨_, ?_, gains_allocate t _ t.nextTag htop hparts⟩
  rw [hnode]
  rfl

theorem adds_addCopyWithin {b : Branch} {bound : Nat} (h : source.Holds parent b)
    (hbound : b.handles.length ≤ bound) :
    Adds (addCopyWithin source bound b.top) fun c => c.bare = b.bare := by
  induction b generalizing parent bound with
  | literal id tag text =>
    obtain ⟨bound, rfl⟩ := exists_bound_eq_succ hbound
    intro t hroot
    obtain ⟨t₁, hrun₁, hgains₁⟩ := gains_addLike t parent (literal id tag text)
    refine ⟨t₁, _, ?_, hgains₁, ?_⟩
    · rw [addCopyWithin, run_bind_ok (run_ofExcept_node h.get), run_bind_ok hrun₁]
      rfl
    · show ((literal id tag text).sprout _).bare = _
      rw [sprout, bare, bare]
  | compound id tag operator parts ih =>
    obtain ⟨bound, rfl⟩ := exists_bound_eq_succ hbound
    intro t hroot
    obtain ⟨t₁, hrun₁, hgains₁⟩ := gains_addLike t parent (compound id tag operator parts)
    have hcopy : ∀ part ∈ parts,
        Adds (addCopyWithin source bound part.top) fun c => c.bare = part.bare := by
      intro part hp
      exact ih part hp (h.part hp)
        (length_le_of_mem_parts (b := compound id tag operator parts) hp hbound)
    obtain ⟨t₂, copies, hrun₂, hgains₂, hcopies⟩ := gains_forM_attach hgains₁ hroot hcopy
    refine ⟨t₂, _, ?_, hgains₂, ?_⟩
    · rw [addCopyWithin, run_bind_ok (run_ofExcept_node h.get), run_bind_ok hrun₁, children_node,
        Branch.parts, List.forM_eq_forM, List.forM_map, ← List.forM_eq_forM, run_bind_ok hrun₂]
      rfl
    · show (compound _ tag operator ([] ++ copies)).bare = _
      rw [List.nil_append, bare, bare, map_eq_map_of_forall₂ hcopies]

/-- New branches become the children of a new compound, all at once. -/
theorem gains_replaceChildren {id : Handle} {l : List Branch}
    (h : t.Gains t' (compound id tag operator [] :: l)) :
    ∃ t'', (replaceChildren id (l.map top)).run t' = .ok () t'' ∧
      t.Gains t'' [compound id tag operator l] := by
  have hb := h.bears.bears (List.mem_cons_self ..)
  have hnot : id ∉ l.flatMap handles := h.bears.notMem_of_mem_head (top_mem_handles _)
  have hhandles : [compound id tag operator l].flatMap handles
      = (compound id tag operator [] :: l).flatMap handles := by
    rw [List.flatMap_singleton, List.flatMap_cons, handles, handles]
    rfl
  obtain ⟨t'', hrun, hsame, hid, hall⟩ := run_replaceChildren_branches hb.get
    (fun c hc => ⟨none, h.bears.tail.holds c hc⟩) h.bears.tail.nodup hnot
  refine ⟨t'', hrun, h.change (hsame.mono ?_) ⟨?_, ?_⟩ ?_ ?_⟩
  · rw [← hhandles, List.flatMap_singleton, handles]
    exact List.cons_subset_cons id (map_top_subset l)
  · intro c hc
    rw [List.mem_singleton.mp hc]
    exact .intro hid hall.holds
  · rw [hhandles]
    exact h.bears.nodup
  · rw [hhandles]
  · rw [hhandles]
    exact fun _ hmem hno => absurd hmem hno

theorem run_addCopy_error {id : Handle} (h : source.get? id = none) :
    (addCopy source id).run t = .error .deadHandle t := by
  rw [addCopy, Tree.walkBound, addCopyWithin]
  exact run_bind_error (run_ask_error (Tree.node_of_get?_eq_none h))

/-- A copy of a branch, wherever it is put. -/
theorem adds_addCopy {b : Branch} (h : source.Bears parent b) :
    Adds (addCopy source b.top) fun c => c.bare = b.bare :=
  adds_addCopyWithin h.holds h.length_le_walkBound

end Edit

namespace Tree

open Branch

variable {t : Tree} {parent : Option Handle} {b : Branch}

/-! ### Compact trees -/

/-- No slot from `start` on is vacant, and no tag has been given out. -/
structure IsFilledFrom (start nextTag : Nat) (t : Tree) : Prop where
  nextTag_eq : t.nextTag = nextTag
  isSome : ∀ id : Handle, start ≤ id.index → id.index < t.slots.size →
    (t.get? id).isSome = true

theorem IsFilledFrom.push {start nextTag : Nat} (node : Node) (h : IsFilledFrom start nextTag t) :
    IsFilledFrom start nextTag (t.push node) := by
  refine ⟨h.nextTag_eq, ?_⟩
  intro id hstart hid
  rw [Tree.push, Array.size_push] at hid
  rw [get?_push]
  split
  · rfl
  · exact h.isSome id hstart (by omega)

theorem ignoresLinks_isFilledFrom (start nextTag : Nat) :
    IgnoresLinks (IsFilledFrom start nextTag) where
  put {t id node node'} h _ _ := by
    refine ⟨h.nextTag_eq, ?_⟩
    intro other hstart hother
    rw [size_slots_put] at hother
    rw [get?_put]
    split
    · rfl
    · exact h.isSome other hstart hother
  root _ h := ⟨h.nextTag_eq, h.isSome⟩

theorem keeps_addCopy_isFilledFrom (start nextTag : Nat) (source : Tree) (id : Handle) :
    Keeps (IsFilledFrom start nextTag) (Edit.addCopy source id) :=
  Edit.keeps_addCopy (ignoresLinks_isFilledFrom start nextTag) (fun node h => h.push node) source id

/-- No slot is vacant, and no tag has been given out. -/
structure HasNoGaps (nextTag : Nat) (t : Tree) : Prop where
  nextTag_eq : t.nextTag = nextTag
  isSome : ∀ id : Handle, id.index < t.slots.size → (t.get? id).isSome = true

theorem hasNoGaps_iff {nextTag : Nat} : HasNoGaps nextTag t ↔ IsFilledFrom 0 nextTag t :=
  ⟨fun h => ⟨h.nextTag_eq, fun id _ => h.isSome id⟩,
    fun h => ⟨h.nextTag_eq, fun id => h.isSome id (Nat.zero_le _)⟩⟩

theorem hasNoGaps_empty (nextTag : Nat) : HasNoGaps nextTag (empty nextTag) :=
  ⟨rfl, fun _ h => absurd h (Nat.not_lt_zero _)⟩

theorem HasNoGaps.push {nextTag : Nat} (node : Node) (h : HasNoGaps nextTag t) :
    HasNoGaps nextTag (t.push node) :=
  hasNoGaps_iff.mpr ((hasNoGaps_iff.mp h).push node)

theorem ignoresLinks_hasNoGaps (nextTag : Nat) : IgnoresLinks (HasNoGaps nextTag) where
  put h hget htag := hasNoGaps_iff.mpr
    ((ignoresLinks_isFilledFrom 0 nextTag).put (hasNoGaps_iff.mp h) hget htag)
  root _ h := ⟨h.nextTag_eq, h.isSome⟩

/-- Handles in order that fill a range of slots are the numbers of these slots. -/
theorem eq_map_range'_of_inOrder {ids : List Handle} {start stop : Nat} (h : InOrder ids)
    (hmem : ∀ id : Handle, id ∈ ids ↔ start ≤ id.index ∧ id.index < stop) :
    ids = (List.range' start (stop - start)).map Handle.mk := by
  have hrange : InOrder ((List.range' start (stop - start)).map Handle.mk) :=
    List.pairwise_map.mpr List.pairwise_lt_range'
  have hiff : ∀ id, id ∈ ids ↔ id ∈ (List.range' start (stop - start)).map Handle.mk := by
    intro id
    rw [hmem, List.mem_map]
    constructor
    · rintro ⟨hstart, hstop⟩
      exact ⟨id.index, List.mem_range'_1.mpr ⟨hstart, by omega⟩, rfl⟩
    · rintro ⟨index, hindex, rfl⟩
      obtain ⟨hstart, hstop⟩ := List.mem_range'_1.mp hindex
      exact ⟨hstart, show index < stop by omega⟩
  -- two lists in order with the same members are the same
  exact List.Perm.eq_of_pairwise (fun _ _ _ _ hlt hgt => absurd hlt (Nat.lt_asymm hgt)) h hrange
    ((List.perm_ext_iff_of_nodup h.nodup hrange.nodup).mpr hiff)

/-- The branch is all there is in the store, no slot is vacant, and the nodes
are in depth-first order of their handles. -/
structure IsCompact (t : Tree) (b : Branch) : Prop extends t.IsWhole b where
  isSome : ∀ id : Handle, id.index < t.slots.size → (t.get? id).isSome = true
  inOrder : InOrder b.handles

/-- The handles are the numbers of all slots. -/
theorem IsCompact.handles_eq (h : t.IsCompact b) :
    b.handles = (List.range t.slots.size).map Handle.mk := by
  have hmem : ∀ id : Handle, id ∈ b.handles ↔ 0 ≤ id.index ∧ id.index < t.slots.size := fun id =>
    ⟨fun hid => ⟨Nat.zero_le _, lt_size_of_isSome (h.bears.holds.isSome id hid)⟩,
      fun hid => h.mem id (h.isSome id hid.2)⟩
  rw [eq_map_range'_of_inOrder h.inOrder hmem, Nat.sub_zero, List.range_eq_range']

/-- The store holds a copy of the branch and nothing else. -/
structure IsCopy (copy : Tree) (nextTag : Nat) (b : Branch) : Prop where
  nextTag_eq : copy.nextTag = nextTag
  exists_isCompact : ∃ c, copy.IsCompact c ∧ c.bare = b.bare

/-- There is one copy of a branch. -/
theorem IsCopy.eq {copy copy' : Tree} {nextTag : Nat} {c : Branch} (h : copy.IsCopy nextTag b)
    (h' : copy'.IsCopy nextTag c) (hbare : b.bare = c.bare) : copy = copy' := by
  obtain ⟨d, hd, hdb⟩ := h.exists_isCompact
  obtain ⟨e, he, hec⟩ := h'.exists_isCompact
  have hde : d.bare = e.bare := hdb.trans (hbare.trans hec.symm)
  have hsize : copy'.slots.size = copy.slots.size := by
    have hlen := (length_handles_bare d).symm.trans
      ((congrArg (fun f : Branch => f.handles.length) hde).trans (length_handles_bare e))
    rwa [hd.handles_eq, he.handles_eq, List.length_map, List.length_map, List.length_range,
      List.length_range, eq_comm] at hlen
  obtain rfl : d = e := eq_of_bare_eq hde (by rw [hd.handles_eq, he.handles_eq, hsize])
  -- what is not a node of the branch is past the last slot in both
  have hsame : copy'.SameExcept copy d.handles := by
    refine ⟨hsize.symm, hd.root.trans he.root.symm, h.nextTag_eq.trans h'.nextTag_eq.symm, ?_⟩
    intro id hid
    have hdead : ∀ {t : Tree}, t.IsCompact d → t.get? id = none := fun ht =>
      Option.not_isSome_iff_eq_none.mp fun hlive => hid (ht.mem id hlive)
    rw [hdead hd, hdead he]
  exact hsame.eq (he.bears.holds.get_eq hd.bears.holds)

theorem IsCopy.shape_eq {copy : Tree} {nextTag : Nat} (h : copy.IsCopy nextTag b) :
    copy.shape copy.root = .ok b.shape := by
  obtain ⟨c, hc, hbare⟩ := h.exists_isCompact
  rw [hc.toIsWhole.shape_eq, shape_eq_of_bare_eq hbare]

/-! ### Copies as trees -/

theorem grow_eq_ok {nextTag : Nat} (edit : Edit Handle) {t : Tree} {b : Branch}
    (hrun : edit.run (empty nextTag) = .ok b.top t) (h : (empty nextTag).Gains t [b]) :
    ∃ t', grow nextTag edit = .ok t' ∧ t'.IsWhole b := by
  obtain ⟨t', hroot, hwhole⟩ := Edit.run_makeRoot_whole h
  refine ⟨t', ?_, hwhole⟩
  rw [grow, run_bind_ok hrun, hroot]

/-- What has grown without a gap is a copy. -/
theorem exists_isCopy {nextTag : Nat} (edit : Edit Handle) {t : Tree} {b c : Branch}
    (hrun : edit.run (empty nextTag) = .ok c.top t) (h : (empty nextTag).Gains t [c])
    (hkeeps : Keeps (HasNoGaps nextTag) edit) (hbare : c.bare = b.bare) :
    ∃ t', grow nextTag edit = .ok t' ∧ t'.IsCopy nextTag b := by
  obtain ⟨t', hgrow, hwhole⟩ := grow_eq_ok edit hrun h
  have hgaps := of_grow (ignoresLinks_hasNoGaps nextTag) hkeeps (hasNoGaps_empty nextTag) hgrow
  have hinOrder := h.inOrder
  rw [List.flatMap_singleton] at hinOrder
  exact ⟨t', hgrow, hgaps.nextTag_eq, c, ⟨hwhole, hgaps.isSome, hinOrder⟩, hbare⟩

theorem keeps_addCopy_hasNoGaps (nextTag : Nat) (source : Tree) (id : Handle) :
    Keeps (HasNoGaps nextTag) (Edit.addCopy source id) :=
  Edit.keeps_addCopy (ignoresLinks_hasNoGaps nextTag) (fun node h => h.push node) source id

/-- The copy of a branch as a tree of its own. -/
theorem exists_copyOf (h : t.Bears parent b) :
    ∃ t', t.copyOf b.top = .ok t' ∧ t'.IsCopy t.nextTag b := by
  obtain ⟨t₁, c, hrun, hgains, hc⟩ :=
    Edit.adds_addCopy h (empty t.nextTag) (Nat.le_refl _)
  exact exists_isCopy _ hrun hgains (keeps_addCopy_hasNoGaps t.nextTag t b.top) hc

/-- The copy of a compound with parts of it in some order. -/
theorem exists_arranged {id : Handle} {tag : Tag} {operator : Operator} {parts order : List Branch}
    (h : t.Bears parent (compound id tag operator parts)) (hsub : order ⊆ parts) :
    ∃ t', t.arranged id (order.map top) = .ok t' ∧
      t'.IsCopy t.nextTag (compound id tag operator order) := by
  obtain ⟨t₁, hrun₁, hgains₁⟩ :=
    Edit.gains_addLike (empty t.nextTag) parent (compound id tag operator parts)
  obtain ⟨t₂, copies, hrun₂, hgains₂, hcopies⟩ :=
    Edit.gains_mapM (f := Edit.addCopy t ∘ top) hgains₁ (Nat.le_refl _)
      fun b hb => Edit.adds_addCopy (h.part (hsub hb))
  -- the copies stand side by side until the new top gets them all at once
  have hgains₂ : (empty t.nextTag).Gains t₂ (compound ⟨0⟩ tag operator [] :: copies) := hgains₂
  obtain ⟨t₃, hrun₃, hgains₃⟩ := Edit.gains_replaceChildren hgains₂
  have hlinks := ignoresLinks_hasNoGaps t.nextTag
  refine exists_isCopy _ ?_ hgains₃ ?_ ?_
  · have hnode : t.node id = .ok ((compound id tag operator parts).node parent) :=
      node_eq_ok_iff.mpr h.get
    rw [run_bind_ok (run_ofExcept hnode), run_bind_ok hrun₁, List.mapM_map,
      run_bind_ok hrun₂]
    exact run_bind_ok hrun₃
  · exact .bind (Edit.keeps_ask _) fun here =>
      .bind (Edit.keeps_addLike (fun node h => h.push node) here) fun top =>
      .bind (.mapM fun child _ => keeps_addCopy_hasNoGaps t.nextTag t child) fun children =>
      .bind (Edit.keeps_replaceChildren hlinks top children) fun _ => .pure _
  · rw [bare, bare, map_eq_map_of_forall₂ hcopies]

end Tree

/-! ### Shapes -/

namespace Shape

theorem plantUnder_eq (id : Handle) (parts : List Shape) :
    plantUnder id parts = parts.forM (fun part => do Edit.attach id (← part.plant)) := by
  induction parts with
  | nil =>
    rw [plantUnder]
    rfl
  | cons part parts ih =>
    rw [plantUnder, ih, ← bind_assoc]
    rfl

/-- Planting the shape adds a branch of it. -/
theorem adds_plant (shape : Shape) : Edit.Adds shape.plant fun b => b.shape = shape := by
  induction shape with
  | literal text =>
    intro t _
    obtain ⟨t', hrun, hgains⟩ := Edit.gains_addLiteral t text
    refine ⟨t', _, ?_, hgains, Branch.shape.eq_1 ..⟩
    rw [plant, hrun]
    rfl
  | compound operator parts ih =>
    intro t hroot
    obtain ⟨t₁, hrun₁, hgains₁⟩ := Edit.gains_addCompound t operator
    obtain ⟨t₂, l, hrun₂, hgains₂, hl⟩ := Edit.gains_forM_attach hgains₁ hroot ih
    have hshapes := map_eq_map_of_forall₂ hl
    refine ⟨t₂, _, ?_, hgains₂, ?_⟩
    · rw [plant, run_bind_ok hrun₁, plantUnder_eq, run_bind_ok hrun₂]
      rfl
    · show (Branch.compound _ _ operator ([] ++ l)).shape = _
      rw [List.nil_append, Branch.shape, hshapes, List.map_id']

end Shape

/-- There is a tree of every shape. -/
theorem Tree.exists_ofShape (shape : Shape) :
    ∃ (t : Tree) (b : Branch), Tree.ofShape shape = .ok t ∧ t.IsWhole b ∧ b.shape = shape := by
  obtain ⟨t, b, hrun, hgains, hb⟩ := shape.adds_plant (.empty 0) (Nat.le_refl _)
  obtain ⟨t', hgrow, hwhole⟩ := grow_eq_ok _ hrun hgains
  exact ⟨t', b, hgrow, hwhole, hb⟩

end FormulaEditor
