/-
Walks along the links of a forest come to an end.

Handles are slot numbers, so nothing about a handle says how far a walk from it can go.  In a
forest the way up from a node meets every node once, and what is below a node makes up a branch
that holds every node once.  So with `m` live nodes no walk looks at more than `m` nodes one
after the other, and none is nested deeper than `m`.  A walk with a bound fails with
`EditError.endless` where it would have to go on, and with `EditError.deadHandle` at a handle
without a node; hence it ends, and uses live handles only, if its outcome is a different one:

* `SettlesAt` — from some bound on, the outcome of a bounded walk is always the same;
* `Tree.layoutWithin`, `Tree.outlineWithin` — walks that are made from other ones elsewhere, here
  step by step;
* `Tree.Climbs.length_le_count`, `Tree.Bears.length_le_count` — ways up and branches have no
  more nodes than there are live ones;
* `Tree.Bears.settles_flatten`, `Tree.Bears.settles_copy`, `Tree.Bears.settles_rearrangement` —
  the walks that change a tree, or go through two trees at once;
* `Tree.IsForest.walks_settle` — every walk from a live node of a forest settles at the number of
  live nodes.

Design notes: the measure is the number of nodes of the branch and not its depth.  While flattening
is on its way, child lists get longer and slots vacant, but no branch gets more nodes, so the one
measure serves for all walks.
-/
import FormulaEditor.Proofs.Building
import FormulaEditor.Proofs.Confluence
import FormulaEditor.Proofs.Counting
import FormulaEditor.Proofs.Discarding
import FormulaEditor.Proofs.Locating
import FormulaEditor.Proofs.Matching

namespace FormulaEditor

open Branch

/-- With every bound that is `m` or more, the walk has the same outcome. -/
def SettlesAt {α : Type} (m : Nat) (walk : Nat → α) (outcome : α) : Prop :=
  ∀ bound, m ≤ bound → walk bound = outcome

theorem SettlesAt.mono {α : Type} {m n : Nat} {walk : Nat → α} {outcome : α}
    (h : SettlesAt m walk outcome) (hle : m ≤ n) : SettlesAt n walk outcome :=
  fun bound hbound => h bound (Nat.le_trans hle hbound)

namespace Tree

variable {t u target : Tree} {id targetId other : Handle} {way : List Handle}
  {place place' : Option Handle} {b d : Branch}

/-! ### Live nodes -/

/-- Different live nodes are no more than there are. -/
theorem length_le_count {ids : List Handle} (hnodup : ids.Nodup)
    (hlive : ∀ id ∈ ids, (t.get? id).isSome = true) : ids.length ≤ t.size := by
  rw [size, ← Array.countP_toList, toList_slots, List.countP_map, List.countP_eq_length_filter]
  refine hnodup.length_le_of_subset fun id hid => List.mem_filter.mpr ⟨?_, hlive id hid⟩
  exact List.mem_map.mpr ⟨id.index, List.mem_range.mpr (lt_size_of_isSome (hlive id hid)), rfl⟩

theorem size_le_walkBound (t : Tree) : t.size ≤ t.walkBound :=
  Nat.le_succ_of_le Array.countP_le_size

theorem Climbs.length_le_count (h : t.Climbs id way) : way.length ≤ t.size := by
  refine Tree.length_le_count h.nodup fun other hmem => ?_
  obtain ⟨_, _, _, habove⟩ := h.exists_of_mem hmem
  exact habove.isSome

theorem Bears.length_le_count (h : t.Bears place b) : b.handles.length ≤ t.size :=
  Tree.length_le_count h.nodup h.holds.isSome

/-- A bound that leaves room for the nodes of a branch is large enough. -/
theorem Bears.settles {α : Type} {walk : Nat → α} {outcome : α} (h : t.Bears place b)
    (hwalk : SettlesAt b.handles.length walk outcome) : SettlesAt t.size walk outcome :=
  hwalk.mono h.length_le_count

/-! ### Upwards -/

/-- The path to a node has one step for every node above it. -/
theorem IsForest.exists_path (h : t.IsForest) (hway : t.Climbs id way) :
    ∃ path : Path, path.length + 1 = way.length ∧
      SettlesAt way.length (t.pathWithin · id) (.ok path) := by
  induction hway with
  | @top id node hget hparent =>
    refine ⟨.root, rfl, fun bound hbound => ?_⟩
    obtain ⟨bound, rfl⟩ := Nat.exists_eq_succ_of_ne_zero (Nat.ne_of_gt hbound)
    show t.pathWithin (bound + 1) id = _
    rw [pathWithin, place?_of_parent_eq_none hget hparent]
    rfl
  | @step id parent way hparent _ ih =>
    obtain ⟨path, hlen, hsettles⟩ := ih
    obtain ⟨up, hup, hmem⟩ := h.lists_iff.mpr hparent
    obtain ⟨index, hindex⟩ := List.mem_iff_getElem?.mp hmem
    obtain ⟨node, hget, hnode⟩ := hparent
    refine ⟨path.push index, ?_, fun bound hbound => ?_⟩
    · rw [Path.length_push, hlen, List.length_cons]
    · obtain ⟨bound, rfl⟩ := Nat.exists_eq_succ_of_ne_zero
        (Nat.ne_of_gt (Nat.lt_of_lt_of_le (Nat.succ_pos _) hbound))
      have hrest : t.pathWithin bound parent = .ok path :=
        hsettles bound (Nat.le_of_succ_le_succ hbound)
      show t.pathWithin (bound + 1) id = _
      rw [pathWithin, place?_of_getElem? hget hnode hup (h.nodup hup) hindex]
      simp only [bind, Except.bind, hrest]
      rfl

/-! ### Downwards -/

/-- `layout` within a bounded depth. -/
def layoutWithin (t : Tree) (focus : Option Handle) : Nat → Handle → Except EditError (List Glyph)
  | 0, _ => .error .endless
  | bound + 1, id => do
    let node ← t.node id
    let glyphs := glyphsOver node (← node.children.mapM (t.layoutWithin focus bound))
    return if focus = some id then focused glyphs else glyphs

/-- `outline` within a bounded depth. -/
def outlineWithin (t : Tree) : Nat → Handle → Nat → Except EditError String
  | 0, _, _ => .error .endless
  | bound + 1, id, depth => do
    let node ← t.node id
    let below ← node.children.mapM fun child => t.outlineWithin bound child (depth + 1)
    return outlineLine depth node ++ String.join below

theorem layoutWithin_eq (t : Tree) (focus : Option Handle) (bound : Nat) :
    t.layoutWithin focus bound = t.foldWithin (fun here node parts =>
      let glyphs := glyphsOver node parts
      if focus = some here then focused glyphs else glyphs) bound := by
  induction bound with
  | zero => rfl
  | succ bound ih =>
    funext id
    rw [layoutWithin, foldWithin, ih]

/-- A walk down with the depth counted along reads the branch at that depth. -/
theorem Holds.outlineWithin_eq {bound : Nat} (h : t.Holds place b)
    (hbound : b.handles.length ≤ bound) (depth : Nat) :
    t.outlineWithin bound b.top depth = .ok (b.fold (fun _ node parts depth =>
      outlineLine depth node ++ String.join (parts.map (· (depth + 1)))) place depth) := by
  induction h generalizing bound depth with
  | @intro place b hget _ ih =>
    obtain ⟨bound, rfl⟩ := exists_bound_eq_succ hbound
    have hparts := fun part hp => ih part hp (length_le_of_mem_parts hp hbound) (depth + 1)
    rw [outlineWithin, node_eq_ok_iff.mpr hget, fold_eq, List.map_map]
    simp only [children_node, bind, Except.bind, List.mapM_map]
    rw [Function.comp_def, mapM_eq_ok hparts]
    rfl

namespace Bears

/-- The nodes still to be visited are those of the branch, and each is visited once. -/
theorem settles_walk (h : t.Bears place b) :
    SettlesAt t.size (t.walkWithin · [b.top]) (.ok b.handles) := by
  refine h.settles fun bound hbound => ?_
  have hholds : ∀ c ∈ [b], ∃ up, t.Holds up c := fun c hc =>
    ⟨place, List.mem_singleton.mp hc ▸ h.holds⟩
  have hlen : ([b].flatMap handles).length ≤ bound := by rwa [List.flatMap_singleton]
  have hwalk := walkWithin_eq hholds hlen
  rwa [List.flatMap_singleton] at hwalk

theorem settles_layout (h : t.Bears place b) (focus : Option Handle) :
    ∃ glyphs, t.layout b.top focus = .ok glyphs ∧
      SettlesAt t.size (t.layoutWithin focus · b.top) (.ok glyphs) := by
  refine ⟨_, h.fold_eq _, h.settles fun bound hbound => ?_⟩
  rw [layoutWithin_eq]
  exact h.holds.foldWithin_eq _ hbound

theorem settles_outline (h : t.Bears place b) (depth : Nat) :
    ∃ text, t.outline b.top depth = .ok text ∧
      SettlesAt t.size (t.outlineWithin · b.top depth) (.ok text) := by
  refine ⟨_, ?_, h.settles fun bound hbound => h.holds.outlineWithin_eq hbound depth⟩
  rw [outline, h.fold_eq]
  rfl

end Bears

/-! ### Changes -/

/-- Which slots are vacated determines the store. -/
theorem Vacates.unique {t' t'' : Tree} {ids : List Handle} (h : t.Vacates t' ids)
    (h' : t.Vacates t'' ids) : t'' = t' :=
  (h.same.symm.trans h'.same).eq fun id hid => (h'.gone id hid).trans (h.gone id hid).symm

/-- From the number of nodes of a branch on, a copy of it does not depend on the bound. -/
theorem Holds.addCopyWithin_congr {bound bound' : Nat} (h : t.Holds place b)
    (hbound : b.handles.length ≤ bound) (hbound' : b.handles.length ≤ bound') :
    Edit.addCopyWithin t bound b.top = Edit.addCopyWithin t bound' b.top := by
  induction h generalizing bound bound' with
  | @intro place b hget _ ih =>
    obtain ⟨bound, rfl⟩ := exists_bound_eq_succ hbound
    obtain ⟨bound', rfl⟩ := exists_bound_eq_succ hbound'
    have hparts : ∀ part ∈ b.parts,
        Edit.addCopyWithin t bound part.top = Edit.addCopyWithin t bound' part.top := by
      intro part hp
      exact ih part hp (length_le_of_mem_parts hp hbound) (length_le_of_mem_parts hp hbound')
    have hnode : (ofExcept (t.node b.top) : Edit Node) = pure (b.node place) := by
      rw [node_eq_ok_iff.mpr hget]
      rfl
    rw [Edit.addCopyWithin, Edit.addCopyWithin, hnode, pure_bind, pure_bind, children_node]
    refine bind_congr fun copy => ?_
    rw [List.forM_eq_forM, List.forM_map, List.forM_map,
      forM_congr fun part hp => congrArg (· >>= Edit.attach copy) (hparts part hp)]

namespace Bears

theorem settles_operands (h : t.Bears place b) (operator : Operator) :
    ∃ ids t', SettlesAt t.size
      (fun bound => (Edit.operandsCheckedWithin operator bound b.top).run t) (.ok ids t') := by
  have hrun : ∀ bound, b.handles.length ≤ bound → ∃ t',
      (Edit.operandsWithin operator bound b.top).run t = .ok ((b.gathered operator).map top) t' ∧
      t.Vacates t' (b.absorbed operator) := fun _ hbound => Edit.run_operandsWithin h hbound
  obtain ⟨t', _, hvac⟩ := hrun _ (Nat.le_refl _)
  refine ⟨(b.gathered operator).map top, t', h.settles fun bound hbound => ?_⟩
  obtain ⟨u, hrun, hvac'⟩ := hrun bound hbound
  rw [Edit.run_operandsCheckedWithin h hbound, hrun, hvac.unique hvac']

theorem settles_flatten (h : t.Bears place b) :
    ∃ t', (Edit.flatten b.top).run t = .ok () t' ∧
      SettlesAt t.size
        (fun bound => (Edit.flattenCheckedWithin bound b.top).run t) (.ok () t') := by
  obtain ⟨t', hrun, hreshapes⟩ := Edit.run_flatten h
  refine ⟨t', hrun, h.settles fun bound hbound => ?_⟩
  obtain ⟨u, hrun', hreshapes'⟩ := Edit.run_flattenWithin h hbound
  rw [Edit.run_flattenCheckedWithin h hbound, hrun', hreshapes.unique hreshapes']

theorem settles_copy (h : t.Bears place b) (hroot : u.root.index ≤ u.slots.size) :
    ∃ copy u', (Edit.addCopy t b.top).run u = .ok copy u' ∧
      SettlesAt t.size (fun bound => (Edit.addCopyWithin t bound b.top).run u) (.ok copy u') := by
  obtain ⟨u', c, hrun, _⟩ := Edit.adds_addCopy h u hroot
  refine ⟨c.top, u', hrun, h.settles fun bound hbound => ?_⟩
  rw [h.holds.addCopyWithin_congr hbound h.length_le_walkBound]
  exact hrun

/-- A plan is found, or it is found that the branches do not match. -/
theorem settles_rearrangement (h : t.Bears place b) (hd : target.Bears place' d) :
    SettlesAt t.size (t.rearrangementWithin target · b.top d.top)
      (t.rearrangement target b.top d.top) := by
  refine h.settles fun bound hbound => ?_
  cases hplan : t.rearrangement target b.top d.top with
  | ok plan =>
    obtain ⟨r, hr, hmatches, rfl⟩ := exists_of_rearrangement h hd hplan
    exact h.holds.rearrangementWithin_eq hbound hr hd.holds hmatches
  | error e =>
    -- what could be planned within this bound could be planned without it
    cases hwithin : t.rearrangementWithin target bound b.top d.top with
    | ok plan =>
      obtain ⟨r, hr, hmatches, _⟩ := h.holds.exists_of_rearrangementWithin hd.holds hwithin
      rw [rearrangement_eq_ok h hr hd hmatches] at hplan
      cases hplan
    | error e' =>
      rw [h.holds.failsWith_rearrangementWithin hbound hd.holds e' hwithin,
        failsWith_rearrangement h hd e hplan]

end Bears

/-! ### All walks -/

/-- Every walk from a live node of a forest with `m` live nodes is the same with every bound that
is `m` or more, and does not fail: the walks upwards meet at most `m` nodes, so they follow at
most `m - 1` parent handles; the walk with a stack visits at most `m` nodes; the others are nested
at most `m` deep, and use live handles only.  The tree that a copy is put into has a live root, or
none yet, and then its root is the handle of the next node.  A plan of a rearrangement may be
refused, but for no other reason than that the children do not match. -/
theorem IsForest.walks_settle (h : t.IsForest) (hlive : (t.get? id).isSome = true) :
    (∃ way, t.ancestors id = .ok way ∧ way.length ≤ t.size ∧
      ∀ other, SettlesAt t.size (t.isAboveWithin other · id) (.ok (decide (other ∈ way)))) ∧
    (∃ path, t.pathTo id = .ok path ∧ path.length + 1 ≤ t.size ∧
      SettlesAt t.size (t.pathWithin · id) (.ok path)) ∧
    (∃ ids, t.descendants id = .ok ids ∧ ids.length ≤ t.size ∧
      SettlesAt t.size (t.walkWithin · [id]) (.ok ids)) ∧
    (∀ focus, ∃ glyphs, t.layout id focus = .ok glyphs ∧
      SettlesAt t.size (t.layoutWithin focus · id) (.ok glyphs)) ∧
    (∀ depth, ∃ text, t.outline id depth = .ok text ∧
      SettlesAt t.size (t.outlineWithin · id depth) (.ok text)) ∧
    (∀ operator, ∃ ids t', SettlesAt t.size
      (fun bound => (Edit.operandsCheckedWithin operator bound id).run t) (.ok ids t')) ∧
    (∃ t', (Edit.flatten id).run t = .ok () t' ∧
      SettlesAt t.size (fun bound => (Edit.flattenCheckedWithin bound id).run t) (.ok () t')) ∧
    (∀ u : Tree, u.root.index ≤ u.slots.size → ∃ copy u',
      (Edit.addCopy t id).run u = .ok copy u' ∧
      SettlesAt t.size (fun bound => (Edit.addCopyWithin t bound id).run u) (.ok copy u')) ∧
    (∀ (target : Tree) (targetId : Handle), target.IsForest →
      (target.get? targetId).isSome = true →
      SettlesAt t.size (t.rearrangementWithin target · id targetId)
        (t.rearrangement target id targetId) ∧
      FailsWith .mismatchedChildren (t.rearrangement target id targetId)) := by
  obtain ⟨node, hget⟩ := Option.isSome_iff_exists.mp hlive
  obtain ⟨way, hway⟩ := (h.ascends hget).climbs
  obtain ⟨path, hlen, hpath⟩ := h.exists_path hway
  obtain ⟨b, rfl, hb⟩ := h.exists_bears hget
  have hpath := hpath.mono hway.length_le_count
  refine ⟨⟨way, hway.ancestors_eq, hway.length_le_count, fun other bound hbound => ?_⟩,
    ⟨path, hpath _ t.size_le_walkBound, hlen ▸ hway.length_le_count, hpath⟩,
    ⟨_, hb.descendants_eq, hb.length_le_count, hb.settles_walk⟩, hb.settles_layout,
    hb.settles_outline, hb.settles_operands, hb.settles_flatten, fun u => hb.settles_copy, ?_⟩
  · exact hway.isAboveWithin_eq (Nat.le_trans hway.length_le_count hbound)
  · intro target targetId htarget htargetLive
    obtain ⟨targetNode, htargetGet⟩ := Option.isSome_iff_exists.mp htargetLive
    obtain ⟨d, rfl, hd⟩ := htarget.exists_bears htargetGet
    exact ⟨hb.settles_rearrangement hd, failsWith_rearrangement hb hd⟩

/-- Sums below a product, beside another sum that has been merged with what was below it. -/
theorem walks_settle_sums : ∃ t t' : Tree,
    t = ⟨#[some ⟨.compound .add [⟨2⟩], none, ⟨0⟩⟩, none, some ⟨.literal "a", some ⟨0⟩, ⟨2⟩⟩,
      some ⟨.compound .mul [⟨4⟩], none, ⟨3⟩⟩, some ⟨.compound .add [⟨5⟩], some ⟨3⟩, ⟨4⟩⟩,
      some ⟨.compound .add [⟨6⟩], some ⟨4⟩, ⟨5⟩⟩, some ⟨.literal "b", some ⟨5⟩, ⟨6⟩⟩], ⟨0⟩, 7⟩ ∧
    t.IsForest ∧ t.size = 6 ∧
    SettlesAt 6 (t.isAboveWithin ⟨3⟩ · ⟨4⟩) (.ok true) ∧
    SettlesAt 6 (t.pathWithin · ⟨4⟩) (.ok ⟨[0]⟩) ∧
    SettlesAt 6 (t.walkWithin · [⟨4⟩]) (.ok [⟨4⟩, ⟨5⟩, ⟨6⟩]) ∧
    SettlesAt 6 (fun bound => (Edit.flattenCheckedWithin bound ⟨4⟩).run t) (.ok () t') ∧
    t'.get? ⟨5⟩ = none ∧
    (∃ copy u, SettlesAt 6 (fun bound => (Edit.addCopyWithin t bound ⟨4⟩).run t) (.ok copy u)) ∧
    (∃ copy u,
      SettlesAt 6 (fun bound => (Edit.addCopyWithin t bound ⟨4⟩).run (empty 0)) (.ok copy u)) ∧
    SettlesAt 6 (t.rearrangementWithin t · ⟨4⟩ ⟨4⟩) (.ok [(⟨5⟩, [⟨6⟩]), (⟨4⟩, [⟨5⟩])]) ∧
    SettlesAt 6 (t.rearrangementWithin t · ⟨4⟩ ⟨0⟩) (.error .mismatchedChildren) := by
  obtain ⟨t, ht⟩ : ∃ t : Tree, t = ⟨#[some ⟨.compound .add [⟨2⟩], none, ⟨0⟩⟩, none,
      some ⟨.literal "a", some ⟨0⟩, ⟨2⟩⟩, some ⟨.compound .mul [⟨4⟩], none, ⟨3⟩⟩,
      some ⟨.compound .add [⟨5⟩], some ⟨3⟩, ⟨4⟩⟩, some ⟨.compound .add [⟨6⟩], some ⟨4⟩, ⟨5⟩⟩,
      some ⟨.literal "b", some ⟨5⟩, ⟨6⟩⟩], ⟨0⟩, 7⟩ := ⟨_, rfl⟩
  have hmerged := Built.flatten ⟨0⟩ <| .attach ⟨0⟩ ⟨1⟩ <| .attach ⟨1⟩ ⟨2⟩ <| .addLiteral "a" <|
    .addCompound .add <| .addCompound .add <| .empty 0
  have hbuilt : t.Built := ht ▸ (.attach ⟨3⟩ ⟨4⟩ <| .attach ⟨4⟩ ⟨5⟩ <| .attach ⟨5⟩ ⟨6⟩ <|
    .addLiteral "b" <| .addCompound .add <| .addCompound .add <| .addCompound .mul hmerged)
  have hforest := hbuilt.isRooted.toIsForest
  have hsize : t.size = 6 := by
    rw [ht]
    rfl
  have hlive : (t.get? ⟨4⟩).isSome = true := by
    rw [ht]
    rfl
  have hlive' : (t.get? ⟨0⟩).isSome = true := by
    rw [ht]
    rfl
  obtain ⟨⟨way, hway, _, habove⟩, ⟨path, hpath, _, hpaths⟩, ⟨ids, hids, _, hwalk⟩, _, _, _,
    ⟨t', hflatten, hflattens⟩, hcopy, hplan⟩ := hforest.walks_settle hlive
  have hplan₁ := (hplan t ⟨4⟩ hforest hlive).1
  have hplan₂ := (hplan t ⟨0⟩ hforest hlive').1
  obtain ⟨copy₁, u₁, _, hcopy₁⟩ := hcopy t (by rw [ht]; decide)
  obtain ⟨copy₂, u₂, _, hcopy₂⟩ := hcopy (empty 0) (Nat.le_refl _)
  have hway' : t.ancestors ⟨4⟩ = .ok [⟨4⟩, ⟨3⟩] := by
    rw [ht]
    rfl
  have hpath' : t.pathTo ⟨4⟩ = .ok ⟨[0]⟩ := by
    rw [ht]
    rfl
  have hids' : t.descendants ⟨4⟩ = .ok [⟨4⟩, ⟨5⟩, ⟨6⟩] := by
    rw [ht]
    rfl
  have hsame : t.rearrangement t ⟨4⟩ ⟨4⟩ = .ok [(⟨5⟩, [⟨6⟩]), (⟨4⟩, [⟨5⟩])] := by
    rw [ht]
    rfl
  have hother : t.rearrangement t ⟨4⟩ ⟨0⟩ = .error .mismatchedChildren := by
    rw [ht]
    rfl
  have hgone : t'.get? ⟨5⟩ = none := by
    rw [ht] at hflatten
    cases hflatten
    rfl
  obtain rfl := Except.ok.inj (hway'.symm.trans hway)
  obtain rfl := Except.ok.inj (hpath'.symm.trans hpath)
  obtain rfl := Except.ok.inj (hids'.symm.trans hids)
  rw [hsize] at hpaths hwalk hflattens hcopy₁ hcopy₂ hplan₁ hplan₂ habove
  exact ⟨t, t', ht, hforest, hsize, habove ⟨3⟩, hpaths, hwalk, hflattens, hgone,
    ⟨copy₁, u₁, hcopy₁⟩, ⟨copy₂, u₂, hcopy₂⟩, hsame ▸ hplan₁, hother ▸ hplan₂⟩

end Tree

end FormulaEditor
