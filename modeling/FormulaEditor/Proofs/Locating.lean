/-
Where the nodes of a tree are.

In a tree every node below the root has a path that leads to it, and there is no other that
does.  To list the nodes below the root is to list their paths in the order of a dictionary,
in which a path stands before those that go on from it:

* `Tree.Bears.walk_eq` — nodes that are visited one by one, with a stack of those still to be
  visited, are met in the order of the branch;
* `Tree.Bears.exists_nodeAt` — paths to the nodes of a branch go on from that to its top;
* `Tree.Bears.pairwise_precedes` — and they are in order;
* `Tree.IsTree.nodeAt_pathTo` — nodes and paths of a tree correspond one to one.
-/
import FormulaEditor.Proofs.Paths
import FormulaEditor.Proofs.RoundTrip
import Mathlib

namespace FormulaEditor

namespace Tree

open Branch

variable {t : Tree} {place : Option Handle} {b : Branch} {base : Path}

/-! ### Visiting nodes one by one -/

/-- What the stack holds are branches of which nothing has been visited yet. -/
theorem walkWithin_eq {bound : Nat} {l : List Branch} (h : ∀ c ∈ l, ∃ up, t.Holds up c)
    (hbound : (l.flatMap handles).length ≤ bound) :
    t.walkWithin bound (l.map top) = .ok (l.flatMap handles) := by
  induction bound generalizing l with
  | zero =>
    cases l with
    | nil => rfl
    | cons c l =>
      have := List.length_pos_of_ne_nil c.handles_ne_nil
      rw [List.flatMap_cons, List.length_append] at hbound
      omega
  | succ bound ih =>
    cases l with
    | nil => rfl
    | cons c l =>
      obtain ⟨up, hc⟩ := h c (List.mem_cons_self ..)
      -- the parts of the branch take its place on the stack
      have hparts : ∀ d ∈ c.parts ++ l, ∃ up, t.Holds up d := by
        intro d hd
        rcases List.mem_append.mp hd with hd | hd
        · exact ⟨_, hc.part hd⟩
        · exact h d (List.mem_cons_of_mem _ hd)
      have hhandles : (c :: l).flatMap handles = c.top :: (c.parts ++ l).flatMap handles := by
        rw [List.flatMap_cons, handles_eq, List.cons_append, List.flatMap_append]
      rw [hhandles, List.length_cons] at hbound
      have hrest := ih hparts (Nat.le_of_succ_le_succ hbound)
      rw [List.map_append] at hrest
      rw [hhandles, List.map_cons, walkWithin, node_eq_ok_iff.mpr hc.get]
      simp only [bind, Except.bind, children_node, hrest]
      rfl

theorem Bears.walk_eq (h : t.Bears place b) : t.walk b.top = .ok b.handles := by
  have hholds : ∀ c ∈ [b], ∃ up, t.Holds up c := fun c hc =>
    ⟨place, List.mem_singleton.mp hc ▸ h.holds⟩
  have hbound : ([b].flatMap handles).length ≤ t.walkBound := by
    rw [List.flatMap_singleton]
    exact h.length_le_walkBound
  have hwalk := walkWithin_eq hholds hbound
  rwa [List.flatMap_singleton] at hwalk

/-! ### Paths in order -/

/-- The path to the first node comes before that to the second one. -/
def Precedes (t : Tree) (id other : Handle) : Prop :=
  ∃ path path', t.nodeAt path = .ok id ∧ t.nodeAt path' = .ok other ∧ path.steps < path'.steps

namespace Bears

/-- The paths to the nodes of a branch go on from the path to its top. -/
theorem exists_nodeAt (h : t.Bears place b) (hbase : t.nodeAt base = .ok b.top) {id : Handle}
    (hid : id ∈ b.handles) : ∃ steps, t.nodeAt ⟨base.steps ++ steps⟩ = .ok id := by
  induction b generalizing place base with
  | literal top tag text =>
    rw [handles, List.mem_singleton] at hid
    exact ⟨[], by rw [List.append_nil, hid]; exact hbase⟩
  | compound top tag operator parts ih =>
    rw [handles, List.mem_cons, List.mem_flatMap] at hid
    rcases hid with rfl | ⟨part, hp, hid⟩
    · exact ⟨[], by rw [List.append_nil]; exact hbase⟩
    · obtain ⟨step, hstep⟩ := List.mem_iff_getElem?.mp hp
      obtain ⟨steps, hsteps⟩ := ih part hp (h.part hp) (h.nodeAt_part hbase hstep) hid
      refine ⟨step :: steps, ?_⟩
      rwa [Path.push, List.append_assoc] at hsteps

/-- To the nodes below a part it goes on with the step to that part. -/
theorem exists_nodeAt_of_getElem? (h : t.Bears place b) (hbase : t.nodeAt base = .ok b.top)
    {step : Nat} {part : Branch} (hpart : b.parts[step]? = some part) {id : Handle}
    (hid : id ∈ part.handles) : ∃ steps, t.nodeAt ⟨base.steps ++ step :: steps⟩ = .ok id := by
  obtain ⟨steps, hsteps⟩ :=
    (h.part (List.mem_of_getElem? hpart)).exists_nodeAt (h.nodeAt_part hbase hpart) hid
  refine ⟨steps, ?_⟩
  rwa [Path.push, List.append_assoc] at hsteps

/-- The nodes of a branch are in the order of the paths to them. -/
theorem pairwise_precedes (h : t.Bears place b) (hbase : t.nodeAt base = .ok b.top) :
    b.handles.Pairwise t.Precedes := by
  induction b generalizing place base with
  | literal =>
    rw [handles]
    exact List.pairwise_singleton ..
  | compound top tag operator parts ih =>
    rw [handles, List.pairwise_cons, List.pairwise_flatMap]
    refine ⟨?_, ?_, ?_⟩
    · -- the top comes first, since its path is the beginning of the others
      intro id hid
      obtain ⟨part, hp, hid⟩ := List.mem_flatMap.mp hid
      obtain ⟨step, hstep⟩ := List.mem_iff_getElem?.mp hp
      obtain ⟨steps, hsteps⟩ := h.exists_nodeAt_of_getElem? hbase hstep hid
      refine ⟨base, _, hbase, hsteps, ?_⟩
      have hlt : base.steps ++ [] < base.steps ++ step :: steps :=
        List.append_left_lt (List.nil_lt_cons step steps)
      rwa [List.append_nil] at hlt
    · intro part hp
      obtain ⟨step, hstep⟩ := List.mem_iff_getElem?.mp hp
      exact ih part hp (h.part hp) (h.nodeAt_part hbase hstep)
    · -- below different parts the paths part with the steps to these
      refine List.pairwise_iff_getElem.mpr fun i j hi hj hij id hid other hother => ?_
      obtain ⟨steps, hsteps⟩ :=
        h.exists_nodeAt_of_getElem? hbase (List.getElem?_eq_getElem hi) hid
      obtain ⟨steps', hsteps'⟩ :=
        h.exists_nodeAt_of_getElem? hbase (List.getElem?_eq_getElem hj) hother
      exact ⟨_, _, hsteps, hsteps',
        List.append_left_lt (List.cons_lt_cons_iff.mpr (.inl hij))⟩

end Bears

/-! ### Nodes and paths -/

namespace IsTree

/-- The path to a node ends with the place that the node has among its siblings. -/
theorem position?_eq (h : t.IsTree) {path : Path} {id : Handle} (hpath : t.nodeAt path = .ok id) :
    t.position? id = .ok path.last? := by
  induction path with
  | root =>
    cases hpath
    obtain ⟨node, hget, hnone⟩ := h.root_top
    rw [position?, place?_of_parent_eq_none hget hnone]
    rfl
  | push path step _ =>
    obtain ⟨up, _, hplace⟩ := h.exists_place? hpath
    rw [position?, hplace, Path.last?_push]
    rfl

/-- Nodes and paths of a tree correspond one to one.  Each node below the root is led to by
the path to it, which ends with the place of the node among its siblings unless the node is
the root itself.  Every path leads to such a node, and is the path to it, or it is refused.
The nodes below the root are listed once each, in the order of their paths, and this is also
the order in which they are visited one by one. -/
theorem nodeAt_pathTo (h : t.IsTree) : ∃ ids, t.descendants t.root = .ok ids ∧
    t.walk t.root = .ok ids ∧
    (∀ id ∈ ids, ∃ path, t.pathTo id = .ok path ∧ t.nodeAt path = .ok id ∧
      (id ≠ t.root → ∃ position, t.position? id = .ok (some position) ∧
        path.last? = some position)) ∧
    (∀ path, (∃ id ∈ ids, t.nodeAt path = .ok id ∧ t.pathTo id = .ok path) ∨
      t.nodeAt path = .error .invalidPath) ∧
    ids.Nodup ∧ (∀ id, id ∈ ids ↔ t.Reaches t.root id) ∧
    ids.Pairwise fun id other => ∃ path path', t.pathTo id = .ok path ∧
      t.pathTo other = .ok path' ∧ path.steps < path'.steps := by
  obtain ⟨b, htop, hb⟩ := h.exists_bears
  have hmem : ∀ id, id ∈ b.handles ↔ t.Reaches t.root id := fun id =>
    ⟨hb.holds.reaches (htop ▸ .self) id, fun hid => (htop ▸ hid).mem_handles hb⟩
  rw [← htop]
  refine ⟨b.handles, hb.descendants_eq, hb.walk_eq, ?_, ?_, hb.nodup, htop ▸ hmem, ?_⟩
  · intro id hid
    obtain ⟨path, hpath⟩ := ((hmem id).mp hid).exists_nodeAt
    refine ⟨path, h.pathTo_eq hpath, hpath, fun hne => ?_⟩
    induction path with
    | root =>
      cases hpath
      exact absurd htop.symm hne
    | push path step _ =>
      have hlast := Path.last?_push path step
      exact ⟨step, (h.position?_eq hpath).trans (congrArg _ hlast), hlast⟩
  · intro path
    cases hpath : t.nodeAt path with
    | ok id => exact .inl ⟨id, (hmem id).mpr (reaches_of_nodeAt hpath), rfl, h.pathTo_eq hpath⟩
    | error e => exact .inr (congrArg Except.error (h.failsWith_nodeAt path e hpath))
  · refine (hb.pairwise_precedes (t.nodeAt_root.trans (congrArg _ htop.symm))).imp ?_
    rintro id other ⟨path, path', hpath, hpath', hlt⟩
    exact ⟨path, path', h.pathTo_eq hpath, h.pathTo_eq hpath', hlt⟩

/-- The last factor of a sum that was merged, which has left a slot vacant. -/
theorem nodeAt_pathTo_sum : ∃ t, parse "a+b+c*d" = .ok t ∧
    t.descendants t.root = .ok [⟨0⟩, ⟨1⟩, ⟨3⟩, ⟨4⟩, ⟨5⟩, ⟨6⟩] ∧
    t.walk t.root = .ok [⟨0⟩, ⟨1⟩, ⟨3⟩, ⟨4⟩, ⟨5⟩, ⟨6⟩] ∧
    t.nodeAt ⟨[2, 1]⟩ = .ok ⟨6⟩ ∧ t.pathTo ⟨6⟩ = .ok ⟨[2, 1]⟩ ∧
    t.position? ⟨6⟩ = .ok (some 1) ∧ t.nodeAt ⟨[1, 0]⟩ = .error .invalidPath ∧
    [⟨0⟩, ⟨1⟩, ⟨3⟩, ⟨4⟩, ⟨5⟩, ⟨6⟩].Pairwise fun id other => ∃ path path',
      t.pathTo id = .ok path ∧ t.pathTo other = .ok path' ∧ path.steps < path'.steps := by
  obtain ⟨t, ht⟩ : ∃ t : Tree, t = ⟨#[some ⟨.compound .add [⟨1⟩, ⟨3⟩, ⟨4⟩], none, ⟨0⟩⟩,
      some ⟨.literal "a", some ⟨0⟩, ⟨1⟩⟩, none, some ⟨.literal "b", some ⟨0⟩, ⟨3⟩⟩,
      some ⟨.compound .mul [⟨5⟩, ⟨6⟩], some ⟨0⟩, ⟨4⟩⟩, some ⟨.literal "c", some ⟨4⟩, ⟨5⟩⟩,
      some ⟨.literal "d", some ⟨4⟩, ⟨6⟩⟩], ⟨0⟩, 7⟩ := ⟨_, rfl⟩
  have hparse : parse "a+b+c*d" = .ok t := by
    rw [ht]
    cbv
  have hids : t.descendants t.root = .ok [⟨0⟩, ⟨1⟩, ⟨3⟩, ⟨4⟩, ⟨5⟩, ⟨6⟩] := by
    rw [ht]
    cbv
  have hlast : t.nodeAt ⟨[2, 1]⟩ = .ok ⟨6⟩ := by
    rw [ht]
    cbv
  have hinvalid : t.nodeAt ⟨[1, 0]⟩ = .error .invalidPath := by
    rw [ht]
    cbv
  obtain ⟨ids, hids', hwalk, hnodes, hpaths, _, _, horder⟩ :=
    nodeAt_pathTo (Obtained.parse hparse).isProper.toIsTree
  obtain rfl := Except.ok.inj (hids.symm.trans hids')
  obtain ⟨path, hpath, hback, hposition⟩ := hnodes ⟨6⟩ (by simp)
  -- the path to the node is the one that leads to it
  rcases hpaths ⟨[2, 1]⟩ with ⟨id, _, hid, hto⟩ | herror
  · obtain rfl := Except.ok.inj (hlast.symm.trans hid)
    obtain rfl := Except.ok.inj (hto.symm.trans hpath)
    obtain ⟨position, hposition, heq⟩ := hposition (by simp [ht])
    obtain rfl : 1 = position := Option.some_inj.mp heq
    exact ⟨t, hparse, hids, hwalk, hlast, hto, hposition, hinvalid, horder⟩
  · rw [hlast] at herror
    cases herror

end IsTree

end Tree

end FormulaEditor
