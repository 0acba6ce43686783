/-
Which nodes can be rearranged to match which.

Two nodes conform if they have the same name and their children go together by name and
tag, with no name and tag twice, and if children that are compounds conform in turn to
the ones that they go with.  This says nothing of the way in which children are looked
up, of the order in which that happens, or of the plan that is made:

* `Tree.Conforms` — the condition, on two nodes at a time;
* `Branch.exists_matches_of_pairs` — an order that matches, put together from its parts;
* `Tree.Holds.conforms`, `Tree.Conforms.exists_matches` — nodes conform if and only if an
  order of the one matches the other;
* `Edit.rearrange_iff_conforms` — so they can be rearranged exactly if they conform, and
  nothing is changed if they do not.
-/
import FormulaEditor.Proofs.Matching
import FormulaEditor.Proofs.Obtained

namespace FormulaEditor

open Branch

namespace Branch

/-- Parts that go with those of the target by their keys, and of which the compounds can be
brought to match them, make up an order that matches. -/
theorem exists_matches_of_pairs {b d : Branch} {l : List Branch} (hname : b.name = d.name)
    (hl : l.Perm b.parts) (hkeys : l.map key = d.parts.map key) (hnodup : (l.map key).Nodup)
    (h : ∀ part child, (part, child) ∈ l.zip d.parts → part.operator? ≠ none →
      ∃ r, part.Shuffles r ∧ r.Matches child) : ∃ r, b.Shuffles r ∧ r.Matches d := by
  have hpairs : ∀ pair ∈ l.zip d.parts, ∃ plan : List (Handle × List Handle),
      ∃ r, pair.1.Shuffles r ∧ (r.operator? ≠ none → r.Matches pair.2) ∧ plan = r.orders := by
    rintro ⟨part, child⟩ hpair
    by_cases hop : part.operator? = none
    · -- a literal stays as it is
      exact ⟨_, part, .refl part, fun hne => absurd hop hne, rfl⟩
    · obtain ⟨r, hr, hmatches⟩ := h part child hpair hop
      exact ⟨_, r, hr, fun _ => hmatches, rfl⟩
  obtain ⟨plans, hplans⟩ := exists_forall₂ hpairs
  have hlen : l.length = d.parts.length := by simpa using congrArg List.length hkeys
  obtain ⟨order, horder, hbelow, _⟩ := Tree.exists_of_plans hlen hplans
  obtain ⟨r, hr, rfl⟩ := Shuffles.exists_of_aligned hl horder
  have hrkeys : r.parts.map key = l.map key :=
    map_eq_map_of_forall₂ (horder.imp fun _ _ h => h.key)
  refine ⟨r, hr, .intro ?_ (hrkeys.trans hkeys) (hrkeys ▸ hnodup) hbelow⟩
  exact (congrArg ChildKey.name hr.key).trans hname

end Branch

namespace Tree

variable {t target : Tree} {place place' : Option Handle} {b d r : Branch}

/-- The name and the tag of the node behind a handle, if there is such a node. -/
def key? (t : Tree) (id : Handle) : Option ChildKey :=
  (t.get? id).map fun node => ⟨node.name, node.tag⟩

/-- The nodes have the same name and the same number of children, the children of either
have different keys and together the same ones, and a child that is a compound conforms to
the one with its key. -/
inductive Conforms (t target : Tree) : Handle → Handle → Prop
  | intro {id targetId : Handle} {node targetNode : Node} :
      t.get? id = some node → target.get? targetId = some targetNode →
      node.name = targetNode.name →
      node.children.length = targetNode.children.length →
      (targetNode.children.map target.key?).Nodup → (node.children.map t.key?).Nodup →
      (∀ key, key ∈ node.children.map t.key? ↔ key ∈ targetNode.children.map target.key?) →
      (∀ child ∈ node.children, ∀ targetChild ∈ targetNode.children,
        t.key? child = target.key? targetChild → (t.operator? child).isSome = true →
        Conforms t target child targetChild) →
      Conforms t target id targetId

theorem Holds.key?_eq (h : t.Holds place b) : t.key? b.top = some b.key := by
  rw [key?, h.get, Option.map_some, name_node, tag_node]
  rfl

/-- The keys of the children, read off the store and off the branch. -/
theorem Holds.map_key?_children (h : t.Holds place b) :
    (b.node place).children.map t.key? = (b.parts.map key).map some := by
  rw [children_node, List.map_map, List.map_map]
  exact List.map_congr_left fun part hp => (h.part hp).key?_eq

/-- Nodes conform where an order of the one matches the other. -/
theorem Holds.conforms (hb : t.Holds place b) (hd : target.Holds place' d) (hr : b.Shuffles r)
    (h : r.Matches d) : t.Conforms target b.top d.top := by
  induction h generalizing place place' b with
  | @intro r d hname hkeys hnodup hbelow ih =>
    have hperm : (b.parts.map key).Perm (d.parts.map key) := hkeys ▸ hr.map_key_perm.symm
    have hnodup' : (d.parts.map key).Nodup := hkeys ▸ hnodup
    refine .intro hb.get hd.get ?_ ?_ ?_ ?_ ?_ ?_
    · rw [name_node, name_node]
      exact (congrArg ChildKey.name hr.key).symm.trans hname
    · rw [children_node, children_node, List.length_map, List.length_map]
      simpa using hperm.length_eq
    · rw [hd.map_key?_children]
      exact hnodup'.map fun _ _ => Option.some.inj
    · rw [hb.map_key?_children]
      exact (hperm.nodup_iff.mpr hnodup').map fun _ _ => Option.some.inj
    · intro found
      rw [hb.map_key?_children, hd.map_key?_children]
      exact (hperm.map some).mem_iff
    · rw [children_node, children_node]
      rintro _ hchild _ htargetChild hkey hcompound
      obtain ⟨part, hpart, rfl⟩ := List.mem_map.mp hchild
      obtain ⟨child, hchild, rfl⟩ := List.mem_map.mp htargetChild
      rw [(hb.part hpart).key?_eq, (hd.part hchild).key?_eq, Option.some_inj] at hkey
      rw [(hb.part hpart).operator?_eq, operator?_shape] at hcompound
      obtain ⟨new, hnew, hpair⟩ :=
        (Matches.intro hname hkeys hnodup hbelow).exists_part hr hpart hchild hkey
      refine ih new child hpair ?_ (hb.part hpart) (hd.part hchild) hnew
      rwa [hnew.operator?, ← Option.isSome_iff_ne_none]

/-- Where nodes conform, an order of the one matches the other. -/
theorem Conforms.exists_matches {id targetId : Handle} (h : t.Conforms target id targetId)
    (hb : t.Holds place b) (hid : b.top = id) (hd : target.Holds place' d)
    (htarget : d.top = targetId) : ∃ r, b.Shuffles r ∧ r.Matches d := by
  induction h generalizing place place' b d with
  | @intro id targetId node targetNode hget hgetTarget hname hlen htargetNodup hnodup hkeys _ ih =>
    subst hid htarget
    rw [hb.get, Option.some_inj] at hget
    rw [hd.get, Option.some_inj] at hgetTarget
    subst hget hgetTarget
    rw [name_node, name_node] at hname
    rw [hb.map_key?_children] at hnodup hkeys
    rw [hd.map_key?_children] at htargetNodup hkeys
    have htargetNodup : (d.parts.map key).Nodup := htargetNodup.of_map
    have hperm : (d.parts.map key).Perm (b.parts.map key) := by
      refine (List.perm_ext_iff_of_nodup htargetNodup hnodup.of_map).mpr fun found => ?_
      simpa using (hkeys (some found)).symm
    obtain ⟨l, hl, hlkeys⟩ := exists_perm_of_perm_map hperm
    refine exists_matches_of_pairs hname hl hlkeys (hlkeys ▸ htargetNodup) ?_
    intro part child hpair hop
    obtain ⟨hpart, hchild⟩ := List.of_mem_zip hpair
    have hpart := hl.mem_iff.mp hpart
    have hkey : t.key? part.top = target.key? child.top := by
      rw [(hb.part hpart).key?_eq, (hd.part hchild).key?_eq, eq_of_mem_zip hlkeys hpair]
    have hcompound : (t.operator? part.top).isSome = true := by
      rwa [(hb.part hpart).operator?_eq, operator?_shape, Option.isSome_iff_ne_none]
    exact ih part.top (by rw [children_node]; exact List.mem_map_of_mem hpart)
      child.top (by rw [children_node]; exact List.mem_map_of_mem hchild) hkey hcompound
      (hb.part hpart) rfl (hd.part hchild) rfl

end Tree

namespace Edit

variable {t target : Tree}

/-- A node of a forest can be rearranged to match a node of another one exactly if it
conforms to it.  If it does not, the children are found not to match, and nothing is
changed. -/
theorem rearrange_iff_conforms (ht : t.IsForest) (htarget : target.IsForest)
    {id targetId : Handle} (hid : (t.get? id).isSome = true)
    (htargetId : (target.get? targetId).isSome = true) :
    ((∃ t', (rearrange id target targetId).run t = .ok () t') ↔ t.Conforms target id targetId) ∧
    (¬t.Conforms target id targetId →
      (rearrange id target targetId).run t = .error .mismatchedChildren t) := by
  obtain ⟨node, hget⟩ := Option.isSome_iff_exists.mp hid
  obtain ⟨targetNode, hgetTarget⟩ := Option.isSome_iff_exists.mp htargetId
  obtain ⟨b, rfl, hb⟩ := ht.exists_bears hget
  obtain ⟨d, rfl, hd⟩ := htarget.exists_bears hgetTarget
  have hconforms : t.Conforms target b.top d.top ↔ ∃ r, b.Shuffles r ∧ r.Matches d := by
    constructor
    · exact fun h => h.exists_matches hb.holds rfl hd.holds rfl
    · rintro ⟨r, hr, hmatches⟩
      exact hb.holds.conforms hd.holds hr hmatches
  rw [hconforms]
  refine ⟨⟨?_, ?_⟩, fun hno => run_rearrange_of_mismatch hb hd hno⟩
  · rintro ⟨t', hrun⟩
    obtain ⟨r, hmatches, hreorders⟩ := exists_of_run_rearrange hb hd hrun
    exact ⟨r, hreorders.shuffles, hmatches⟩
  · rintro ⟨r, hr, hmatches⟩
    obtain ⟨t', hrun, _⟩ := run_rearrange hb hr hd hmatches
    exact ⟨t', hrun⟩

/-- A sum of two terms conforms to the sum with its terms swapped, but not to one in which
the second term has another name. -/
theorem rearrange_iff_conforms_sum : ∃ (t u v : Tree) (l : List Arrangement),
    parse "a+b" = .ok t ∧ t.arrangements ⟨1⟩ = .ok l ∧ ⟨1, u⟩ ∈ l ∧ parse "a+c" = .ok v ∧
    (∃ t', (rearrange t.root u u.root).run t = .ok () t') ∧
    (rearrange t.root v v.root).run t = .error .mismatchedChildren t := by
  obtain ⟨t, u, hparse, hl, ht, hu⟩ := Tree.exists_sum_swapped
  obtain ⟨v, hv⟩ : ∃ v : Tree, v = ⟨#[some ⟨.compound .add [⟨1⟩, ⟨2⟩], none, ⟨0⟩⟩,
      some ⟨.literal "a", some ⟨0⟩, ⟨1⟩⟩, some ⟨.literal "c", some ⟨0⟩, ⟨2⟩⟩], ⟨0⟩, 3⟩ := ⟨_, rfl⟩
  have hparse' : parse "a+c" = .ok v := by
    rw [hv]
    cbv
  have hswapped : (⟨1, u⟩ : Arrangement) ∈ [⟨0, t⟩, ⟨1, u⟩] := by simp
  have hforest : t.IsForest := (Tree.Obtained.parse hparse).isProper.toIsForest
  have hforest' : u.IsForest :=
    (Tree.Obtained.arrangement (.parse hparse) hl hswapped).isProper.toIsForest
  have hforest'' : v.IsForest := (Tree.Obtained.parse hparse').isProper.toIsForest
  have hconforms : t.Conforms u t.root u.root := by
    subst ht hu
    refine .intro rfl rfl rfl rfl (by decide) (by decide) (fun key => ?_) ?_
    · exact (List.Perm.swap ..).mem_iff
    · -- both children are literals
      intro child hchild _ _ _ hcompound
      rcases List.mem_pair.mp hchild with rfl | rfl
      · exact absurd hcompound (by decide)
      · exact absurd hcompound (by decide)
  have hno : ¬t.Conforms v t.root v.root := by
    rintro ⟨hget, hget', _, _, _, _, hkeys, _⟩
    subst ht hv
    cases hget
    cases hget'
    have := (hkeys (some ⟨"b", ⟨2⟩⟩)).mp (by decide)
    exact absurd this (by decide)
  have hsome : (t.get? t.root).isSome = true := by
    rw [ht]
    rfl
  refine ⟨t, u, v, _, hparse, hl, hswapped, hparse', ?_, ?_⟩
  · exact (rearrange_iff_conforms hforest hforest' hsome (by rw [hu]; rfl)).1.mpr hconforms
  · exact (rearrange_iff_conforms hforest hforest'' hsome (by rw [hv]; rfl)).2 hno

end Edit

end FormulaEditor
