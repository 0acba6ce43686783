/-
Branches of a forest.

In a forest the way up from a node is finite and determined by the links, so no
node is met twice on it (`Tree.Climbs.nodup`) and it is no longer than there are
slots.  A walk down from a node therefore comes to an end as well, and what it
meets makes up a branch:

* `Tree.Climbs` — the way up from a node, as a list of handles;
* `Tree.IsForest.exists_bears`, `Tree.IsForest.exists_fold` — there is a branch below every
  node, so it can be read;
* `Tree.IsTree.exists_bears` — the branch below the root;
* `Tree.Replants.isForest` — new branches in the place of old ones, or where there
  was nothing, make a forest again;
* `Tree.IsWhole.isTree` — so a store that is one branch is a tree.
-/
import FormulaEditor.Proofs.Branch

namespace FormulaEditor

namespace Tree

/-! ### Ways up -/

/-- The way up from a node, which begins with the node itself and ends at a node
without a parent. -/
inductive Climbs (t : Tree) : Handle → List Handle → Prop
  | top {id : Handle} {node : Node} : t.get? id = some node → node.parent = none →
      Climbs t id [id]
  | step {id parent : Handle} {way : List Handle} : t.HasParent id parent →
      Climbs t parent way → Climbs t id (id :: way)

theorem Ascends.climbs {t : Tree} {id : Handle} (h : t.Ascends id) : ∃ way, t.Climbs id way := by
  induction h with
  | @top id node hget hparent => exact ⟨[id], .top hget hparent⟩
  | @step id parent hparent _ ih =>
    obtain ⟨way, hway⟩ := ih
    exact ⟨id :: way, .step hparent hway⟩

namespace Climbs

variable {t : Tree} {id other : Handle} {way way' : List Handle}

/-- A way up begins with the node itself. -/
theorem exists_cons (h : t.Climbs id way) : ∃ above, way = id :: above := by
  cases h with
  | top => exact ⟨[], rfl⟩
  | step => exact ⟨_, rfl⟩

theorem mem (h : t.Climbs id way) : id ∈ way := by
  obtain ⟨above, rfl⟩ := h.exists_cons
  exact List.mem_cons_self ..

/-- There is one way up. -/
theorem unique (h : t.Climbs id way) (h' : t.Climbs id way') : way = way' := by
  induction h generalizing way' with
  | top hget hparent =>
    cases h' with
    | top => rfl
    | step hother _ =>
      obtain ⟨node, hnode, hsome⟩ := hother
      rw [hget, Option.some_inj] at hnode
      rw [← hnode, hparent] at hsome
      exact absurd hsome (by simp)
  | step hstep _ ih =>
    obtain ⟨node, hnode, hsome⟩ := hstep
    cases h' with
    | top hget hparent =>
      rw [hnode, Option.some_inj] at hget
      rw [← hget, hsome] at hparent
      exact absurd hparent (by simp)
    | step hother h' =>
      obtain ⟨node', hnode', hsome'⟩ := hother
      rw [hnode, Option.some_inj] at hnode'
      rw [← hnode', hsome, Option.some_inj] at hsome'
      rw [ih (hsome' ▸ h')]

/-- From a node on the way the rest of the way leads up. -/
theorem exists_of_mem (h : t.Climbs id way) (hmem : other ∈ way) :
    ∃ below above, way = below ++ above ∧ t.Climbs other above := by
  induction h with
  | @top id node hget hparent =>
    rw [List.mem_singleton.mp hmem]
    exact ⟨[], [id], rfl, .top hget hparent⟩
  | @step id parent way hparent hway ih =>
    rcases List.mem_cons.mp hmem with rfl | hmem
    · exact ⟨[], _, rfl, .step hparent hway⟩
    · obtain ⟨below, above, rfl, habove⟩ := ih hmem
      exact ⟨id :: below, above, rfl, habove⟩

theorem isSome (h : t.Climbs id way) : (t.get? id).isSome = true := by
  cases h with
  | top hget _ => rw [hget, Option.isSome_some]
  | step hparent _ =>
    obtain ⟨node, hnode, _⟩ := hparent
    rw [hnode, Option.isSome_some]

/-- No node is met twice: the way up from its second place would be a shorter
one. -/
theorem nodup (h : t.Climbs id way) : way.Nodup := by
  induction h with
  | top => exact List.nodup_singleton _
  | @step id parent way hparent hway ih =>
    refine List.nodup_cons.mpr ⟨?_, ih⟩
    intro hmem
    -- the way up from the second place is the whole way, and a part of itself
    obtain ⟨below, above, rfl, habove⟩ := hway.exists_of_mem hmem
    have hlen := congrArg List.length (habove.unique (.step hparent hway))
    simp only [List.length_cons, List.length_append] at hlen
    omega

theorem length_le (h : t.Climbs id way) : way.length ≤ t.slots.size := by
  refine length_le_size h.nodup ?_
  intro other hmem
  obtain ⟨_, _, _, habove⟩ := h.exists_of_mem hmem
  exact habove.isSome

theorem ancestorsWithin_eq {bound : Nat} (h : t.Climbs id way) (hbound : way.length ≤ bound) :
    t.ancestorsWithin bound id = .ok way := by
  induction h generalizing bound with
  | @top id node hget hparent =>
    obtain ⟨bound, rfl⟩ := Nat.exists_eq_succ_of_ne_zero (Nat.ne_of_gt hbound)
    rw [ancestorsWithin, node_eq_ok_iff.mpr hget]
    simp only [bind, Except.bind, hparent]
    rfl
  | @step id parent way hparent _ ih =>
    obtain ⟨node, hget, hup⟩ := hparent
    obtain ⟨bound, rfl⟩ := Nat.exists_eq_succ_of_ne_zero
      (Nat.ne_of_gt (Nat.lt_of_lt_of_le (Nat.succ_pos _) hbound))
    rw [ancestorsWithin, node_eq_ok_iff.mpr hget]
    simp only [bind, Except.bind, hup, ih (Nat.le_of_succ_le_succ hbound)]
    rfl

/-- The way up is found, since it is no longer than there are slots. -/
theorem ancestors_eq (h : t.Climbs id way) : t.ancestors id = .ok way :=
  h.ancestorsWithin_eq (Nat.le_succ_of_le h.length_le)

/-- What stands above a node is what the way up meets. -/
theorem isAboveWithin_eq {other : Handle} {bound : Nat} (h : t.Climbs id way)
    (hbound : way.length ≤ bound) :
    t.isAboveWithin other bound id = .ok (decide (other ∈ way)) := by
  induction h generalizing bound with
  | @top id node hget hparent =>
    obtain ⟨bound, rfl⟩ := Nat.exists_eq_succ_of_ne_zero (Nat.ne_of_gt hbound)
    rw [isAboveWithin, node_eq_ok_iff.mpr hget]
    simp only [bind, Except.bind, hparent, List.mem_singleton, eq_comm (a := other)]
    by_cases heq : id = other
    · rw [if_pos heq, decide_eq_true heq]
      rfl
    · rw [if_neg heq, decide_eq_false heq]
      rfl
  | @step id parent way hparent _ ih =>
    obtain ⟨node, hget, hup⟩ := hparent
    obtain ⟨bound, rfl⟩ := Nat.exists_eq_succ_of_ne_zero
      (Nat.ne_of_gt (Nat.lt_of_lt_of_le (Nat.succ_pos _) hbound))
    rw [isAboveWithin, node_eq_ok_iff.mpr hget]
    simp only [bind, Except.bind, hup, ih (Nat.le_of_succ_le_succ hbound), List.mem_cons,
      eq_comm (a := other)]
    by_cases heq : id = other
    · rw [if_pos heq, decide_eq_true (Or.inl heq)]
      rfl
    · rw [if_neg heq, decide_eq_decide.mpr (or_iff_right heq)]

theorem isAbove_eq (h : t.Climbs id way) (other : Handle) :
    t.isAbove other id = .ok (decide (other ∈ way)) :=
  h.isAboveWithin_eq (Nat.le_succ_of_le h.length_le)

end Climbs

/-! ### Ways down -/

/-- The store bears the branch, and every node of it leads up to its top and on
from there. -/
structure BearsBelow (t : Tree) (parent : Option Handle) (way : List Handle) (b : Branch) :
    Prop where
  bears : t.Bears parent b
  climbs : ∀ id ∈ b.handles, ∃ below, t.Climbs id (below ++ b.top :: way)

/-- Branches below different children of a node have no nodes in common. -/
theorem bearsAll_of_bearsBelow {t : Tree} {parent : Option Handle} {way : List Handle}
    {l : List Branch} (htops : (l.map Branch.top).Nodup)
    (h : ∀ b ∈ l, t.BearsBelow parent way b) : t.BearsAll parent l := by
  refine ⟨fun b hb => (h b hb).bears.holds, ?_⟩
  refine List.nodup_flatMap.mpr ⟨fun b hb => (h b hb).bears.nodup, ?_⟩
  refine (List.pairwise_map.mp htops).imp_of_mem ?_
  intro b c hb hc hne id hid hid'
  -- the one way up from a common node would pass both tops at the same place
  obtain ⟨below, hbelow⟩ := (h b hb).climbs id hid
  obtain ⟨below', hbelow'⟩ := (h c hc).climbs id hid'
  have heq := List.append_inj_right' (hbelow.unique hbelow') rfl
  exact hne (List.cons.inj heq).1

/-- Branches below the children of a node make a branch below the node. -/
theorem bearsBelow_of_parts {t : Tree} {parent : Option Handle} {way : List Handle} {b : Branch}
    (hget : t.get? b.top = some (b.node parent)) (hclimbs : t.Climbs b.top (b.top :: way))
    (htops : (b.parts.map Branch.top).Nodup)
    (hparts : ∀ part ∈ b.parts, t.BearsBelow (some b.top) (b.top :: way) part) :
    t.BearsBelow parent way b := by
  have hall : t.BearsAll (some b.top) b.parts := bearsAll_of_bearsBelow htops hparts
  have hout : b.top ∉ b.parts.flatMap Branch.handles := by
    -- else the way up from the node would pass the node again
    intro hmem
    obtain ⟨part, hp, hid⟩ := List.mem_flatMap.mp hmem
    obtain ⟨below, hway⟩ := (hparts part hp).climbs b.top hid
    have hlen := congrArg List.length (hway.unique hclimbs)
    simp only [List.length_append, List.length_cons] at hlen
    omega
  refine ⟨⟨.intro hget hall.holds, ?_⟩, ?_⟩
  · rw [Branch.handles_eq]
    exact List.nodup_cons.mpr ⟨hout, hall.nodup⟩
  · intro other hother
    rw [Branch.handles_eq] at hother
    rcases List.mem_cons.mp hother with rfl | hother
    · exact ⟨[], hclimbs⟩
    · obtain ⟨part, hp, hmem⟩ := List.mem_flatMap.mp hother
      obtain ⟨below, hway⟩ := (hparts part hp).climbs other hmem
      refine ⟨below ++ [part.top], ?_⟩
      rwa [List.append_assoc]

/-- A node and branches for its children make a branch. -/
theorem exists_branch (id : Handle) {node : Node} {parts : List Branch}
    (h : parts.map Branch.top = node.children) :
    ∃ b : Branch, b.top = id ∧ b.parts = parts ∧ b.node node.parent = node := by
  obtain ⟨content, parent, tag⟩ := node
  cases content with
  | literal text => exact ⟨.literal id tag text, rfl, (List.map_eq_nil_iff.mp h).symm, rfl⟩
  | compound operator children =>
    have h : parts.map Branch.top = children := h
    refine ⟨.compound id tag operator parts, rfl, rfl, ?_⟩
    rw [Branch.node, h]

namespace IsForest

variable {t : Tree}

/-- The induction is on how much longer the way up could get: it cannot outgrow
the slots. -/
theorem exists_bearsBelow (h : t.IsForest) {room : Nat} {id : Handle} {node : Node}
    {way : List Handle} (hget : t.get? id = some node) (hclimbs : t.Climbs id (id :: way))
    (hroom : t.slots.size ≤ way.length + room) :
    ∃ b : Branch, b.top = id ∧ t.BearsBelow node.parent way b := by
  induction room generalizing id node way with
  | zero =>
    have := hclimbs.length_le
    rw [List.length_cons] at this
    omega
  | succ room ih =>
    -- each child names the node as its parent, so its way up is longer by one
    have hchild : ∀ child ∈ node.children,
        ∃ b : Branch, b.top = child ∧ t.BearsBelow (some id) (id :: way) b := by
      intro child hmem
      have hparent : t.HasParent child id := h.lists_iff.mp ⟨node, hget, hmem⟩
      obtain ⟨found, hfound, hup⟩ := hparent
      rw [← hup]
      refine ih hfound (.step ⟨found, hfound, hup⟩ hclimbs) ?_
      rw [List.length_cons]
      omega
    obtain ⟨parts, hparts, hbelow⟩ := exists_map_eq hchild
    obtain ⟨b, rfl, rfl, hnode⟩ := exists_branch id hparts
    refine ⟨b, rfl, bearsBelow_of_parts ?_ hclimbs (hparts ▸ h.nodup hget) hbelow⟩
    rw [hnode]
    exact hget

/-- There is a branch below every node. -/
theorem exists_bears (h : t.IsForest) {id : Handle} {node : Node} (hget : t.get? id = some node) :
    ∃ b : Branch, b.top = id ∧ t.Bears node.parent b := by
  obtain ⟨way, hway⟩ := (h.ascends hget).climbs
  obtain ⟨above, rfl⟩ := hway.exists_cons
  obtain ⟨b, htop, hb⟩ := h.exists_bearsBelow hget hway (Nat.le_add_left ..)
  exact ⟨b, htop, hb.bears⟩

/-- To read a subtree is to read those of the children first. -/
theorem exists_fold {α : Type} (combine : Handle → Node → List α → α) (h : t.IsForest)
    {id : Handle} {node : Node} (hget : t.get? id = some node) :
    ∃ parts, List.Forall₂ (fun child part => t.fold combine child = .ok part) node.children parts ∧
      t.fold combine id = .ok (combine id node parts) := by
  obtain ⟨b, rfl, hb⟩ := h.exists_bears hget
  refine ⟨b.parts.map (Branch.fold combine (some b.top)), ?_, ?_⟩
  · rw [hb.get, Option.some_inj] at hget
    rw [← hget, Branch.children_node, List.forall₂_map_left_iff, List.forall₂_map_right_iff]
    exact List.forall₂_same.mpr fun part hp => (hb.part hp).fold_eq combine
  · rw [hb.fold_eq, Branch.fold_eq]
    rw [hb.get, Option.some_inj] at hget
    rw [hget]

/-- A node with a parent is the top of a part of a compound. -/
theorem exists_compound (h : t.IsForest) {id up : Handle} {node : Node}
    (hget : t.get? id = some node) (hup : node.parent = some up) :
    ∃ (place : Option Handle) (tag : Tag) (operator : Operator) (parts : List Branch)
      (part : Branch), t.Bears place (.compound up tag operator parts) ∧ part ∈ parts ∧
      part.top = id := by
  obtain ⟨above, habove, hmem⟩ := h.lists_iff.mpr ⟨node, hget, hup⟩
  obtain ⟨b, rfl, hb⟩ := h.exists_bears habove
  rw [hb.get, Option.some_inj] at habove
  rw [← habove, Branch.children_node] at hmem
  obtain ⟨part, hpart, htop⟩ := List.mem_map.mp hmem
  cases b with
  | literal => exact absurd hpart List.not_mem_nil
  | compound up tag operator parts => exact ⟨_, tag, operator, parts, part, hb, hpart, htop⟩

end IsForest

theorem IsTree.exists_bears {t : Tree} (h : t.IsTree) :
    ∃ b : Branch, b.top = t.root ∧ t.Bears none b := by
  obtain ⟨node, hget, hparent⟩ := h.root_top
  obtain ⟨b, htop, hb⟩ := h.toIsForest.exists_bears hget
  exact ⟨b, htop, hparent ▸ hb⟩

/-! ### Branches and what is around them -/

theorem nodup_tops {l : List Branch} (h : (l.flatMap Branch.handles).Nodup) :
    (l.map Branch.top).Nodup :=
  nodup_map_of_nodup_flatMap h Branch.top_mem_handles

namespace Bears

variable {t : Tree} {place : Option Handle} {b c : Branch}

/-- Whatever stands below a branch that leads up does so too. -/
theorem ascends (h : t.Bears place b) (hc : c.Within b) (hup : t.Ascends b.top) :
    t.Ascends c.top := by
  induction hc generalizing place with
  | refl => exact hup
  | part hp _ ih =>
    have hpart := h.part hp
    exact ih hpart (.step ⟨_, hpart.get, Branch.parent_node _ _⟩ hup)

/-- The branch below a node of a branch. -/
theorem exists_within (h : t.Bears place b) {id : Handle} (hid : id ∈ b.handles) :
    ∃ (c : Branch) (up : Option Handle), c.Within b ∧ t.Bears up c ∧ c.top = id := by
  obtain ⟨c, htop, hc⟩ := Branch.exists_within hid
  obtain ⟨up, hup⟩ := h.within hc
  exact ⟨c, up, hc, hup, htop⟩

/-- Children of nodes of a branch belong to the branch. -/
theorem mem_of_lists (h : t.Bears place b) {up child : Handle} (hup : up ∈ b.handles)
    (hlists : t.Lists up child) : child ∈ b.handles ∧ t.HasParent child up := by
  obtain ⟨c, _, hc, hbears, rfl⟩ := h.exists_within hup
  obtain ⟨node, hget, hmem⟩ := hlists
  rw [hbears.get, Option.some_inj] at hget
  rw [← hget, Branch.children_node] at hmem
  obtain ⟨part, hp, rfl⟩ := List.mem_map.mp hmem
  exact ⟨hc.handles_subset (Branch.mem_handles_of_mem_parts hp part.top_mem_handles),
    _, (hbears.part hp).get, Branch.parent_node _ _⟩

/-- A node of a branch stands below another one, unless it is the topmost one. -/
theorem eq_or_of_hasParent (h : t.Bears place b) {child up : Handle} (hchild : child ∈ b.handles)
    (hparent : t.HasParent child up) :
    (child = b.top ∧ place = some up) ∨ (up ∈ b.handles ∧ t.Lists up child) := by
  obtain ⟨c, above, hc, hbears, rfl⟩ := h.exists_within hchild
  obtain ⟨node, hget, hup⟩ := hparent
  rw [hbears.get, Option.some_inj] at hget
  rw [← hget, Branch.parent_node] at hup
  subst hup
  rcases hc.eq_or_exists with rfl | ⟨d, hd, hpart⟩
  · exact .inl ⟨rfl, (h.holds.parent_eq hbears.holds rfl).symm⟩
  · obtain ⟨_, habove⟩ := h.within hd
    have heq := (habove.part hpart).holds.parent_eq hbears.holds rfl
    rw [Option.some_inj] at heq
    subst heq
    refine .inr ⟨hd.handles_subset d.top_mem_handles, _, habove.get, ?_⟩
    rw [Branch.children_node]
    exact List.mem_map_of_mem hpart

/-- No node of a branch is a top, unless the branch itself is one. -/
theorem eq_of_parent_eq_none (h : t.Bears place b) {id : Handle} (hid : id ∈ b.handles)
    {node : Node} (hget : t.get? id = some node) (hnone : node.parent = none) :
    id = b.top ∧ place = none := by
  obtain ⟨c, up, hc, hbears, rfl⟩ := h.exists_within hid
  rw [hbears.get, Option.some_inj] at hget
  rw [← hget, Branch.parent_node] at hnone
  rcases hc.eq_or_exists with rfl | ⟨d, hd, hpart⟩
  · exact ⟨rfl, (h.holds.parent_eq hbears.holds rfl).symm.trans hnone⟩
  · obtain ⟨_, habove⟩ := h.within hd
    have heq := (habove.part hpart).holds.parent_eq hbears.holds rfl
    exact absurd (heq.symm.trans hnone) (by simp)

/-- The way up from a node of a branch passes the top of the branch. -/
theorem exists_climbs (h : t.Bears place b) {way : List Handle} (hway : t.Climbs b.top way)
    {id : Handle} (hid : id ∈ b.handles) : ∃ below, t.Climbs id (below ++ way) := by
  induction b generalizing place way with
  | literal =>
    rw [Branch.handles, List.mem_singleton] at hid
    exact ⟨[], hid ▸ hway⟩
  | compound top tag operator parts ih =>
    rw [Branch.handles, List.mem_cons, List.mem_flatMap] at hid
    rcases hid with rfl | ⟨part, hp, hid⟩
    · exact ⟨[], hway⟩
    · have hpart : t.Bears (some top) part := h.part hp
      obtain ⟨below, hbelow⟩ := ih part hp hpart
        (.step ⟨_, hpart.get, Branch.parent_node _ _⟩ hway) hid
      exact ⟨below ++ [part.top], by rwa [List.append_assoc]⟩

end Bears

/-- Nothing on the way up from a branch belongs to the branch. -/
theorem Bears.notMem_of_climbs {t : Tree} {place : Option Handle} {b : Branch}
    (h : t.Bears place b) {way : List Handle} (hway : t.Climbs b.top (b.top :: way)) :
    ∀ other ∈ way, other ∉ b.handles := by
  intro other hmem hin
  obtain ⟨below, hbelow⟩ := h.exists_climbs hway hin
  cases hway with
  | top => exact List.not_mem_nil hmem
  | step _ hway =>
    -- else the way up from there would be a part of itself
    obtain ⟨below', above, rfl, habove⟩ := hway.exists_of_mem hmem
    have hlen := congrArg List.length (habove.unique hbelow)
    simp only [List.length_cons, List.length_append] at hlen
    omega

/-- A branch of a forest does not stand below one of its own nodes. -/
theorem IsForest.notMem_place {t : Tree} (h : t.IsForest) {up : Handle} {b : Branch}
    (hb : t.Bears (some up) b) : up ∉ b.handles := by
  have hparent : t.HasParent b.top up := ⟨_, hb.get, Branch.parent_node _ _⟩
  obtain ⟨node, hget, _⟩ := h.lists_iff.mpr hparent
  obtain ⟨way, hway⟩ := (h.ascends hget).climbs
  exact hb.notMem_of_climbs (.step hparent hway) up hway.mem

/-! ### Replanting -/

/-- In the second store some slots have been given to branches, which stand where
the links from outside lead.  The other slots have not changed. -/
structure Replants (t t' : Tree) (inside : Handle → Prop) (place : Option Handle)
    (l : List Branch) : Prop where
  same : ∀ id, ¬ inside id → t'.get? id = t.get? id
  bears : t'.BearsAll place l
  mem_iff : ∀ id, id ∈ l.flatMap Branch.handles ↔ inside id ∧ (t'.get? id).isSome = true
  outside : ∀ up, place = some up → ¬ inside up
  lists_iff : ∀ up child, ¬ inside up → inside child →
    (t.Lists up child ↔ place = some up ∧ child ∈ l.map Branch.top)
  closed : ∀ up child, inside up → ¬ inside child → ¬ t.HasParent child up

namespace Replants

variable {t t' : Tree} {inside : Handle → Prop} {place : Option Handle} {l : List Branch}

theorem exists_bears (h : t.Replants t' inside place l) {id : Handle} {node : Node}
    (hinside : inside id) (hget : t'.get? id = some node) :
    ∃ b ∈ l, t'.Bears place b ∧ id ∈ b.handles := by
  obtain ⟨b, hb, hid⟩ := List.mem_flatMap.mp ((h.mem_iff id).mpr ⟨hinside, hget ▸ rfl⟩)
  exact ⟨b, hb, h.bears.bears hb, hid⟩

theorem mem_of_mem_handles (h : t.Replants t' inside place l) {b : Branch} (hb : b ∈ l)
    {id : Handle} (hid : id ∈ b.handles) : inside id :=
  ((h.mem_iff id).mp (List.mem_flatMap.mpr ⟨b, hb, hid⟩)).1

theorem hasParent_of_lists (h : t.Replants t' inside place l) (hforest : t.IsForest)
    {up child : Handle} (hlists : t'.Lists up child) : t'.HasParent child up := by
  obtain ⟨node, hget, hmem⟩ := hlists
  by_cases hup : inside up
  · obtain ⟨b, _, hbears, hid⟩ := h.exists_bears hup hget
    exact (hbears.mem_of_lists hid ⟨node, hget, hmem⟩).2
  · have hlists : t.Lists up child := ⟨node, h.same up hup ▸ hget, hmem⟩
    by_cases hchild : inside child
    · obtain ⟨rfl, hmem⟩ := (h.lists_iff up child hup hchild).mp hlists
      obtain ⟨b, hb, rfl⟩ := List.mem_map.mp hmem
      exact ⟨_, (h.bears.holds b hb).get, Branch.parent_node _ _⟩
    · obtain ⟨found, hfound, hparent⟩ := hforest.lists_iff.mp hlists
      exact ⟨found, (h.same child hchild).trans hfound, hparent⟩

theorem lists_of_hasParent (h : t.Replants t' inside place l) (hforest : t.IsForest)
    {up child : Handle} (hparent : t'.HasParent child up) : t'.Lists up child := by
  obtain ⟨node, hget, hup⟩ := hparent
  -- a child inside is listed by its branch, or it is a top that is listed from outside
  have hfrom {up child : Handle} (hup : ¬ inside up) (hlists : t.Lists up child) :
      t'.Lists up child := by
    obtain ⟨found, hfound, hmem⟩ := hlists
    exact ⟨found, (h.same up hup).trans hfound, hmem⟩
  by_cases hchild : inside child
  · obtain ⟨b, hb, hbears, hid⟩ := h.exists_bears hchild hget
    rcases hbears.eq_or_of_hasParent hid ⟨node, hget, hup⟩ with ⟨rfl, rfl⟩ | ⟨_, hlists⟩
    · have hout := h.outside up rfl
      exact hfrom hout ((h.lists_iff up b.top hout hchild).mpr ⟨rfl, List.mem_map_of_mem hb⟩)
    · exact hlists
  · have hparent : t.HasParent child up := ⟨node, h.same child hchild ▸ hget, hup⟩
    have hout : ¬ inside up := fun hin => h.closed up child hin hchild hparent
    exact hfrom hout (hforest.lists_iff.mpr hparent)

theorem ascends_outside (h : t.Replants t' inside place l) {id : Handle} (hid : t.Ascends id)
    (hout : ¬ inside id) : t'.Ascends id := by
  induction hid with
  | top hget hparent => exact .top ((h.same _ hout).trans hget) hparent
  | @step id up hparent _ ih =>
    have hup : ¬ inside up := fun hin => h.closed up id hin hout hparent
    obtain ⟨node, hget, heq⟩ := hparent
    exact .step ⟨node, (h.same id hout).trans hget, heq⟩ (ih hup)

theorem ascends_top (h : t.Replants t' inside place l) (hforest : t.IsForest) {b : Branch}
    (hb : b ∈ l) : t'.Ascends b.top := by
  have hget := (h.bears.holds b hb).get
  cases place with
  | none => exact .top hget (Branch.parent_node _ _)
  | some up =>
    have hout := h.outside up rfl
    obtain ⟨node, hup, _⟩ := (h.lists_iff up b.top hout
      (h.mem_of_mem_handles hb b.top_mem_handles)).mpr ⟨rfl, List.mem_map_of_mem hb⟩
    exact .step ⟨_, hget, Branch.parent_node _ _⟩ (h.ascends_outside (hforest.ascends hup) hout)

/-- Replanting some branches of a forest makes a forest. -/
theorem isForest (h : t.Replants t' inside place l) (hforest : t.IsForest) : t'.IsForest where
  lists_iff := ⟨h.hasParent_of_lists hforest, h.lists_of_hasParent hforest⟩
  nodup {id node} hget := by
    by_cases hid : inside id
    · obtain ⟨b, _, hbears, hmem⟩ := h.exists_bears hid hget
      obtain ⟨c, _, _, hc, rfl⟩ := hbears.exists_within hmem
      rw [hc.get, Option.some_inj] at hget
      rw [← hget, Branch.children_node]
      exact nodup_tops hc.parts.nodup
    · exact hforest.nodup (h.same id hid ▸ hget)
  ascends {id node} hget := by
    by_cases hid : inside id
    · obtain ⟨b, hb, hbears, hmem⟩ := h.exists_bears hid hget
      obtain ⟨c, _, hwithin, _, rfl⟩ := hbears.exists_within hmem
      exact hbears.ascends hwithin (h.ascends_top hforest hb)
    · exact h.ascends_outside (hforest.ascends (h.same id hid ▸ hget)) hid

end Replants

/-- Only the nodes matter. -/
theorem IsForest.congr {t t' : Tree} (h : t.IsForest) (hsame : ∀ id, t'.get? id = t.get? id) :
    t'.IsForest := by
  have hreplants : t.Replants t' (fun _ => False) none [] :=
    { same := fun id _ => hsame id
      bears := ⟨by simp, by simp⟩
      mem_iff := by simp
      outside := by simp
      lists_iff := fun _ _ _ hchild => hchild.elim
      closed := fun _ _ hup => hup.elim }
  exact hreplants.isForest h

/-- A branch of a forest may be replaced by one with the same top that makes do
with its nodes. -/
theorem IsForest.replants {t t' : Tree} (h : t.IsForest) {place : Option Handle} {b b' : Branch}
    (hb : t.Bears place b) (hsame : ∀ id, id ∉ b.handles → t'.get? id = t.get? id)
    (hb' : t'.Bears place b') (htop : b'.top = b.top)
    (hmem : ∀ id, id ∈ b'.handles ↔ id ∈ b.handles ∧ (t'.get? id).isSome = true) :
    t.Replants t' (· ∈ b.handles) place [b'] where
  same := hsame
  bears := ⟨fun c hc => List.mem_singleton.mp hc ▸ hb'.holds, by
    rw [List.flatMap_singleton]
    exact hb'.nodup⟩
  mem_iff id := by rw [List.flatMap_singleton, hmem]
  outside up hup := h.notMem_place (hup ▸ hb)
  lists_iff up child hup hchild := by
    rw [List.map_singleton, List.mem_singleton, htop]
    constructor
    · intro hlists
      rcases hb.eq_or_of_hasParent hchild (h.lists_iff.mp hlists) with ⟨heq, hplace⟩ | ⟨hmem, _⟩
      · exact ⟨hplace, heq⟩
      · exact absurd hmem hup
    · rintro ⟨rfl, rfl⟩
      exact h.lists_iff.mpr ⟨_, hb.get, Branch.parent_node _ _⟩
  closed up child hup hchild hparent :=
    hchild (hb.mem_of_lists hup (h.lists_iff.mpr hparent)).1

theorem get?_empty (nextTag : Nat) (id : Handle) : (empty nextTag).get? id = none := by
  rw [get?, empty, Array.getElem?_empty, Option.getD_none]

/-- In a store without nodes there is nothing to link. -/
theorem isForest_empty (nextTag : Nat) : (empty nextTag).IsForest where
  lists_iff := by simp [Lists, HasParent, get?_empty]
  nodup h := by simp [get?_empty] at h
  ascends h := by simp [get?_empty] at h

/-! ### Stores of one branch -/

namespace IsWhole

variable {t : Tree} {b : Branch}

/-- Behind every live handle there is a branch. -/
theorem exists_within (h : t.IsWhole b) {id : Handle} {node : Node} (hget : t.get? id = some node) :
    ∃ (c : Branch) (place : Option Handle), c.Within b ∧ t.Bears place c ∧ c.top = id ∧
      node = c.node place := by
  obtain ⟨c, place, hc, hplace, rfl⟩ := h.bears.exists_within (h.mem id (hget ▸ rfl))
  rw [hplace.get, Option.some_inj] at hget
  exact ⟨c, place, hc, hplace, rfl, hget.symm⟩

/-- The branch might as well have been planted into a store without nodes. -/
theorem replants (h : t.IsWhole b) : (empty 0).Replants t (fun _ => True) none [b] where
  same _ hnot := absurd trivial hnot
  bears := ⟨fun c hc => List.mem_singleton.mp hc ▸ h.bears.holds, by
    rw [List.flatMap_singleton]
    exact h.bears.nodup⟩
  mem_iff id := by
    rw [List.flatMap_singleton]
    exact ⟨fun hid => ⟨trivial, h.bears.holds.isSome id hid⟩, fun hlive => h.mem id hlive.2⟩
  outside _ hup := absurd hup (by simp)
  lists_iff _ _ hup _ := absurd trivial hup
  closed _ _ _ hchild := absurd trivial hchild

theorem isTree (h : t.IsWhole b) : t.IsTree where
  toIsForest := h.replants.isForest (isForest_empty 0)
  root_top := ⟨_, h.root ▸ h.bears.get, Branch.parent_node _ _⟩

end IsWhole

end Tree

end FormulaEditor
