/-
Stores that gain branches.

Reading a formula puts new nodes behind those that are there, links them among
each other and merges some away again.  Between two such steps the new nodes
make up a few branches that have no place yet, and the old nodes are as they
were:

* `Tree.Gains` — a store with new branches in addition to what it had;
* `Tree.Gains.trans` — the branches of two growths, one after the other;
* `Edit.gains_addLiteral`, `Edit.gains_addCompound`, `Edit.gains_attach`,
  `Edit.gains_flatten` — the steps that a growth is made of;
* `Edit.Adds` — edits that add a branch of some kind, and `Edit.gains_forM_attach`
  for several of them under one parent;
* `Edit.run_makeRoot_whole` — what has grown out of nothing, as a whole tree.

Design notes: `Tree.Gains.mem_iff` accounts for every new slot.  A slot that
is in no branch holds nothing, so a store that starts out empty never has
nodes that its branches do not show.  Slots are given out from left to right, so
the new nodes are in depth-first order of their handles (`Tree.Gains.inOrder`).
-/
import FormulaEditor.Proofs.Flatten

namespace FormulaEditor

/-- Handles in the order in which they were given out. -/
def InOrder (ids : List Handle) : Prop := ids.Pairwise fun id other => id.index < other.index

theorem InOrder.nodup {ids : List Handle} (h : InOrder ids) : ids.Nodup := by
  refine h.imp ?_
  rintro id other hlt rfl
  exact Nat.lt_irrefl _ hlt

namespace Tree

/-- In the second store there are new nodes, which make up branches without a
place.  Nothing else has changed. -/
structure Gains (t t' : Tree) (l : List Branch) : Prop where
  size_le : t.slots.size ≤ t'.slots.size
  root : t'.root = t.root
  old : ∀ id, id.index < t.slots.size → t'.get? id = t.get? id
  bears : t'.BearsAll none l
  mem_iff : ∀ id, id ∈ l.flatMap Branch.handles ↔
    t.slots.size ≤ id.index ∧ (t'.get? id).isSome = true
  inOrder : InOrder (l.flatMap Branch.handles)

theorem BearsAll.append {t : Tree} {parent : Option Handle} {l l' : List Branch}
    (h : t.BearsAll parent l) (h' : t.BearsAll parent l')
    (hdisjoint : ∀ id ∈ l.flatMap Branch.handles, id ∉ l'.flatMap Branch.handles) :
    t.BearsAll parent (l ++ l') := by
  constructor
  · intro b hb
    rcases List.mem_append.mp hb with hb | hb
    · exact h.holds b hb
    · exact h'.holds b hb
  · rw [List.flatMap_append, List.nodup_append]
    refine ⟨h.nodup, h'.nodup, ?_⟩
    intro id hid other hother heq
    exact hdisjoint id hid (heq ▸ hother)

namespace Gains

variable {t t' t'' : Tree} {l l' : List Branch} {b : Branch}

/-- A gained branch stands behind the old nodes. -/
theorem size_le_top (h : t.Gains t' l) (hb : b ∈ l) : t.slots.size ≤ b.top.index :=
  ((h.mem_iff b.top).mp (List.mem_flatMap.mpr ⟨b, hb, b.top_mem_handles⟩)).1

/-- A root that is not among the new nodes stays so. -/
theorem root_le_size (h : t.Gains t' l) (hroot : t.root.index ≤ t.slots.size) :
    t'.root.index ≤ t'.slots.size := by
  have := h.size_le
  rw [h.root]
  omega

theorem trans (h : t.Gains t' l) (h' : t'.Gains t'' l') : t.Gains t'' (l ++ l') := by
  have hlt {id : Handle} (hid : id ∈ l.flatMap Branch.handles) : id.index < t'.slots.size :=
    lt_size_of_isSome ((h.mem_iff id).mp hid).2
  have hsize := h.size_le
  refine ⟨Nat.le_trans h.size_le h'.size_le, h'.root.trans h.root, ?_, ?_, ?_, ?_⟩
  · intro id hid
    rw [h'.old id (Nat.lt_of_lt_of_le hid h.size_le), h.old id hid]
  · refine (h.bears.congr fun id hid => h'.old id (hlt hid)).append h'.bears ?_
    intro id hid hid'
    have := ((h'.mem_iff id).mp hid').1
    have := hlt hid
    omega
  · intro id
    rw [List.flatMap_append, List.mem_append, h.mem_iff, h'.mem_iff]
    -- the first growth has the slots up to the middle, the second one those from there on
    rcases Nat.lt_or_ge id.index t'.slots.size with hmid | hmid
    · rw [h'.old id hmid]
      refine ⟨?_, Or.inl⟩
      rintro (hleft | ⟨hle, _⟩)
      · exact hleft
      · omega
    · refine ⟨?_, fun hright => Or.inr ⟨hmid, hright.2⟩⟩
      rintro (⟨_, hlive⟩ | ⟨_, hlive⟩)
      · have := lt_size_of_isSome hlive
        omega
      · exact ⟨by omega, hlive⟩
  · rw [List.flatMap_append]
    refine List.pairwise_append.mpr ⟨h.inOrder, h'.inOrder, ?_⟩
    intro id hid other hother
    exact Nat.lt_of_lt_of_le (hlt hid) ((h'.mem_iff other).mp hother).1

/-- A change among the new nodes, which may lose some of them. -/
theorem change (h : t.Gains t' l) (hsame : t'.SameExcept t'' (l.flatMap Branch.handles))
    (hbears : t''.BearsAll none l')
    (hsub : (l'.flatMap Branch.handles).Sublist (l.flatMap Branch.handles))
    (hgone : ∀ id ∈ l.flatMap Branch.handles, id ∉ l'.flatMap Branch.handles →
      t''.get? id = none) : t.Gains t'' l' := by
  refine ⟨hsame.size ▸ h.size_le, hsame.root.trans h.root, ?_, hbears, ?_,
    List.Pairwise.sublist hsub h.inOrder⟩
  · intro id hid
    rw [hsame.get? id fun hmem => Nat.not_lt.mpr ((h.mem_iff id).mp hmem).1 hid, h.old id hid]
  · intro id
    constructor
    · intro hid
      obtain ⟨b, hb, hmem⟩ := List.mem_flatMap.mp hid
      exact ⟨((h.mem_iff id).mp (hsub.subset hid)).1, (hbears.holds b hb).isSome id hmem⟩
    · rintro ⟨hle, hlive⟩
      by_contra hnot
      -- what is live outside of the branches was so before, and was accounted for
      have hmem : id ∈ l.flatMap Branch.handles := by
        by_contra hout
        rw [hsame.get? id hout] at hlive
        exact hout ((h.mem_iff id).mpr ⟨hle, hlive⟩)
      rw [hgone id hmem hnot] at hlive
      exact absurd hlive (by simp)

end Gains

end Tree

namespace Edit

open Branch

variable {t t' : Tree} {l : List Branch} {id : Handle} {tag : Tag} {operator : Operator}
  {parts : List Branch}

/-! ### New nodes -/

/-- A new node is a branch of its own. -/
theorem gains_allocate (t : Tree) (b : Branch) (nextTag : Nat) (htop : b.top = ⟨t.slots.size⟩)
    (hparts : b.parts = []) : t.Gains { t.push (b.node none) with nextTag } [b] := by
  have hhandles : [b].flatMap handles = [b.top] := by
    rw [List.flatMap_singleton, handles_eq, hparts, List.flatMap_nil]
  have hget : ∀ id, ({ t.push (b.node none) with nextTag } : Tree).get? id
      = if id = b.top then some (b.node none) else t.get? id := by
    intro id
    have hiff : id = b.top ↔ id.index = t.slots.size := by
      rw [htop]
      exact ⟨fun h => h ▸ rfl, fun h => by rw [← h]⟩
    simp only [hiff]
    exact t.get?_push (b.node none) id
  refine ⟨?_, rfl, ?_, ⟨?_, ?_⟩, ?_, ?_⟩
  · simp [Tree.push]
  · intro id hid
    rw [hget, if_neg]
    rintro rfl
    rw [htop] at hid
    exact Nat.lt_irrefl _ hid
  · intro c hc
    rw [List.mem_singleton.mp hc]
    refine .intro ?_ ?_
    · rw [hget, if_pos rfl]
    · simp [hparts]
  · rw [hhandles]
    exact (by simp)
  · intro id
    rw [hhandles, List.mem_singleton, hget]
    constructor
    · rintro rfl
      rw [if_pos rfl, htop]
      exact ⟨Nat.le_refl _, rfl⟩
    · rintro ⟨hle, hlive⟩
      by_contra hne
      rw [if_neg hne] at hlive
      exact Nat.not_lt.mpr hle (Tree.lt_size_of_isSome hlive)
  · rw [hhandles]
    exact List.pairwise_singleton _ _

theorem gains_addLiteral (t : Tree) (text : String) :
    ∃ t', (addLiteral text).run t = .ok ⟨t.slots.size⟩ t' ∧
      t.Gains t' [literal ⟨t.slots.size⟩ ⟨t.nextTag⟩ text] :=
  ⟨_, rfl, gains_allocate t (literal ⟨t.slots.size⟩ ⟨t.nextTag⟩ text) (t.nextTag + 1) rfl rfl⟩

theorem gains_addCompound (t : Tree) (operator : Operator) :
    ∃ t', (addCompound operator).run t = .ok ⟨t.slots.size⟩ t' ∧
      t.Gains t' [compound ⟨t.slots.size⟩ ⟨t.nextTag⟩ operator []] :=
  ⟨_, rfl, gains_allocate t (compound ⟨t.slots.size⟩ ⟨t.nextTag⟩ operator []) (t.nextTag + 1)
    rfl rfl⟩

/-! ### New links -/

/-- Attaching moves a branch below another one without changing the order of the
nodes. -/
theorem handles_attached (id : Handle) (tag : Tag) (operator : Operator)
    (parts l : List Branch) (c : Branch) :
    (compound id tag operator (parts ++ [c]) :: l).flatMap handles
      = (compound id tag operator parts :: c :: l).flatMap handles := by
  rw [List.flatMap_cons, List.flatMap_cons, List.flatMap_cons, handles, handles,
    List.flatMap_append, List.flatMap_singleton, List.cons_append, List.cons_append,
    List.append_assoc]

/-- What attaching changes, when neither of the two nodes has a place. -/
theorem run_attach_slots {c : Branch} (hb : t.Bears none (compound id tag operator parts))
    (hc : t.Bears none c) (hroot : c.top ≠ t.root) (hne : c.top ≠ id) :
    ∃ t', (attach id c.top).run t = .ok () t' ∧ t.SameExcept t' [id, c.top] ∧
      t'.get? id = some ((compound id tag operator (parts ++ [c])).node none) ∧
      t'.get? c.top = some (c.node (some id)) := by
  have hget : t.get? id = some ⟨.compound operator (parts.map top), none, tag⟩ := hb.get
  have hrun := run_attach hget hc.get (parent_node none c) hroot
    (Tree.isAbove_of_top hget rfl hne) hne
  rw [withParent_node] at hrun
  have hput := Tree.SameExcept.put t id
    (some ⟨.compound operator (parts.map top ++ [c.top]), none, tag⟩)
  have hput' := Tree.SameExcept.put
    (t.put id (some ⟨.compound operator (parts.map top ++ [c.top]), none, tag⟩)) c.top
    (some (c.node (some id)))
  refine ⟨_, hrun, ?_, ?_, ?_⟩
  · exact (hput.mono (List.cons_subset_cons id (List.nil_subset [c.top]))).trans
      (hput'.mono (List.subset_cons_self ..))
  · rw [Tree.get?_put_ne _ _ hne.symm, Tree.get?_put_self _ (Tree.lt_size_of_get? hget),
      Branch.node, List.map_append, List.map_singleton]
  · refine Tree.get?_put_self _ ?_
    rw [hput.size]
    exact Tree.lt_size_of_get? hc.get

/-- Attaching a branch to the compound in front of it. -/
theorem run_attach_branches {c : Branch}
    (h : t.BearsAll none (compound id tag operator parts :: c :: l)) (hroot : c.top ≠ t.root) :
    ∃ t', (attach id c.top).run t = .ok () t' ∧ t.SameExcept t' [id, c.top] ∧
      t'.BearsAll none (compound id tag operator (parts ++ [c]) :: l) := by
  have hb := h.bears (List.mem_cons_self ..)
  have hc := h.tail.bears (List.mem_cons_self ..)
  have hne : c.top ≠ id := by
    intro heq
    refine h.notMem_of_mem_head (top_mem_handles (compound id tag operator parts)) ?_
    exact List.mem_flatMap.mpr ⟨c, List.mem_cons_self .., heq ▸ c.top_mem_handles⟩
  obtain ⟨t', hrun, hsame, hid, htop⟩ := run_attach_slots hb hc hroot hne
  refine ⟨t', hrun, hsame, ?_, ?_⟩
  · intro d hd
    rcases List.mem_cons.mp hd with rfl | hd
    · refine .intro hid ?_
      intro part hp
      rcases List.mem_append.mp hp with hold | hnew
      · -- what was below the compound stays there
        refine (hb.holds.part hold).congr fun other ho => hsame.get? other ?_
        exact notMem_tops h.nodup (.inl (List.mem_flatMap.mpr ⟨part, hold, ho⟩))
      · -- the new part brings along what is below it
        rw [List.mem_singleton.mp hnew]
        exact hc.holds.moved htop fun other ho =>
          hsame.get? other (notMem_tops h.nodup (.inr (.inl ho)))
    · -- the branches further on do not take part
      refine (h.tail.tail.holds d hd).congr fun other ho => hsame.get? other ?_
      exact notMem_tops h.nodup (.inr (.inr (List.mem_flatMap.mpr ⟨d, hd, ho⟩)))
  · rw [handles_attached]
    exact h.nodup

/-- Attaching a new branch to the first of the new nodes.  The root is none of
the new nodes, except that in a store without nodes it may be the first one. -/
theorem gains_attach {c : Branch}
    (h : t.Gains t' (compound ⟨t.slots.size⟩ tag operator parts :: c :: l))
    (hroot : t.root.index ≤ t.slots.size) :
    ∃ t'', (attach ⟨t.slots.size⟩ c.top).run t' = .ok () t'' ∧
      t.Gains t'' (compound ⟨t.slots.size⟩ tag operator (parts ++ [c]) :: l) := by
  have hne : c.top ≠ t'.root := by
    rw [h.root]
    rintro heq
    have hle := h.size_le_top (List.mem_cons_of_mem _ (List.mem_cons_self ..))
    -- a root among the new nodes can only be the first of them, which is not in `c`
    have hfirst : c.top = ⟨t.slots.size⟩ := by
      rw [heq] at hle ⊢
      exact congrArg Handle.mk (Nat.le_antisymm hroot hle)
    have htop : c.top ∈ (compound ⟨t.slots.size⟩ tag operator parts).handles := by
      rw [hfirst]
      exact top_mem_handles (compound ⟨t.slots.size⟩ tag operator parts)
    exact h.bears.notMem_of_mem_head htop
      (List.mem_flatMap.mpr ⟨c, List.mem_cons_self .., c.top_mem_handles⟩)
  obtain ⟨t'', hrun, hsame, hbears⟩ := run_attach_branches h.bears hne
  refine ⟨t'', hrun, h.change (hsame.mono ?_) hbears ?_ ?_⟩
  · rw [List.flatMap_cons, List.flatMap_cons]
    simp [handles]
  · rw [handles_attached]
  · rw [handles_attached]
    exact fun _ hmem hnot => absurd hmem hnot

/-! ### New branches -/

/-- The edit adds a branch of some kind to whatever store it is applied to.  The
branch is new and has no place yet. -/
def Adds (edit : Edit Handle) (P : Branch → Prop) : Prop :=
  ∀ t : Tree, t.root.index ≤ t.slots.size → ∃ (t' : Tree) (b : Branch),
    edit.run t = .ok b.top t' ∧ t.Gains t' [b] ∧ P b

section

variable {α : Type} {f : α → Edit Handle} {R : α → Branch → Prop} {as : List α}
  {done : List Branch}

/-- New branches are attached one by one, as soon as they are complete. -/
theorem gains_forM_attach (h : t.Gains t' [compound ⟨t.slots.size⟩ tag operator done])
    (hroot : t.root.index ≤ t.slots.size) (hadd : ∀ a ∈ as, Adds (f a) (R a)) :
    ∃ (t'' : Tree) (l : List Branch),
      (as.forM fun a => do attach ⟨t.slots.size⟩ (← f a)).run t' = .ok () t'' ∧
      t.Gains t'' [compound ⟨t.slots.size⟩ tag operator (done ++ l)] ∧ List.Forall₂ R as l := by
  induction as generalizing t' done with
  | nil =>
    refine ⟨t', [], rfl, ?_, .nil⟩
    rwa [List.append_nil]
  | cons a as ih =>
    obtain ⟨t₁, b, hrun₁, hgains₁, hb⟩ := hadd a (List.mem_cons_self ..) t' (h.root_le_size hroot)
    obtain ⟨t₂, hrun₂, hgains₂⟩ := gains_attach (h.trans hgains₁) hroot
    obtain ⟨t₃, l, hrun₃, hgains₃, hl⟩ := ih hgains₂ fun a ha => hadd a (List.mem_cons_of_mem _ ha)
    refine ⟨t₃, b :: l, ?_, ?_, .cons hb hl⟩
    · rw [run_forM_cons, run_bind_ok ((run_bind_ok hrun₁).trans hrun₂), hrun₃]
    · rwa [List.append_assoc] at hgains₃

/-- New branches side by side, none of which has a place yet. -/
theorem gains_mapM (h : t.Gains t' done) (hroot : t.root.index ≤ t.slots.size)
    (hadd : ∀ a ∈ as, Adds (f a) (R a)) :
    ∃ (t'' : Tree) (l : List Branch), (as.mapM f).run t' = .ok (l.map top) t'' ∧
      t.Gains t'' (done ++ l) ∧ List.Forall₂ R as l := by
  induction as generalizing t' done with
  | nil =>
    refine ⟨t', [], rfl, ?_, .nil⟩
    rwa [List.append_nil]
  | cons a as ih =>
    obtain ⟨t₁, b, hrun₁, hgains₁, hb⟩ := hadd a (List.mem_cons_self ..) t' (h.root_le_size hroot)
    obtain ⟨t₂, l, hrun₂, hgains₂, hl⟩ :=
      ih (h.trans hgains₁) fun a ha => hadd a (List.mem_cons_of_mem _ ha)
    refine ⟨t₂, b :: l, ?_, ?_, .cons hb hl⟩
    · rw [List.mapM_cons, run_bind_ok hrun₁, run_bind_ok hrun₂]
      rfl
    · rwa [List.append_assoc] at hgains₂

end

/-! ### Merging -/

/-- A new branch is replaced by its flat form. -/
theorem gains_flatten {b : Branch} (h : t.Gains t' [b]) :
    ∃ t'', (flatten b.top).run t' = .ok () t'' ∧ t.Gains t'' [b.flat] := by
  have hb := h.bears.bears (List.mem_cons_self ..)
  obtain ⟨t'', hrun, hre⟩ := run_flatten hb
  refine ⟨t'', hrun, h.change ?_ ⟨?_, ?_⟩ ?_ ?_⟩
  · rw [List.flatMap_singleton]
    exact hre.same
  · intro c hc
    rw [List.mem_singleton.mp hc]
    exact hre.holds
  · rw [List.flatMap_singleton]
    exact (hre.bears_flat hb).nodup
  · rw [List.flatMap_singleton, List.flatMap_singleton]
    exact handles_flat_sublist b
  · rw [List.flatMap_singleton, List.flatMap_singleton]
    exact hre.gone

/-! ### Whole trees -/

/-- What a store without nodes has gained is the whole tree once it is the
root. -/
theorem run_makeRoot_whole {nextTag : Nat} {b : Branch} (h : (Tree.empty nextTag).Gains t [b]) :
    ∃ t', (makeRoot b.top).run t = .ok () t' ∧ t'.IsWhole b := by
  have hb := h.bears.bears (List.mem_singleton_self b)
  have hlt := Tree.lt_size_of_get? hb.get
  have hget : ∀ id, ({ t.put b.top (some (b.node none)) with root := b.top } : Tree).get? id
      = t.get? id := by
    intro id
    show (t.put b.top (some (b.node none))).get? id = t.get? id
    by_cases hid : id = b.top
    · rw [hid, Tree.get?_put_self _ hlt, hb.get]
    · rw [Tree.get?_put_ne _ _ hid]
  refine ⟨{ t.put b.top (some (b.node none)) with root := b.top }, ?_, rfl,
    hb.congr fun id _ => hget id, ?_⟩
  · rw [makeRoot, run_bind_ok (modifyNode_run hb.get _), Branch.withParent_node]
    rfl
  · intro id hlive
    rw [hget] at hlive
    have hmem := (h.mem_iff id).mpr ⟨Nat.zero_le _, hlive⟩
    rwa [List.flatMap_singleton] at hmem

/-- Flattening a whole tree. -/
theorem run_flatten_whole {b : Branch} (h : t.IsWhole b) :
    ∃ t', (flatten b.top).run t = .ok () t' ∧ t'.IsWhole b.flat := by
  obtain ⟨t', hrun, hre⟩ := run_flatten h.bears
  refine ⟨t', hrun, ?_, hre.bears_flat h.bears, ?_⟩
  · rw [hre.same.root, h.root, top_flat]
  · intro id hlive
    by_contra hnot
    by_cases hmem : id ∈ b.handles
    · rw [hre.gone id hmem hnot] at hlive
      exact absurd hlive (by simp)
    · rw [hre.same.get? id hmem] at hlive
      exact hmem (h.mem id hlive)

end Edit

end FormulaEditor
