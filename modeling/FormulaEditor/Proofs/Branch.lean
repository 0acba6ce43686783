/-
Branches: the part of a store below one node, as a plain tree.

A branch is a shape with the handle and the tag of every node.  A store bears a
branch when it holds all of its nodes and no node twice, each with the children
and the parent that the branch says.  What is read off a store below a node is
then a function of the branch:

* `Tree.Holds`, `Tree.Bears`, `Tree.BearsAll` — the store holds the nodes of a
  branch, or of several next to each other;
* `Tree.Holds.congr`, `Tree.Holds.moved` — only the slots of the branch matter, and
  those below its top do not know the place;
* `Tree.Bears.length_le` — a branch has no more nodes than the store has slots;
* `Tree.Bears.fold_eq` — reading a subtree is reading the branch;
* `Tree.IsWhole` — the branch is all there is.

Design notes: the parent of the topmost node is not part of a branch, so the
same branch may be held in another place.
-/
import FormulaEditor.Proofs.Lists
import FormulaEditor.Proofs.Shape
import FormulaEditor.Tree.Edit
import FormulaEditor.Tree.Fold

namespace FormulaEditor

/-- A subtree with the handles and the tags of its nodes. -/
inductive Branch where
  | literal (id : Handle) (tag : Tag) (text : String)
  | compound (id : Handle) (tag : Tag) (operator : Operator) (parts : List Branch)

namespace Branch

/-- Induction over branches, with a hypothesis for every part of a compound. -/
@[induction_eliminator]
theorem induct {motive : Branch → Prop}
    (literal : ∀ id tag text, motive (literal id tag text))
    (compound : ∀ id tag operator parts, (∀ part ∈ parts, motive part) →
      motive (compound id tag operator parts)) : ∀ b, motive b
  | .literal id tag text => literal id tag text
  | .compound id tag operator parts =>
    compound id tag operator parts fun part _ => induct literal compound part

/-- The handle of the topmost node. -/
def top : Branch → Handle
  | literal id _ _ => id
  | compound id _ _ _ => id

/-- The branches below the topmost node. -/
def parts : Branch → List Branch
  | literal _ _ _ => []
  | compound _ _ _ parts => parts

/-- The operator of the topmost node. -/
def operator? : Branch → Option Operator
  | literal _ _ _ => none
  | compound _ _ operator _ => some operator

/-- The topmost node, when it stands under `parent`. -/
def node (parent : Option Handle) : Branch → Node
  | literal _ tag text => ⟨.literal text, parent, tag⟩
  | compound _ tag operator parts => ⟨.compound operator (parts.map top), parent, tag⟩

/-- The handles of all nodes, each before those below it. -/
def handles : Branch → List Handle
  | literal id _ _ => [id]
  | compound id _ _ parts => id :: parts.flatMap handles

/-- The shape without handles and tags. -/
def shape : Branch → Shape
  | literal _ _ text => .literal text
  | compound _ _ operator parts => .compound operator (parts.map shape)

@[simp] theorem children_node (parent : Option Handle) (b : Branch) :
    (b.node parent).children = b.parts.map top := by
  cases b <;> rfl

@[simp] theorem parent_node (parent : Option Handle) (b : Branch) :
    (b.node parent).parent = parent := by
  cases b <;> rfl

@[simp] theorem operator?_node (parent : Option Handle) (b : Branch) :
    (b.node parent).operator? = b.operator? := by
  cases b <;> rfl

@[simp] theorem withParent_node (parent other : Option Handle) (b : Branch) :
    (b.node parent).withParent other = b.node other := by
  cases b <;> rfl

theorem handles_eq (b : Branch) : b.handles = b.top :: b.parts.flatMap handles := by
  cases b with
  | literal => rw [handles, parts, top, List.flatMap_nil]
  | compound => rw [handles, parts, top]

@[simp] theorem operator?_shape (b : Branch) : b.shape.operator? = b.operator? := by
  cases b with
  | literal => rw [shape, operator?, Shape.operator?]
  | compound => rw [shape, operator?, Shape.operator?]

@[simp] theorem top_mem_handles (b : Branch) : b.top ∈ b.handles := by
  rw [handles_eq]
  exact List.mem_cons_self ..

theorem handles_ne_nil (b : Branch) : b.handles ≠ [] := List.ne_nil_of_mem b.top_mem_handles

theorem mem_handles_of_mem_parts {b part : Branch} (hp : part ∈ b.parts) {id : Handle}
    (h : id ∈ part.handles) : id ∈ b.handles := by
  rw [handles_eq]
  exact List.mem_cons_of_mem _ (List.mem_flatMap.mpr ⟨part, hp, h⟩)

/-- A part has fewer nodes than the whole. -/
theorem length_lt_of_mem_parts {b part : Branch} (hp : part ∈ b.parts) :
    part.handles.length < b.handles.length := by
  have := (List.sublist_flatten_of_mem (List.mem_map_of_mem (f := handles) hp)).length_le
  rw [handles_eq b, List.length_cons, List.flatMap_def]
  omega

theorem length_le_of_mem_parts {b part : Branch} {bound : Nat} (hp : part ∈ b.parts)
    (hbound : b.handles.length ≤ bound + 1) : part.handles.length ≤ bound := by
  have := length_lt_of_mem_parts hp
  omega

/-- A bound on the number of nodes leaves room for the topmost one. -/
theorem exists_bound_eq_succ {b : Branch} {bound : Nat} (h : b.handles.length ≤ bound) :
    ∃ n, bound = n + 1 :=
  Nat.exists_eq_succ_of_ne_zero
    (Nat.ne_of_gt (Nat.lt_of_lt_of_le (List.length_pos_of_ne_nil b.handles_ne_nil) h))

/-- Among branches without common nodes, a handle tells the branch. -/
theorem eq_of_mem_handles {l : List Branch} (hnodup : (l.flatMap handles).Nodup) {b c : Branch}
    (hb : b ∈ l) (hc : c ∈ l) {id : Handle} (hid : id ∈ b.handles) (hid' : id ∈ c.handles) :
    b = c := by
  induction l with
  | nil => exact absurd hb List.not_mem_nil
  | cons d l ih =>
    rw [List.flatMap_cons, List.nodup_append] at hnodup
    have hne {e : Branch} (he : e ∈ l) (hd : id ∈ d.handles) (hin : id ∈ e.handles) : False :=
      hnodup.2.2 id hd id (List.mem_flatMap.mpr ⟨e, he, hin⟩) rfl
    -- the first branch shares no node with the later ones
    rcases List.mem_cons.mp hb with rfl | hb' <;> rcases List.mem_cons.mp hc with rfl | hc'
    · rfl
    · exact (hne hc' hid hid').elim
    · exact (hne hb' hid' hid).elim
    · exact ih hnodup.2.1 hb' hc'

theorem map_top_subset (l : List Branch) : l.map top ⊆ l.flatMap handles := by
  intro id hid
  obtain ⟨b, hb, rfl⟩ := List.mem_map.mp hid
  exact List.mem_flatMap.mpr ⟨b, hb, b.top_mem_handles⟩

/-- What stands below one of two neighbours, or next to them, is none of their
topmost nodes. -/
theorem notMem_tops {b c : Branch} {l : List Branch}
    (hnodup : ((b :: c :: l).flatMap handles).Nodup) {id : Handle}
    (hid : id ∈ b.parts.flatMap handles ∨ id ∈ c.parts.flatMap handles ∨ id ∈ l.flatMap handles) :
    id ∉ [b.top, c.top] := by
  rw [List.flatMap_cons, List.flatMap_cons, handles_eq b, handles_eq c] at hnodup
  simp only [List.cons_append, List.nodup_cons, List.nodup_append, List.mem_append,
    List.mem_cons] at hnodup
  rw [List.mem_pair]
  grind

theorem nodup_of_mem {l : List Branch} (hnodup : (l.flatMap handles).Nodup) {b : Branch}
    (hb : b ∈ l) : b.handles.Nodup := by
  rw [List.flatMap_def] at hnodup
  exact hnodup.sublist (List.sublist_flatten_of_mem (List.mem_map_of_mem hb))

/-- The topmost node is not found again below itself. -/
theorem top_notMem_parts {b : Branch} (hnodup : b.handles.Nodup) :
    b.top ∉ b.parts.flatMap handles := by
  rw [handles_eq, List.nodup_cons] at hnodup
  exact hnodup.1

/-- A branch is the same as another one, or stands below it. -/
inductive Within : Branch → Branch → Prop
  | refl {b : Branch} : Within b b
  | part {b c part : Branch} : part ∈ c.parts → Within b part → Within b c

theorem exists_within {b : Branch} {id : Handle} (h : id ∈ b.handles) :
    ∃ c : Branch, c.top = id ∧ c.Within b := by
  induction b with
  | literal id' tag text =>
    rw [handles, List.mem_singleton] at h
    exact ⟨.literal id' tag text, h.symm, .refl⟩
  | compound id' tag operator parts ih =>
    rw [handles, List.mem_cons, List.mem_flatMap] at h
    rcases h with rfl | ⟨part, hp, h⟩
    · exact ⟨.compound id tag operator parts, rfl, .refl⟩
    · obtain ⟨c, htop, hc⟩ := ih part hp h
      exact ⟨c, htop, .part hp hc⟩

theorem Within.trans {b c d : Branch} (h : b.Within c) (h' : c.Within d) : b.Within d := by
  induction h' with
  | refl => exact h
  | part hp _ ih => exact .part hp ih

/-- What does not stand at the top stands right below something. -/
theorem Within.eq_or_exists {b c : Branch} (h : b.Within c) :
    b = c ∨ ∃ d : Branch, d.Within c ∧ b ∈ d.parts := by
  induction h with
  | refl => exact .inl rfl
  | @part c part hp _ ih =>
    rcases ih with rfl | ⟨d, hd, hb⟩
    · exact .inr ⟨c, .refl, hp⟩
    · exact .inr ⟨d, .part hp hd, hb⟩

theorem Within.handles_subset {b c : Branch} (h : b.Within c) : b.handles ⊆ c.handles := by
  induction h with
  | refl => exact List.Subset.refl _
  | part hp _ ih => exact fun id hid => mem_handles_of_mem_parts hp (ih hid)

/-- The answer that a bottom-up walk gives at the topmost node. -/
def fold {α : Type} (combine : Handle → Node → List α → α) (parent : Option Handle) : Branch → α
  | literal id tag text => combine id ((literal id tag text).node parent) []
  | compound id tag operator parts =>
    combine id ((compound id tag operator parts).node parent)
      (parts.map (fold combine (some id)))

theorem fold_eq {α : Type} (combine : Handle → Node → List α → α) (parent : Option Handle)
    (b : Branch) : b.fold combine parent
      = combine b.top (b.node parent) (b.parts.map (fold combine (some b.top))) := by
  cases b with
  | literal => rw [fold, parts, top, List.map_nil]
  | compound => rw [fold, parts, top]

theorem fold_shapeOver (parent : Option Handle) (b : Branch) :
    b.fold (fun _ node parts => Tree.shapeOver node parts) parent = b.shape := by
  induction b generalizing parent with
  | literal id tag text =>
    rw [fold, shape]
    rfl
  | compound id tag operator parts ih =>
    rw [fold, shape, List.map_congr_left fun part hp => ih part hp (some id)]
    rfl

theorem fold_handles (parent : Option Handle) (b : Branch) :
    b.fold (fun here _ parts => here :: parts.flatten) parent = b.handles := by
  induction b generalizing parent with
  | literal id tag text =>
    rw [fold, handles]
    rfl
  | compound id tag operator parts ih =>
    rw [fold, handles, List.map_congr_left fun part hp => ih part hp (some id), List.flatMap_def]

end Branch

namespace Tree

theorem lt_size_of_isSome {t : Tree} {id : Handle} (h : (t.get? id).isSome = true) :
    id.index < t.slots.size := by
  obtain ⟨node, hnode⟩ := Option.isSome_iff_exists.mp h
  exact lt_size_of_get? hnode

/-- There are no more live nodes than slots. -/
theorem length_le_size {t : Tree} {ids : List Handle} (hnodup : ids.Nodup)
    (hlive : ∀ id ∈ ids, (t.get? id).isSome = true) : ids.length ≤ t.slots.size := by
  have hsub : ids ⊆ (List.range t.slots.size).map Handle.mk := by
    intro id hid
    have hlt := lt_size_of_isSome (hlive id hid)
    exact List.mem_map.mpr ⟨id.index, List.mem_range.mpr hlt, rfl⟩
  have := hnodup.length_le_of_subset hsub
  rwa [List.length_map, List.length_range] at this

/-- The nodes of a branch are in the store, linked as the branch says, and the
topmost one stands under `parent`. -/
inductive Holds (t : Tree) : Option Handle → Branch → Prop
  | intro {parent : Option Handle} {b : Branch} : t.get? b.top = some (b.node parent) →
      (∀ part ∈ b.parts, Holds t (some b.top) part) → Holds t parent b

namespace Holds

variable {t t' : Tree} {parent : Option Handle} {b : Branch}

theorem get (h : t.Holds parent b) : t.get? b.top = some (b.node parent) := by
  cases h with
  | intro hget _ => exact hget

theorem part (h : t.Holds parent b) {part : Branch} (hp : part ∈ b.parts) :
    t.Holds (some b.top) part := by
  cases h with
  | intro _ h => exact h part hp

/-- Every node of a branch is live. -/
theorem isSome (h : t.Holds parent b) : ∀ id ∈ b.handles, (t.get? id).isSome = true := by
  induction h with
  | @intro parent b hget _ ih =>
    intro id hid
    rw [Branch.handles_eq, List.mem_cons, List.mem_flatMap] at hid
    rcases hid with rfl | ⟨part, hp, hid⟩
    · rw [hget]
      rfl
    · exact ih part hp id hid

/-- Only the slots of the branch matter. -/
theorem congr (h : t.Holds parent b) (hsame : ∀ id ∈ b.handles, t'.get? id = t.get? id) :
    t'.Holds parent b := by
  induction h with
  | @intro parent b hget _ ih =>
    refine .intro ?_ ?_
    · rw [hsame b.top b.top_mem_handles, hget]
    · intro part hp
      refine ih part hp ?_
      intro id hid
      exact hsame id (Branch.mem_handles_of_mem_parts hp hid)

/-- A branch in another place: only its topmost node has changed. -/
theorem moved {place : Option Handle} (h : t.Holds parent b)
    (htop : t'.get? b.top = some (b.node place))
    (hsame : ∀ id ∈ b.parts.flatMap Branch.handles, t'.get? id = t.get? id) :
    t'.Holds place b := by
  refine .intro htop ?_
  intro part hp
  refine (h.part hp).congr ?_
  intro id hid
  exact hsame id (List.mem_flatMap.mpr ⟨part, hp, hid⟩)

/-- Two stores that hold a branch in the same place agree on its slots. -/
theorem get_eq (h : t.Holds parent b) (h' : t'.Holds parent b) :
    ∀ id ∈ b.handles, t'.get? id = t.get? id := by
  induction h with
  | @intro parent b hget _ ih =>
    intro id hid
    rw [Branch.handles_eq, List.mem_cons, List.mem_flatMap] at hid
    rcases hid with rfl | ⟨part, hp, hid⟩
    · rw [h'.get, hget]
    · exact ih part hp (h'.part hp) id hid

/-- The place of a branch is what its topmost node says. -/
theorem parent_eq {other : Option Handle} {c : Branch} (h : t.Holds parent b)
    (hc : t.Holds other c) (htop : c.top = b.top) : other = parent := by
  have heq := hc.get
  rw [htop, h.get, Option.some_inj] at heq
  rw [← Branch.parent_node other c, ← heq, Branch.parent_node]

/-- A walk down to a sufficient depth reads the branch. -/
theorem foldWithin_eq {α : Type} (combine : Handle → Node → List α → α) {bound : Nat}
    (h : t.Holds parent b) (hbound : b.handles.length ≤ bound) :
    t.foldWithin combine bound b.top = .ok (b.fold combine parent) := by
  induction h generalizing bound with
  | @intro parent b hget _ ih =>
    obtain ⟨bound, rfl⟩ := Branch.exists_bound_eq_succ hbound
    have hparts : (b.parts.map Branch.top).mapM (t.foldWithin combine bound)
        = .ok (b.parts.map (Branch.fold combine (some b.top))) := by
      rw [List.mapM_map]
      exact mapM_eq_ok fun part hp => ih part hp (Branch.length_le_of_mem_parts hp hbound)
    rw [foldWithin, node_eq_ok_iff.mpr hget, Branch.fold_eq]
    simp only [Branch.children_node, bind, Except.bind, hparts]
    rfl

end Holds

/-- The store holds the branch, and its nodes are different ones. -/
structure Bears (t : Tree) (parent : Option Handle) (b : Branch) : Prop where
  holds : t.Holds parent b
  nodup : b.handles.Nodup

namespace Bears

variable {t t' : Tree} {parent : Option Handle} {b : Branch}

theorem get (h : t.Bears parent b) : t.get? b.top = some (b.node parent) := h.holds.get

theorem part (h : t.Bears parent b) {part : Branch} (hp : part ∈ b.parts) :
    t.Bears (some b.top) part := by
  have hnodup := h.nodup
  rw [Branch.handles_eq, List.nodup_cons] at hnodup
  exact ⟨h.holds.part hp, Branch.nodup_of_mem hnodup.2 hp⟩

/-- A branch further down is held in place as well. -/
theorem within (h : t.Bears parent b) {c : Branch} (hc : c.Within b) :
    ∃ place, t.Bears place c := by
  induction hc generalizing parent with
  | refl => exact ⟨parent, h⟩
  | part hp _ ih => exact ih (h.part hp)

theorem congr (h : t.Bears parent b) (hsame : ∀ id ∈ b.handles, t'.get? id = t.get? id) :
    t'.Bears parent b :=
  ⟨h.holds.congr hsame, h.nodup⟩

/-- A branch has no more nodes than the store has slots. -/
theorem length_le (h : t.Bears parent b) : b.handles.length ≤ t.slots.size :=
  length_le_size h.nodup h.holds.isSome

theorem length_le_walkBound (h : t.Bears parent b) : b.handles.length ≤ t.walkBound :=
  Nat.le_succ_of_le h.length_le

/-- Reading a subtree is reading the branch. -/
theorem fold_eq {α : Type} (combine : Handle → Node → List α → α) (h : t.Bears parent b) :
    t.fold combine b.top = .ok (b.fold combine parent) :=
  h.holds.foldWithin_eq combine h.length_le_walkBound

theorem shape_eq (h : t.Bears parent b) : t.shape b.top = .ok b.shape := by
  rw [shape, h.fold_eq, Branch.fold_shapeOver]

theorem descendants_eq (h : t.Bears parent b) : t.descendants b.top = .ok b.handles := by
  rw [descendants, h.fold_eq, Branch.fold_handles]

end Bears

/-- The store holds each of the branches under one parent, or none, and their
nodes are different ones. -/
structure BearsAll (t : Tree) (parent : Option Handle) (l : List Branch) : Prop where
  holds : ∀ b ∈ l, t.Holds parent b
  nodup : (l.flatMap Branch.handles).Nodup

theorem Bears.parts {t : Tree} {parent : Option Handle} {b : Branch} (h : t.Bears parent b) :
    t.BearsAll (some b.top) b.parts := by
  have hnodup := h.nodup
  rw [Branch.handles_eq, List.nodup_cons] at hnodup
  exact ⟨fun part hp => h.holds.part hp, hnodup.2⟩

namespace BearsAll

variable {t t' : Tree} {parent : Option Handle} {b : Branch} {l : List Branch}

theorem bears (h : t.BearsAll parent l) (hb : b ∈ l) : t.Bears parent b :=
  ⟨h.holds b hb, Branch.nodup_of_mem h.nodup hb⟩

theorem tail (h : t.BearsAll parent (b :: l)) : t.BearsAll parent l := by
  refine ⟨fun c hc => h.holds c (List.mem_cons_of_mem _ hc), ?_⟩
  have hnodup := h.nodup
  rw [List.flatMap_cons, List.nodup_append] at hnodup
  exact hnodup.2.1

theorem notMem_of_mem_head (h : t.BearsAll parent (b :: l)) {id : Handle} (hid : id ∈ b.handles) :
    id ∉ l.flatMap Branch.handles := by
  have hnodup := h.nodup
  rw [List.flatMap_cons, List.nodup_append] at hnodup
  exact fun hmem => hnodup.2.2 id hid id hmem rfl

theorem perm {m : List Branch} (h : t.BearsAll parent l) (hperm : l.Perm m) :
    t.BearsAll parent m :=
  ⟨fun b hb => h.holds b (hperm.mem_iff.mpr hb),
    (hperm.flatMap_right Branch.handles).nodup_iff.mp h.nodup⟩

theorem congr (h : t.BearsAll parent l)
    (hsame : ∀ id ∈ l.flatMap Branch.handles, t'.get? id = t.get? id) : t'.BearsAll parent l :=
  ⟨fun b hb => (h.holds b hb).congr fun id hid =>
    hsame id (List.mem_flatMap.mpr ⟨b, hb, hid⟩), h.nodup⟩

end BearsAll

/-- The branch is all there is in the store, and hangs from the root. -/
structure IsWhole (t : Tree) (b : Branch) : Prop where
  root : t.root = b.top
  bears : t.Bears none b
  mem : ∀ id, (t.get? id).isSome = true → id ∈ b.handles

theorem IsWhole.shape_eq {t : Tree} {b : Branch} (h : t.IsWhole b) :
    t.shape t.root = .ok b.shape := by
  rw [h.root]
  exact h.bears.shape_eq

end Tree

end FormulaEditor
