/-
What the steps of an edit do.

Each step is described by its outcome on a store that has the nodes it needs,
and by the slots that it leaves alone:

* `Tree.SameExcept` — two stores that agree outside of some slots;
* `Edit.run_vacate`, `Edit.run_replaceChildren`, `Edit.run_attach` — the steps;
* `run_bind_ok` — one step after another.
-/
import FormulaEditor.Proofs.Branch

namespace FormulaEditor

namespace Tree

/-! ### Changes of a store -/

/-- The second store is the first one with changes at most in these slots. -/
structure SameExcept (t t' : Tree) (ids : List Handle) : Prop where
  size : t'.slots.size = t.slots.size
  root : t'.root = t.root
  nextTag : t'.nextTag = t.nextTag
  get? : ∀ id ∉ ids, t'.get? id = t.get? id

namespace SameExcept

variable {t t' t'' : Tree} {ids ids' : List Handle}

theorem refl (t : Tree) (ids : List Handle) : t.SameExcept t ids :=
  ⟨rfl, rfl, rfl, fun _ _ => rfl⟩

theorem mono (h : t.SameExcept t' ids) (hsub : ids ⊆ ids') : t.SameExcept t' ids' :=
  ⟨h.size, h.root, h.nextTag, fun id hid => h.get? id fun hmem => hid (hsub hmem)⟩

theorem trans (h : t.SameExcept t' ids) (h' : t'.SameExcept t'' ids) : t.SameExcept t'' ids :=
  ⟨h'.size.trans h.size, h'.root.trans h.root, h'.nextTag.trans h.nextTag,
    fun id hid => (h'.get? id hid).trans (h.get? id hid)⟩

theorem symm (h : t.SameExcept t' ids) : t'.SameExcept t ids :=
  ⟨h.size.symm, h.root.symm, h.nextTag.symm, fun id hid => (h.get? id hid).symm⟩

theorem put (t : Tree) (id : Handle) (slot : Option Node) : t.SameExcept (t.put id slot) [id] := by
  refine ⟨size_slots_put t id slot, rfl, rfl, ?_⟩
  intro other hother
  rw [get?_put, if_neg fun h => hother (List.mem_singleton.mpr h.1)]

end SameExcept

/-- Stores without a difference are the same. -/
theorem SameExcept.eq {t t' : Tree} {ids : List Handle} (h : t.SameExcept t' ids)
    (hids : ∀ id ∈ ids, t'.get? id = t.get? id) : t' = t := by
  have hget : ∀ id, t'.get? id = t.get? id := by
    intro id
    by_cases hmem : id ∈ ids
    · exact hids id hmem
    · exact h.get? id hmem
  have hslots : t'.slots = t.slots := by
    refine Array.ext h.size ?_
    intro i hi hi'
    have heq := hget ⟨i⟩
    rwa [Tree.get?, Tree.get?, Array.getElem?_eq_getElem hi, Array.getElem?_eq_getElem hi'] at heq
  obtain ⟨slots, root, nextTag⟩ := t
  obtain ⟨slots', root', nextTag'⟩ := t'
  obtain rfl : slots' = slots := hslots
  obtain rfl : root' = root := h.root
  obtain rfl : nextTag' = nextTag := h.nextTag
  rfl

theorem get?_put_self {t : Tree} {id : Handle} (slot : Option Node) (h : id.index < t.slots.size) :
    (t.put id slot).get? id = slot := by
  rw [get?_put, if_pos ⟨rfl, h⟩]

theorem get?_put_ne (t : Tree) {id other : Handle} (slot : Option Node) (h : other ≠ id) :
    (t.put id slot).get? other = t.get? other := by
  rw [get?_put, if_neg fun hand => h hand.1]

theorem node_of_get?_eq_none {t : Tree} {id : Handle} (h : t.get? id = none) :
    t.node id = .error .deadHandle := by
  rw [node, h]

/-- Nothing else stands above a node without a parent. -/
theorem isAbove_of_top {t : Tree} {id other : Handle} {node : Node} (h : t.get? id = some node)
    (hparent : node.parent = none) (hne : other ≠ id) : t.isAbove other id = .ok false := by
  rw [isAbove, walkBound, isAboveWithin, if_neg hne.symm, node_eq_ok_iff.mpr h]
  simp only [bind, Except.bind, hparent]
  rfl

end Tree

/-- One step after another. -/
theorem run_bind_ok {ε σ α β : Type} {x : EStateM ε σ α} {f : α → EStateM ε σ β} {a : α}
    {s s' : σ} (h : x.run s = .ok a s') : (x >>= f).run s = (f a).run s' := by
  simp only [EStateM.run, bind, EStateM.bind] at h ⊢
  rw [h]

theorem run_bind_error {ε σ α β : Type} {x : EStateM ε σ α} {f : α → EStateM ε σ β} {e : ε}
    {s s' : σ} (h : x.run s = .error e s') : (x >>= f).run s = .error e s' := by
  simp only [EStateM.run, bind, EStateM.bind] at h ⊢
  rw [h]

theorem run_get {ε σ : Type} {s : σ} : (get : EStateM ε σ σ).run s = .ok s s := rfl

theorem run_ask {σ α : Type} {question : σ → Except EditError α} {s : σ} {answer : α}
    (h : question s = .ok answer) : (ask question).run s = .ok answer s := by
  simp only [ask, EStateM.run, h]

theorem run_ask_error {σ α : Type} {question : σ → Except EditError α} {s : σ} {e : EditError}
    (h : question s = .error e) : (ask question).run s = .error e s := by
  simp only [ask, EStateM.run, h]

theorem run_ofExcept {σ α : Type} {outcome : Except EditError α} {s : σ} {a : α}
    (h : outcome = .ok a) : (ofExcept outcome).run s = .ok a s :=
  run_ask h

/-- Looking up a node of another tree. -/
theorem run_ofExcept_node {σ : Type} {t : Tree} {id : Handle} {found : Node} {s : σ}
    (h : t.get? id = some found) : (ofExcept (t.node id)).run s = .ok found s :=
  run_ofExcept (Tree.node_eq_ok_iff.mpr h)

namespace Edit

variable {α β : Type} {t t' : Tree}

/-! ### Single steps -/

/-- A step that is taken under a condition only. -/
theorem run_ite_bind_ok {c : Prop} [Decidable c] {x : Edit Unit} {f : Unit → Edit β}
    (h : (if c then x else pure ()).run t = .ok () t') :
    (if c then x >>= f else f ()).run t = (f ()).run t' := by
  split at h
  · next hc => rw [if_pos hc, run_bind_ok h]
  · next hc =>
    cases h
    rw [if_neg hc]

theorem run_forM_cons (f : α → Edit Unit) (a : α) (l : List α) :
    ((a :: l).forM f).run t = (f a >>= fun _ => l.forM f).run t := rfl

theorem run_node {id : Handle} {found : Node} (h : t.get? id = some found) :
    (node id).run t = .ok found t :=
  run_ask (Tree.node_eq_ok_iff.mpr h)

/-- A handle without a node is a fault. -/
theorem run_node_error {id : Handle} (h : t.get? id = none) :
    (node id).run t = .error .deadHandle t :=
  run_ask_error (Tree.node_of_get?_eq_none h)

theorem run_vacate {id : Handle} (h : id.index < t.slots.size) :
    (vacate id).run t = .ok () (t.put id none) := by
  rw [vacate, run_bind_ok run_get, if_pos h]
  rfl

/-- Makes a node the parent of others. -/
theorem run_forM_withParent {children : List Handle} (parent : Option Handle)
    (h : ∀ child ∈ children, (t.get? child).isSome = true) :
    ∃ t', (children.forM fun child => modifyNode child (·.withParent parent)).run t = .ok () t' ∧
      t.SameExcept t' children ∧
      ∀ child ∈ children, t'.get? child = (t.get? child).map (·.withParent parent) := by
  induction children generalizing t with
  | nil => exact ⟨t, rfl, .refl t [], fun _ hmem => absurd hmem (List.not_mem_nil)⟩
  | cons c children ih =>
    obtain ⟨node, hnode⟩ := Option.isSome_iff_exists.mp (h c (List.mem_cons_self ..))
    have hlt := Tree.lt_size_of_get? hnode
    have hput := Tree.SameExcept.put t c (some (node.withParent parent))
    have hself := Tree.get?_put_self (t := t) (some (node.withParent parent)) hlt
    obtain ⟨t', hrun, hsame, hget⟩ := ih (t := t.put c (some (node.withParent parent))) <| by
      intro child hchild
      by_cases hc : child = c
      · rw [hc, hself]
        rfl
      · rw [Tree.get?_put_ne t _ hc]
        exact h child (List.mem_cons_of_mem _ hchild)
    refine ⟨t', ?_, ?_, ?_⟩
    · rw [run_forM_cons, run_bind_ok (modifyNode_run hnode _), hrun]
    · exact (hput.mono (by simp)).trans (hsame.mono (List.subset_cons_self ..))
    · intro child hchild
      by_cases hc : child = c
      · subst hc
        rw [hnode, Option.map_some]
        by_cases hmem : child ∈ children
        · -- the same child once more, which is told its parent twice
          rw [hget child hmem, hself]
          rfl
        · rw [hsame.get? child hmem, hself]
      · rw [hget child ((List.mem_cons.mp hchild).resolve_left hc), Tree.get?_put_ne t _ hc]

/-- Replacing the children of a compound node by other live ones. -/
theorem run_replaceChildren {id : Handle} {operator : Operator} {old children : List Handle}
    {parent : Option Handle} {tag : Tag}
    (hid : t.get? id = some ⟨.compound operator old, parent, tag⟩)
    (hchildren : ∀ child ∈ children, (t.get? child).isSome = true) (hne : id ∉ children) :
    ∃ t', (replaceChildren id children).run t = .ok () t' ∧
      t.SameExcept t' (id :: children) ∧
      t'.get? id = some ⟨.compound operator children, parent, tag⟩ ∧
      ∀ child ∈ children, t'.get? child = (t.get? child).map (·.withParent (some id)) := by
  obtain ⟨t₁, hrun, hsame, hget⟩ := run_forM_withParent (some id) hchildren
  have hid₁ : t₁.get? id = some ⟨.compound operator old, parent, tag⟩ := by
    rw [hsame.get? id hne, hid]
  refine ⟨t₁.put id (some ⟨.compound operator children, parent, tag⟩), ?_, ?_, ?_, ?_⟩
  · rw [replaceChildren, run_bind_ok (run_node hid)]
    show (_ >>= _ : Edit Unit).run t = _
    rw [run_bind_ok hrun, modifyNode_run hid₁]
  · exact (hsame.mono (List.subset_cons_self ..)).trans ((Tree.SameExcept.put ..).mono (by simp))
  · exact Tree.get?_put_self _ (Tree.lt_size_of_get? hid₁)
  · intro child hchild
    have : child ≠ id := fun heq => hne (heq ▸ hchild)
    rw [Tree.get?_put_ne _ _ this, hget child hchild]

/-- Replacing the children of a compound node by the topmost nodes of branches,
wherever these stood before. -/
theorem run_replaceChildren_branches {id : Handle} {operator : Operator} {old : List Handle}
    {parent : Option Handle} {tag : Tag} {l : List Branch}
    (hid : t.get? id = some ⟨.compound operator old, parent, tag⟩)
    (hl : ∀ b ∈ l, ∃ place, t.Holds place b) (hnodup : (l.flatMap Branch.handles).Nodup)
    (hnot : id ∉ l.flatMap Branch.handles) :
    ∃ t', (replaceChildren id (l.map Branch.top)).run t = .ok () t' ∧
      t.SameExcept t' (id :: l.map Branch.top) ∧
      t'.get? id = some ⟨.compound operator (l.map Branch.top), parent, tag⟩ ∧
      t'.BearsAll (some id) l := by
  have htop {b : Branch} (hb : b ∈ l) : b.top ∈ l.flatMap Branch.handles :=
    List.mem_flatMap.mpr ⟨b, hb, b.top_mem_handles⟩
  have hlive : ∀ child ∈ l.map Branch.top, (t.get? child).isSome = true := by
    intro child hchild
    obtain ⟨b, hb, rfl⟩ := List.mem_map.mp hchild
    obtain ⟨place, hplace⟩ := hl b hb
    rw [hplace.get]
    rfl
  have hne : id ∉ l.map Branch.top := by
    intro hmem
    obtain ⟨b, hb, rfl⟩ := List.mem_map.mp hmem
    exact hnot (htop hb)
  obtain ⟨t', hrun, hsame, hid', hget⟩ := run_replaceChildren hid hlive hne
  refine ⟨t', hrun, hsame, hid', ?_, hnodup⟩
  intro b hb
  obtain ⟨place, hplace⟩ := hl b hb
  refine hplace.moved ?_ ?_
  · rw [hget b.top (List.mem_map_of_mem hb), hplace.get, Option.map_some, Branch.withParent_node]
  · intro other hother
    refine hsame.get? other ?_
    have hin : other ∈ b.handles := by
      rw [Branch.handles_eq]
      exact List.mem_cons_of_mem _ hother
    rw [List.mem_cons, not_or]
    constructor
    · rintro rfl
      exact hnot (List.mem_flatMap.mpr ⟨b, hb, hin⟩)
    · -- a child below `b` would have to be the top of `b` itself
      intro hmem
      obtain ⟨c, hc, rfl⟩ := List.mem_map.mp hmem
      obtain rfl := Branch.eq_of_mem_handles hnodup hb hc hin c.top_mem_handles
      exact Branch.top_notMem_parts (Branch.nodup_of_mem hnodup hb) hother

/-- Attaching a node without a place. -/
theorem run_attach {parent child : Handle} {operator : Operator} {siblings : List Handle}
    {up : Option Handle} {tag : Tag} {found : Node}
    (hparent : t.get? parent = some ⟨.compound operator siblings, up, tag⟩)
    (hchild : t.get? child = some found) (hnone : found.parent = none) (hroot : child ≠ t.root)
    (habove : t.isAbove child parent = .ok false) (hne : child ≠ parent) :
    (attach parent child).run t = .ok ()
      ((t.put parent (some ⟨.compound operator (siblings ++ [child]), up, tag⟩)).put child
        (some (found.withParent (some parent)))) := by
  have hchild' : (t.put parent (some ⟨.compound operator (siblings ++ [child]), up, tag⟩)).get?
      child = some found := by
    rw [Tree.get?_put_ne _ _ hne, hchild]
  rw [attach, run_bind_ok (run_node hparent)]
  show (_ >>= _ : Edit Unit).run t = _
  rw [run_bind_ok (run_node hchild), run_bind_ok run_get,
    if_neg (by simp [hnone, hroot]), run_bind_ok (run_ask (s := t) habove),
    if_neg Bool.false_ne_true, run_bind_ok (modifyNode_run hparent _), modifyNode_run hchild']

end Edit

end FormulaEditor
