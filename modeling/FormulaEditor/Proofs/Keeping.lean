/-
What the steps of an edit keep.

A property of stores that every step keeps is kept by every edit that is made of
such steps, and by reading a formula, whether or not it succeeds.  Two kinds of
steps make up most edits: those that write to nodes that are there, and those
that add nodes or take them away.  A property that is about tags and slots, and
not about links, is kept by all of the first kind (`Tree.IgnoresLinks`).

* `Keeps` — computations that keep a property of their state;
* `Edit.keeps_attach`, `Edit.keeps_replaceChildren`, `Edit.keeps_makeRoot` —
  changes of links;
* `Edit.keeps_flatten`, `Edit.keeps_addCopy` — edits that vacate slots and edits
  that add some;
* `Text.keeps_readSpanWith` — reading a formula.
-/
import FormulaEditor.Proofs.Edit
import FormulaEditor.Text.Reading
import FormulaEditor.Tree.Arrangement

namespace FormulaEditor

/-- The computation keeps a property of its state, whether or not it
succeeds. -/
def Keeps {ε σ α : Type} (P : σ → Prop) (x : EStateM ε σ α) : Prop :=
  ∀ s, P s → match x.run s with
    | .ok _ s' => P s'
    | .error _ s' => P s'

namespace Keeps

variable {ε σ α β : Type} {P : σ → Prop} {x : EStateM ε σ α} {f : α → EStateM ε σ β}

theorem of_ok (h : Keeps P x) {s s' : σ} {a : α} (hs : P s) (hrun : x.run s = .ok a s') :
    P s' := by
  have := h s hs
  rwa [hrun] at this

protected theorem pure (a : α) : Keeps P (pure a : EStateM ε σ α) := fun _ hs => hs

protected theorem throw (e : ε) : Keeps P (throw e : EStateM ε σ α) := fun _ hs => hs

protected theorem bind (hx : Keeps P x) (hf : ∀ a, Keeps P (f a)) : Keeps P (x >>= f) := by
  intro s hs
  have hfirst := hx s hs
  cases hrun : x.run s with
  | ok a s' =>
    rw [hrun] at hfirst
    rw [run_bind_ok hrun]
    exact hf a s' hfirst
  | error e s' =>
    rw [hrun] at hfirst
    rw [run_bind_error hrun]
    exact hfirst

protected theorem forM {f : α → EStateM ε σ Unit} {l : List α} (h : ∀ a ∈ l, Keeps P (f a)) :
    Keeps P (l.forM f) := by
  induction l with
  | nil => exact .pure ()
  | cons a l ih =>
    exact .bind (h a (List.mem_cons_self ..)) fun _ =>
      ih fun b hb => h b (List.mem_cons_of_mem _ hb)

protected theorem mapM {l : List α} (h : ∀ a ∈ l, Keeps P (f a)) : Keeps P (l.mapM f) := by
  induction l with
  | nil => exact .pure []
  | cons a l ih =>
    rw [List.mapM_cons]
    exact .bind (h a (List.mem_cons_self ..)) fun _ =>
      .bind (ih fun b hb => h b (List.mem_cons_of_mem _ hb)) fun _ => .pure _

end Keeps

/-- The property is about the slots that are taken and about the tags of nodes, so it
does not matter how nodes are linked and which one is the root. -/
structure Tree.IgnoresLinks (P : Tree → Prop) : Prop where
  put : ∀ {t : Tree} {id : Handle} {node node' : Node}, P t → t.get? id = some node →
    node'.tag = node.tag → P (t.put id (some node'))
  root : ∀ {t : Tree} (id : Handle), P t → P { t with root := id }

namespace Edit

variable {α : Type} {P : Tree → Prop}

theorem keeps_ask (question : Tree → Except EditError α) : Keeps P (ask question) := by
  intro t ht
  simp only [ask, EStateM.run]
  cases question t <;> exact ht

theorem keeps_node (id : Handle) : Keeps P (node id) := keeps_ask _

theorem keeps_get : Keeps P (get : Edit Tree) := fun _ ht => ht

/-! ### Links -/

theorem keeps_modifyNode (hP : Tree.IgnoresLinks P) (id : Handle) {change : Node → Node}
    (h : ∀ node, (change node).tag = node.tag) : Keeps P (modifyNode id change) := by
  intro t ht
  cases hget : t.get? id with
  | some found =>
    rw [modifyNode_run hget]
    exact hP.put ht hget (h found)
  | none =>
    rw [modifyNode, run_bind_error (run_node_error hget)]
    exact ht

theorem keeps_makeRoot (hP : Tree.IgnoresLinks P) (id : Handle) : Keeps P (makeRoot id) :=
  .bind (keeps_modifyNode hP id fun _ => rfl) fun _ _ ht => hP.root id ht

theorem keeps_replaceChildren (hP : Tree.IgnoresLinks P) (id : Handle)
    (children : List Handle) : Keeps P (replaceChildren id children) := by
  refine .bind (keeps_node id) fun here => ?_
  split
  · exact .throw _
  · exact .bind (.forM fun child _ => keeps_modifyNode hP child fun _ => rfl) fun _ =>
      keeps_modifyNode hP id fun _ => rfl

theorem keeps_attach (hP : Tree.IgnoresLinks P) (parent child : Handle) :
    Keeps P (attach parent child) := by
  refine .bind (keeps_node parent) fun here => ?_
  split
  · exact .throw _
  · refine .bind (keeps_node child) fun found => .bind keeps_get fun _ => ?_
    split
    · exact .throw _
    · refine .bind (keeps_ask _) fun isAbove => ?_
      split
      · exact .throw _
      · exact .bind (keeps_modifyNode hP parent fun _ => rfl) fun _ =>
          keeps_modifyNode hP child fun _ => rfl

/-! ### Vacated slots -/

theorem keeps_vacate (hvacate : ∀ {t : Tree} (id : Handle), P t → P (t.put id none))
    (id : Handle) : Keeps P (vacate id) := by
  intro t ht
  by_cases hlt : id.index < t.slots.size
  · rw [run_vacate hlt]
    exact hvacate id ht
  · rw [vacate, run_bind_ok run_get, if_neg hlt]
    exact ht

theorem keeps_operandsWithin
    (hvacate : ∀ {t : Tree} (id : Handle), P t → P (t.put id none)) (operator : Operator)
    (bound : Nat) (id : Handle) : Keeps P (operandsWithin operator bound id) := by
  induction bound generalizing id with
  | zero => exact .throw _
  | succ bound ih =>
    refine .bind (keeps_node id) fun here => ?_
    split
    · exact .bind (.mapM fun child _ => ih child) fun _ =>
        .bind (keeps_vacate hvacate id) fun _ => .pure _
    · exact .pure _

theorem keeps_mergedWithin
    (hvacate : ∀ {t : Tree} (id : Handle), P t → P (t.put id none)) (operator : Operator)
    (bound : Nat) (children : List Handle) : Keeps P (mergedWithin operator bound children) := by
  rw [mergedWithin]
  split
  · exact .bind (.mapM fun child _ => keeps_operandsWithin hvacate operator bound child) fun _ =>
      .pure _
  · exact .pure _

theorem keeps_flattenWithin (hP : Tree.IgnoresLinks P)
    (hvacate : ∀ {t : Tree} (id : Handle), P t → P (t.put id none)) (bound : Nat)
    (id : Handle) : Keeps P (flattenWithin bound id) := by
  induction bound generalizing id with
  | zero => exact .throw _
  | succ bound ih =>
    refine .bind (keeps_node id) fun here => ?_
    split
    · exact .pure _
    · refine .bind (keeps_mergedWithin hvacate _ bound _) fun merged => ?_
      split
      · exact .bind (keeps_replaceChildren hP id merged) fun _ => .forM fun child _ => ih child
      · exact .forM fun child _ => ih child

theorem keeps_flatten (hP : Tree.IgnoresLinks P)
    (hvacate : ∀ {t : Tree} (id : Handle), P t → P (t.put id none)) (id : Handle) :
    Keeps P (flatten id) :=
  .bind keeps_get fun _ => keeps_flattenWithin hP hvacate _ id

/-! ### New slots -/

theorem keeps_addLike (hpush : ∀ {t : Tree} (node : Node), P t → P (t.push node))
    (node : Node) : Keeps P (addLike node) := fun _ ht => hpush _ ht

theorem keeps_addCopyWithin (hP : Tree.IgnoresLinks P)
    (hpush : ∀ {t : Tree} (node : Node), P t → P (t.push node)) (source : Tree) (bound : Nat)
    (id : Handle) : Keeps P (addCopyWithin source bound id) := by
  induction bound generalizing id with
  | zero => exact .throw _
  | succ bound ih =>
    refine .bind (keeps_ask _) fun here => .bind (keeps_addLike hpush here) fun top => ?_
    exact .bind (.forM fun child _ => .bind (ih child) fun copy => keeps_attach hP top copy)
      fun _ => .pure _

theorem keeps_addCopy (hP : Tree.IgnoresLinks P)
    (hpush : ∀ {t : Tree} (node : Node), P t → P (t.push node)) (source : Tree)
    (id : Handle) : Keeps P (addCopy source id) :=
  keeps_addCopyWithin hP hpush source _ id

end Edit

/-- What holds of a store without nodes and is kept holds of what has grown. -/
theorem Tree.of_grow {P : Tree → Prop} {nextTag : Nat} {edit : Edit Handle} {t : Tree}
    (hP : IgnoresLinks P) (hedit : Keeps P edit) (hempty : P (empty nextTag))
    (h : grow nextTag edit = .ok t) : P t := by
  have hkeeps : Keeps P (edit >>= Edit.makeRoot) := .bind hedit (Edit.keeps_makeRoot hP)
  rw [grow] at h
  split at h
  · next hrun =>
    cases h
    exact hkeeps.of_ok hempty hrun
  · cases h

/-! ### Reading -/

namespace Text

open Reading

variable {P : Tree → Prop}

theorem keeps_check (source : Array Char) (span : Span) :
    Keeps (fun progress : Progress => P progress.tree) (check source span) := fun _ hp => hp

theorem keeps_edit {α : Type} {change : Edit α} (h : Keeps P change) :
    Keeps (fun progress : Progress => P progress.tree) (edit change) := by
  intro progress hp
  have hchange := h progress.tree hp
  simp only [edit, editWith, EStateM.run] at hchange ⊢
  split at hchange
  · next hrun =>
    rw [hrun]
    exact hchange
  · next hrun =>
    rw [hrun]
    exact hchange

theorem keeps_readSpanWith {finish : Handle → Edit Unit} (hP : Tree.IgnoresLinks P)
    (hfinish : ∀ id, Keeps P (finish id)) (hliteral : ∀ text, Keeps P (Edit.addLiteral text))
    (hcompound : ∀ operator, Keeps P (Edit.addCompound operator)) (source : Array Char)
    (span : Span) :
    Keeps (fun progress : Progress => P progress.tree) (readSpanWith finish source span) := by
  fun_induction readSpanWith finish source span with
  | case1 span s ihinside ihbefore ihafter =>
    refine .bind (keeps_check source span) fun verdict => ?_
    split
    · exact .throw _
    · split
      · exact keeps_edit (hliteral _)
      · split
        · next hg =>
          refine .bind (keeps_edit (hcompound _)) fun top => .bind (ihinside hg) fun inner => ?_
          exact .bind (keeps_edit (Edit.keeps_attach hP top inner)) fun _ => .pure _
        · split
          · exact .throw _
          · next offset operator hs =>
            refine .bind (keeps_edit (hcompound _)) fun top =>
              .bind (ihbefore offset operator hs) fun left =>
              .bind (ihafter offset operator hs) fun right =>
              .bind (keeps_edit (Edit.keeps_attach hP top left)) fun _ => ?_
            exact .bind (keeps_edit (Edit.keeps_attach hP top right)) fun _ =>
              .bind (keeps_edit (hfinish top)) fun _ => .pure _

/-- What is kept holds of the tree that has been read. -/
theorem of_treeOf {ε : Type} {reading : EStateM ε Progress Unit} {known : Verdicts}
    {t : Tree} (hreading : Keeps (fun progress : Progress => P progress.tree) reading)
    (hempty : P (.empty 0)) (h : treeOf known reading = .ok t) : P t := by
  rw [treeOf] at h
  split at h
  · next hrun =>
    cases h
    exact hreading.of_ok hempty hrun
  · cases h

end Text

/-- What holds of a store without nodes and is kept holds of what was parsed. -/
theorem Tree.of_parse {P : Tree → Prop} {text : String} {t : Tree} (hP : IgnoresLinks P)
    (hvacate : ∀ {t : Tree} (id : Handle), P t → P (t.put id none))
    (hliteral : ∀ text, Keeps P (Edit.addLiteral text))
    (hcompound : ∀ operator, Keeps P (Edit.addCompound operator)) (hempty : P (.empty 0))
    (h : parse text = .ok t) : P t := by
  have hfinish (id : Handle) : Keeps P (Edit.flatten id) := Edit.keeps_flatten hP hvacate id
  refine Text.of_treeOf ?_ hempty h
  exact .bind (Text.keeps_readSpanWith hP hfinish hliteral hcompound _ _) fun top =>
    Text.keeps_edit (.bind (Edit.keeps_makeRoot hP top) fun _ => hfinish top)

end FormulaEditor
