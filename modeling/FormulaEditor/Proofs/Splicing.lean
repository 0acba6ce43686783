/-
What flattening leaves as it was.

When the operands of a node are handed to the node above, the row of glyphs stays the same:
the signs between the operands of the one become signs between those of the other.  The
value stays as well if the operator is associative, for then it does not matter that the
operands were combined on their own before.  Both fail for an operator without operands,
which leaves nothing where there has been an empty operand before:

* `Operator.glyphs_append`, `Shape.value_append` — operands in two groups, side by side;
* `Branch.glyphs_flat`, `Shape.value_flat` — from there to the flat form;
* `Tree.IsForest.fold_eq_of_inside` — nodes that are read the same are read the same from
  above;
* `Edit.layout_and_value_of_flatten` — flattening changes no layout and no value.

Design notes: the focus may be on any node that is left.  Nodes that are merged away cannot
have it, so a merged node never had marks around its operands.
-/
import FormulaEditor.Proofs.Building
import FormulaEditor.Proofs.Evaluating
import FormulaEditor.Proofs.Marking
import FormulaEditor.Proofs.Merging
import Mathlib

namespace FormulaEditor

open Branch

/-! ### Glyphs -/

theorem intercalate_append {α : Type} (sep : List α) {l l' : List (List α)} (hl : l ≠ [])
    (hl' : l' ≠ []) :
    sep.intercalate (l ++ l') = sep.intercalate l ++ sep ++ sep.intercalate l' := by
  induction l with
  | nil => exact absurd rfl hl
  | cons x l ih =>
    cases l with
    | nil => rw [List.singleton_append, List.intercalate_cons_of_ne_nil hl',
        List.intercalate_singleton]
    | cons y l =>
      rw [List.cons_append, List.intercalate_cons_of_ne_nil (by simp), ih (by simp),
        List.intercalate_cons_cons]
      simp only [List.append_assoc]

namespace Operator

variable {operator : Operator}

/-- Between two groups of operands there is one more sign. -/
theorem glyphs_append (ha : operator.isAssociative = true) {l l' : List (List Glyph)}
    (hl : l ≠ []) (hl' : l' ≠ []) :
    operator.glyphs (l ++ l') = operator.glyphs l ++ [.sign operator] ++ operator.glyphs l' := by
  cases operator with
  | add => exact intercalate_append _ hl hl'
  | mul => exact intercalate_append _ hl hl'
  | group => cases ha

theorem glyphs_singleton (ha : operator.isAssociative = true) (glyphs : List Glyph) :
    operator.glyphs [glyphs] = glyphs := by
  cases operator with
  | add => exact List.intercalate_singleton
  | mul => exact List.intercalate_singleton
  | group => cases ha

end Operator

namespace Branch

variable {focus : Option Handle} {operator : Operator}

/-- What a branch contributes to a chain has the glyphs of the branch, if it does not lose
the node in focus. -/
theorem glyphs_operands (ha : operator.isAssociative = true) {b : Branch}
    (hfocus : ∀ id ∈ b.mergedTop operator, focus ≠ some id) :
    operator.glyphs ((b.operands operator).map (glyphs focus)) = b.glyphs focus := by
  cases b with
  | literal => exact operator.glyphs_singleton ha _
  | compound id tag own parts =>
    rw [operands]
    split
    · next hown =>
      subst hown
      rw [glyphs, marked, if_neg (hfocus id (mem_mergedTop.mpr ⟨ha, rfl, rfl⟩))]
    · exact operator.glyphs_singleton ha _

theorem operands_flat_ne_nil {b : Branch} (h : b.shape.HasArity Operator.HasOperands)
    (ha : operator.isAssociative = true) : b.flat.operands operator ≠ [] := by
  intro hnil
  refine h.operands_flat_ne_nil ha ?_
  rw [← shape_flat, ← map_shape_operands, hnil, List.map_nil]

/-- The flat form of a branch has the same glyphs. -/
theorem glyphs_flat {b : Branch} (h : b.shape.HasArity Operator.HasOperands)
    (hfocus : ∀ id ∈ b.lost, focus ≠ some id) : b.flat.glyphs focus = b.glyphs focus := by
  induction b with
  | literal => rw [flat]
  | compound id tag own parts ih =>
    have harity : ∀ part ∈ parts, part.shape.HasArity Operator.HasOperands := by
      rw [shape] at h
      exact fun part hp => h.of_mem (List.mem_map_of_mem hp)
    have hparts : (parts.map flat).map (glyphs focus) = parts.map (glyphs focus) := by
      rw [List.map_map]
      refine List.map_congr_left fun part hp => ih part hp (harity part hp) fun other hother => ?_
      rw [lost] at hfocus
      exact hfocus other (List.mem_append_right _ (List.mem_flatMap.mpr ⟨part, hp, hother⟩))
    have hmerged : own.glyphs ((merged own (parts.map flat)).map (glyphs focus))
        = own.glyphs ((parts.map flat).map (glyphs focus)) := by
      rw [merged]
      split
      · next ha =>
        refine flatMap_congr_of_append (F := fun l => own.glyphs (l.map (glyphs focus)))
          (g := fun left right => left ++ [.sign own] ++ right) ?_ ?_
        · intro l l' hl hl'
          rw [List.map_append]
          exact Operator.glyphs_append ha (by simpa using hl) (by simpa using hl')
        · refine List.forall_mem_map.mpr fun part hp => ?_
          refine ⟨operands_flat_ne_nil (harity part hp) ha, ?_⟩
          rw [glyphs_operands ha, List.map_singleton, Operator.glyphs_singleton ha]
          -- the top of the part is lost if it is merged
          intro other hother
          obtain ⟨_, hop, rfl⟩ := mem_mergedTop.mp hother
          rw [lost] at hfocus
          refine hfocus _ (List.mem_append_left _ (List.mem_flatMap.mpr ⟨part, hp, ?_⟩))
          rw [top_flat]
          refine mem_mergedTop.mpr ⟨ha, ?_, rfl⟩
          rw [← operator?_shape, shape_flat, Shape.operator?_flat, operator?_shape] at hop
          exact hop
      · rfl
    rw [flat, glyphs, glyphs, hmerged, hparts]

end Branch

/-! ### Values -/

section

variable {α : Type} {m : Interpretation α}

namespace Interpretation

/-- Two groups of operands can be combined one by one, and the results after that. -/
theorem combine_append {f : α → α → α} [Std.Associative f] {l l' : List α} (hl : l ≠ [])
    (hl' : l' ≠ []) :
    combine f (l ++ l') = do return f (← combine f l) (← combine f l') := by
  obtain ⟨a, l, rfl⟩ := List.exists_cons_of_ne_nil hl
  obtain ⟨b, l', rfl⟩ := List.exists_cons_of_ne_nil hl'
  show some ((l ++ b :: l').foldl f a) = some (f (l.foldl f a) (l'.foldl f b))
  rw [List.foldl_append, List.foldl_cons, List.foldl_assoc]

/-- An associative operator combines its operands by an associative operation. -/
theorem exists_apply_eq (m : Interpretation α) [Std.Associative m.add] [Std.Associative m.mul]
    {operator : Operator} (ha : operator.isAssociative = true) :
    ∃ f : α → α → α, Std.Associative f ∧ m.apply operator = combine f := by
  cases operator with
  | add => exact ⟨m.add, inferInstance, rfl⟩
  | mul => exact ⟨m.mul, inferInstance, rfl⟩
  | group => cases ha

end Interpretation

namespace Shape

variable {operator : Operator} {f : α → α → α}

theorem ne_nil_of_values {parts : List Shape} {l : List α} (hne : parts ≠ [])
    (h : (parts.map (value m)).mapM id = some l) : l ≠ [] := by
  obtain ⟨part, parts, rfl⟩ := List.exists_cons_of_ne_nil hne
  rintro rfl
  rw [List.map_cons, List.mapM_cons] at h
  obtain ⟨_, _, h⟩ := Option.bind_eq_some_iff.mp h
  obtain ⟨_, _, h⟩ := Option.bind_eq_some_iff.mp h
  cases h

/-- A compound of two groups of parts has the value that two compounds have together. -/
theorem value_append [Std.Associative f] (hf : m.apply operator = Interpretation.combine f)
    {l l' : List Shape} (hl : l ≠ []) (hl' : l' ≠ []) :
    (compound operator (l ++ l')).value m = do
      return f (← (compound operator l).value m) (← (compound operator l').value m) := by
  rw [value_compound, value_compound, value_compound, List.map_append, List.mapM_append, hf]
  cases h : (l.map (value m)).mapM id with
  | none => rfl
  | some as =>
    cases h' : (l'.map (value m)).mapM id with
    | none => simp
    | some as' =>
      exact Interpretation.combine_append (ne_nil_of_values hl h) (ne_nil_of_values hl' h')

theorem value_singleton (hf : m.apply operator = Interpretation.combine f) (shape : Shape) :
    (compound operator [shape]).value m = shape.value m := by
  rw [value_compound, hf, List.map_singleton]
  cases h : shape.value m <;> rfl

theorem value_operands (hf : m.apply operator = Interpretation.combine f) (shape : Shape) :
    (compound operator (shape.operands operator)).value m = shape.value m := by
  by_cases hop : shape.operator? = some operator
  · cases shape with
    | literal => cases hop
    | compound own parts =>
      obtain rfl : own = operator := Option.some_inj.mp hop
      rw [operands_compound_self]
  · rw [operands_of_ne hop, value_singleton hf]

/-- The flat form of a shape has the same value. -/
theorem value_flat [Std.Associative m.add] [Std.Associative m.mul] {shape : Shape}
    (h : shape.HasArity Operator.HasOperands) : shape.flat.value m = shape.value m := by
  induction shape with
  | literal => rw [flat]
  | compound operator parts ih =>
    have hparts : (parts.map flat).map (value m) = parts.map (value m) := by
      rw [List.map_map]
      exact List.map_congr_left fun part hp => ih part hp (h.of_mem hp)
    rw [flat, ← value_congr operator hparts, merged]
    split
    · next ha =>
      obtain ⟨f, hassoc, hf⟩ := m.exists_apply_eq ha
      refine flatMap_congr_of_append (F := fun l => (compound operator l).value m)
        (g := fun left right => do return f (← left) (← right)) ?_ ?_
      · exact fun l l' hl hl' => value_append hf hl hl'
      · refine List.forall_mem_map.mpr fun part hp => ⟨(h.of_mem hp).operands_flat_ne_nil ha, ?_⟩
        rw [value_operands hf, value_singleton hf]
    · rfl

end Shape

end

namespace Tree

variable {t t' : Tree} {place : Option Handle} {b : Branch}

/-- Below the node every compound has a number of children that its operator allows. -/
def HasArity (t : Tree) (top : Handle) (allowed : Operator → Nat → Prop) : Prop :=
  ∀ id node operator, t.Reaches top id → t.get? id = some node → node.operator? = some operator →
    allowed operator node.children.length

/-- To count the children of every node below the top of a branch is to count parts. -/
theorem Bears.hasArity_iff {allowed : Operator → Nat → Prop} (h : t.Bears place b) :
    t.HasArity b.top allowed ↔ b.shape.HasArity allowed := by
  constructor
  · -- what can be reached from a part can be reached from the top
    suffices hall : ∀ {top : Handle} {up : Option Handle} {c : Branch}, t.HasArity top allowed →
        t.Reaches top c.top → t.Holds up c → c.shape.HasArity allowed from
      fun harity => hall harity .self h.holds
    intro top up c harity hreaches hc
    induction c generalizing up with
    | literal =>
      rw [Branch.shape]
      exact .literal _
    | compound id tag operator parts ih =>
      rw [Branch.shape]
      refine .compound ?_ (List.forall_mem_map.mpr fun part hp => ih part hp ?_ (hc.part hp))
      · have hcount := harity _ _ operator hreaches hc.get rfl
        rw [children_node, List.length_map] at hcount
        rwa [List.length_map]
      · refine .child hreaches hc.get ?_
        rw [children_node]
        exact List.mem_map_of_mem hp
  · intro harity id node operator hreaches hget hop
    obtain ⟨c, _, hc, hbears, rfl⟩ := h.exists_within (hreaches.mem_handles h)
    have hshape := shape_of_within Shape.HasArity.of_mem hc harity
    rw [hbears.get, Option.some_inj] at hget
    subst hget
    rw [operator?_node] at hop
    cases c with
    | literal => cases hop
    | compound _ _ own parts =>
      cases hop
      rw [Branch.shape] at hshape
      cases hshape with
      | compound hcount _ => simpa [Branch.parts] using hcount

/-- Where two forests have the same nodes but for some, and the subtrees of these are read
the same, all subtrees are. -/
theorem IsForest.fold_eq_of_inside {α : Type} {combine : Handle → Node → List α → α}
    {inside : Handle → Prop} (ht : t.IsForest) (ht' : t'.IsForest)
    (hsame : ∀ id, ¬ inside id → t'.get? id = t.get? id)
    (hinside : ∀ id, inside id → (t'.get? id).isSome = true →
      t'.fold combine id = t.fold combine id) {id : Handle} (hid : (t'.get? id).isSome = true) :
    t'.fold combine id = t.fold combine id := by
  obtain ⟨node, hget⟩ := Option.isSome_iff_exists.mp hid
  obtain ⟨b, rfl, hb⟩ := ht'.exists_bears hget
  -- the induction is on what the second forest bears there
  have hholds := hb.holds
  clear hget hid hb
  generalize node.parent = place at hholds
  induction hholds with
  | @intro place b hget _ ih =>
    by_cases hin : inside b.top
    · exact hinside b.top hin (hget ▸ rfl)
    · obtain ⟨parts, hparts, hfold⟩ := ht.exists_fold combine ((hsame _ hin).symm.trans hget)
      obtain ⟨parts', hparts', hfold'⟩ := ht'.exists_fold combine hget
      rw [children_node, List.forall₂_map_left_iff] at hparts hparts'
      have heq : parts' = parts := by
        refine List.right_unique_forall₂' (fun _ _ _ h h' => Except.ok.inj (h.symm.trans h'))
          (forall₂_imp_of_mem hparts' fun part hp answer hanswer => ?_) hparts
        exact (ih part hp).symm.trans hanswer
      rw [hfold, hfold', heq]

namespace Reshapes

variable (h : t.Reshapes t' place b b.flat) (hb : t.Bears place b)
  (harity : b.shape.HasArity Operator.HasOperands)
include h hb harity

theorem layout_eq {focus : Option Handle}
    (hfocus : ∀ other, focus = some other → (t'.get? other).isSome = true) {id : Handle}
    (hid : id ∈ b.handles) (hlive : (t'.get? id).isSome = true) :
    t'.layout id focus = t.layout id focus := by
  obtain ⟨c, _, _, _, hc, hbears, hold, rfl⟩ := h.exists_within hb hid hlive
  rw [hold.layout_focus_eq, ← top_flat c, hbears.layout_focus_eq,
    glyphs_flat (shape_of_within Shape.HasArity.of_mem hc harity)]
  intro other hother heq
  -- what is lost is gone, and then it does not have the focus
  have hlost := hc.lost_subset hother
  have hin := (handles_perm_lost b).mem_iff.mpr (List.mem_append_left _ hlost)
  have hgone := (h.get?_eq_none_iff hb hin).mpr hlost
  exact absurd (hfocus other heq) (by simp [hgone])

theorem value_eq {α : Type} {m : Interpretation α} [Std.Associative m.add]
    [Std.Associative m.mul] {id : Handle} (hid : id ∈ b.handles)
    (hlive : (t'.get? id).isSome = true) : t'.value m id = t.value m id := by
  obtain ⟨c, _, _, _, hc, hbears, hold, rfl⟩ := h.exists_within hb hid hlive
  rw [hold.value_eq, ← top_flat c, hbears.value_eq, shape_flat,
    Shape.value_flat (shape_of_within Shape.HasArity.of_mem hc harity)]

end Reshapes

end Tree

namespace Edit

/-- Where every sum and every product has operands, flattening changes neither what is drawn
nor what it is worth.  All nodes that are left have the layout that they had, with any node
that is left in focus or none.  And under every interpretation of sums and products by
associative operations the nodes of the subtree keep their values, which they all have if
there is one operand in every pair of parentheses. -/
theorem layout_and_value_of_flatten {t : Tree} (ht : t.IsForest) {id : Handle}
    (hid : (t.get? id).isSome = true) (harity : t.HasArity id Operator.HasOperands) :
    ∃ t', (flatten id).run t = .ok () t' ∧
      (∀ other focus, (t'.get? other).isSome = true →
        (∀ here, focus = some here → (t'.get? here).isSome = true) →
        ∃ glyphs, t.layout other focus = .ok glyphs ∧ t'.layout other focus = .ok glyphs) ∧
      ∀ {α : Type} (m : Interpretation α) [Std.Associative m.add] [Std.Associative m.mul] other,
        t.Reaches id other → (t'.get? other).isSome = true →
        ∃ value, t.value m other = .ok value ∧ t'.value m other = .ok value ∧
          (t.HasArity id Operator.Encloses → ∃ a, value = some a) := by
  obtain ⟨node, hget⟩ := Option.isSome_iff_exists.mp hid
  obtain ⟨b, rfl, hb⟩ := ht.exists_bears hget
  obtain ⟨t', hrun, hreshapes⟩ := run_flatten hb
  have ht' := hreshapes.isForest ht hb (hreshapes.bears_flat hb) (top_flat b)
  have hshape := hb.hasArity_iff.mp harity
  refine ⟨t', hrun, ?_, ?_⟩
  · intro other focus hlive hfocus
    have heq : t'.layout other focus = t.layout other focus :=
      ht.fold_eq_of_inside ht' hreshapes.same.get?
        (fun inner hinner => hreshapes.layout_eq hb hshape hfocus hinner) hlive
    obtain ⟨node', hget'⟩ := Option.isSome_iff_exists.mp hlive
    obtain ⟨c, rfl, hc⟩ := ht'.exists_bears hget'
    exact ⟨_, heq ▸ hc.layout_focus_eq focus, hc.layout_focus_eq focus⟩
  · intro α m _ _ other hreaches hlive
    have hin := hreaches.mem_handles hb
    have heq := hreshapes.value_eq hb hshape (m := m) hin hlive
    obtain ⟨c, _, hc, hbears, rfl⟩ := hb.exists_within hin
    refine ⟨_, hbears.value_eq, heq.trans hbears.value_eq, fun hencloses => ?_⟩
    have hparts : c.shape.HasArity Operator.Encloses :=
      Tree.shape_of_within Shape.HasArity.of_mem hc (hb.hasArity_iff.mp hencloses)
    exact (Tree.shape_of_within Shape.HasArity.of_mem hc hshape).exists_value hparts

/-- The terms of an inner sum are joined to those of the outer one, with the parentheses in
focus and letters that are put together to words. -/
theorem layout_and_value_of_flatten_sum : ∃ (t t' : Tree) (glyphs : List Glyph)
    (m : Interpretation String),
    t = ⟨#[some ⟨.compound .add [⟨1⟩, ⟨2⟩], none, ⟨0⟩⟩, some ⟨.literal "a", some ⟨0⟩, ⟨1⟩⟩,
      some ⟨.compound .add [⟨3⟩, ⟨4⟩], some ⟨0⟩, ⟨2⟩⟩, some ⟨.literal "b", some ⟨2⟩, ⟨3⟩⟩,
      some ⟨.compound .group [⟨5⟩], some ⟨2⟩, ⟨4⟩⟩, some ⟨.literal "c", some ⟨4⟩, ⟨5⟩⟩], ⟨0⟩, 6⟩ ∧
    glyphs = [.literal "a", .sign .add, .literal "b", .sign .add, .focusOpening, .opening,
      .literal "c", .closing, .focusClosing] ∧
    m = ⟨id, (· ++ ·), (· ++ ·)⟩ ∧
    (flatten ⟨0⟩).run t = .ok () t' ∧ t'.get? ⟨2⟩ = none ∧
    t.layout ⟨0⟩ (some ⟨4⟩) = .ok glyphs ∧ t'.layout ⟨0⟩ (some ⟨4⟩) = .ok glyphs ∧
    t.value m ⟨0⟩ = .ok (some "abc") ∧ t'.value m ⟨0⟩ = .ok (some "abc") := by
  obtain ⟨u, hu⟩ : ∃ u : Tree, u = ⟨#[some ⟨.compound .add [⟨1⟩, ⟨2⟩], none, ⟨0⟩⟩,
      some ⟨.literal "a", some ⟨0⟩, ⟨1⟩⟩, some ⟨.compound .add [⟨3⟩, ⟨4⟩], some ⟨0⟩, ⟨2⟩⟩,
      some ⟨.literal "b", some ⟨2⟩, ⟨3⟩⟩, some ⟨.compound .group [⟨5⟩], some ⟨2⟩, ⟨4⟩⟩,
      some ⟨.literal "c", some ⟨4⟩, ⟨5⟩⟩], ⟨0⟩, 6⟩ := ⟨_, rfl⟩
  obtain ⟨m, hm⟩ : ∃ m : Interpretation String, m = ⟨id, (· ++ ·), (· ++ ·)⟩ := ⟨_, rfl⟩
  have : Std.Associative m.add := ⟨by rw [hm]; exact fun _ _ _ => String.append_assoc⟩
  have : Std.Associative m.mul := ⟨by rw [hm]; exact fun _ _ _ => String.append_assoc⟩
  obtain ⟨t, b, ht, hwhole, hshape⟩ := Tree.exists_ofShape
    (.compound .add [.literal "a", .compound .add [.literal "b", .compound .group [.literal "c"]]])
  obtain rfl : t = u := by
    have hplanted : Tree.ofShape (.compound .add [.literal "a", .compound .add [.literal "b",
        .compound .group [.literal "c"]]]) = .ok u := by
      rw [hu]
      cbv
    exact Except.ok.inj (ht.symm.trans hplanted)
  have harity : t.HasArity ⟨0⟩ Operator.HasOperands ∧ t.HasArity ⟨0⟩ Operator.Encloses := by
    have htop : b.top = ⟨0⟩ := hwhole.root.symm.trans (by rw [hu])
    have hcount {allowed : Operator → Nat → Prop} (hsum : allowed .add 2)
        (hgroup : allowed .group 1) : b.shape.HasArity allowed := by
      have henclosed : (Shape.compound .group [.literal "c"]).HasArity allowed :=
        .compound hgroup (by simp [Shape.HasArity.literal])
      have hinner : (Shape.compound .add
          [.literal "b", .compound .group [.literal "c"]]).HasArity allowed :=
        .compound hsum (by simp [Shape.HasArity.literal, henclosed])
      rw [hshape]
      exact .compound hsum (by simp [Shape.HasArity.literal, hinner])
    rw [← htop, hwhole.bears.hasArity_iff, hwhole.bears.hasArity_iff]
    exact ⟨hcount (fun _ => by decide) (fun ha => by cases ha),
      hcount (fun hg => by cases hg) (fun _ => rfl)⟩
  have hroot : (t.get? ⟨0⟩).isSome = true := by
    rw [hu]
    rfl
  have hlayout : t.layout ⟨0⟩ (some ⟨4⟩) = .ok [.literal "a", .sign .add, .literal "b",
      .sign .add, .focusOpening, .opening, .literal "c", .closing, .focusClosing] := by
    rw [hu]
    cbv
  have hvalue : t.value m ⟨0⟩ = .ok (some "abc") := by
    rw [hu, hm]
    cbv
  obtain ⟨t', hrun, hdrawn, hworth⟩ :=
    layout_and_value_of_flatten hwhole.isTree.toIsForest hroot harity.1
  -- the inner sum is gone, and the nodes in question are not
  have hleft : (t'.get? ⟨0⟩).isSome = true ∧ t'.get? ⟨2⟩ = none ∧
      (t'.get? ⟨4⟩).isSome = true := by
    have hrun' := hrun
    rw [hu] at hrun'
    cbv at hrun'
    cases hrun'
    exact ⟨rfl, rfl, rfl⟩
  obtain ⟨glyphs, hglyphs, hglyphs'⟩ :=
    hdrawn ⟨0⟩ (some ⟨4⟩) hleft.1 fun here heq => Option.some_inj.mp heq ▸ hleft.2.2
  obtain ⟨value, ha, ha', _⟩ := hworth m ⟨0⟩ .self hleft.1
  rw [hlayout, Except.ok.injEq] at hglyphs
  rw [hvalue, Except.ok.injEq] at ha
  exact ⟨t, t', glyphs, m, hu, hglyphs.symm, hm, hrun, hleft.2.1,
    hlayout.trans (congrArg _ hglyphs), hglyphs', hvalue, ha ▸ ha'⟩

end Edit

end FormulaEditor
