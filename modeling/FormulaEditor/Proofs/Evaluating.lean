/-
What a formula is worth while it is edited.

If the order and the grouping of operands do not matter to what sums and products stand
for, no edit changes the value of a formula: operands of one operator change places, and
none of them ever leaves its operator.  This is so for every interpretation of literals
and operators:

* `Interpretation.combine_perm` — operands in another order;
* `Shape.value_perm`, `Branch.Shuffles.value_eq` — formulas in another order;
* `Tree.Permutes.value_eq` — stores that differ in the order of child lists;
* `Tree.IsForest.exists_value_arrangements` — what is offered for a node has the value of
  its parent;
* `Shape.HasArity.exists_value`, `Shape.IsWritable.exists_value` — formulas whose operators
  have operands have a value, and those that can be written down are such;
* `Tree.value_of_edits` — the value of a text stays, whatever is done to its tree.
-/
import FormulaEditor.Proofs.Dragging

namespace FormulaEditor

open Branch

variable {α : Type} {m : Interpretation α}

/-! ### Operands in another order -/

namespace Interpretation

theorem combine_perm {f : α → α → α} [Std.Associative f] [Std.Commutative f] {l l' : List α}
    (h : l.Perm l') : combine f l = combine f l' := by
  induction h with
  | nil => rfl
  | cons a h _ => exact congrArg some (h.foldl_eq a)
  | swap a b l =>
    have hswap : f a b = f b a := Std.Commutative.comm a b
    rw [combine, combine, List.foldl_cons, List.foldl_cons, hswap]
  | trans _ _ ih ih' => exact ih.trans ih'

/-- There is a result as soon as there are operands. -/
theorem exists_combine {f : α → α → α} {l : List α} (h : l ≠ []) : ∃ a, combine f l = some a := by
  cases l with
  | nil => exact absurd rfl h
  | cons a l => exact ⟨_, rfl⟩

/-- An operator makes something of as many operands as it needs. -/
theorem exists_apply {operator : Operator} {l : List α} (h : operator.HasOperands l.length)
    (h' : operator.Encloses l.length) : ∃ a, m.apply operator l = some a := by
  cases operator with
  | add => exact exists_combine (List.ne_nil_of_length_pos (h rfl))
  | mul => exact exists_combine (List.ne_nil_of_length_pos (h rfl))
  | group =>
    obtain ⟨a, rfl⟩ := List.length_eq_one_iff.mp (h' rfl)
    exact ⟨a, rfl⟩

theorem apply_perm [Std.Associative m.add] [Std.Commutative m.add] [Std.Associative m.mul]
    [Std.Commutative m.mul] (operator : Operator) {l l' : List α} (h : l.Perm l') :
    m.apply operator l = m.apply operator l' := by
  cases operator with
  | add => exact combine_perm h
  | mul => exact combine_perm h
  | group =>
    -- parentheses have a value around one operand only
    match l, l' with
    | [a], l' =>
      rw [List.singleton_perm.mp h]
    | [], l' => rw [List.nil_perm.mp h]
    | _ :: _ :: _, [a] => exact absurd h.length_eq (by simp)
    | _ :: _ :: _, [] => exact absurd h.length_eq (by simp)
    | _ :: _ :: _, _ :: _ :: _ => rfl

end Interpretation

namespace Shape

theorem values_eq_mapM (parts : List Shape) :
    values m parts = (parts.map (value m)).mapM id := by
  induction parts with
  | nil => rw [values]; rfl
  | cons part parts ih =>
    rw [values, ih, List.map_cons, List.mapM_cons]
    rfl

/-- The value of a compound depends on the values of its parts alone. -/
theorem value_compound (operator : Operator) (parts : List Shape) :
    (compound operator parts).value m
      = (parts.map (value m)).mapM id >>= m.apply operator := by
  rw [value, values_eq_mapM]

theorem value_congr (operator : Operator) {parts parts' : List Shape}
    (h : parts.map (value m) = parts'.map (value m)) :
    (compound operator parts).value m = (compound operator parts').value m := by
  rw [value_compound, value_compound, h]

theorem value_perm [Std.Associative m.add] [Std.Commutative m.add] [Std.Associative m.mul]
    [Std.Commutative m.mul] (operator : Operator) {parts parts' : List Shape}
    (h : parts.Perm parts') :
    (compound operator parts).value m = (compound operator parts').value m := by
  rw [value_compound, value_compound]
  exact mapM_bind_perm (fun _ _ => m.apply_perm operator) (h.map (value m))

/-! ### Formulas that have a value -/

theorem exists_values {parts : List Shape} (h : ∀ part ∈ parts, ∃ a, part.value m = some a) :
    ∃ l, (parts.map (value m)).mapM id = some l ∧ l.length = parts.length := by
  induction parts with
  | nil => exact ⟨[], rfl, rfl⟩
  | cons part parts ih =>
    obtain ⟨a, ha⟩ := h part (List.mem_cons_self ..)
    obtain ⟨l, hl, hlen⟩ := ih fun c hc => h c (List.mem_cons_of_mem _ hc)
    refine ⟨a :: l, ?_, congrArg Nat.succ hlen⟩
    rw [List.map_cons, List.mapM_cons, hl, ha]
    rfl

/-- A formula without empty operators, and with one operand in all parentheses, has a value. -/
theorem HasArity.exists_value {shape : Shape} (h : shape.HasArity Operator.HasOperands)
    (h' : shape.HasArity Operator.Encloses) : ∃ a, shape.value m = some a := by
  induction shape with
  | literal => exact ⟨_, by rw [value]⟩
  | compound operator parts ih =>
    cases h with
    | compound hlen hparts =>
      cases h' with
      | compound hlen' hparts' =>
        obtain ⟨l, hl, hcount⟩ := exists_values fun part hp =>
          ih part hp (hparts part hp) (hparts' part hp)
        rw [value_compound, hl]
        rw [← hcount] at hlen hlen'
        exact m.exists_apply hlen hlen'

/-- What can be written down has a value: there is no operator without operands. -/
theorem IsWritable.exists_value {shape : Shape} (h : shape.IsWritable) :
    ∃ a, shape.value m = some a :=
  h.hasArity.1.exists_value h.hasArity.2

end Shape

/-! ### Branches and stores -/

namespace Branch

/-- A branch in another order has the same value. -/
theorem Shuffles.value_eq [Std.Associative m.add] [Std.Commutative m.add] [Std.Associative m.mul]
    [Std.Commutative m.mul] {b r : Branch} (h : b.Shuffles r) :
    r.shape.value m = b.shape.value m := by
  induction b generalizing r with
  | literal id tag text =>
    cases h
    rfl
  | compound id tag operator parts ih =>
    cases h with
    | @compound _ _ _ _ mid order hall hperm =>
      have hmid : (mid.map shape).map (Shape.value m) = (parts.map shape).map (Shape.value m) := by
        rw [List.map_map, List.map_map]
        exact map_eq_map_of_forall₂ (forall₂_imp_of_mem hall fun part hp _ => ih part hp)
      rw [shape, shape, ← Shape.value_perm operator (hperm.map shape)]
      exact Shape.value_congr operator hmid

end Branch

namespace Tree

variable {t t' : Tree} {place : Option Handle} {b : Branch} {id : Handle} {node : Node}

theorem Bears.value_eq (h : t.Bears place b) : t.value m b.top = .ok (b.shape.value m) := by
  rw [value, h.shape_eq]
  rfl

theorem IsCopy.value_eq {copy : Tree} {nextTag : Nat} (h : copy.IsCopy nextTag b) :
    copy.value m copy.root = .ok (b.shape.value m) := by
  rw [value, h.shape_eq]
  rfl

/-- Every node of a proper tree has a value. -/
theorem IsProper.exists_value (h : t.IsProper) (hget : t.get? id = some node) :
    ∃ a, t.value m id = .ok (some a) := by
  obtain ⟨b, hb, hn⟩ := h.exists_isWhole
  obtain ⟨c, place, hc, hbears, rfl, _⟩ := hb.exists_within hget
  obtain ⟨a, ha⟩ := (isNormal_of_within hc hn).isWritable.exists_value (m := m)
  exact ⟨a, by rw [hbears.value_eq, ha]⟩

/-! ### Edits -/

/-- What a tree becomes while it is edited, whether or not the edits succeed. -/
inductive EditedTo (t : Tree) : Tree → Prop
  | refl : EditedTo t t
  | rearrange {u : Tree} (id : Handle) (target : Tree) (targetId : Handle) :
      EditedTo t u → EditedTo t ((Edit.rearrange id target targetId).leaves u)
  | drop {u : Tree} (drag : Drag) (position : Nat) :
      EditedTo t u → EditedTo t ((drag.drop position).leaves u)
  | flatten {u : Tree} (id : Handle) : EditedTo t u → EditedTo t ((Edit.flatten id).leaves u)
  | attach {u : Tree} (parent child : Handle) :
      EditedTo t u → EditedTo t ((Edit.attach parent child).leaves u)

/-- However a proper tree is edited, the order of child lists is all that changes. -/
theorem EditedTo.permutes {u : Tree} (h : t.EditedTo u) (ht : t.IsProper) : t.Permutes u := by
  induction h with
  | refl => exact .refl t
  | rearrange id target targetId _ ih =>
    exact ih.trans (Edit.isPermuting_rearrange id target targetId _ (ih.isProper ht).toIsForest)
  | drop drag position _ ih =>
    exact ih.trans (drag.isPermuting_drop position _ (ih.isProper ht).toIsForest)
  | flatten id _ ih =>
    rw [(ih.isProper ht).leaves_flatten]
    exact ih
  | attach parent child _ ih =>
    rw [(ih.isProper ht).leaves_attach]
    exact ih

/-! ### What stays -/

variable [Std.Associative m.add] [Std.Commutative m.add] [Std.Associative m.mul]
  [Std.Commutative m.mul]

/-- Where only the order of child lists has changed, every node has the value that it
had. -/
theorem Permutes.value_eq (h : t.Permutes t') (ht : t.IsForest) (hget : t.get? id = some node) :
    t'.value m id = t.value m id := by
  obtain ⟨b, rfl, hb⟩ := ht.exists_bears hget
  obtain ⟨b', hb', hshuffles⟩ := h.exists_shuffles hb
  have hb'' := hb'.value_eq (m := m)
  rw [hshuffles.top, hshuffles.value_eq] at hb''
  rw [hb'', hb.value_eq]

/-- What is offered for a node of a forest has the value of the node's parent. -/
theorem IsForest.exists_value_arrangements (ht : t.IsForest) {up : Handle}
    (hget : t.get? id = some node) (hup : node.parent = some up) :
    ∃ l value, t.arrangements id = .ok l ∧ t.value m up = .ok value ∧
      ∀ a ∈ l, a.tree.value m a.tree.root = .ok value := by
  obtain ⟨_, tag, operator, parts, part, hb, hpart, rfl⟩ := ht.exists_compound hget hup
  obtain ⟨l, hl, _, hall⟩ := exists_arrangements hb hpart
  refine ⟨l, _, hl, hb.value_eq, fun a ha => ?_⟩
  obtain ⟨order, hperm, _, hcopy⟩ := hall a ha
  rw [hcopy.value_eq, (Shuffles.of_perm hperm.symm).value_eq]

/-- An edit that changes nothing but the order of child lists leaves the whole formula its
value. -/
theorem value_root_eq {β : Type} {edit : Edit β} {answer : β} (hedit : edit.IsPermuting)
    (ht : t.IsTree) (hrun : edit.run t = .ok answer t') :
    t'.value m t'.root = t.value m t.root := by
  obtain ⟨node, hget, _⟩ := ht.root_top
  have hpermutes := hedit.permutes ht.toIsForest hrun
  rw [hpermutes.root, hpermutes.value_eq ht.toIsForest hget]

variable (m) in
/-- If sums and products may be taken in any order, the value of a formula outlives all
edits.  What is offered for a node is worth as much as the node's parent, and to rearrange
a tree or to drop a node on it leaves the value of the tree the same, whatever it is that
the tree is made to match or that is dropped.  So a tree that comes from a text keeps the
value that the grammar gives the text. -/
theorem value_of_edits :
    (∀ t : Tree, t.Obtained →
      (∀ id node up, t.get? id = some node → node.parent = some up →
        ∃ l a, t.arrangements id = .ok l ∧ t.value m up = .ok (some a) ∧
          ∀ arrangement ∈ l, arrangement.tree.value m arrangement.tree.root = .ok (some a)) ∧
      ∃ a, t.value m t.root = .ok (some a) ∧
        (∀ id target targetId u, (Edit.rearrange id target targetId).run t = .ok () u →
          u.value m u.root = .ok (some a)) ∧
        ∀ (drag : Drag) position path u, (drag.drop position).run t = .ok path u →
          u.value m u.root = .ok (some a)) ∧
    ∀ text t u, parse text = .ok t → t.EditedTo u →
      ∃ shape a, Grammar.IsFormula (withoutSpaces text) shape ∧ shape.value m = some a ∧
        u.value m u.root = .ok (some a) := by
  refine ⟨fun t ht => ⟨?_, ?_⟩, ?_⟩
  · intro id node up hget hup
    have hproper := ht.isProper
    obtain ⟨l, value, hl, hvalue, hall⟩ :=
      hproper.toIsForest.exists_value_arrangements (m := m) hget hup
    obtain ⟨above, habove, _⟩ := hproper.lists_iff.mpr ⟨node, hget, hup⟩
    obtain ⟨a, ha⟩ := hproper.exists_value (m := m) habove
    rw [hvalue, Except.ok.injEq] at ha
    subst ha
    exact ⟨l, a, hl, hvalue, hall⟩
  · have htree := ht.isProper.toIsTree
    obtain ⟨node, hget, _⟩ := htree.root_top
    obtain ⟨a, ha⟩ := ht.isProper.exists_value (m := m) hget
    refine ⟨a, ha, ?_, ?_⟩
    · intro id target targetId u hrun
      rw [value_root_eq (Edit.isPermuting_rearrange id target targetId) htree hrun, ha]
    · intro drag position path u hrun
      rw [value_root_eq (drag.isPermuting_drop position) htree hrun, ha]
  · intro text t u hparse hedited
    have hproper := (Obtained.parse hparse).isProper
    have hpermutes := hedited.permutes hproper
    obtain ⟨b, hb, hformula⟩ := exists_of_parse hparse
    obtain ⟨a, ha⟩ := hformula.isNormal.isWritable.exists_value (m := m)
    refine ⟨b.shape, a, hformula, ha, ?_⟩
    rw [hpermutes.root, hb.root, hpermutes.value_eq hproper.toIsForest hb.bears.get,
      hb.bears.value_eq, ha]

/-- A number is dragged past a product of two others, and the sum stays what it was. -/
theorem value_of_edits_sum : ∃ (m : Interpretation Nat) (t u : Tree) (drag : Drag),
    parse "2+3*5" = .ok t ∧ Drag.start t ⟨[0]⟩ = .ok drag ∧ (drag.drop 1).leaves t = u ∧
    u.get? ⟨0⟩ = some ⟨.compound .add [⟨2⟩, ⟨1⟩], none, ⟨0⟩⟩ ∧
    u.value m u.root = .ok (some 17) := by
  obtain ⟨m, hm⟩ : ∃ m : Interpretation Nat,
      m = ⟨fun text => text.toNat?.getD 0, fun a b => a + b, fun a b => a * b⟩ := ⟨_, rfl⟩
  have : Std.Associative m.add := ⟨by rw [hm]; exact Nat.add_assoc⟩
  have : Std.Commutative m.add := ⟨by rw [hm]; exact Nat.add_comm⟩
  have : Std.Associative m.mul := ⟨by rw [hm]; exact Nat.mul_assoc⟩
  have : Std.Commutative m.mul := ⟨by rw [hm]; exact Nat.mul_comm⟩
  obtain ⟨t, ht⟩ : ∃ t : Tree, t = ⟨#[some ⟨.compound .add [⟨1⟩, ⟨2⟩], none, ⟨0⟩⟩,
      some ⟨.literal "2", some ⟨0⟩, ⟨1⟩⟩, some ⟨.compound .mul [⟨3⟩, ⟨4⟩], some ⟨0⟩, ⟨2⟩⟩,
      some ⟨.literal "3", some ⟨2⟩, ⟨3⟩⟩, some ⟨.literal "5", some ⟨2⟩, ⟨4⟩⟩], ⟨0⟩, 5⟩ := ⟨_, rfl⟩
  have hparse : parse "2+3*5" = .ok t := by
    rw [ht]
    cbv
  have hvalue : t.value m t.root = .ok (some 17) := by
    rw [ht, hm]
    cbv
  have hdone : ((Drag.start t ⟨[0]⟩).toOption.bind fun drag =>
      ((drag.drop 1).leaves t).get? ⟨0⟩) = some ⟨.compound .add [⟨2⟩, ⟨1⟩], none, ⟨0⟩⟩ := by
    rw [ht]
    cbv
  cases hstart : Drag.start t ⟨[0]⟩ with
  | error e =>
    rw [hstart] at hdone
    cases hdone
  | ok drag =>
    rw [hstart, Except.toOption, Option.bind_some] at hdone
    obtain ⟨shape, a, hshape, ha, hroot⟩ := (value_of_edits m).2 _ t t hparse .refl
    obtain ⟨shape', a', hshape', ha', hroot'⟩ :=
      (value_of_edits m).2 _ t _ hparse (.drop drag 1 .refl)
    -- the grammar gives the text one value
    obtain rfl := hshape.unique hshape'
    rw [ha, Option.some_inj] at ha'
    rw [hroot, Except.ok.injEq, ha'] at hvalue
    rw [hvalue] at hroot'
    exact ⟨m, t, _, drag, hparse, hstart, rfl, hdone, hroot'⟩

end Tree

end FormulaEditor
