/-
An editor that never gets stuck.

Between two actions the path always leads to a node, and while a node is under way the tree
and the path are those that the drag was begun on (`Editor.IsSound`).  So a drop finds the
tree that it expects, and leaves one behind on which the next drag can begin.  All that can
be refused is to pick up the root.

* `Drag.exists_start_push`, `Drag.start_root` — what can be picked up;
* `Drag.exists_drop_of_start` — a drop on the tree that the drag was begun on;
* `Editor.IsSound.step_cases` — what an action does to a sound editor;
* `Editor.run_of_dragging` — what happens while a node is under way;
* `Editor.run_of_parse` — an editor on a formula, after any number of actions.
-/
import FormulaEditor.Proofs.Moving
import FormulaEditor.Proofs.Neighbours
import FormulaEditor.Proofs.Sizing

namespace FormulaEditor

namespace Drag

variable {t : Tree} {drag : Drag} {path : Path} {id : Handle}

/-! ### Single drags -/

/-- The root has no siblings to move among. -/
theorem start_root (h : t.IsTree) : Drag.start t .root = .error .noParent := by
  obtain ⟨node, hget, hnone⟩ := h.root_top
  have harrangements : t.arrangements t.root = .error .noParent := by
    rw [Tree.arrangements, Tree.place?_of_parent_eq_none hget hnone]
    rfl
  rw [start, Tree.nodeAt_root]
  simp only [bind, Except.bind, harrangements]

/-- Every other node can be picked up. -/
theorem exists_start_push (h : t.IsForest) {step : Nat}
    (hpath : t.nodeAt (path.push step) = .ok id) :
    ∃ drag, Drag.start t (path.push step) = .ok drag := by
  obtain ⟨_, _, _, _, _, _, hup, hb, hpart, _⟩ := h.exists_part_of_nodeAt hpath
  exact exists_start hb hup hpart

/-- The node can be put back where it was. -/
theorem isSome_startPosition (h : t.IsForest) (hstart : Drag.start t path = .ok drag) :
    (drag.arrangementAt? drag.startPosition).isSome = true := by
  obtain ⟨_, _, _, _, _, _, hbegun, _⟩ := exists_begunOn h hstart
  rw [isSome_arrangementAt?_iff hbegun.positions]
  exact (List.getElem?_eq_some_iff.mp hbegun.part_eq).1

/-- The closest position is one that is offered. -/
theorem isSome_nearest (h : t.IsForest) (hstart : Drag.start t path = .ok drag) (wanted : Nat) :
    (drag.arrangementAt? (drag.nearest wanted)).isSome = true := by
  obtain ⟨_, _, _, _, parts, _, hbegun, _⟩ := exists_begunOn h hstart
  have hlength : drag.arrangements.length = parts.length := by
    simpa using congrArg List.length hbegun.positions
  have hpos := List.length_pos_of_mem hbegun.mem_parts
  rw [isSome_arrangementAt?_iff hbegun.positions, nearest, hlength]
  omega

/-- A drop on the tree that the drag was begun on.  The new path leads to the node that was
picked up. -/
theorem exists_drop_of_start (ht : t.Obtained) (hstart : Drag.start t path = .ok drag)
    {position : Nat} (hposition : (drag.arrangementAt? position).isSome = true) :
    ∃ path' t', (drag.drop position).run t = .ok path' t' ∧ t'.nodeAt path' = t.nodeAt path ∧
      t'.Obtained ∧ t.Permutes t' := by
  have hforest := ht.isProper.toIsForest
  obtain ⟨place, up, tag, operator, parts, part, h, rfl⟩ := exists_begunOn hforest hstart
  have hlt := (isSome_arrangementAt?_iff h.positions).mp hposition
  obtain ⟨t', _, hrun, _, hmoved, _⟩ := h.exists_move hforest ht.hasOwnTags hlt
  refine ⟨_, t', hrun, ?_, Edit.leaves_of_run hrun ▸ .drop drag position ht,
    (drag.isPermuting_drop position).permutes hforest hrun⟩
  rw [hmoved, h.bears.nodeAt_part h.nodeAt h.part_eq]

end Drag

namespace Editor

variable {editor : Editor} {drag : Drag} {position : Nat}

/-! ### Single actions -/

theorem step_move {direction : Direction} {path : Path} (hdrag : editor.drag = none)
    (hmove : (editor.tree.move direction).run editor.path = .ok () path) :
    editor.step (.move direction) = .ok { editor with path } := by
  obtain ⟨tree, _, _⟩ := editor
  cases hdrag
  simp only [step, hmove]

theorem step_grab (hdrag : editor.drag = none) : editor.step .grab
    = (Drag.start editor.tree editor.path).map fun drag =>
      { editor with drag := some (drag, drag.startPosition) } := by
  obtain ⟨tree, path, _⟩ := editor
  cases hdrag
  simp only [step]
  cases Drag.start tree path with
  | ok => rfl
  | error => rfl

theorem step_drop {path : Path} {t : Tree} (hdrag : editor.drag = some (drag, position))
    (hrun : (drag.drop position).run editor.tree = .ok path t) :
    editor.step .drop = .ok ⟨t, path, none⟩ := by
  obtain ⟨tree, _, _⟩ := editor
  cases hdrag
  simp only [step, hrun]

/-- What is so between two actions. -/
structure IsSound (editor : Editor) : Prop where
  obtained : editor.tree.Obtained
  isNarrow : editor.tree.IsNarrow
  leads : ∃ id, editor.tree.nodeAt editor.path = .ok id
  /-- The drag that is under way was begun on the tree and the path as they are. -/
  begun : ∀ {drag : Drag} {position : Nat}, editor.drag = some (drag, position) →
    Drag.start editor.tree editor.path = .ok drag ∧
      (drag.arrangementAt? position).isSome = true

theorem IsSound.start {t : Tree} (ht : t.Obtained) (hnarrow : t.IsNarrow) :
    (Editor.start t).IsSound :=
  ⟨ht, hnarrow, ⟨t.root, t.nodeAt_root⟩, nofun⟩

namespace IsSound

/-- A drop succeeds, and the node that was picked up stays selected. -/
theorem exists_drop (h : editor.IsSound) (hdrag : editor.drag = some (drag, position)) :
    ∃ dropped, editor.step .drop = .ok dropped ∧ dropped.IsSound ∧ dropped.drag = none ∧
      dropped.tree.nodeAt dropped.path = editor.tree.nodeAt editor.path := by
  obtain ⟨hstart, hposition⟩ := h.begun hdrag
  obtain ⟨path', t', hrun, hmoved, hobtained, hpermutes⟩ :=
    Drag.exists_drop_of_start h.obtained hstart hposition
  obtain ⟨id, hid⟩ := h.leads
  exact ⟨⟨t', path', none⟩, step_drop hdrag hrun,
    ⟨hobtained, hpermutes.isNarrow h.isNarrow, ⟨id, hmoved.trans hid⟩, nofun⟩, rfl, hmoved⟩

/-- The selected node is under way, to a position that is offered. -/
theorem withDrag (h : editor.IsSound) (hstart : Drag.start editor.tree editor.path = .ok drag)
    (hposition : (drag.arrangementAt? position).isSome = true) :
    ({ editor with drag := some (drag, position) } : Editor).IsSound := by
  refine ⟨h.obtained, h.isNarrow, h.leads, ?_⟩
  rintro _ _ ⟨⟩
  exact ⟨hstart, hposition⟩

theorem grab (h : editor.IsSound) (hstart : Drag.start editor.tree editor.path = .ok drag) :
    ({ editor with drag := some (drag, drag.startPosition) } : Editor).IsSound :=
  h.withDrag hstart (Drag.isSome_startPosition h.obtained.isProper.toIsForest hstart)

theorem hover (h : editor.IsSound) (hdrag : editor.drag = some (drag, position)) (wanted : Nat) :
    ({ editor with drag := some (drag, drag.nearest wanted) } : Editor).IsSound := by
  obtain ⟨hstart, _⟩ := h.begun hdrag
  exact h.withDrag hstart (Drag.isSome_nearest h.obtained.isProper.toIsForest hstart wanted)

/-- The root is not picked up. -/
theorem step_grab_root (h : editor.IsSound) (hdrag : editor.drag = none)
    (hpath : editor.path = .root) : editor.step .grab = .error .noParent := by
  rw [step_grab hdrag, hpath, Drag.start_root h.obtained.isProper.toIsTree]
  rfl

/-- Every other action leads to a sound editor again: what makes sense at the time succeeds,
and the rest is passed over. -/
theorem step_cases (h : editor.IsSound) (action : Action) :
    (∃ editor', editor.step action = .ok editor' ∧ editor'.IsSound) ∨
      (action = .grab ∧ editor.drag = none ∧ editor.path = .root) := by
  have hproper := h.obtained.isProper
  obtain ⟨tree, path, _ | ⟨drag, position⟩⟩ := editor
  · -- nothing is under way
    obtain ⟨id, hid⟩ := h.leads
    cases action with
    | move direction =>
      obtain ⟨path', id', hmove, hid'⟩ := hproper.toIsTree.exists_move h.isNarrow hid direction
      exact .inl ⟨_, step_move rfl hmove, h.obtained, h.isNarrow, ⟨id', hid'⟩, nofun⟩
    | grab =>
      induction path with
      | root => exact .inr ⟨rfl, rfl, rfl⟩
      | push path step _ =>
        obtain ⟨drag, hstart⟩ := Drag.exists_start_push hproper.toIsForest hid
        exact .inl ⟨_, by rw [step_grab rfl, hstart]; rfl, h.grab hstart⟩
    | hover | cancel | drop => exact .inl ⟨_, rfl, h⟩
  · -- a node is under way
    cases action with
    | hover wanted => exact .inl ⟨_, rfl, h.hover rfl wanted⟩
    | cancel => exact .inl ⟨_, rfl, h.obtained, h.isNarrow, h.leads, nofun⟩
    | drop =>
      obtain ⟨dropped, hdrop, hsound, _⟩ := h.exists_drop rfl
      exact .inl ⟨dropped, hdrop, hsound⟩
    | move | grab => exact .inl ⟨_, rfl, h⟩

/-- All that is refused is to pick up the root. -/
theorem step_eq_error_iff (h : editor.IsSound) {action : Action} {cause : EditError} :
    editor.step action = .error cause ↔
      action = .grab ∧ editor.drag = none ∧ editor.path = .root ∧ cause = .noParent := by
  constructor
  · intro herror
    rcases h.step_cases action with ⟨editor', hstep, _⟩ | ⟨rfl, hdrag, hpath⟩
    · rw [hstep] at herror
      cases herror
    · rw [h.step_grab_root hdrag hpath, Except.error.injEq] at herror
      exact ⟨rfl, hdrag, hpath, herror.symm⟩
  · rintro ⟨rfl, hdrag, hpath, rfl⟩
    exact h.step_grab_root hdrag hpath

/-! ### Runs -/

theorem act (h : editor.IsSound) (action : Action) : (editor.act action).IsSound := by
  rw [Editor.act]
  rcases h.step_cases action with ⟨editor', hstep, hsound⟩ | ⟨rfl, hdrag, hpath⟩
  · rw [hstep]
    exact hsound
  · rw [h.step_grab_root hdrag hpath]
    exact h

/-- The run lemma: an editor stays sound, whatever is done with it. -/
theorem run (h : editor.IsSound) (actions : List Action) : (editor.run actions).IsSound := by
  induction actions generalizing editor with
  | nil => exact h
  | cons action actions ih => exact ih (h.act action)

end IsSound

/-- As long as the node is neither put back nor dropped, only the position changes. -/
theorem run_of_dragging {actions : List Action} (hcancel : .cancel ∉ actions)
    (hdrop : .drop ∉ actions) (hdrag : editor.drag = some (drag, position)) :
    ∃ position', editor.run actions = { editor with drag := some (drag, position') } := by
  induction actions generalizing editor position with
  | nil => exact ⟨position, by rw [← hdrag]; rfl⟩
  | cons action actions ih =>
    rw [List.mem_cons, not_or] at hcancel hdrop
    obtain ⟨tree, path, _⟩ := editor
    obtain rfl : _ = some (drag, position) := hdrag
    cases action with
    | move | grab => exact ih hcancel.2 hdrop.2 rfl
    | hover wanted => exact ih hcancel.2 hdrop.2 rfl
    | cancel => exact absurd rfl hcancel.1
    | drop => exact absurd rfl hdrop.1

/-- From the time when a node is picked up to the time when it is dropped, the tree and the
path are what they were. -/
theorem IsSound.exists_drop_run (h : editor.IsSound) {grabbed : Editor} {during : List Action}
    (hdrag : editor.drag = none) (hgrab : editor.step .grab = .ok grabbed)
    (hcancel : .cancel ∉ during) (hdrop : .drop ∉ during) :
    ∃ dropped, (grabbed.run during).step .drop = .ok dropped ∧ dropped.drag = none ∧
      dropped.tree.nodeAt dropped.path = editor.tree.nodeAt editor.path := by
  rw [step_grab hdrag] at hgrab
  cases hstart : Drag.start editor.tree editor.path with
  | error cause =>
    rw [hstart] at hgrab
    cases hgrab
  | ok drag =>
    rw [hstart] at hgrab
    cases hgrab
    have hpicked : ({ editor with drag := some (drag, drag.startPosition) } : Editor).drag
        = some (drag, drag.startPosition) := rfl
    obtain ⟨position, hrun⟩ := run_of_dragging hcancel hdrop hpicked
    obtain ⟨dropped, hstep, _, hnone, hsame⟩ :=
      ((h.grab hstart).run during).exists_drop (congrArg Editor.drag hrun)
    rw [hrun] at hsame
    exact ⟨dropped, hstep, hnone, hsame⟩

/-- An editor that was started on a formula, after any number of actions.  The path leads to
a node.  No action fails, except that the root cannot be picked up.  And if the selected
node is picked up, then whatever happens until it is dropped, the drop succeeds and the
same node is selected afterwards. -/
theorem run_of_parse {text : String} {t : Tree} (hsize : text.utf8ByteSize < 2 ^ 63)
    (hparse : parse text = .ok t) (actions : List Action)
    (hrun : (Editor.start t).run actions = editor) :
    (∃ id node, editor.tree.nodeAt editor.path = .ok id ∧
      editor.tree.get? id = some node) ∧
    (∀ action cause, editor.step action = .error cause ↔
      action = .grab ∧ editor.drag = none ∧ editor.path = .root ∧ cause = .noParent) ∧
    ∀ grabbed during, editor.drag = none → editor.step .grab = .ok grabbed →
      .cancel ∉ during → .drop ∉ during →
      ∃ dropped, (grabbed.run during).step .drop = .ok dropped ∧ dropped.drag = none ∧
        dropped.tree.nodeAt dropped.path = editor.tree.nodeAt editor.path := by
  have hnarrow : t.IsNarrow := by
    intro id node hget
    have hle := Tree.length_children_le_of_parse hparse hget
    rw [Path.stepRange]
    omega
  have h : editor.IsSound := hrun ▸ (IsSound.start (.parse hparse) hnarrow).run actions
  refine ⟨?_, fun _ _ => h.step_eq_error_iff, fun _ _ => h.exists_drop_run⟩
  obtain ⟨id, hid⟩ := h.leads
  obtain ⟨node, hget⟩ := h.obtained.isProper.toIsTree.exists_get hid
  exact ⟨id, node, hid, hget⟩

/-- In a sum of two terms the first one is selected, picked up and dropped far to the
right. -/
theorem run_of_parse_sum : ∃ (t : Tree) (grabbed dropped : Editor), parse "a+b" = .ok t ∧
    ((Editor.start t).run [.move .down]).step .grab = .ok grabbed ∧
    (grabbed.run [.hover 7]).step .drop = .ok dropped ∧ dropped.path = ⟨[1]⟩ ∧
    dropped.tree.nodeAt dropped.path = .ok ⟨1⟩ := by
  obtain ⟨t, _, hparse, _, ht, _⟩ := Tree.exists_sum_swapped
  have hrun : (Editor.start t).run [.move .down] = ⟨t, ⟨[0]⟩, none⟩ := by
    rw [ht]
    cbv
  have hpath : ((Editor.run ⟨t, ⟨[0]⟩, none⟩ [.grab, .hover 7]).step .drop).toOption.map (·.path)
      = some ⟨[1]⟩ := by
    rw [ht]
    cbv
  obtain ⟨_, hfails, hdrops⟩ := run_of_parse (by decide) hparse _ hrun
  cases hgrab : step ⟨t, ⟨[0]⟩, none⟩ .grab with
  | error cause =>
    obtain ⟨_, _, hroot, _⟩ := (hfails .grab cause).mp hgrab
    cases hroot
  | ok grabbed =>
    obtain ⟨dropped, hdrop, _, hsame⟩ :=
      hdrops grabbed [.hover 7] rfl hgrab (by decide) (by decide)
    have hact : Editor.run ⟨t, ⟨[0]⟩, none⟩ [.grab, .hover 7] = grabbed.run [.hover 7] := by
      simp only [run, List.foldl_cons, act, hgrab]
    rw [hact, hdrop] at hpath
    refine ⟨t, grabbed, dropped, hparse, hrun ▸ hgrab, hdrop, Option.some_inj.mp hpath, ?_⟩
    rw [hsame, ht]
    rfl

end Editor

end FormulaEditor
