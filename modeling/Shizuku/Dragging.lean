import Shizuku.WindowDamage

/-!
Dragging a window by its title bar. While the left button stays down the window follows
the pointer: its place is that of the pointer less the offset at the press, within the
limits of the screen. It does not depend on the way, and nothing else in the window table
changes, so that no cached frame has to be painted again.
-/

namespace Shizuku.Gui

open Machine

def mouseCalls (fbW fbH : Int) (wm : Wm) : List (Int × Int × UInt8) → Outcome Wm
  | [] => .ok wm
  | call :: rest => do
      let next ← wmUpdateMouse fbW fbH wm call.1 call.2.1 call.2.2
      mouseCalls fbW fbH next rest

def pointerAt (start : Int × Int) (calls : List (Int × Int × UInt8)) : Int × Int :=
  (calls.map fun call => (call.1, call.2.1)).getLastD start

theorem and_one (b : UInt8) : b &&& 1 = if b.toNat % 2 = 0 then 0 else 1 := by
  have one : (1 : UInt8).toNat = 1 := rfl
  apply UInt8.toNat_inj.mp
  rw [UInt8.toNat_and, one, Nat.and_one_is_mod]
  rcases Nat.mod_two_eq_zero_or_one b.toNat with even | odd
  · simp [even]
  · simp [odd]

theorem not_and_one (b : UInt8) : ~~~b &&& 1 = if b.toNat % 2 = 0 then 1 else 0 := by
  have byte := b.toNat_lt
  have size : UInt8.size = 256 := rfl
  rw [and_one, UInt8.toNat_not]
  split <;> split <;> first | rfl | omega

theorem pressed_iff (buttons before : UInt8) :
    buttons &&& ~~~before &&& 1 ≠ 0 ↔ buttons &&& 1 ≠ 0 ∧ before &&& 1 = 0 := by
  -- The button counts as pressed only if it was up before.
  rw [UInt8.and_assoc, not_and_one, and_one before]
  split <;> simp

structure SamePlace (after before : GuiWindow) : Prop where
  x : after.x = before.x
  y : after.y = before.y
  w : after.w = before.w
  h : after.h = before.h
  content : after.contentDirty = before.contentDirty

theorem SamePlace.refl (win : GuiWindow) : SamePlace win win := ⟨rfl, rfl, rfl, rfl, rfl⟩

theorem SamePlace.trans {one two three : GuiWindow} (first : SamePlace one two)
    (second : SamePlace two three) : SamePlace one three where
  x := first.x.trans second.x
  y := first.y.trans second.y
  w := first.w.trans second.w
  h := first.h.trans second.h
  content := first.content.trans second.content

theorem setWin_place (wm : Wm) (i : Nat) {win : GuiWindow} (same : SamePlace win (wm.wins i))
    (j : Nat) : SamePlace ((wm.setWin i win).wins j) (wm.wins j) := by
  by_cases here : j = i
  · subst j
    have now : (wm.setWin i win).wins i = win := if_pos rfl
    rw [now]
    exact same
  · have other : (wm.setWin i win).wins j = wm.wins j := if_neg here
    rw [other]
    exact .refl _

theorem dropFocus_place (wm : Wm) (due : Bool) (known : due = true → wm.focusedIdx.toNat < guiMaxWindows) :
    ∃ after, wm.dropFocus due = .ok after ∧ ∀ j, SamePlace (after.wins j) (wm.wins j) := by
  cases due with
  | false => exact ⟨wm, rfl, fun _ => .refl _⟩
  | true =>
      have checked := (index_ok guiMaxWindows wm.focusedIdx.toNat ()).mpr (known rfl)
      refine ⟨_, by simp only [Wm.dropFocus, if_true, checked, ok_bind, pure_ok]; rfl, ?_⟩
      exact setWin_place wm _ ⟨rfl, rfl, rfl, rfl, rfl⟩

theorem takeFocus_place (wm : Wm) (h j : Nat) : SamePlace ((wm.takeFocus h).wins j) (wm.wins j) := by
  unfold Wm.takeFocus
  split
  · exact .refl _
  · have placed : SamePlace { wm.wins h with focused := true, chromeDirty := true } (wm.wins h) :=
      ⟨rfl, rfl, rfl, rfl, rfl⟩
    exact setWin_place wm h placed j

theorem press_title {wm : Wm} (known : wm.focusedIdx < guiMaxWindows) {i : Nat} {mx my : Int}
    (title : my < (wm.wins i).y) :
    ∃ after, wm.press i mx my = .ok after ∧ after.dragWin = i ∧
      after.dragOffx = i32 (mx - (wm.wins i).x) ∧ after.dragOffy = i32 (my - (wm.wins i).y) ∧
      ∀ j, SamePlace (after.wins j) (wm.wins j) := by
  obtain ⟨dropped, done, first⟩ := dropFocus_place wm (decide (0 ≤ wm.focusedIdx ∧ wm.focusedIdx ≠ i))
    fun due => by
      have range := of_decide_eq_true due
      have eight : guiMaxWindows = 8 := rfl
      omega
  have second (j : Nat) : SamePlace (((dropped.setFocus i).takeFocus i).wins j) (wm.wins j) :=
    (takeFocus_place (dropped.setFocus i) i j).trans (first j)
  unfold Wm.press
  rw [done, ok_bind]
  generalize (dropped.setFocus i).takeFocus i = taken at second
  have above : my < (taken.wins i).y := by
    rw [(second i).y]
    exact title
  rw [← (second i).x, ← (second i).y]
  simp only [above, if_true, pure_ok]
  split
  · exact ⟨_, rfl, rfl, rfl, rfl, second⟩
  · exact ⟨_, rfl, rfl, rfl, rfl, second⟩

theorem dragTarget_eq (fbW fbH : Int) (win : GuiWindow) (x y : Int) :
    dragTarget fbW fbH win x y =
      (min (max x (i32 (-win.w + 40))) (i32 (fbW - 40)), min (max y guiTitleH) (i32 (fbH - 20))) := by
  unfold dragTarget
  apply Prod.ext
  · simp only
    split <;> split <;> omega
  · simp only
    split <;> split <;> omega

structure Moved (before : Wm) (i : Nat) (place : Int × Int) (after : Wm) : Prop where
  here : after.wins i = { before.wins i with x := place.1, y := place.2 }
  others : ∀ j, j ≠ i → after.wins j = before.wins j
  focus : after.focusedIdx = before.focusedIdx
  window : after.dragWin = before.dragWin
  offx : after.dragOffx = before.dragOffx
  offy : after.dragOffy = before.dragOffy

theorem drag_moved (fbW fbH : Int) {wm : Wm} {i : Nat} (inside : i < guiMaxWindows)
    (window : wm.dragWin = i) {buttons : UInt8} (down : buttons &&& 1 ≠ 0) (mx my : Int) :
    ∃ after, wm.drag fbW fbH buttons mx my = .ok after ∧
      Moved wm i (dragTarget fbW fbH (wm.wins i) (i32 (mx - wm.dragOffx)) (i32 (my - wm.dragOffy)))
        after := by
  have holding : buttons &&& 1 ≠ 0 ∧ 0 ≤ wm.dragWin := ⟨down, by omega⟩
  have index_ : wm.dragWin.toNat = i := by omega
  have checked := (index_ok guiMaxWindows i ()).mpr inside
  generalize target : dragTarget fbW fbH (wm.wins i) (i32 (mx - wm.dragOffx))
    (i32 (my - wm.dragOffy)) = place
  unfold Wm.drag
  rw [if_pos holding]
  simp only [index_, checked, ok_bind, pure_ok, target]
  refine ⟨_, rfl, ?_⟩
  split
  · refine ⟨if_pos rfl, fun j other => if_neg other, rfl, rfl, rfl, rfl⟩
  · rename_i still
    push Not at still
    refine ⟨?_, fun _ _ => rfl, rfl, rfl, rfl, rfl⟩
    rw [still.1, still.2]

/-- During a drag that `base` started; the pointer was last at `last`. -/
structure Following (fbW fbH : Int) (base : Wm) (i : Nat) (last : Int × Int) (wm : Wm) : Prop where
  held : wm.prevButtons &&& 1 ≠ 0
  window : wm.dragWin = i
  offx : wm.dragOffx = base.dragOffx
  offy : wm.dragOffy = base.dragOffy
  focus : wm.focusedIdx = base.focusedIdx
  others : ∀ j, j ≠ i → wm.wins j = base.wins j
  place : wm.wins i = { base.wins i with
    x := (dragTarget fbW fbH (base.wins i) (i32 (last.1 - base.dragOffx))
      (i32 (last.2 - base.dragOffy))).1
    y := (dragTarget fbW fbH (base.wins i) (i32 (last.1 - base.dragOffx))
      (i32 (last.2 - base.dragOffy))).2 }

theorem Following.step {fbW fbH : Int} {base wm : Wm} {i : Nat} {last : Int × Int}
    (inside : i < guiMaxWindows) (following : Following fbW fbH base i last wm) {buttons : UInt8}
    (down : buttons &&& 1 ≠ 0) (mx my : Int) :
    ∃ after, wmUpdateMouse fbW fbH wm mx my buttons = .ok after ∧
      Following fbW fbH base i (mx, my) after := by
  have quiet : ¬ buttons &&& ~~~wm.prevButtons &&& 1 ≠ 0 := by
    rw [pressed_iff]
    exact fun ⟨_, up⟩ => following.held up
  have ignored : wm.pressOn (hitTest wm.wins mx my) (buttons &&& ~~~wm.prevButtons) mx my = .ok wm := by
    cases hitTest wm.wins mx my with
    | none => rfl
    | some h => exact if_neg quiet
  obtain ⟨after, dragged, moved⟩ := drag_moved fbW fbH inside following.window down mx my
  refine ⟨{ after with prevButtons := buttons }, ?_, ?_⟩
  · simp only [wmUpdateMouse, ignored, ok_bind, down, if_false, dragged, pure_ok]
  · have width : (wm.wins i).w = (base.wins i).w := by rw [following.place]
    refine ⟨down, moved.window.trans following.window, moved.offx.trans following.offx,
      moved.offy.trans following.offy, moved.focus.trans following.focus,
      fun j other => (moved.others j other).trans (following.others j other), ?_⟩
    rw [moved.here, following.offx, following.offy]
    -- The target reads nothing of the window but its width.
    simp only [dragTarget_eq, width]
    rw [following.place]

theorem Following.run {fbW fbH : Int} {base : Wm} {i : Nat} (inside : i < guiMaxWindows)
    (moves : List (Int × Int × UInt8)) (held : ∀ move ∈ moves, move.2.2 &&& 1 ≠ 0) {wm : Wm}
    {last : Int × Int} (following : Following fbW fbH base i last wm) :
    ∃ after, mouseCalls fbW fbH wm moves = .ok after ∧
      Following fbW fbH base i (pointerAt last moves) after := by
  induction moves generalizing wm last with
  | nil => exact ⟨wm, rfl, following⟩
  | cons move moves ih =>
      obtain ⟨next, done, now⟩ :=
        following.step inside (held move List.mem_cons_self) move.1 move.2.1
      obtain ⟨after, later, finally_⟩ := ih (fun m member => held m (List.mem_cons_of_mem _ member)) now
      refine ⟨after, ?_, ?_⟩
      · rw [mouseCalls, done, ok_bind]
        exact later
      · have same : pointerAt last (move :: moves) = pointerAt (move.1, move.2.1) moves := by
          simp only [pointerAt, List.map_cons, List.getLastD_cons]
        rw [same]
        exact finally_

theorem press_following (fbW fbH : Int) {wm : Wm} (known : wm.focusedIdx < guiMaxWindows) {i : Nat}
    {mx my : Int} (hit : hitTest wm.wins mx my = some i) (title : my < (wm.wins i).y)
    {buttons : UInt8} (up : wm.prevButtons &&& 1 = 0) (down : buttons &&& 1 ≠ 0) :
    ∃ base after, wmUpdateMouse fbW fbH wm mx my buttons = .ok after ∧
      Following fbW fbH base i (mx, my) after ∧
      base.dragOffx = i32 (mx - (wm.wins i).x) ∧ base.dragOffy = i32 (my - (wm.wins i).y) ∧
      ∀ j, SamePlace (base.wins j) (wm.wins j) := by
  have inside : i < guiMaxWindows :=
    List.mem_range.mp (List.mem_reverse.mp (List.mem_of_find?_eq_some hit))
  obtain ⟨base, pressed, window, offx, offy, placed⟩ := press_title known title
  have taken : wm.pressOn (hitTest wm.wins mx my) (buttons &&& ~~~wm.prevButtons) mx my = .ok base := by
    rw [hit, ← pressed]
    exact if_pos ((pressed_iff _ _).mpr ⟨down, up⟩)
  obtain ⟨after, dragged, moved⟩ := drag_moved fbW fbH inside window down mx my
  refine ⟨base, { after with prevButtons := buttons }, ?_, ?_, offx, offy, placed⟩
  · simp only [wmUpdateMouse, taken, ok_bind, down, if_false, dragged, pure_ok]
  · exact ⟨down, moved.window.trans window, moved.offx, moved.offy, moved.focus, moved.others,
      moved.here⟩

/-- A drag from the title bar of window `i`, with any further positions of the pointer: the
window ends at the last one less the offset at the press, within the limits of the screen.
After the press no flag and no focus changes, and no other window at all. -/
theorem drag_follows_pointer (fbW fbH : Int) (wm : Wm) (known : wm.focusedIdx < guiMaxWindows)
    (i : Nat) (mx my : Int) (buttons : UInt8) (up : wm.prevButtons &&& 1 = 0)
    (down : buttons &&& 1 ≠ 0) (hit : hitTest wm.wins mx my = some i)
    (title : my < (wm.wins i).y) (moves : List (Int × Int × UInt8))
    (held : ∀ move ∈ moves, move.2.2 &&& 1 ≠ 0) :
    ∃ pressed last, wmUpdateMouse fbW fbH wm mx my buttons = .ok pressed ∧
      mouseCalls fbW fbH pressed moves = .ok last ∧
      (last.wins i).x = min (max (i32 ((pointerAt (mx, my) moves).1 - i32 (mx - (wm.wins i).x)))
        (i32 (-(wm.wins i).w + 40))) (i32 (fbW - 40)) ∧
      (last.wins i).y = min (max (i32 ((pointerAt (mx, my) moves).2 - i32 (my - (wm.wins i).y)))
        guiTitleH) (i32 (fbH - 20)) ∧
      (∀ j, (last.wins j).contentDirty = (pressed.wins j).contentDirty ∧
        (last.wins j).chromeDirty = (pressed.wins j).chromeDirty ∧
        (last.wins j).focused = (pressed.wins j).focused) ∧
      last.focusedIdx = pressed.focusedIdx ∧
      ∀ j, j ≠ i → last.wins j = pressed.wins j ∧ SamePlace (pressed.wins j) (wm.wins j) := by
  have inside : i < guiMaxWindows :=
    List.mem_range.mp (List.mem_reverse.mp (List.mem_of_find?_eq_some hit))
  obtain ⟨base, pressed, done, first, offx, offy, placed⟩ :=
    press_following fbW fbH known hit title up down
  obtain ⟨last, ran, final⟩ := first.run inside moves held
  have width := (placed i).w
  refine ⟨pressed, last, done, ran, ?_, ?_, fun j => ?_, final.focus.trans first.focus.symm,
    fun j other => ?_⟩
  · rw [final.place, ← width, ← offx]
    simp only [dragTarget_eq]
  · rw [final.place, ← offy]
    simp only [dragTarget_eq]
  · by_cases here : j = i
    · rw [here, final.place, first.place]
      exact ⟨rfl, rfl, rfl⟩
    · rw [final.others j here, first.others j here]
      exact ⟨rfl, rfl, rfl⟩
  · rw [final.others j other, first.others j other]
    exact ⟨rfl, placed j⟩

theorem drag_follows_pointer_back :
    ∃ pressed last, wmUpdateMouse 800 600 { emptyDesktop with wins := oneTerminal } 30 10 1 =
        .ok pressed ∧
      mouseCalls 800 600 pressed [(790, 590, 1), (60, 50, 1)] = .ok last ∧
      (last.wins 0).x = 50 ∧ (last.wins 0).y = 61 := by
  have hit : hitTest oneTerminal 30 10 = some 0 := by decide
  obtain ⟨pressed, last, done, ran, x, y, _⟩ := drag_follows_pointer 800 600
    { emptyDesktop with wins := oneTerminal } (by decide) 0 30 10 1 (by decide) (by decide) hit
    (by decide) [(790, 590, 1), (60, 50, 1)] (by decide)
  exact ⟨pressed, last, done, ran, x, y⟩

end Shizuku.Gui
