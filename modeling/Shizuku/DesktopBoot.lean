import Shizuku.DesktopRuns

/-!
`gui::wm::init`: the first terminal, the animated demo and the self-test of dragging, which
moves the terminal by its title bar through the real input path and puts it back. The self-test
clears the flags of that window after it has changed its focus twice, so its cached frame must
still be the right one. What `init` leaves is the start of every run of the compositor.
-/

namespace Shizuku.Gui

open Absorption Machine RowMajor Terminals

def GuiWindow.empty : GuiWindow where
  title := List.replicate 24 0
  x := 0
  y := 0
  w := 0
  h := 0
  body := fun _ _ => 0
  frame := fun _ _ => 0
  used := false
  focused := false
  contentDirty := false
  chromeDirty := false
  vt := -1
  onPaint := none

/-- The statics, with the hook set and the whole screen damaged. -/
def Desktop.boot (disp : Display) (m : Mouse) (pixels : Picture) (fb : Nat → UInt8) : Desktop where
  wm :=
    { wins := fun _ => .empty
      focusedIdx := -1
      dirty := (DirtyRegion.init (i32 disp.width) (i32 disp.height)).addAll
      prevButtons := 0
      dragWin := -1
      dragOffx := 0
      dragOffy := 0
      routeVt := -1 }
  vt := { Vterms.boot with dirtyHook := true }
  vtWin := fun _ => -1
  animate := fun _ => false
  wantNewTerm := false
  mouse := m
  cursorPrev := (-1, 0)
  bb := ⟨i32 disp.width, i32 disp.height, pixels⟩
  fb := fb
  phase := .terminal

def Desktop.point (d : Desktop) (x y : Int) (buttons : UInt8) : Desktop :=
  { d with mouse := { d.mouse with x := x, y := y, buttons := buttons } }

def Wm.unflag (wm : Wm) (id : Nat) : Wm :=
  wm.setWin id { wm.wins id with chromeDirty := false, contentDirty := false }

def dragMove (disp : Display) (sx sy : Int) (d : Desktop) (step : Int) : Outcome Desktop :=
  let d := d.point (i32 (sx + step * 12)) (i32 (sy + step * 6)) d.mouse.buttons
  Desktop.updateMouse disp { d with wm := { d.wm with dirty := d.wm.dirty.clear } }

/-- The checks of the test decide only what is logged. -/
def dragSelftest (disp : Display) (d : Desktop) (id : Nat) (origX origY : Int) : Outcome Desktop := do
  let sx := i32 (origX + 20)
  let sy := i32 (origY - 10)
  let d ← (d.point sx sy 0).updateMouse disp
  let d ← (d.point sx sy 1).updateMouse disp
  let d ← (Int.range 1 9).foldlM (dragMove disp sx sy) { d with wm := d.wm.unflag id }
  let d ← (d.point d.mouse.x d.mouse.y 0).updateMouse disp
  let wm := (d.wm.setWin id { d.wm.wins id with x := origX, y := origY }).unflag id
  return { d with wm := { wm with dirty := wm.dirty.clear.addAll } }

def terminalTitle : List UInt8 := [116, 101, 114, 109, 105, 110, 97, 108]

def demoTitle : List UInt8 := [100, 101, 109, 111]

/-- `demo` is the first picture of the animated window; the flags say whether there were pages for
the surfaces of the two windows. -/
def Desktop.init (font : Font) (disp : Display) (m : Mouse) (pixels : Picture) (fb : Nat → UInt8)
    (demo : Picture) (terminalPages demoPages : Bool) : Outcome Desktop := do
  let d := Desktop.boot disp m pixels fb
  let vt0 := d.vt.create
  let made ← terminalWindow font { d with vt := vt0.2 } terminalTitle 60 90 vt0.1 terminalPages
  let d := made.2
  let demoMade ← createWindow font d.wm demoTitle 600 200 340 200 (some demo) demoPages
  let d := { d with
    wm := demoMade.2
    animate := fun j => decide (demoMade.1 = j) || d.animate j }
  match made.1 with
  | .ofNat wid => dragSelftest disp d wid 60 90
  | .negSucc _ => .ok d

structure Tested (disp : Display) (id : Nat) (base wm : Wm) : Prop where
  others : ∀ j, j ≠ id → Handled (base.wins j) (wm.wins j)
  window : SameCache (base.wins id) (wm.wins id)
  sound : Sound wm
  indexed : Indexed wm
  bounds : wm.dirty.bw = disp.width ∧ wm.dirty.bh = disp.height

section Selftest
variable {disp : Display} {id : Nat} {base : Wm}

theorem Tested.update {d : Desktop} (tested : Tested disp id base d.wm) (mx my : Int) (buttons : UInt8) :
    ∃ after, wmUpdateMouse (i32 disp.width) (i32 disp.height) d.wm mx my buttons = .ok after ∧
      (d.point mx my buttons).updateMouse disp = .ok { d.point mx my buttons with wm := after } ∧
      Tested disp id base after := by
  obtain ⟨some_, wide⟩ := disp.wide
  obtain ⟨any_, tall⟩ := disp.tall
  rw [Desktop.updateMouse, i32_eq (z := disp.width) (by omega) (by omega),
    i32_eq (z := disp.height) (by omega) (by omega)]
  obtain ⟨after, moved, indexed⟩ := wmUpdateMouse_returns disp.width disp.height mx my buttons
    tested.indexed
  have handles := wmUpdateMouse_handles (by omega) (by omega) moved
  have tracks := wmUpdateMouse_tracks tested.sound.sized moved
  exact ⟨after, moved, (bind_ok _ _ _).mpr ⟨_, moved, rfl⟩,
    fun j other => (tested.others j other).trans (handles.each j),
    tested.window.trans (handles.each id).toSameCache, handles.sound tested.sound, indexed,
    tracks.width.trans tested.bounds.1, tracks.height.trans tested.bounds.2⟩

theorem Tested.clear {wm : Wm} (tested : Tested disp id base wm) :
    Tested disp id base { wm with dirty := wm.dirty.clear } :=
  ⟨tested.others, tested.window, ⟨tested.sound.sized, tested.sound.placed, .clear _⟩, tested.indexed,
    tested.bounds⟩

theorem Tested.set {wm : Wm} (tested : Tested disp id base wm) {win : GuiWindow}
    (same : SameCache (wm.wins id) win) (placed : Placed win) :
    Tested disp id base (wm.setWin id win) where
  others j other := by
    have kept : (wm.setWin id win).wins j = wm.wins j := if_neg other
    rw [kept]
    exact tested.others j other
  window := by
    have here : (wm.setWin id win).wins id = win := if_pos rfl
    rw [here]
    exact tested.window.trans same
  sound := tested.sound.setWin id placed
  indexed := tested.indexed
  bounds := tested.bounds

theorem Tested.unflag {wm : Wm} (tested : Tested disp id base wm) :
    Tested disp id base (wm.unflag id) := by
  obtain ⟨across, down, left, top⟩ := tested.sound.placed id
  exact tested.set ⟨rfl, rfl, rfl, rfl, rfl, rfl, rfl, rfl⟩ ⟨across, down, left, top⟩

end Selftest

section Focus
variable {fbW fbH : Int} {wm after : Wm} {mx my : Int}

theorem drag_focused {buttons : UInt8} (done : wm.drag fbW fbH buttons mx my = .ok after) (j : Nat) :
    (after.wins j).focused = (wm.wins j).focused := by
  unfold Wm.drag at done
  split at done
  · obtain ⟨_, _, rest⟩ := (bind_ok _ _ _).mp done
    rw [← Except.ok.inj rest]
    split
    · simp only [Wm.damageFootprint, Wm.setWin]
      split
      · next same => rw [same]
      · rfl
    · rfl
  · cases done
    rfl

theorem press_focused {h : Nat} (done : wm.press h mx my = .ok after) :
    (after.wins h).focused = true := by
  unfold Wm.press at done
  obtain ⟨middle, dropped, rest⟩ := (bind_ok _ _ _).mp done
  have taken : (((middle.setFocus h).takeFocus h).wins h).focused = true := by
    unfold Wm.takeFocus
    split
    · assumption
    · simp only [Wm.damageFootprint, Wm.setWin, ↓reduceIte]
  generalize (middle.setFocus h).takeFocus h = last at taken rest
  rw [← Except.ok.inj rest]
  split <;> split <;> exact taken

theorem wmUpdateMouse_up (wm : Wm) :
    wmUpdateMouse fbW fbH wm mx my 0 = .ok { wm with dragWin := -1, prevButtons := 0 } := by
  have quiet : wm.pressOn (hitTest wm.wins mx my) (0 &&& ~~~wm.prevButtons) mx my = .ok wm := by
    cases hitTest wm.wins mx my with
    | none => rfl
    | some h => simp [Wm.pressOn]
  rw [wmUpdateMouse, quiet]
  rfl

theorem wmUpdateMouse_press {h : Nat} (hit : hitTest wm.wins mx my = some h) (up : wm.prevButtons = 0)
    (done : wmUpdateMouse fbW fbH wm mx my 1 = .ok after) :
    (after.wins h).focused = true ∧ after.prevButtons = 1 := by
  unfold wmUpdateMouse at done
  obtain ⟨pressed, press, rest⟩ := (bind_ok _ _ _).mp done
  obtain ⟨dragged, drag, last⟩ := (bind_ok _ _ _).mp rest
  cases last
  rw [hit, up] at press
  refine ⟨(drag_focused drag h).trans ?_, rfl⟩
  exact press_focused press

theorem wmUpdateMouse_held (down : wm.prevButtons = 1)
    (done : wmUpdateMouse fbW fbH wm mx my 1 = .ok after) :
    (∀ j, (after.wins j).focused = (wm.wins j).focused) ∧ after.prevButtons = 1 := by
  unfold wmUpdateMouse at done
  obtain ⟨pressed, press, rest⟩ := (bind_ok _ _ _).mp done
  obtain ⟨dragged, drag, last⟩ := (bind_ok _ _ _).mp rest
  cases last
  refine ⟨fun j => (drag_focused drag j).trans ?_, rfl⟩
  have same : pressed = wm := by
    rw [down] at press
    cases hit : hitTest wm.wins mx my with
    | none =>
        rw [hit] at press
        exact (Except.ok.inj press).symm
    | some h =>
        rw [hit] at press
        exact (Except.ok.inj press).symm
  rw [same]
  rfl

end Focus

theorem addAll_covers {d : DirtyRegion} (sized : Sized d.bw d.bh) {pixel : Int × Int}
    (screen : OnScreen d.bw d.bh pixel) : Covered Holds d.addAll.r pixel := by
  obtain ⟨width, height, wide, tall⟩ := sized
  have right : i32 (0 + d.bw) = d.bw := by rw [Int.zero_add]; exact i32_eq (by omega) wide
  have bottom : i32 (0 + d.bh) = d.bh := by rw [Int.zero_add]; exact i32_eq (by omega) tall
  refine ⟨⟨0, 0, d.bw, d.bh⟩, List.mem_singleton_self _, ?_⟩
  simp only [Holds, Rect.right, Rect.bottom, right, bottom]
  exact screen

theorem Showing.whole {font : Font} {disp : Display} {first : Nat → UInt8} {d : Desktop}
    (size : d.bb.w = disp.width ∧ d.bb.h = disp.height) {dirty : DirtyRegion}
    (all : d.wm.dirty = dirty.addAll) (bounds : dirty.bw = disp.width ∧ dirty.bh = disp.height)
    (margin : ∀ addr, Margin disp addr → d.fb addr = first addr) : Showing font disp first d := by
  obtain ⟨some_, wide⟩ := disp.wide
  obtain ⟨any_, tall⟩ := disp.tall
  have sized : Sized dirty.bw dirty.bh := by
    rw [bounds.1, bounds.2]
    constructor <;> omega
  have covered : ∀ px py, OnScreen disp.width disp.height (px, py) →
      Covered Holds d.wm.dirty.r (px, py) := by
    intro px py screen
    rw [all]
    rw [← bounds.1, ← bounds.2] at screen
    exact addAll_covers sized screen
  refine ⟨size, ?_, fun px py screen clean => absurd (covered px py screen) clean,
    fun _ => covered, margin⟩
  rw [all]
  exact bounds

theorem regular_whole (disp : Display) {dirty : DirtyRegion}
    (bounds : dirty.bw = disp.width ∧ dirty.bh = disp.height) : Regular dirty.addAll := by
  obtain ⟨some_, wide⟩ := disp.wide
  obtain ⟨any_, tall⟩ := disp.tall
  apply Regular.addAll
  · rw [bounds.1]
    omega
  · rw [bounds.2]
    omega

structure Dragging (disp : Display) (id : Nat) (base wm : Wm) (m : Mouse) : Prop where
  tested : Tested disp id base wm
  focused : (wm.wins id).focused = true
  down : wm.prevButtons = 1
  held : m.buttons = 1
  across : 0 ≤ m.x ∧ m.x ≤ 2 ^ 30
  vertical : 0 ≤ m.y ∧ m.y ≤ 2 ^ 30

theorem dragMove_dragging {disp : Display} {id : Nat} {base : Wm} {d : Desktop}
    (dragging : Dragging disp id base d.wm d.mouse) {step : Int} (small : 1 ≤ step ∧ step < 9) :
    ∃ wm m, dragMove disp 80 80 d step = .ok { d with wm := wm, mouse := m } ∧
      Dragging disp id base wm m := by
  obtain ⟨tested, focused, down, held, _, _⟩ := dragging
  obtain ⟨after, moved, answer, tested⟩ := Tested.update
    (d := { d with wm := { d.wm with dirty := d.wm.dirty.clear } }) tested.clear
    (i32 (80 + step * 12)) (i32 (80 + step * 6)) 1
  have down : ({ d.wm with dirty := d.wm.dirty.clear } : Wm).prevButtons = 1 := down
  obtain ⟨same, still⟩ := wmUpdateMouse_held down moved
  have x : i32 (80 + step * 12) = 80 + step * 12 := i32_eq (by omega) (by omega)
  have y : i32 (80 + step * 6) = 80 + step * 6 := i32_eq (by omega) (by omega)
  refine ⟨after, { d.mouse with x := i32 (80 + step * 12), y := i32 (80 + step * 6), buttons := 1 },
    ?_, tested, (same id).trans focused, still, rfl, ?_, ?_⟩
  · rw [dragMove, held]
    exact answer
  · simp only [x]
    omega
  · simp only [y]
    omega

theorem dragMoves_dragging {disp : Display} {id : Nat} {base : Wm} (steps : List Int)
    (small : ∀ step ∈ steps, 1 ≤ step ∧ step < 9) {d : Desktop}
    (dragging : Dragging disp id base d.wm d.mouse) :
    ∃ wm m, steps.foldlM (dragMove disp 80 80) d = .ok { d with wm := wm, mouse := m } ∧
      Dragging disp id base wm m := by
  induction steps generalizing d with
  | nil => exact ⟨d.wm, d.mouse, rfl, dragging⟩
  | cons step rest ih =>
      obtain ⟨wm, m, moved, dragging⟩ := dragMove_dragging dragging (small step List.mem_cons_self)
      obtain ⟨last, final, finished, dragging⟩ :=
        ih (fun other member => small other (List.mem_cons_of_mem step member))
          (d := { d with wm := wm, mouse := m }) dragging
      refine ⟨last, final, ?_, dragging⟩
      rw [List.foldlM_cons, moved, ok_bind, finished]

section Boot
variable {font : Font} {disp : Display} {first : Nat → UInt8} {d : Desktop}

theorem Kept.tested (kept : Kept font disp first d) {id : Nat} {wm : Wm}
    (tested : Tested disp id d.wm wm) (current : Current font (wm.wins id)) {m : Mouse}
    (across : 0 ≤ m.x ∧ m.x ≤ 2 ^ 30) (vertical : 0 ≤ m.y ∧ m.y ≤ 2 ^ 30) :
    Kept font disp first
      { d with wm := { wm with dirty := wm.dirty.clear.addAll }, mouse := { m with buttons := 0 } } := by
  obtain ⟨showing, upkept, bound⟩ := kept
  have bounds : wm.dirty.clear.bw = disp.width ∧ wm.dirty.clear.bh = disp.height := tested.bounds
  refine ⟨Showing.whole showing.size rfl bounds showing.margin, ?_, ?_⟩
  · obtain ⟨sound, indexed, ready, prev, pointer, mouse, hook, steady⟩ := upkept
    have sized : Sized wm.dirty.clear.bw wm.dirty.clear.bh := tested.sound.sized
    have damaged : ∀ j, Damaged wm.dirty.clear.addAll (wm.wins j) :=
      fun j pixel screen _ => addAll_covers sized screen
    refine ⟨⟨sized, tested.sound.placed, regular_whole disp bounds⟩, tested.indexed, fun j inside used => ?_,
      prev, ⟨⟨by have := across.1; simp only [Desktop.pointer]; omega, across.2⟩, vertical⟩, across.1, hook,
      steady⟩
    by_cases same : j = id
    · exact .inl (same ▸ current)
    · have handled := tested.others j same
      have before := ready j inside (handled.used.symm.trans used)
      rcases before with current | ⟨flagged, _⟩
      · exact (handled.current (sound.placed j) current).imp_right fun flagged => ⟨.inr flagged, damaged j⟩
      · exact .inr ⟨flagged.imp (fun content => handled.content.trans content) handled.chrome, damaged j⟩
  · refine bound.same (fun j _ => ?_) rfl rfl rfl
    by_cases same : j = id
    · subst same
      exact ⟨tested.window.used, tested.window.vt, fun _ =>
        ⟨tested.window.w, tested.window.h, tested.window.onPaint⟩⟩
    · exact (tested.others j same).binding

/-- The test ends with the window back in its place and current, and everything damaged. -/
theorem Kept.selftest (kept : Kept font disp first d) {id : Nat}
    (hit : hitTest d.wm.wins 80 80 = some id) {win : GuiWindow} (placed : Placed win)
    (current : Current font win) (focus : win.focused = true) (cached : SameCache win (d.wm.wins id)) :
    ∃ after, dragSelftest disp d id 60 90 = .ok after ∧ Kept font disp first after ∧
      after.phase = d.phase := by
  have tested : Tested disp id d.wm d.wm := ⟨fun j _ => .refl _, (Handled.refl _).toSameCache,
    kept.upkept.sound, kept.upkept.indexed, kept.showing.bounds⟩
  -- the first call settles the buttons, the second is the press on the title bar
  obtain ⟨up, settled, one, tested⟩ := tested.update 80 80 0
  obtain rfl : { d.wm with dragWin := -1, prevButtons := 0 } = up :=
    Except.ok.inj ((wmUpdateMouse_up d.wm).symm.trans settled)
  obtain ⟨down, pressed, two, tested⟩ := Tested.update (d := { d.point 80 80 0 with
    wm := { d.wm with dragWin := -1, prevButtons := 0 } }) tested 80 80 1
  have hit : hitTest ({ d.wm with dragWin := -1, prevButtons := 0 } : Wm).wins 80 80 = some id := hit
  obtain ⟨focused, held⟩ := wmUpdateMouse_press hit rfl pressed
  have dragging : Dragging disp id d.wm (down.unflag id) { d.mouse with x := 80, y := 80, buttons := 1 } := by
    have place : (0 : Int) ≤ 80 ∧ (80 : Int) ≤ 2 ^ 30 := by decide
    refine ⟨tested.unflag, ?_, held, rfl, place, place⟩
    simpa only [Wm.unflag, Wm.setWin, ↓reduceIte] using focused
  obtain ⟨last, m, moved, dragging⟩ := dragMoves_dragging (Int.range 1 9)
    (fun step member => Int.mem_range_iff.mp member)
    (d := { d.point 80 80 1 with wm := down.unflag id }) dragging
  obtain ⟨tested, focused, _, _, across, vertical⟩ := dragging
  obtain ⟨final, released, three, tested⟩ := Tested.update
    (d := { d with wm := last, mouse := m }) tested m.x m.y 0
  obtain rfl : { last with dragWin := -1, prevButtons := 0 } = final :=
    Except.ok.inj ((wmUpdateMouse_up last).symm.trans released)
  generalize restored : (({ last with dragWin := -1, prevButtons := 0 } : Wm).setWin id
    { last.wins id with x := 60, y := 90 }).unflag id = wm
  have focused : (wm.wins id).focused = true := by
    rw [← restored]
    simpa only [Wm.unflag, Wm.setWin, ↓reduceIte] using focused
  have tested : Tested disp id d.wm wm := by
    obtain ⟨wide, tall, _, _⟩ := tested.sound.placed id
    have x : Near 60 := by unfold Near; decide
    have y : Near 90 := by unfold Near; decide
    have back : Placed { last.wins id with x := 60, y := 90 } := ⟨wide, tall, x, y⟩
    have same : SameCache (last.wins id) { last.wins id with x := 60, y := 90 } :=
      ⟨rfl, rfl, rfl, rfl, rfl, rfl, rfl, rfl⟩
    rw [← restored]
    exact (tested.set same back).unflag
  have looks := (cached.trans tested.window).current placed (focused.trans focus.symm) current
  refine ⟨_, ?_, kept.tested tested looks across vertical, rfl⟩
  have sx : i32 (60 + 20) = 80 := by decide
  have sy : i32 (90 - 10) = 80 := by decide
  rw [dragSelftest]
  simp only [sx, sy]
  rw [one, ok_bind, two, ok_bind]
  refine (bind_ok _ _ _).mpr ⟨_, moved, (bind_ok _ _ _).mpr ⟨_, three, ?_⟩⟩
  rw [← restored]
  rfl

/-! ### The windows of `init` -/

theorem boot_kept {m : Mouse} (across : 0 ≤ m.x ∧ m.x ≤ 2 ^ 30) (down : 0 ≤ m.y ∧ m.y ≤ 2 ^ 30)
    (pixels : Picture) (fb : Nat → UInt8) : Kept font disp fb (Desktop.boot disp m pixels fb) := by
  obtain ⟨some_, wide⟩ := disp.wide
  obtain ⟨any_, tall⟩ := disp.tall
  have width : i32 disp.width = disp.width := i32_eq (by omega) (by omega)
  have height : i32 disp.height = disp.height := i32_eq (by omega) (by omega)
  have bounds : (DirtyRegion.init (i32 disp.width) (i32 disp.height)).bw = disp.width ∧
      (DirtyRegion.init (i32 disp.width) (i32 disp.height)).bh = disp.height := ⟨width, height⟩
  have empty : Placed GuiWindow.empty := by
    constructor <;> simp only [GuiWindow.empty] <;> decide
  have all : (Desktop.boot disp m pixels fb).wm.dirty =
      (DirtyRegion.init (i32 disp.width) (i32 disp.height)).addAll := rfl
  have size : (Desktop.boot disp m pixels fb).bb.w = disp.width ∧
      (Desktop.boot disp m pixels fb).bb.h = disp.height := ⟨width, height⟩
  have showing : Showing font disp fb (Desktop.boot disp m pixels fb) :=
    Showing.whole size all bounds fun _ _ => rfl
  have sized : Sized disp.width disp.height := by constructor <;> omega
  refine ⟨showing, ?_, ?_⟩
  · exact
      { sound := by
          refine ⟨?_, fun _ => empty, regular_whole disp bounds⟩
          rw [all]
          rwa [← bounds.1, ← bounds.2] at sized
        indexed := ⟨by simp [Desktop.boot, guiMaxWindows], by simp [Desktop.boot, guiMaxWindows]⟩
        ready := fun _ _ used => by cases used
        prev := ⟨by simp [Desktop.boot], by simp [Desktop.boot]⟩
        pointer := ⟨⟨by simp only [Desktop.pointer, Desktop.boot]; omega, across.2⟩, down⟩
        mouse := across.1
        hook := rfl
        steady := fun _ => ⟨Nat.zero_lt_succ 13, Nat.zero_lt_succ 55⟩ }
  · exact
      { terminal := fun _ _ used => by cases used
        animated := fun _ _ animated => by cases animated }

theorem find?_only {Item : Type} {p : Item → Bool} {items : List Item} {one : Item} (member : one ∈ items)
    (hit : p one = true) (only : ∀ other ∈ items, p other = true → other = one) :
    items.find? p = some one := by
  cases found : items.find? p with
  | none => exact absurd hit (List.find?_eq_none.mp found one member)
  | some other => rw [only other (List.mem_of_find?_eq_some found) (List.find?_some found)]

theorem hitTest_terminal {wins : Windows} {id : Nat} (inside : id < guiMaxWindows)
    (used : (wins id).used = true) (x : (wins id).x = 60) (y : (wins id).y = 90)
    (w : (wins id).w = 456) (h : (wins id).h = 232)
    (others : ∀ j, j ≠ id → (wins j).used = true → 80 < (wins j).x) : hitTest wins 80 80 = some id := by
  apply find?_only
  · exact List.mem_reverse.mpr (List.mem_range.mpr inside)
  · rw [used, x, y, w, h]
    decide
  · intro j _ hit
    simp only [Bool.and_eq_true, decide_eq_true_eq] at hit
    by_contra other
    have far := others j other hit.1
    have left := hit.2.1
    omega

theorem Kept.animated (kept : Kept font disp first d) {i : Nat} (used : (d.wm.wins i).used = true)
    (free : (d.wm.wins i).vt < 0) :
    Kept font disp first { d with animate := fun j => decide ((i : Int) = j) || d.animate j } := by
  obtain ⟨showing, upkept, bound⟩ := kept
  refine ⟨showing.tracked (.of_same rfl rfl) rfl rfl rfl,
    upkept.table upkept.sound upkept.indexed upkept.ready rfl rfl rfl, fun i inside used here => ?_,
    fun j inside animated => ?_⟩
  · obtain ⟨t, shows⟩ := bound.terminal i inside used here
    exact ⟨t, shows.same (.refl _) rfl rfl⟩
  simp only [Bool.or_eq_true, decide_eq_true_eq] at animated
  rcases animated with same | before
  · obtain rfl : i = j := by omega
    exact ⟨used, free⟩
  · exact bound.animated j inside before

theorem demo_placed {demo : Option Picture} {win : GuiWindow} (opening : Opening 600 200 340 200 demo win) :
    Placed win := by
  obtain ⟨x, y, w, h, _, _, _, _⟩ := opening
  exact ⟨by omega, by omega, by omega, by omega⟩

theorem Kept.demo (kept : Kept font disp first d) (demo : Picture) (allocated : Bool) :
    ∃ ret wm, createWindow font d.wm demoTitle 600 200 340 200 (some demo) allocated = .ok (ret, wm) ∧
      Kept font disp first { d with wm := wm, animate := fun j => decide (ret = j) || d.animate j } ∧
      ∀ j, (d.wm.wins j).used = true ∧ Handled (d.wm.wins j) (wm.wins j) ∧
          (wm.wins j).x = (d.wm.wins j).x ∧ (wm.wins j).y = (d.wm.wins j).y ∨
        (d.wm.wins j).used = false ∧ ((wm.wins j).used = true → 80 < (wm.wins j).x) := by
  obtain ⟨ret, wm, made, _⟩ := createWindow_returns font d.wm demoTitle 600 200 340 200 (some demo)
    allocated kept.upkept.indexed
  refine ⟨ret, wm, made, ?_⟩
  rcases createWindow_cases made with ⟨rfl, rfl⟩ | ⟨i, rfl, opened⟩
  · have same : (fun j : Nat => decide ((-1 : Int) = j) || d.animate j) = d.animate := by
      funext j
      have apart : ¬ (-1 : Int) = j := by omega
      simp only [apart, decide_false, Bool.false_or]
    rw [same]
    refine ⟨kept, fun j => ?_⟩
    cases used : (d.wm.wins j).used with
    | true => exact .inl ⟨rfl, .refl _, rfl, rfl⟩
    | false => exact .inr ⟨rfl, fun live => absurd live (by simp)⟩
  · have appeared := kept.appear opened (fun win => demo_placed)
      (createWindow_tracks kept.upkept.sound.sized made)
    have free : (wm.wins i).vt < 0 := by
      rw [opened.vt]
      decide
    refine ⟨appeared.animated opened.live free, fun j => ?_⟩
    by_cases same : j = i
    · subst same
      obtain ⟨win, opening, rendered⟩ := opened.window
      refine .inr ⟨opened.free, fun _ => ?_⟩
      have x : (wm.wins j).x = 600 := by
        rw [rendered]
        exact opening.x
      omega
    · have handled := opened.others j same
      cases used : (d.wm.wins j).used with
      | true => exact .inl ⟨rfl, handled, opened.stays j same⟩
      | false => exact .inr ⟨rfl, fun live => absurd live (by simp [handled.used, used])⟩

theorem init_kept (font : Font) (blank : ∀ row, font space row = 0) (disp : Display) {m : Mouse}
    (across : 0 ≤ m.x ∧ m.x ≤ 2 ^ 30) (down : 0 ≤ m.y ∧ m.y ≤ 2 ^ 30) (pixels : Picture)
    (fb : Nat → UInt8) (demo : Picture) (terminalPages demoPages : Bool) :
    ∃ d, Desktop.init font disp m pixels fb demo terminalPages demoPages = .ok d ∧
      Kept font disp fb d ∧ d.phase = .terminal := by
  have boot : Kept font disp fb (Desktop.boot disp m pixels fb) := boot_kept across down pixels fb
  have created : (Desktop.boot disp m pixels fb).vt.create =
      (((0 : Nat) : Int), (Desktop.boot disp m pixels fb).vt.create.2) := rfl
  obtain ⟨kept, _, empty, unshown⟩ := boot.create created
  have near : Near 60 ∧ Near 90 := by
    simp only [Near]
    decide
  obtain ⟨ret, d, made, kept, cases_⟩ := kept.terminalWindow blank terminalTitle near.1 near.2 empty
    unshown terminalPages
  obtain ⟨demoRet, wm, demoMade, keptDemo, windows⟩ := kept.demo demo demoPages
  rcases cases_ with ⟨rfl, rfl⟩ | ⟨wid, before, rfl, rfl, opened⟩
  · refine ⟨_, ?_, keptDemo, rfl⟩
    rw [Desktop.init]
    exact (bind_ok _ _ _).mpr ⟨_, made, (bind_ok _ _ _).mpr ⟨_, demoMade, rfl⟩⟩
  · generalize bound : bindTerminal font { Desktop.boot disp m pixels fb with
      vt := (Desktop.boot disp m pixels fb).vt.create.2, wm := before } wid 0 = d at *
    obtain ⟨fresh, opening, rendered⟩ := opened.window
    have window : d.wm.wins wid =
        (frameRender font fresh).bindTo font (Desktop.boot disp m pixels fb).vt.create.2 0 := by
      rw [← rendered, ← bound]
      exact if_pos rfl
    have alone : ∀ j, j ≠ wid → (d.wm.wins j).used = false := by
      intro j other
      have handled := opened.others j other
      have same : d.wm.wins j = before.wins j := by
        rw [← bound]
        exact if_neg other
      rw [same, handled.used]
      rfl
    have used : (d.wm.wins wid).used = true := by
      rw [window]
      exact opening.used
    have current : Current font (d.wm.wins wid) := by
      refine (kept.upkept.ready wid opened.inside used).resolve_right fun both => ?_
      rw [window] at both
      rcases both.1 with content | chrome
      · cases content
      · cases chrome
    have focused : (d.wm.wins wid).focused = true := by
      rw [window]
      exact opening.focused
    obtain ⟨_, handled, x, y⟩ := (windows wid).resolve_right fun no => by simp [used] at no
    have hit : hitTest wm.wins 80 80 = some wid := by
      apply hitTest_terminal opened.inside (handled.used.trans used)
      · rw [x, window]
        exact opening.x
      · rw [y, window]
        exact opening.y
      · rw [handled.w, window]
        exact opening.w
      · rw [handled.h, window]
        exact opening.h
      · intro j other live
        rcases windows j with ⟨busy, _⟩ | ⟨_, far⟩
        · rw [alone j other] at busy
          cases busy
        · exact far live
    obtain ⟨after, tested, final, phase⟩ := keptDemo.selftest hit (kept.upkept.sound.placed wid) current
      focused handled.toSameCache
    refine ⟨after, ?_, final, phase.trans ?_⟩
    · rw [Desktop.init]
      exact (bind_ok _ _ _).mpr ⟨_, made, (bind_ok _ _ _).mpr ⟨_, demoMade, tested⟩⟩
    · rw [← bound]
      rfl

end Boot

end Shizuku.Gui
