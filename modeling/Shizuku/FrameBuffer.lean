import Shizuku.DesktopBoot

/-!
The screen at the end of a turn of the compositor, from `init` on and whatever happened in
between: every pixel is what repainting the whole screen would give, all cached frames are
current, and the windows of the terminals show the characters of their rows.
-/

namespace Shizuku.Gui

open Absorption Machine RowMajor Terminals

section Turns
variable {font : Font} {disp : Display} {first : Nat → UInt8} {d : Desktop}

structure Presented (font : Font) (disp : Display) (first : Nat → UInt8) (d : Desktop) : Prop where
  pixels : ∀ px py, OnScreen disp.width disp.height (px, py) →
    Displays disp d.fb px py ((fullRepaint font d.wm.wins d.pointer d.bb).pixels px py)
  current : ∀ i < guiMaxWindows, (d.wm.wins i).used = true → Current font (d.wm.wins i)
  margin : ∀ addr, Margin disp addr → d.fb addr = first addr

theorem Kept.presented (kept : Kept font disp first d) (settled : Settled font d) :
    Presented font disp first (presentDamage font disp d) := by
  have after := kept.present settled
  have regular := kept.upkept.sound.regular
  have wm := presentDamage_wm disp kept.upkept
  obtain ⟨prev, mouse, _, _, _⟩ := presentDamage_rest disp kept.upkept
  have pointer : (presentDamage font disp d).pointer = d.pointer := by
    rw [Desktop.pointer, mouse]
    rfl
  have clean : (presentDamage font disp d).wm.dirty.r = [] := by
    rw [wm]
    rfl
  obtain ⟨size, _, shown, _, margin⟩ := after.showing
  have sized := after.showing.sized after.upkept
  refine ⟨fun px py screen => ?_, fun i inside used => ?_, margin⟩
  · have screen' := screen
    rw [← size.1, ← size.2] at screen'
    rw [fullRepaint_pixels font _ _ _ sized px py screen', pointer, ← settled.still, ← prev]
    exact shown px py screen (by simp [Covered, clean])
  · rw [wm] at used ⊢
    exact settled.current kept.upkept inside used

theorem compose_present {allocated : Bool} {pictures : Nat → Picture} {after : Desktop}
    (last : d.phase = .present)
    (done : deskStep font disp d (.compositor allocated pictures) = .ok ((), after)) :
    after = { presentDamage font disp d with phase := .terminal } := by
  simp only [deskStep, compose, last] at done
  exact (congrArg Prod.snd (Except.ok.inj done)).symm

theorem topAt_last {wins : Windows} {px py : Int} {i : Nat} {colour : UInt32}
    (shown : shownAt (wins i) px py = some colour) (n : Nat) (inside : i < n)
    (above : ∀ j, i < j → j < n → shownAt (wins j) px py = none) :
    topAt wins (List.range n) px py = some colour := by
  induction n with
  | zero => omega
  | succ n ih =>
      rw [topAt, List.range_succ, List.foldl_append, List.foldl_cons, List.foldl_nil]
      by_cases same : i = n
      · rw [← same, shown]
        rfl
      · have before := ih (by omega) fun j later small => above j later (by omega)
        rw [above n (by omega) (by omega), Option.none_or]
        exact before

theorem shownAt_body {win : GuiWindow} (placed : Placed win) (current : Current font win)
    (used : win.used = true) {x y : Int} (inside : InGrid win.w win.h x y) :
    shownAt win (win.x + x) (win.y + y) = some ((win.onPaint.getD win.body) x y) := by
  have footprint := placed.footprint
  obtain ⟨right, bottom⟩ := placed.footprint_plain.ends
  have column : win.x + x - (win.x - 1) = x + frameBx := by
    simp only [frameBx]
    ring
  have row : win.y + y - (win.y - 21) = y + frameBy := by
    simp only [frameBy, guiTitleH]
    ring
  have held : Holds (windowRectScreen win) (win.x + x, win.y + y) := by
    obtain ⟨⟨left, width⟩, top, height⟩ := inside
    rw [Holds, right, bottom, footprint]
    dsimp only
    omega
  rw [shownAt, if_pos ⟨used, held⟩, footprint, column, row, ← current, frame_body placed inside]

theorem Presented.text (presented : Presented font disp first d) (kept : Kept font disp first d) {i : Nat}
    (slot : i < guiMaxWindows) (used : (d.wm.wins i).used = true) (bound : 0 ≤ (d.wm.wins i).vt)
    {x y : Int} (inside : InGrid (d.wm.wins i).w (d.wm.wins i).h x y)
    (screen : OnScreen disp.width disp.height ((d.wm.wins i).x + x, (d.wm.wins i).y + y))
    (bare : cursorAt d.pointer ((d.wm.wins i).x + x) ((d.wm.wins i).y + y) = none)
    (above : ∀ j, i < j → j < guiMaxWindows →
      shownAt (d.wm.wins j) ((d.wm.wins i).x + x) ((d.wm.wins i).y + y) = none) :
    Displays disp d.fb ((d.wm.wins i).x + x) ((d.wm.wins i).y + y)
      (terminalAt font (terminalLine d.vt (d.wm.wins i).vt) x y) := by
  obtain ⟨t, vt, _, _, _, picture, paints, shows⟩ := kept.bound.terminal i slot used bound
  have here := shownAt_body (kept.upkept.sound.placed i) (presented.current i slot used) used inside
  rw [paints, Option.getD_some, shows x y inside, ← vt] at here
  have sized := kept.showing.sized kept.upkept
  have pixel := presented.pixels _ _ screen
  rw [← kept.showing.size.1, ← kept.showing.size.2] at screen
  rw [fullRepaint_pixels font _ _ _ sized _ _ screen, bare, Option.getD_none, sceneAt, windowAt,
    topAt_last here guiMaxWindows slot above, Option.getD_some] at pixel
  exact pixel

end Turns

/-- From `init` on no step panics, in whatever order interrupts, output and the phases of the
compositor come; and after a turn whose last phase is settled every pixel is that of a full
repaint, every cached frame is current, and no byte outside of the pixels was touched. -/
theorem turns_repaint_everything (font : Font) (blank : ∀ row, font space row = 0) (disp : Display)
    (m : Mouse) (across : 0 ≤ m.x ∧ m.x ≤ 2 ^ 30) (down : 0 ≤ m.y ∧ m.y ≤ 2 ^ 30) (pixels : Picture)
    (fb : Nat → UInt8) (demo : Picture) (terminalPages demoPages : Bool) :
    ∃ start, Desktop.init font disp m pixels fb demo terminalPages demoPages = .ok start ∧
    ∀ d, Run (deskStep font disp) (Quiet font) start d →
      (∀ op, Quiet font d op → ∃ after, deskStep font disp d op = .ok ((), after)) ∧
      ∀ allocated pictures after, d.phase = .present → Settled font d →
        deskStep font disp d (.compositor allocated pictures) = .ok ((), after) →
        (∀ px py, OnScreen disp.width disp.height (px, py) →
          Displays disp after.fb px py ((fullRepaint font after.wm.wins after.pointer after.bb).pixels px py)) ∧
        (∀ i < guiMaxWindows, (after.wm.wins i).used = true → Current font (after.wm.wins i)) ∧
        ∀ addr, Margin disp addr → after.fb addr = fb addr := by
  obtain ⟨start, made, kept, _⟩ := init_kept font blank disp across down pixels fb demo terminalPages demoPages
  refine ⟨start, made, fun d run => ?_⟩
  have kept := run_kept blank kept run
  constructor
  · intro op quiet
    obtain ⟨after, stepped, _⟩ := deskStep_kept blank kept op quiet
    exact ⟨after, stepped⟩
  · intro allocated pictures after last settled done
    rw [compose_present last done]
    obtain ⟨shown, current, margin⟩ := kept.presented settled
    exact ⟨shown, current, margin⟩

/-! A screen with 12 unused bytes in each row. After `init` an A, a NUL and a B are written to the terminal. -/

theorem font8x16_blank (row : Nat) : font8x16 space row = 0 := by
  have glyph : font8x16Rows.getD space.toNat 0 = 0 := by decide +kernel
  rw [font8x16, glyph, Nat.zero_shiftRight]
  rfl

def smallDisplay : Display where
  width := 640
  height := 480
  pitch := 2572
  wide := by decide
  tall := by decide
  cells := by decide
  rows := by decide

def restingMouse : Mouse := ⟨640, 400, 0, 0, fun _ => 0⟩

def returned (outcome : Outcome Desktop) : Desktop :=
  match outcome with
  | .ok d => d
  | .error _ => Desktop.boot smallDisplay restingMouse (fun _ _ => 0) fun _ => 7

def firstDesktop : Desktop := returned
  (Desktop.init font8x16 smallDisplay restingMouse (fun _ _ => 0) (fun _ => 7) (fun _ _ => 0) true false)

def firstOps : List DeskOp :=
  [.putc 0 65, .putc 0 0, .putc 0 66] ++ List.replicate 5 (.compositor false fun _ _ _ => 0)

def firstTurn : Desktop :=
  returned ((replay (deskStep font8x16 smallDisplay) firstDesktop firstOps).map Prod.snd)

theorem firstTurn_run :
    Run (deskStep font8x16 smallDisplay) (Quiet font8x16) firstDesktop firstTurn := by
  have permitted : permits (deskStep font8x16 smallDisplay) (fun d _ => d.phase ≠ .present) firstDesktop
      firstOps = true := by decide +kernel
  have returns : (replay (deskStep font8x16 smallDisplay) firstDesktop firstOps).toBool = true := by
    decide +kernel
  cases done : replay (deskStep font8x16 smallDisplay) firstDesktop firstOps with
  | error panic =>
      rw [done] at returns
      cases returns
  | ok result =>
      have run := permits_run _ _ firstOps firstDesktop result.2 result.1 permitted done
      have last : firstTurn = result.2 := by
        rw [firstTurn, done]
        rfl
      rw [last]
      refine Relation.ReflTransGen.mono ?_ _ _ run
      rintro before after ⟨op, ret, early, stepped⟩
      refine ⟨op, ret, ?_, stepped⟩
      cases op with
      | compositor _ _ => exact fun present => absurd present early
      | mouse _ => trivial
      | putc _ _ => trivial
      | functionKey _ => trivial

theorem firstTurn_settled : firstTurn.phase = .present ∧ Settled font8x16 firstTurn := by
  have one : firstTurn.wm.dirty.r = [⟨0, 0, 640, 480⟩] := by decide +kernel
  refine ⟨by decide +kernel, by decide +kernel, by decide +kernel, ?_⟩
  rw [one]
  exact List.pairwise_singleton _ _

theorem turns_repaint_everything_first : ∃ start d after,
    Desktop.init font8x16 smallDisplay restingMouse (fun _ _ => 0) (fun _ => 7) (fun _ _ => 0) true false =
      .ok start ∧ Run (deskStep font8x16 smallDisplay) (Quiet font8x16) start d ∧ d.phase = .present ∧
    Settled font8x16 d ∧
    deskStep font8x16 smallDisplay d (.compositor false fun _ _ _ => 0) = .ok ((), after) ∧
    Displays smallDisplay after.fb 620 50 cWallpaper ∧ after.fb 2565 = 7 := by
  obtain ⟨start, made, all⟩ := turns_repaint_everything font8x16 font8x16_blank smallDisplay restingMouse
    (by decide) (by decide) (fun _ _ => 0) (fun _ => 7) (fun _ _ => 0) true false
  obtain rfl : firstDesktop = start := by rw [firstDesktop, made]; rfl
  obtain ⟨last, settled⟩ := firstTurn_settled
  obtain ⟨returns, turns⟩ := all firstTurn firstTurn_run
  obtain ⟨after, done⟩ := returns (.compositor false fun _ _ _ => 0) fun _ => settled
  obtain ⟨shown, _, margin⟩ := turns false (fun _ _ _ => 0) after last settled done
  refine ⟨firstDesktop, firstTurn, after, made, firstTurn_run, last, settled, done, ?_, ?_⟩
  · have pixel := shown 620 50 (by simp only [OnScreen]; decide)
    have wallpaper : (fullRepaint font8x16 after.wm.wins after.pointer after.bb).pixels 620 50 =
        cWallpaper := by
      rw [compose_present last done]
      decide +kernel
    rwa [wallpaper] at pixel
  · refine margin 2565 fun x y inside => ?_
    obtain ⟨⟨left, right⟩, top, bottom⟩ := inside
    simp only [smallDisplay, place] at right bottom ⊢
    omega

/-- From `init` on, after a turn whose last phase is settled, each pixel in the body of a terminal's
window that nothing hides shows the glyph of the character in its cell of the terminal, up to the
first NUL of the row. -/
theorem turns_show_text (font : Font) (blank : ∀ row, font space row = 0) (disp : Display)
    (m : Mouse) (across : 0 ≤ m.x ∧ m.x ≤ 2 ^ 30) (down : 0 ≤ m.y ∧ m.y ≤ 2 ^ 30) (pixels : Picture)
    (fb : Nat → UInt8) (demo : Picture) (terminalPages demoPages : Bool) :
    ∃ start, Desktop.init font disp m pixels fb demo terminalPages demoPages = .ok start ∧
    ∀ d allocated pictures after, Run (deskStep font disp) (Quiet font) start d →
      d.phase = .present → Settled font d →
      deskStep font disp d (.compositor allocated pictures) = .ok ((), after) →
      ∀ i < guiMaxWindows, (after.wm.wins i).used = true → 0 ≤ (after.wm.wins i).vt →
        ∀ x y, InGrid (after.wm.wins i).w (after.wm.wins i).h x y →
          OnScreen disp.width disp.height ((after.wm.wins i).x + x, (after.wm.wins i).y + y) →
          cursorAt after.pointer ((after.wm.wins i).x + x) ((after.wm.wins i).y + y) = none →
          (∀ j, i < j → j < guiMaxWindows →
            shownAt (after.wm.wins j) ((after.wm.wins i).x + x) ((after.wm.wins i).y + y) = none) →
          Displays disp after.fb ((after.wm.wins i).x + x) ((after.wm.wins i).y + y)
            (terminalAt font (terminalLine after.vt (after.wm.wins i).vt) x y) := by
  obtain ⟨start, made, kept, _⟩ := init_kept font blank disp across down pixels fb demo terminalPages demoPages
  refine ⟨start, made, fun d allocated pictures after run last settled done => ?_⟩
  have kept := run_kept blank kept run
  have presented := kept.presented settled
  have after_ := kept.present settled
  rw [compose_present last done]
  intro i slot used bound x y inside screen bare above
  exact presented.text after_ slot used bound inside screen bare above

def firstShown : Desktop := { presentDamage font8x16 smallDisplay firstTurn with phase := .terminal }

/-- The A shows in the first cell of the terminal, which is at 60, 90. The B is in the third cell, behind
the NUL, and does not show. -/
theorem turns_show_text_letter : ∃ start d after,
    Desktop.init font8x16 smallDisplay restingMouse (fun _ _ => 0) (fun _ => 7) (fun _ _ => 0) true false =
      .ok start ∧ Run (deskStep font8x16 smallDisplay) (Quiet font8x16) start d ∧ d.phase = .present ∧
    Settled font8x16 d ∧
    deskStep font8x16 smallDisplay d (.compositor false fun _ _ _ => 0) = .ok ((), after) ∧
    (terminalLine after.vt (after.wm.wins 0).vt 0).take 3 = [65, 0, 66] ∧
    Displays smallDisplay after.fb 67 96 cTermFg ∧ Displays smallDisplay after.fb 69 96 cTermBg ∧
    glyph font8x16 66 0 2 = true ∧ Displays smallDisplay after.fb 80 96 cTermBg := by
  obtain ⟨start, made, all⟩ := turns_show_text font8x16 font8x16_blank smallDisplay restingMouse
    (by decide) (by decide) (fun _ _ => 0) (fun _ => 7) (fun _ _ => 0) true false
  obtain rfl : firstDesktop = start := by rw [firstDesktop, made]; rfl
  obtain ⟨last, settled⟩ := firstTurn_settled
  have done : deskStep font8x16 smallDisplay firstTurn (.compositor false fun _ _ _ => 0) =
      .ok ((), firstShown) := by
    rw [deskStep, compose, last]
    rfl
  have text := all firstTurn false (fun _ _ _ => 0) firstShown firstTurn_run last settled done 0
    (by decide) (by decide +kernel) (by decide +kernel)
  have alone : ∀ j < guiMaxWindows, 0 < j → (firstShown.wm.wins j).used = false := by decide +kernel
  have hidden : ∀ x y j, 0 < j → j < guiMaxWindows → shownAt (firstShown.wm.wins j) x y = none := by
    intro x y j later inside
    rw [shownAt, alone j inside later]
    rfl
  have place : (firstShown.wm.wins 0).x = 60 ∧ (firstShown.wm.wins 0).y = 90 := by decide +kernel
  have ink : terminalAt font8x16 (terminalLine firstShown.vt (firstShown.wm.wins 0).vt) 7 6 = cTermFg := by
    decide +kernel
  have paper : terminalAt font8x16 (terminalLine firstShown.vt (firstShown.wm.wins 0).vt) 9 6 = cTermBg := by
    decide +kernel
  have ended : terminalAt font8x16 (terminalLine firstShown.vt (firstShown.wm.wins 0).vt) 20 6 = cTermBg := by
    decide +kernel
  simp only [place.1, place.2] at text
  have left := text 7 6 (by unfold InGrid; decide +kernel) (by unfold OnScreen; decide +kernel)
    (by decide +kernel) (hidden _ _)
  have right := text 9 6 (by unfold InGrid; decide +kernel) (by unfold OnScreen; decide +kernel)
    (by decide +kernel) (hidden _ _)
  have third := text 20 6 (by unfold InGrid; decide +kernel) (by unfold OnScreen; decide +kernel)
    (by decide +kernel) (hidden _ _)
  rw [ink] at left
  rw [paper] at right
  rw [ended] at third
  exact ⟨firstDesktop, firstTurn, firstShown, made, firstTurn_run, last, settled, done, by decide +kernel,
    left, right, by decide +kernel, third⟩

end Shizuku.Gui
