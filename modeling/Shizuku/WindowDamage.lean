import Shizuku.Compositor
import Shizuku.Machine

/-!
The window table of `gui/wm.rs` between two frames. New windows, content changes and
mouse input change the windows and put footprints into the dirty region; the refresh
loop then renders the frame caches that are flagged. No pixel of the composite changes
outside of the dirty region: what a step does to a window is either nothing or covered
before and after.
-/

namespace Shizuku.Gui

open Absorption Machine

def cTitleAct : UInt32 := 0xFF3A6EA5
def cTitleIna : UInt32 := 0xFF555B66
def cTitleTxt : UInt32 := 0xFFFFFFFF
def cBorder : UInt32 := 0xFF0B0F17

def frameRenderChrome (font : Font) (win : GuiWindow) : Surface :=
  let bar := if win.focused then cTitleAct else cTitleIna
  let f := fillRect win.frameSurface ⟨0, 0, i32 (win.w + 2), i32 (win.h + guiTitleH + 2)⟩ cBorder
  let f := fillRect f ⟨frameBx, frameBx, win.w, guiTitleH⟩ bar
  let f := drawString font f (frameBx + 6) (frameBx + 2) win.title cTitleTxt bar
  fillRect f ⟨i32 (frameBx + win.w - 22), frameBx + 4, 12, 12⟩
    (if win.focused then 0xFFC0505D else 0xFF777777)

def frameRender (font : Font) (win : GuiWindow) : GuiWindow :=
  let body := win.onPaint.getD win.body
  { win with
    contentDirty := false
    chromeDirty := false
    body := body
    frame := (blit (frameRenderChrome font win) frameBx frameBy ⟨win.w, win.h, body⟩).pixels }

structure Wm where
  wins : Windows
  focusedIdx : Int
  dirty : DirtyRegion
  prevButtons : UInt8
  dragWin : Int
  dragOffx : Int
  dragOffy : Int
  routeVt : Int

def Wm.setWin (wm : Wm) (i : Nat) (win : GuiWindow) : Wm :=
  { wm with wins := fun j => if j = i then win else wm.wins j }

def Wm.damageFootprint (wm : Wm) (win : GuiWindow) : Wm :=
  { wm with dirty := wm.dirty.add (windowRectScreen win) }

def Wm.setFocus (wm : Wm) (i : Nat) : Wm := { wm with focusedIdx := i }

def Wm.dropFocus (wm : Wm) (due : Bool) : Outcome Wm :=
  if due then do
    let f := wm.focusedIdx.toNat
    index guiMaxWindows f
    let win := { wm.wins f with focused := false, chromeDirty := true }
    return (wm.setWin f win).damageFootprint win
  else .ok wm

def surfacesFit (w h : Int) : Bool :=
  decide (0 < w ∧ 0 < h ∧ 0 < i32 (w + 2) ∧ 0 < i32 (h + guiTitleH + 2))

def copyTitle (old title : List UInt8) : List UInt8 :=
  let tn := min title.length 23
  title.take tn ++ 0 :: old.drop (tn + 1)

def createWindow (font : Font) (wm : Wm) (title : List UInt8) (x y w h : Int)
    (onPaint : Option Picture) (allocated : Bool) : Outcome (Int × Wm) :=
  match (List.range guiMaxWindows).find? fun i => !(wm.wins i).used with
  | none => .ok (-1, wm)
  | some i =>
      if surfacesFit w h ∧ allocated then do
        let win := { wm.wins i with
          body := fun _ _ => 0
          frame := fun _ _ => 0
          title := copyTitle (wm.wins i).title title
          x := x
          y := y
          w := w
          h := h
          used := true
          vt := -1
          onPaint := onPaint }
        let wm := wm.setWin i win
        let wm ← wm.dropFocus (decide (0 ≤ wm.focusedIdx))
        let win := frameRender font { wm.wins i with focused := true }
        return ((i : Int), ((wm.setFocus i).setWin i win).damageFootprint win)
      else .ok (-1, wm)

/-- The caller has changed what the window shows; `content` is the new picture. -/
def markDirty (wm : Wm) (id : Int) (content : Picture) : Wm :=
  if 0 ≤ id ∧ id < guiMaxWindows ∧ (wm.wins id.toNat).used then
    let win := wm.wins id.toNat
    let win := { win with onPaint := win.onPaint.map fun _ => content, contentDirty := true }
    (wm.setWin id.toNat win).damageFootprint win
  else wm

def hitTest (wins : Windows) (mx my : Int) : Option Nat :=
  (List.range guiMaxWindows).reverse.find? fun i => (wins i).used && decide
    ((wins i).x ≤ mx ∧ mx < i32 ((wins i).x + (wins i).w) ∧
      i32 ((wins i).y - guiTitleH) ≤ my ∧ my < i32 ((wins i).y + (wins i).h))

def Wm.takeFocus (wm : Wm) (h : Nat) : Wm :=
  if (wm.wins h).focused then wm
  else
    let win := { wm.wins h with focused := true, chromeDirty := true }
    (wm.setWin h win).damageFootprint win

def Wm.press (wm : Wm) (h : Nat) (mx my : Int) : Outcome Wm := do
  let wm ← wm.dropFocus (decide (0 ≤ wm.focusedIdx ∧ wm.focusedIdx ≠ h))
  let wm := (wm.setFocus h).takeFocus h
  let win := wm.wins h
  let wm := if 0 ≤ win.vt then { wm with routeVt := win.vt } else wm
  return if my < win.y then
      { wm with dragWin := h, dragOffx := i32 (mx - win.x), dragOffy := i32 (my - win.y) }
    else wm

def Wm.pressOn (wm : Wm) (hit : Option Nat) (pressed : UInt8) (mx my : Int) : Outcome Wm :=
  match hit with
  | some h => if pressed &&& 1 ≠ 0 then wm.press h mx my else .ok wm
  | none => .ok wm

def dragTarget (fbW fbH : Int) (win : GuiWindow) (x y : Int) : Int × Int :=
  let x := if x < i32 (-win.w + 40) then i32 (-win.w + 40) else x
  let x := if x > i32 (fbW - 40) then i32 (fbW - 40) else x
  let y := if y < guiTitleH then guiTitleH else y
  let y := if y > i32 (fbH - 20) then i32 (fbH - 20) else y
  (x, y)

def Wm.drag (fbW fbH : Int) (wm : Wm) (buttons : UInt8) (mx my : Int) : Outcome Wm :=
  if buttons &&& 1 ≠ 0 ∧ 0 ≤ wm.dragWin then do
    let d := wm.dragWin.toNat
    index guiMaxWindows d
    let old := wm.wins d
    let place := dragTarget fbW fbH old (i32 (mx - wm.dragOffx)) (i32 (my - wm.dragOffy))
    let win := { old with x := place.1, y := place.2 }
    return if win.x ≠ old.x ∨ win.y ≠ old.y then
        ((wm.setWin d win).damageFootprint old).damageFootprint win
      else wm
  else .ok wm

def wmUpdateMouse (fbW fbH : Int) (wm : Wm) (mx my : Int) (buttons : UInt8) : Outcome Wm := do
  let hit := hitTest wm.wins mx my
  let pressed := buttons &&& ~~~wm.prevButtons
  let wm ← wm.pressOn hit pressed mx my
  let wm := if buttons &&& 1 = 0 then { wm with dragWin := -1 } else wm
  let wm ← wm.drag fbW fbH buttons mx my
  return { wm with prevButtons := buttons }

def refreshWindow (font : Font) (wins : Windows) (i : Nat) : Windows := fun j =>
  if j = i ∧ (wins i).used ∧ ((wins i).contentDirty ∨ (wins i).chromeDirty) then
    frameRender font (wins i)
  else wins j

def refresh (font : Font) (wins : Windows) : Windows :=
  (List.range guiMaxWindows).foldl (refreshWindow font) wins

inductive WmOp where
  | create (title : List UInt8) (x y w h : Int) (onPaint : Option Picture) (allocated : Bool)
  | markDirty (id : Int) (content : Picture)
  | mouse (x y : Int) (buttons : UInt8)

def wmStep (font : Font) (fbW fbH : Int) (wm : Wm) : WmOp → Outcome (Int × Wm)
  | .create title x y w h onPaint allocated => createWindow font wm title x y w h onPaint allocated
  | .markDirty id content => .ok (0, Gui.markDirty wm id content)
  | .mouse x y buttons => do
      let wm ← wmUpdateMouse fbW fbH wm x y buttons
      return (0, wm)

def Damaged (dirty : DirtyRegion) (win : GuiWindow) : Prop :=
  ∀ pixel, OnScreen dirty.bw dirty.bh pixel → Holds (windowRectScreen win) pixel →
    Covered Holds dirty.r pixel

/-- The dirty region grows, and every window is left alone or damaged before and after. -/
structure Tracks (before after : Wm) : Prop where
  width : after.dirty.bw = before.dirty.bw
  height : after.dirty.bh = before.dirty.bh
  grows : ∀ pixel, Covered Holds before.dirty.r pixel → Covered Holds after.dirty.r pixel
  each : ∀ i, after.wins i = before.wins i ∨
    ((before.wins i).used → Damaged after.dirty (before.wins i)) ∧
      ((after.wins i).used → Damaged after.dirty (after.wins i))

theorem Damaged.grow {before after : Wm} (tracks : Tracks before after) {win : GuiWindow}
    (damaged : Damaged before.dirty win) : Damaged after.dirty win := by
  intro pixel screen held
  rw [tracks.width, tracks.height] at screen
  exact tracks.grows pixel (damaged pixel screen held)

theorem Tracks.of_same {before after : Wm} (wins : after.wins = before.wins)
    (dirty : after.dirty = before.dirty) : Tracks before after where
  width := by rw [dirty]
  height := by rw [dirty]
  grows := fun _ covered => dirty ▸ covered
  each := fun _ => .inl (by rw [wins])

theorem Tracks.trans {first middle last : Wm} (one : Tracks first middle)
    (two : Tracks middle last) : Tracks first last where
  width := two.width.trans one.width
  height := two.height.trans one.height
  grows := fun pixel covered => two.grows pixel (one.grows pixel covered)
  each := fun i => by
    rcases one.each i with same | ⟨old, new⟩
    · rw [← same]
      exact two.each i
    · rcases two.each i with same | ⟨_, newest⟩
      · right
        rw [same]
        exact ⟨fun used => (old used).grow two, fun used => (new used).grow two⟩
      · exact .inr ⟨fun used => (old used).grow two, newest⟩

theorem add_damages {dirty : DirtyRegion} (sized : Sized dirty.bw dirty.bh) (win : GuiWindow) :
    Damaged (dirty.add (windowRectScreen win)) win := by
  intro pixel screen held
  rw [(add_bounds dirty _).1, (add_bounds dirty _).2] at screen
  exact add_covers sized held screen

theorem damageFootprint_tracks (wm : Wm) (win : GuiWindow) : Tracks wm (wm.damageFootprint win) where
  width := (add_bounds _ _).1
  height := (add_bounds _ _).2
  grows := fun pixel covered => add_keeps wm.dirty _ pixel covered
  each := fun _ => .inl rfl

theorem change_tracks (wm : Wm) (sized : Sized wm.dirty.bw wm.dirty.bh) (i : Nat) (win : GuiWindow)
    (place : (wm.wins i).used → windowRectScreen (wm.wins i) = windowRectScreen win) :
    Tracks wm ((wm.setWin i win).damageFootprint win) where
  width := (add_bounds _ _).1
  height := (add_bounds _ _).2
  grows := fun pixel covered => add_keeps wm.dirty _ pixel covered
  each := fun j => by
    by_cases same : j = i
    · subst j
      have damaged : Damaged (wm.dirty.add (windowRectScreen win)) win := add_damages sized win
      have now : ((wm.setWin i win).damageFootprint win).wins i = win := if_pos rfl
      right
      rw [now]
      refine ⟨fun used pixel screen held => ?_, fun _ => damaged⟩
      rw [place used] at held
      exact damaged pixel screen held
    · exact .inl (if_neg same)

theorem appear_tracks {wm after : Wm} {i : Nat} {win : GuiWindow}
    (free : (wm.wins i).used = false) (tracks : Tracks (wm.setWin i win) after)
    (damaged : Damaged after.dirty (after.wins i)) : Tracks wm after where
  width := tracks.width
  height := tracks.height
  grows := tracks.grows
  each := fun j => by
    by_cases same : j = i
    · subst j
      refine .inr ⟨fun used => ?_, fun _ => damaged⟩
      rw [free] at used
      cases used
    · have other : (wm.setWin i win).wins j = wm.wins j := if_neg same
      rw [← other]
      exact tracks.each j

theorem move_tracks (wm : Wm) (sized : Sized wm.dirty.bw wm.dirty.bh) (i : Nat) (win : GuiWindow) :
    Tracks wm (((wm.setWin i win).damageFootprint (wm.wins i)).damageFootprint win) where
  width := ((add_bounds _ _).1).trans (add_bounds _ _).1
  height := ((add_bounds _ _).2).trans (add_bounds _ _).2
  grows := fun pixel covered => add_keeps _ _ pixel (add_keeps wm.dirty _ pixel covered)
  each := fun j => by
    by_cases same : j = i
    · subst j
      have now : (((wm.setWin i win).damageFootprint (wm.wins i)).damageFootprint win).wins i = win :=
        if_pos rfl
      have first : Damaged ((wm.setWin i win).damageFootprint (wm.wins i)).dirty (wm.wins i) :=
        add_damages sized (wm.wins i)
      have sized' : Sized (wm.dirty.add (windowRectScreen (wm.wins i))).bw
          (wm.dirty.add (windowRectScreen (wm.wins i))).bh := by
        rw [(add_bounds _ _).1, (add_bounds _ _).2]
        exact sized
      right
      rw [now]
      exact ⟨fun _ => first.grow (damageFootprint_tracks _ win), fun _ => add_damages sized' win⟩
    · exact .inl (if_neg same)

theorem Tracks.sized {before after : Wm} (tracks : Tracks before after)
    (sized : Sized before.dirty.bw before.dirty.bh) : Sized after.dirty.bw after.dirty.bh := by
  rw [tracks.width, tracks.height]
  exact sized

theorem dropFocus_tracks {wm after : Wm} {due : Bool} (sized : Sized wm.dirty.bw wm.dirty.bh)
    (done : wm.dropFocus due = .ok after) : Tracks wm after := by
  unfold Wm.dropFocus at done
  split at done
  · obtain ⟨_, _, rest⟩ := (bind_ok _ _ _).mp done
    cases rest
    exact change_tracks wm sized _ _ fun _ => rfl
  · cases done
    exact .of_same rfl rfl

theorem setFocus_tracks (wm : Wm) (i : Nat) : Tracks wm (wm.setFocus i) :=
  .of_same rfl rfl

theorem takeFocus_tracks (wm : Wm) (sized : Sized wm.dirty.bw wm.dirty.bh) (h : Nat) :
    Tracks wm (wm.takeFocus h) := by
  unfold Wm.takeFocus
  split
  · exact .of_same rfl rfl
  · exact change_tracks wm sized h _ fun _ => rfl

theorem createWindow_tracks {font : Font} {wm after : Wm} {title : List UInt8} {x y w h ret : Int}
    {onPaint : Option Picture} {allocated : Bool} (sized : Sized wm.dirty.bw wm.dirty.bh)
    (done : createWindow font wm title x y w h onPaint allocated = .ok (ret, after)) :
    Tracks wm after := by
  unfold createWindow at done
  split at done
  · cases done
    exact .of_same rfl rfl
  · rename_i i found
    split at done
    · have free : (wm.wins i).used = false := by simpa using List.find?_some found
      obtain ⟨middle, dropped, rest⟩ := (bind_ok _ _ _).mp done
      cases rest
      have first : Tracks (wm.setWin i _) middle := dropFocus_tracks sized dropped
      have second := first.trans (setFocus_tracks middle i)
      have third := change_tracks (middle.setFocus i) (second.sized sized) i
        (frameRender font { middle.wins i with focused := true }) fun _ => rfl
      refine appear_tracks free (second.trans third) ?_
      have now : (((middle.setFocus i).setWin i
          (frameRender font { middle.wins i with focused := true })).damageFootprint
          (frameRender font { middle.wins i with focused := true })).wins i =
          frameRender font { middle.wins i with focused := true } := if_pos rfl
      rw [now]
      exact add_damages (second.sized sized) _
    · cases done
      exact .of_same rfl rfl

theorem markDirty_tracks (wm : Wm) (sized : Sized wm.dirty.bw wm.dirty.bh) (id : Int)
    (content : Picture) : Tracks wm (markDirty wm id content) := by
  unfold markDirty
  split
  · exact change_tracks wm sized _ _ fun _ => rfl
  · exact .of_same rfl rfl

theorem press_tracks {wm after : Wm} {h : Nat} {mx my : Int} (sized : Sized wm.dirty.bw wm.dirty.bh)
    (done : wm.press h mx my = .ok after) : Tracks wm after := by
  unfold Wm.press at done
  obtain ⟨middle, dropped, rest⟩ := (bind_ok _ _ _).mp done
  have first := (dropFocus_tracks sized dropped).trans (setFocus_tracks middle h)
  have second := first.trans (takeFocus_tracks (middle.setFocus h) (first.sized sized) h)
  generalize (middle.setFocus h).takeFocus h = taken at second rest
  have last := Except.ok.inj rest
  rw [← last]
  refine second.trans ?_
  split <;> split <;> exact .of_same rfl rfl

theorem pressOn_tracks {wm after : Wm} {hit : Option Nat} {pressed : UInt8} {mx my : Int}
    (sized : Sized wm.dirty.bw wm.dirty.bh) (done : wm.pressOn hit pressed mx my = .ok after) :
    Tracks wm after := by
  cases hit with
  | none =>
      cases done
      exact .of_same rfl rfl
  | some h =>
      simp only [Wm.pressOn] at done
      split at done
      · exact press_tracks sized done
      · cases done
        exact .of_same rfl rfl

theorem drag_tracks {fbW fbH : Int} {wm after : Wm} {buttons : UInt8} {mx my : Int}
    (sized : Sized wm.dirty.bw wm.dirty.bh) (done : wm.drag fbW fbH buttons mx my = .ok after) :
    Tracks wm after := by
  unfold Wm.drag at done
  split at done
  · obtain ⟨_, _, rest⟩ := (bind_ok _ _ _).mp done
    have last := Except.ok.inj rest
    rw [← last]
    split
    · exact move_tracks wm sized _ _
    · exact .of_same rfl rfl
  · cases done
    exact .of_same rfl rfl

theorem wmUpdateMouse_tracks {fbW fbH : Int} {wm after : Wm} {mx my : Int} {buttons : UInt8}
    (sized : Sized wm.dirty.bw wm.dirty.bh)
    (done : wmUpdateMouse fbW fbH wm mx my buttons = .ok after) : Tracks wm after := by
  unfold wmUpdateMouse at done
  obtain ⟨pressed, press, rest⟩ := (bind_ok _ _ _).mp done
  obtain ⟨dragged, drag, last⟩ := (bind_ok _ _ _).mp rest
  cases last
  have released : Tracks pressed
      (if buttons &&& 1 = 0 then { pressed with dragWin := -1 } else pressed) := by
    split <;> exact .of_same rfl rfl
  have first := (pressOn_tracks sized press).trans released
  exact (first.trans (drag_tracks (first.sized sized) drag)).trans (.of_same rfl rfl)

theorem wmStep_tracks {font : Font} {fbW fbH : Int} {wm after : Wm} {op : WmOp} {ret : Int}
    (sized : Sized wm.dirty.bw wm.dirty.bh) (done : wmStep font fbW fbH wm op = .ok (ret, after)) :
    Tracks wm after := by
  cases op with
  | create title x y w h onPaint allocated => exact createWindow_tracks sized done
  | markDirty id content =>
      cases done
      exact markDirty_tracks wm sized id content
  | mouse x y buttons =>
      obtain ⟨last, moved, rest⟩ := (bind_ok _ _ _).mp done
      cases rest
      exact wmUpdateMouse_tracks sized moved

theorem run_tracks {font : Font} {fbW fbH : Int} {wm last : Wm}
    (sized : Sized wm.dirty.bw wm.dirty.bh)
    (run : Run (wmStep font fbW fbH) (fun _ _ => True) wm last) : Tracks wm last :=
  run_invariant _ _ (Tracks wm) (fun _ _ _ _ before _ done =>
    before.trans (wmStep_tracks (before.sized sized) done)) run (.of_same rfl rfl)

theorem refresh_wins (font : Font) (wins : Windows) (i : Nat) (inside : i < guiMaxWindows) :
    refresh font wins i =
      if (wins i).used ∧ ((wins i).contentDirty ∨ (wins i).chromeDirty) then
        frameRender font (wins i)
      else wins i := by
  have upTo : ∀ n, (List.range n).foldl (refreshWindow font) wins i =
      if i < n ∧ (wins i).used ∧ ((wins i).contentDirty ∨ (wins i).chromeDirty) then
        frameRender font (wins i)
      else wins i := by
    intro n
    induction n with
    | zero => simp
    | succ n ih =>
        rw [List.range_succ, List.foldl_append, List.foldl_cons, List.foldl_nil]
        simp only [refreshWindow]
        by_cases same : i = n
        · subst i
          rw [ih]
          simp
        · have before : i < n + 1 ↔ i < n := by omega
          rw [ih]
          simp only [same, before, false_and, ↓reduceIte]
  unfold refresh
  rw [upTo]
  simp only [inside, true_and]

/-! ### Completeness -/

def Current (font : Font) (win : GuiWindow) : Prop := (frameRender font win).frame = win.frame

theorem shownAt_damaged {dirty : DirtyRegion} {win : GuiWindow} {px py : Int}
    (damaged : win.used → Damaged dirty win) (screen : OnScreen dirty.bw dirty.bh (px, py))
    (clean : ¬ Covered Holds dirty.r (px, py)) : shownAt win px py = none :=
  if_neg fun shown => clean (damaged shown.1 (px, py) screen shown.2)

theorem shownAt_tracks {before after : Wm} (tracks : Tracks before after) {px py : Int}
    (screen : OnScreen after.dirty.bw after.dirty.bh (px, py))
    (clean : ¬ Covered Holds after.dirty.r (px, py)) (i : Nat) :
    shownAt (after.wins i) px py = shownAt (before.wins i) px py := by
  rcases tracks.each i with same | ⟨old, new⟩
  · rw [same]
  · rw [shownAt_damaged old screen clean, shownAt_damaged new screen clean]

theorem shownAt_render (font : Font) (win : GuiWindow) (current : Current font win) (px py : Int) :
    shownAt (frameRender font win) px py = shownAt win px py := by
  have place : windowRectScreen (frameRender font win) = windowRectScreen win := rfl
  have used : (frameRender font win).used = win.used := rfl
  unfold shownAt
  rw [current, place, used]

theorem shownAt_refresh {font : Font} {wm : Wm} {i : Nat} (inside : i < guiMaxWindows)
    (ready : (wm.wins i).used → Current font (wm.wins i) ∨ Damaged wm.dirty (wm.wins i))
    {px py : Int} (screen : OnScreen wm.dirty.bw wm.dirty.bh (px, py))
    (clean : ¬ Covered Holds wm.dirty.r (px, py)) :
    shownAt (refresh font wm.wins i) px py = shownAt (wm.wins i) px py := by
  rw [refresh_wins font wm.wins i inside]
  split
  · rename_i stale
    rcases ready stale.1 with current | damaged
    · exact shownAt_render font _ current px py
    · -- The new frame has the place of the old one.
      have rendered : Damaged wm.dirty (frameRender font (wm.wins i)) := damaged
      rw [shownAt_damaged (fun _ => damaged) screen clean,
        shownAt_damaged (fun _ => rendered) screen clean]
  · rfl

theorem ready_tracks {font : Font} {before after : Wm} (tracks : Tracks before after) {i : Nat}
    (ready : (before.wins i).used → Current font (before.wins i) ∨
      Damaged before.dirty (before.wins i)) (used : (after.wins i).used) :
    Current font (after.wins i) ∨ Damaged after.dirty (after.wins i) := by
  rcases tracks.each i with same | ⟨_, new⟩
  · rw [same] at used ⊢
    exact (ready used).imp_right fun damaged => damaged.grow tracks
  · exact .inr (new used)

theorem topAt_congr {wins others : Windows} {px py : Int} (order : List Nat)
    (same : ∀ i ∈ order, shownAt (wins i) px py = shownAt (others i) px py) :
    topAt wins order px py = topAt others order px py := by
  unfold topAt
  exact List.foldl_ext _ _ _ fun top i member => by rw [same i member]

/-! The indices in the statics are those of windows, so no step panics. -/

def Indexed (wm : Wm) : Prop := wm.focusedIdx < guiMaxWindows ∧ wm.dragWin < guiMaxWindows

theorem slot_inside {i : Int} (small : i < guiMaxWindows) : i.toNat < guiMaxWindows := by
  have size : guiMaxWindows = 8 := rfl
  omega

theorem dropFocus_returns (wm : Wm) (due : Bool) (indexed : Indexed wm) :
    ∃ after, wm.dropFocus due = .ok after ∧ Indexed after := by
  unfold Wm.dropFocus
  split
  · have inside := (index_ok _ _ ()).mpr (slot_inside indexed.1)
    exact ⟨_, (bind_ok _ _ _).mpr ⟨(), inside, rfl⟩, indexed⟩
  · exact ⟨wm, rfl, indexed⟩

theorem createWindow_returns (font : Font) (wm : Wm) (title : List UInt8) (x y w h : Int)
    (onPaint : Option Picture) (allocated : Bool) (indexed : Indexed wm) :
    ∃ ret after, createWindow font wm title x y w h onPaint allocated = .ok (ret, after) ∧
      Indexed after := by
  unfold createWindow
  split
  · exact ⟨_, wm, rfl, indexed⟩
  · rename_i i found
    have inside : i < guiMaxWindows := List.mem_range.mp (List.mem_of_find?_eq_some found)
    split
    · obtain ⟨middle, dropped, kept⟩ := dropFocus_returns (wm.setWin i _)
        (decide (0 ≤ wm.focusedIdx)) indexed
      exact ⟨_, _, (bind_ok _ _ _).mpr ⟨middle, dropped, rfl⟩, Int.ofNat_lt.mpr inside, kept.2⟩
    · exact ⟨_, wm, rfl, indexed⟩

theorem press_returns (wm : Wm) (h : Nat) (mx my : Int) (inside : h < guiMaxWindows)
    (indexed : Indexed wm) : ∃ after, wm.press h mx my = .ok after ∧ Indexed after := by
  obtain ⟨middle, dropped, kept⟩ := dropFocus_returns wm
    (decide (0 ≤ wm.focusedIdx ∧ wm.focusedIdx ≠ h)) indexed
  have taken : Indexed ((middle.setFocus h).takeFocus h) := by
    unfold Wm.takeFocus
    split <;> exact ⟨Int.ofNat_lt.mpr inside, kept.2⟩
  unfold Wm.press
  refine ⟨_, (bind_ok _ _ _).mpr ⟨middle, dropped, rfl⟩, ?_⟩
  generalize (middle.setFocus h).takeFocus h = last at taken
  split <;> split <;> first | exact ⟨taken.1, Int.ofNat_lt.mpr inside⟩ | exact taken

theorem pressOn_returns (wm : Wm) (pressed : UInt8) (mx my : Int) (indexed : Indexed wm) :
    ∃ after, wm.pressOn (hitTest wm.wins mx my) pressed mx my = .ok after ∧ Indexed after := by
  cases found : hitTest wm.wins mx my with
  | none => exact ⟨wm, rfl, indexed⟩
  | some h =>
      have inside : h < guiMaxWindows :=
        List.mem_range.mp (List.mem_reverse.mp (List.mem_of_find?_eq_some found))
      simp only [Wm.pressOn]
      split
      · exact press_returns wm h mx my inside indexed
      · exact ⟨wm, rfl, indexed⟩

theorem drag_returns (fbW fbH : Int) (wm : Wm) (buttons : UInt8) (mx my : Int)
    (indexed : Indexed wm) : ∃ after, wm.drag fbW fbH buttons mx my = .ok after ∧ Indexed after := by
  unfold Wm.drag
  split
  · have inside := (index_ok _ _ ()).mpr (slot_inside indexed.2)
    refine ⟨_, (bind_ok _ _ _).mpr ⟨(), inside, rfl⟩, ?_⟩
    split <;> exact indexed
  · exact ⟨wm, rfl, indexed⟩

theorem wmStep_returns (font : Font) (fbW fbH : Int) (wm : Wm) (op : WmOp) (indexed : Indexed wm) :
    ∃ ret after, wmStep font fbW fbH wm op = .ok (ret, after) ∧ Indexed after := by
  cases op with
  | create title x y w h onPaint allocated =>
      exact createWindow_returns font wm title x y w h onPaint allocated indexed
  | markDirty id content =>
      refine ⟨0, _, rfl, ?_⟩
      unfold markDirty
      split <;> exact indexed
  | mouse x y buttons =>
      obtain ⟨pressed, press, first⟩ := pressOn_returns wm (buttons &&& ~~~wm.prevButtons) x y indexed
      have second : Indexed (if buttons &&& 1 = 0 then { pressed with dragWin := -1 } else pressed) := by
        split
        · exact ⟨first.1, show (-1 : Int) < guiMaxWindows by decide⟩
        · exact first
      obtain ⟨dragged, drag, third⟩ := drag_returns fbW fbH _ buttons x y second
      have updated : wmUpdateMouse fbW fbH wm x y buttons =
          .ok { dragged with prevButtons := buttons } :=
        (bind_ok _ _ _).mpr ⟨pressed, press, (bind_ok _ _ _).mpr ⟨dragged, drag, rfl⟩⟩
      exact ⟨0, _, (bind_ok _ _ _).mpr ⟨_, updated, rfl⟩, third⟩

theorem replay_returns (font : Font) (fbW fbH : Int) (wm : Wm) (ops : List WmOp)
    (indexed : Indexed wm) :
    ∃ rets last, replay (wmStep font fbW fbH) wm ops = .ok (rets, last) := by
  induction ops generalizing wm with
  | nil => exact ⟨[], wm, rfl⟩
  | cons op rest ih =>
      obtain ⟨ret, next, stepped, kept⟩ := wmStep_returns font fbW fbH wm op indexed
      obtain ⟨rets, last, replayed⟩ := ih next kept
      exact ⟨ret :: rets, last, (bind_ok _ _ _).mpr ⟨_, stepped,
        (bind_ok _ _ _).mpr ⟨_, replayed, rfl⟩⟩⟩

/-- From a state whose caches are current or damaged, every sequence of steps returns,
and the refreshed composite differs from the first one in damaged pixels only. -/
theorem damage_complete (font : Font) (bb : Surface) (sized : Sized bb.w bb.h) (wm : Wm)
    (bounds : wm.dirty.bw = bb.w ∧ wm.dirty.bh = bb.h)
    (ready : ∀ i < guiMaxWindows, (wm.wins i).used → Current font (wm.wins i) ∨
      ((wm.wins i).contentDirty ∨ (wm.wins i).chromeDirty) ∧ Damaged wm.dirty (wm.wins i))
    (ops : List WmOp) :
    (Indexed wm → ∃ rets last, replay (wmStep font bb.w bb.h) wm ops = .ok (rets, last)) ∧
    ∀ rets last, replay (wmStep font bb.w bb.h) wm ops = .ok (rets, last) →
      ∀ px py, OnScreen bb.w bb.h (px, py) →
        (composite font (refresh font last.wins) bb).pixels px py ≠
          (composite font wm.wins bb).pixels px py →
        Covered Holds last.dirty.r (px, py) := by
  refine ⟨replay_returns font bb.w bb.h wm ops, ?_⟩
  intro rets last ran px py screen differs
  by_contra clean
  have tracks : Tracks wm last := run_tracks (by rw [bounds.1, bounds.2]; exact sized)
    (replay_run _ _ ops (fun _ _ _ => trivial) wm last rets ran)
  have visible : OnScreen last.dirty.bw last.dirty.bh (px, py) := by
    rw [tracks.width, tracks.height, bounds.1, bounds.2]
    exact screen
  have shown : windowAt (refresh font last.wins) px py = windowAt wm.wins px py := by
    refine topAt_congr _ fun i member => ?_
    have inside := List.mem_range.mp member
    have settled : (last.wins i).used → Current font (last.wins i) ∨
        Damaged last.dirty (last.wins i) :=
      ready_tracks tracks fun used => (ready i inside used).imp_right And.right
    rw [shownAt_refresh inside settled visible clean, shownAt_tracks tracks visible clean]
  apply differs
  rw [(composite_spec font _ bb sized).2 px py screen, (composite_spec font _ bb sized).2 px py screen]
  unfold sceneAt
  rw [shown]

def emptyDesktop : Wm where
  wins := fun _ => { blueTerminal with used := false }
  focusedIdx := -1
  dirty := .init 800 600
  prevButtons := 0
  dragWin := -1
  dragOffx := 0
  dragOffy := 0
  routeVt := -1

theorem damage_complete_drag : ∃ rets last,
    replay (wmStep font8x16 800 600) emptyDesktop
      [.create [100] 100 100 60 30 none true, .mouse 110 95 1, .mouse 140 95 1] = .ok (rets, last) ∧
    Covered Holds last.dirty.r (185, 110) := by
  obtain ⟨returns, complete⟩ := damage_complete font8x16 emptyScreen
    (by constructor <;> decide) emptyDesktop ⟨rfl, rfl⟩ (fun i _ used => by cases used)
    [.create [100] 100 100 60 30 none true, .mouse 110 95 1, .mouse 140 95 1]
  obtain ⟨rets, last, ran⟩ := returns ⟨by decide, by decide⟩
  refine ⟨rets, last, ran, complete rets last ran 185 110 ⟨by decide, by decide⟩ ?_⟩
  have painted : (replay (wmStep font8x16 800 600) emptyDesktop
      [.create [100] 100 100 60 30 none true, .mouse 110 95 1, .mouse 140 95 1]).map (fun result =>
        (composite font8x16 (refresh font8x16 result.2.wins) emptyScreen).pixels 185 110) = .ok 0 := by
    decide +kernel
  obtain ⟨result, done, colour⟩ := (map_ok _ _ _).mp painted
  have same : result = (rets, last) := Except.ok.inj (done.symm.trans ran)
  rw [same] at colour
  rw [colour]
  decide +kernel

end Shizuku.Gui
