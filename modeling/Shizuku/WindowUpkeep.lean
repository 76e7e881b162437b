import Shizuku.Dragging
import Shizuku.TerminalPixels

/-!
What the window manager does to a single window. Input moves windows and passes the focus
on; apart from that a window stays what it is, and a change of the focus is flagged. All
windows stay around the screen, so their footprints are rectangles that the dirty region
keeps apart and within its bounds.
-/

namespace Shizuku.Gui

open Absorption Machine RowMajor

structure SameCache (before after : GuiWindow) : Prop where
  title : after.title = before.title
  w : after.w = before.w
  h : after.h = before.h
  body : after.body = before.body
  frame : after.frame = before.frame
  used : after.used = before.used
  vt : after.vt = before.vt
  onPaint : after.onPaint = before.onPaint

theorem SameCache.trans {one two three : GuiWindow} (first : SameCache one two)
    (second : SameCache two three) : SameCache one three where
  title := second.title.trans first.title
  w := second.w.trans first.w
  h := second.h.trans first.h
  body := second.body.trans first.body
  frame := second.frame.trans first.frame
  used := second.used.trans first.used
  vt := second.vt.trans first.vt
  onPaint := second.onPaint.trans first.onPaint

theorem SameCache.current {font : Font} {before after : GuiWindow} (placed : Placed before)
    (same : SameCache before after) (focused : after.focused = before.focused)
    (current : Current font before) : Current font after := by
  refine Alike.current placed ⟨same.title, same.w, same.h, focused, same.frame, fun x y _ => ?_⟩ current
  rw [same.onPaint, same.body]

structure Handled (before after : GuiWindow) : Prop extends SameCache before after where
  content : after.contentDirty = before.contentDirty
  chrome : before.chromeDirty = true → after.chromeDirty = true
  focus : after.focused = before.focused ∨ after.chromeDirty = true

theorem Handled.refl (win : GuiWindow) : Handled win win :=
  ⟨⟨rfl, rfl, rfl, rfl, rfl, rfl, rfl, rfl⟩, rfl, id, .inl rfl⟩

theorem Handled.trans {one two three : GuiWindow} (first : Handled one two)
    (second : Handled two three) : Handled one three where
  toSameCache := first.toSameCache.trans second.toSameCache
  content := second.content.trans first.content
  chrome := fun flagged => second.chrome (first.chrome flagged)
  focus := by
    rcases second.focus with kept | flagged
    · rcases first.focus with same | flagged
      · exact .inl (kept.trans same)
      · exact .inr (second.chrome flagged)
    · exact .inr flagged

/-- The cached frame is what rendering would give, or it will be rendered and painted. -/
def Ready (font : Font) (dirty : DirtyRegion) (win : GuiWindow) : Prop :=
  win.used = true → Current font win ∨
    (win.contentDirty = true ∨ win.chromeDirty = true) ∧ Damaged dirty win

theorem Handled.current {font : Font} {before after : GuiWindow} (placed : Placed before)
    (handled : Handled before after) (current : Current font before) :
    Current font after ∨ after.chromeDirty = true :=
  handled.focus.imp_left fun same => handled.toSameCache.current placed same current

def Regular (d : DirtyRegion) : Prop := ∃ added, Collected d added

theorem Regular.add {d : DirtyRegion} (sized : Sized d.bw d.bh) (regular : Regular d) {r : Rect}
    (plain : Plain r) : Regular (d.add r) := by
  obtain ⟨added, collected⟩ := regular
  exact ⟨_, add_collected sized plain collected⟩

theorem Regular.clear (d : DirtyRegion) : Regular d.clear :=
  ⟨[], ⟨.nil _, fun _ member => absurd member List.not_mem_nil⟩⟩

theorem Regular.addAll {d : DirtyRegion} (wide : 0 < d.bw ∧ d.bw < 2 ^ 31)
    (tall : 0 < d.bh ∧ d.bh < 2 ^ 31) : Regular d.addAll := by
  let whole : Rect := ⟨0, 0, d.bw, d.bh⟩
  have ends : whole.right = d.bw ∧ whole.bottom = d.bh := by
    simp only [Rect.right, Rect.bottom, Int.zero_add, whole]
    exact ⟨i32_eq (by omega) (by omega), i32_eq (by omega) (by omega)⟩
  have clipped : d.addAll.clip whole = some whole := by
    simp only [DirtyRegion.clip, DirtyRegion.addAll, ends.1, ends.2, min_self]
    simp only [whole, max_self, Int.sub_zero]
    rw [i32_eq (by omega) (by omega), i32_eq (by omega) (by omega), if_pos ⟨wide.1, tall.1⟩]
  have few : d.addAll.r.length ≤ dirtyMaxRects := Nat.le_add_left 1 15
  refine ⟨[whole], ⟨few, ?_, List.pairwise_singleton _ _⟩, ?_⟩
  · intro r member
    rw [List.mem_singleton.mp member]
    refine ⟨⟨⟨le_refl 0, wide.1, ?_⟩, le_refl 0, tall.1, ?_⟩, Boxed.self ?_⟩
    · exact (Int.zero_add _).le
    · exact (Int.zero_add _).le
    · simp [clipped, whole]
  · intro r member pixel held _
    rw [List.mem_singleton.mp member] at held
    exact ⟨whole, List.mem_singleton_self _, held⟩

section Region
variable {d : DirtyRegion} (regular : Regular d)
include regular

theorem Regular.bounded : d.r.length ≤ dirtyMaxRects := by
  obtain ⟨_, collected⟩ := regular
  exact collected.gathered.bounded

theorem Regular.inBounds {r : Rect} (member : r ∈ d.r) : InBounds d.bw d.bh r := by
  obtain ⟨_, collected⟩ := regular
  exact (collected.gathered.sound r member).1

theorem Regular.disjoint : d.r.Pairwise fun a b => ∀ pixel, ¬ (Holds a pixel ∧ Holds b pixel) := by
  obtain ⟨_, collected⟩ := regular
  exact collected.gathered.apart.imp fun apart => disjoint_of_apart apart

end Region

structure Sound (wm : Wm) : Prop where
  sized : Sized wm.dirty.bw wm.dirty.bh
  placed : ∀ j, Placed (wm.wins j)
  regular : Regular wm.dirty

theorem Sound.setWin {wm : Wm} (sound : Sound wm) (i : Nat) {win : GuiWindow} (placed : Placed win) :
    Sound (wm.setWin i win) where
  sized := sound.sized
  regular := sound.regular
  placed := fun j => by
    by_cases same : j = i
    · simpa only [Wm.setWin, same, ↓reduceIte] using placed
    · simpa only [Wm.setWin, same, ↓reduceIte] using sound.placed j

theorem Sound.damage {wm : Wm} (sound : Sound wm) {win : GuiWindow} (placed : Placed win) :
    Sound (wm.damageFootprint win) where
  sized := by
    obtain ⟨width, height⟩ := add_bounds wm.dirty (windowRectScreen win)
    simp only [Wm.damageFootprint, width, height]
    exact sound.sized
  regular := sound.regular.add sound.sized placed.footprint_plain
  placed := sound.placed

theorem Sound.of_same {before after : Wm} (sound : Sound before) (wins : after.wins = before.wins)
    (dirty : after.dirty = before.dirty) : Sound after where
  sized := by rw [dirty]; exact sound.sized
  placed := by rw [wins]; exact sound.placed
  regular := by rw [dirty]; exact sound.regular

structure Handles (before after : Wm) : Prop where
  each : ∀ j, Handled (before.wins j) (after.wins j)
  sound : Sound before → Sound after

theorem Handles.of_same {before after : Wm} (wins : after.wins = before.wins)
    (dirty : after.dirty = before.dirty) : Handles before after where
  each := fun j => by
    rw [wins]
    exact .refl _
  sound := fun sound => sound.of_same wins dirty

theorem Handles.trans {first middle last : Wm} (one : Handles first middle)
    (two : Handles middle last) : Handles first last :=
  ⟨fun j => (one.each j).trans (two.each j), fun sound => two.sound (one.sound sound)⟩

theorem setWin_handled (wm : Wm) {i : Nat} {win : GuiWindow} (handled : Handled (wm.wins i) win)
    (j : Nat) : Handled (wm.wins j) ((wm.setWin i win).wins j) := by
  by_cases same : j = i
  · subst same
    simpa only [Wm.setWin, ↓reduceIte] using handled
  · simpa only [Wm.setWin, same, ↓reduceIte] using Handled.refl _

theorem change_handles (wm : Wm) (i : Nat) {win : GuiWindow} (handled : Handled (wm.wins i) win)
    (place : win.x = (wm.wins i).x ∧ win.y = (wm.wins i).y) :
    Handles wm ((wm.setWin i win).damageFootprint win) where
  each := setWin_handled wm handled
  sound := fun sound => by
    obtain ⟨wide, tall, across, down⟩ := sound.placed i
    have placed : Placed win := by
      rw [← handled.w] at wide
      rw [← handled.h] at tall
      rw [← place.1] at across
      rw [← place.2] at down
      exact ⟨wide, tall, across, down⟩
    exact (sound.setWin i placed).damage placed

theorem dropFocus_handles {wm after : Wm} {due : Bool} (done : wm.dropFocus due = .ok after) :
    Handles wm after := by
  unfold Wm.dropFocus at done
  split at done
  · obtain ⟨_, _, rest⟩ := (bind_ok _ _ _).mp done
    cases rest
    exact change_handles wm _ ⟨⟨rfl, rfl, rfl, rfl, rfl, rfl, rfl, rfl⟩, rfl, fun _ => rfl, .inr rfl⟩
      ⟨rfl, rfl⟩
  · cases done
    exact .of_same rfl rfl

theorem takeFocus_handles (wm : Wm) (h : Nat) : Handles wm (wm.takeFocus h) := by
  unfold Wm.takeFocus
  split
  · exact .of_same rfl rfl
  · exact change_handles wm h ⟨⟨rfl, rfl, rfl, rfl, rfl, rfl, rfl, rfl⟩, rfl, fun _ => rfl, .inr rfl⟩
      ⟨rfl, rfl⟩

theorem press_handles {wm after : Wm} {h : Nat} {mx my : Int}
    (done : wm.press h mx my = .ok after) : Handles wm after := by
  unfold Wm.press at done
  obtain ⟨middle, dropped, rest⟩ := (bind_ok _ _ _).mp done
  have focused : Handles middle (middle.setFocus h) := .of_same rfl rfl
  have taken := ((dropFocus_handles dropped).trans focused).trans
    (takeFocus_handles (middle.setFocus h) h)
  generalize (middle.setFocus h).takeFocus h = last at taken rest
  rw [← Except.ok.inj rest]
  refine taken.trans ?_
  split <;> split <;> exact .of_same rfl rfl

theorem pressOn_handles {wm after : Wm} {hit : Option Nat} {pressed : UInt8} {mx my : Int}
    (done : wm.pressOn hit pressed mx my = .ok after) : Handles wm after := by
  cases hit with
  | none =>
      cases done
      exact .of_same rfl rfl
  | some h =>
      simp only [Wm.pressOn] at done
      split at done
      · exact press_handles done
      · cases done
        exact .of_same rfl rfl

section Mouse
variable {fbW fbH : Int} (wide : 0 < fbW ∧ fbW < 2 ^ 30) (tall : 0 < fbH ∧ fbH < 2 ^ 30)
include wide tall

theorem dragTarget_placed {win : GuiWindow} (placed : Placed win) (x y : Int) :
    Placed { win with x := (dragTarget fbW fbH win x y).1, y := (dragTarget fbW fbH win x y).2 } := by
  obtain ⟨width, height, across, down⟩ := placed
  refine ⟨width, height, ?_, ?_⟩
  · simp only [dragTarget_eq]
    rw [i32_eq (by omega) (by omega), i32_eq (by omega) (by omega)]
    omega
  · simp only [dragTarget_eq, guiTitleH]
    rw [i32_eq (show -2 ^ 31 ≤ fbH - 20 by omega) (by omega)]
    omega

theorem drag_handles {wm after : Wm} {buttons : UInt8} {mx my : Int}
    (done : wm.drag fbW fbH buttons mx my = .ok after) : Handles wm after := by
  unfold Wm.drag at done
  split at done
  · obtain ⟨_, _, rest⟩ := (bind_ok _ _ _).mp done
    rw [← Except.ok.inj rest]
    split
    · refine ⟨setWin_handled wm
        ⟨⟨rfl, rfl, rfl, rfl, rfl, rfl, rfl, rfl⟩, rfl, id, .inl rfl⟩, fun sound => ?_⟩
      have placed := dragTarget_placed wide tall (sound.placed wm.dragWin.toNat)
        (i32 (mx - wm.dragOffx)) (i32 (my - wm.dragOffy))
      exact ((sound.setWin _ placed).damage (sound.placed _)).damage placed
    · exact .of_same rfl rfl
  · cases done
    exact .of_same rfl rfl

theorem wmUpdateMouse_handles {wm after : Wm} {mx my : Int} {buttons : UInt8}
    (done : wmUpdateMouse fbW fbH wm mx my buttons = .ok after) : Handles wm after := by
  unfold wmUpdateMouse at done
  obtain ⟨pressed, press, rest⟩ := (bind_ok _ _ _).mp done
  obtain ⟨dragged, drag, last⟩ := (bind_ok _ _ _).mp rest
  cases last
  have released : Handles pressed
      (if buttons &&& 1 = 0 then { pressed with dragWin := -1 } else pressed) := by
    split <;> exact .of_same rfl rfl
  have moved := ((pressOn_handles press).trans released).trans (drag_handles wide tall drag)
  exact moved.trans (.of_same rfl rfl)

end Mouse

theorem Ready.each {font : Font} {before after : Wm} {i : Nat}
    (ready : Ready font before.dirty (before.wins i)) (placed : Placed (before.wins i))
    (handled : Handled (before.wins i) (after.wins i)) (tracks : Tracks before after) :
    Ready font after.dirty (after.wins i) := by
  -- A window that is handled stays ready.
  intro used
  have damaged : after.wins i = before.wins i ∨ Damaged after.dirty (after.wins i) :=
    (tracks.each i).imp_right fun both => both.2 used
  rw [handled.used] at used
  rcases ready used with current | ⟨flagged, before_⟩
  · rcases damaged with same | damaged
    · rw [same]
      exact .inl current
    · exact (handled.current placed current).imp_right fun flagged => ⟨.inr flagged, damaged⟩
  · right
    refine ⟨flagged.imp (fun content => handled.content.trans content) handled.chrome, ?_⟩
    rcases damaged with same | damaged
    · rw [same]
      exact before_.grow tracks
    · exact damaged

def GuiWindow.dirtied (win : GuiWindow) (content : Picture) : GuiWindow :=
  { win with onPaint := win.onPaint.map fun _ => content, contentDirty := true }

theorem markDirty_used {wm : Wm} {i : Nat} (inside : i < guiMaxWindows)
    (used : (wm.wins i).used = true) (content : Picture) :
    markDirty wm i content = (wm.setWin i ((wm.wins i).dirtied content)).damageFootprint
      ((wm.wins i).dirtied content) := by
  have known : (0 : Int) ≤ i ∧ (i : Int) < guiMaxWindows ∧ (wm.wins (i : Int).toNat).used :=
    ⟨by omega, by omega, used⟩
  rw [markDirty, if_pos known]
  rfl

theorem markDirty_cases (wm : Wm) (id : Int) (content : Picture) :
    markDirty wm id content = wm ∨
      ∃ i : Nat, id = i ∧ i < guiMaxWindows ∧ (wm.wins i).used = true := by
  by_cases known : 0 ≤ id ∧ id < guiMaxWindows ∧ (wm.wins id.toNat).used
  · obtain ⟨low, high, used⟩ := known
    exact .inr ⟨id.toNat, by omega, by omega, used⟩
  · left
    rw [markDirty, if_neg known]

theorem markDirty_window {wm : Wm} {i : Nat} (inside : i < guiMaxWindows)
    (used : (wm.wins i).used = true) (content : Picture) :
    (markDirty wm i content).wins i = (wm.wins i).dirtied content := by
  rw [markDirty_used inside used]
  exact if_pos rfl

theorem markDirty_other (wm : Wm) (id : Int) (content : Picture) {j : Nat} (other : id ≠ j) :
    (markDirty wm id content).wins j = wm.wins j := by
  rcases markDirty_cases wm id content with same | ⟨i, rfl, inside, used⟩
  · rw [same]
  · rw [markDirty_used inside used]
    exact if_neg fun same => other (by rw [same])

theorem markDirty_sound {wm : Wm} (sound : Sound wm) (id : Int) (content : Picture) :
    Sound (markDirty wm id content) := by
  rcases markDirty_cases wm id content with same | ⟨i, rfl, inside, used⟩
  · rw [same]
    exact sound
  · obtain ⟨wide, tall, across, down⟩ := sound.placed i
    have placed : Placed ((wm.wins i).dirtied content) := ⟨wide, tall, across, down⟩
    rw [markDirty_used inside used]
    exact (sound.setWin i placed).damage placed

theorem Ready.markDirty {font : Font} {wm : Wm} (sound : Sound wm) (id : Int) (content : Picture)
    {j : Nat} (ready : Ready font wm.dirty (wm.wins j)) :
    Ready font (markDirty wm id content).dirty ((markDirty wm id content).wins j) := by
  have tracks := markDirty_tracks wm sound.sized id content
  by_cases other : id = j
  · rcases markDirty_cases wm id content with same | ⟨i, rfl, inside, used⟩
    · rw [same]
      exact ready
    · obtain rfl : i = j := by omega
      intro _
      rw [markDirty_window inside used, markDirty_used inside used]
      exact .inr ⟨.inl rfl, add_damages sound.sized _⟩
  · rw [markDirty_other wm id content other]
    intro used
    exact (ready used).imp_right fun ⟨flagged, damaged⟩ => ⟨flagged, damaged.grow tracks⟩

theorem dropFocus_stays {wm after : Wm} {due : Bool} (done : wm.dropFocus due = .ok after) (j : Nat) :
    (after.wins j).x = (wm.wins j).x ∧ (after.wins j).y = (wm.wins j).y := by
  unfold Wm.dropFocus at done
  split at done
  · obtain ⟨_, _, rest⟩ := (bind_ok _ _ _).mp done
    cases rest
    simp only [Wm.damageFootprint, Wm.setWin]
    split
    · next same => simp only [same, and_self]
    · exact ⟨rfl, rfl⟩
  · cases done
    exact ⟨rfl, rfl⟩

structure Opening (x y w h : Int) (onPaint : Option Picture) (win : GuiWindow) : Prop where
  x : win.x = x
  y : win.y = y
  w : win.w = w
  h : win.h = h
  used : win.used = true
  vt : win.vt = -1
  onPaint : win.onPaint = onPaint
  focused : win.focused = true

/-- A free slot got a window that is rendered; the other windows are handled. -/
structure Opened (font : Font) (wm after : Wm) (i : Nat) (x y w h : Int)
    (onPaint : Option Picture) : Prop where
  inside : i < guiMaxWindows
  free : (wm.wins i).used = false
  others : ∀ j, j ≠ i → Handled (wm.wins j) (after.wins j)
  stays : ∀ j, j ≠ i → (after.wins j).x = (wm.wins j).x ∧ (after.wins j).y = (wm.wins j).y
  window : ∃ fresh, Opening x y w h onPaint fresh ∧ after.wins i = frameRender font fresh
  focus : after.focusedIdx = i
  drag : after.dragWin = wm.dragWin
  sound : (∀ fresh, Opening x y w h onPaint fresh → Placed fresh) → Sound wm → Sound after

theorem dropFocus_drag {wm after : Wm} {due : Bool} (done : wm.dropFocus due = .ok after) :
    after.dragWin = wm.dragWin := by
  unfold Wm.dropFocus at done
  split at done
  · obtain ⟨_, _, rest⟩ := (bind_ok _ _ _).mp done
    cases rest
    rfl
  · cases done
    rfl

theorem createWindow_cases {font : Font} {wm after : Wm} {title : List UInt8} {x y w h ret : Int}
    {onPaint : Option Picture} {allocated : Bool}
    (done : createWindow font wm title x y w h onPaint allocated = .ok (ret, after)) :
    (ret = -1 ∧ after = wm) ∨ ∃ i : Nat, ret = i ∧ Opened font wm after i x y w h onPaint := by
  unfold createWindow at done
  split at done
  · cases done
    exact .inl ⟨rfl, rfl⟩
  · rename_i i found
    split at done
    · right
      have free : (wm.wins i).used = false := by simpa using List.find?_some found
      have inside : i < guiMaxWindows := List.mem_range.mp (List.mem_of_find?_eq_some found)
      obtain ⟨middle, dropped, rest⟩ := (bind_ok _ _ _).mp done
      cases rest
      have handles := dropFocus_handles dropped
      have handled := handles.each i
      have stay := dropFocus_stays dropped
      have stays := stay i
      have drag := dropFocus_drag dropped
      simp only [Wm.setWin, ↓reduceIte] at handled stays
      have opening : Opening x y w h onPaint { middle.wins i with focused := true } :=
        ⟨stays.1, stays.2, handled.w, handled.h, handled.used, handled.vt, handled.onPaint, rfl⟩
      refine ⟨i, rfl, inside, free, fun j other => ?_, fun j other => ?_, ⟨_, opening, if_pos rfl⟩, rfl,
        drag, fun room sound => ?_⟩
      · have each := handles.each j
        simp only [Wm.setWin, other, ↓reduceIte] at each
        simpa only [Wm.damageFootprint, Wm.setWin, Wm.setFocus, other, ↓reduceIte] using each
      · have each := stay j
        simp only [Wm.setWin, other, ↓reduceIte] at each
        simpa only [Wm.damageFootprint, Wm.setWin, Wm.setFocus, other, ↓reduceIte] using each
      · have placed := room _ opening
        have raw : Placed { wm.wins i with
            body := fun _ _ => 0, frame := fun _ _ => 0, title := copyTitle (wm.wins i).title title,
            x := x, y := y, w := w, h := h, used := true, vt := -1, onPaint := onPaint } := by
          obtain ⟨wide, tall, across, down⟩ := placed
          simp only [handled.w, handled.h, stays.1,
            stays.2] at wide tall across down
          exact ⟨wide, tall, across, down⟩
        have settled : Sound (middle.setFocus i) := (handles.sound (sound.setWin i raw)).of_same rfl rfl
        exact (settled.setWin i (frameRender_placed placed)).damage (frameRender_placed placed)
    · cases done
      exact .inl ⟨rfl, rfl⟩

/-! ### Rendering -/

theorem refresh_beyond (font : Font) (wins : Windows) {i : Nat} (beyond : guiMaxWindows ≤ i) :
    refresh font wins i = wins i := by
  have upTo : ∀ n ≤ i, (List.range n).foldl (refreshWindow font) wins i = wins i := by
    intro n small
    induction n with
    | zero => rfl
    | succ n ih =>
        rw [List.range_succ, List.foldl_append, List.foldl_cons, List.foldl_nil, refreshWindow,
          if_neg (fun hit => by omega), ih (by omega)]
  exact upTo guiMaxWindows beyond

theorem refresh_placed {font : Font} {wins : Windows} (placed : ∀ j, Placed (wins j)) (j : Nat) :
    Placed (refresh font wins j) := by
  by_cases inside : j < guiMaxWindows
  · rw [refresh_wins font wins j inside]
    split
    · exact frameRender_placed (placed j)
    · exact placed j
  · rw [refresh_beyond font wins (by omega)]
    exact placed j

theorem refresh_current {font : Font} {wm : Wm} (sound : Sound wm) {i : Nat}
    (inside : i < guiMaxWindows) (ready : Ready font wm.dirty (wm.wins i))
    (used : (refresh font wm.wins i).used = true) :
    Current font (refresh font wm.wins i) ∧ (refresh font wm.wins i).contentDirty = false ∧
      (refresh font wm.wins i).chromeDirty = false := by
  rw [refresh_wins font wm.wins i inside] at used ⊢
  split at used
  · next flagged =>
      rw [if_pos flagged]
      exact ⟨frameRender_current (sound.placed i), rfl, rfl⟩
  · next clean =>
      rw [if_neg clean]
      have unflagged : ¬ ((wm.wins i).contentDirty = true ∨ (wm.wins i).chromeDirty = true) :=
        fun flagged => clean ⟨used, flagged⟩
      have current := (ready used).resolve_right fun both => unflagged both.1
      simp only [not_or, Bool.not_eq_true] at unflagged
      exact ⟨current, unflagged⟩

end Shizuku.Gui
