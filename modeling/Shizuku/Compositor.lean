import Shizuku.DirtyRegion

/-!
The repaint pass of the compositor thread in `gui/wm.rs`. Each damaged rectangle gets
the wallpaper, the header line and the cached frames of the windows; the cursor comes
last. The fill and the frames are clipped to the rectangle, the header line is not.
-/

namespace Shizuku.Gui

abbrev Picture := Int → Int → UInt32

def guiMaxWindows : Nat := 8
def guiTitleH : Int := 20
def frameBx : Int := 1
def frameBy : Int := guiTitleH + 1

def cWallpaper : UInt32 := 0xFF1A2B4A
def cHeader : UInt32 := 0xFF9BAEDC
def cCursorFg : UInt32 := 0xFFFFFFFF
def cCursorBg : UInt32 := 0xFF000000

/-- The caches are as large as `create_window` makes them: `body` is `w` by `h`, and
`frame` has the border and the title bar in addition. `onPaint` is the picture that the
hook would leave in the body now. -/
structure GuiWindow where
  title : List UInt8
  x : Int
  y : Int
  w : Int
  h : Int
  body : Picture
  frame : Picture
  used : Bool
  focused : Bool
  contentDirty : Bool
  chromeDirty : Bool
  vt : Int
  onPaint : Option Picture

def GuiWindow.frameSurface (win : GuiWindow) : Surface where
  w := i32 (win.w + 2)
  h := i32 (win.h + guiTitleH + 2)
  pixels := win.frame

def windowRectScreen (win : GuiWindow) : Rect where
  x := i32 (win.x - frameBx)
  y := i32 (win.y - guiTitleH - frameBx)
  w := i32 (win.w + 2)
  h := i32 (win.h + guiTitleH + 2)

def rectIntersects (a b : Rect) : Bool :=
  decide (a.x < b.right ∧ b.x < a.right ∧ a.y < b.bottom ∧ b.y < a.bottom)

def blitClipped (dst : Surface) (dx dy : Int) (src : Surface) (clip : Rect) : Surface :=
  let x0 := max dx clip.x
  let y0 := max dy clip.y
  let x1 := min (i32 (dx + src.w)) clip.right
  let y1 := min (i32 (dy + src.h)) clip.bottom
  if x1 ≤ x0 ∨ y1 ≤ y0 then dst
  else dst.paint fun x y =>
    if x0 ≤ x ∧ x < x1 ∧ y0 ≤ y ∧ y < y1 then some (src.pixels (x - dx) (y - dy)) else none

/-- 1 for the foreground, 2 for the outline. -/
def cursorBmp : List (List Nat) :=
  [[2, 0, 0, 0, 0, 0, 0, 0, 0, 0, 0, 0],
   [2, 2, 0, 0, 0, 0, 0, 0, 0, 0, 0, 0],
   [2, 1, 2, 0, 0, 0, 0, 0, 0, 0, 0, 0],
   [2, 1, 1, 2, 0, 0, 0, 0, 0, 0, 0, 0],
   [2, 1, 1, 1, 2, 0, 0, 0, 0, 0, 0, 0],
   [2, 1, 1, 1, 1, 2, 0, 0, 0, 0, 0, 0],
   [2, 1, 1, 1, 1, 1, 2, 0, 0, 0, 0, 0],
   [2, 1, 1, 1, 1, 1, 1, 2, 0, 0, 0, 0],
   [2, 1, 1, 1, 1, 1, 1, 1, 2, 0, 0, 0],
   [2, 1, 1, 1, 1, 1, 1, 1, 1, 2, 0, 0],
   [2, 1, 1, 1, 1, 1, 1, 2, 2, 2, 2, 2],
   [2, 1, 1, 2, 1, 1, 2, 0, 0, 0, 0, 0],
   [2, 1, 2, 0, 2, 1, 1, 2, 0, 0, 0, 0],
   [2, 2, 0, 0, 2, 1, 1, 2, 0, 0, 0, 0],
   [2, 0, 0, 0, 0, 2, 1, 1, 2, 0, 0, 0],
   [0, 0, 0, 0, 0, 0, 2, 2, 0, 0, 0, 0],
   [0, 0, 0, 0, 0, 0, 0, 2, 2, 0, 0, 0],
   [0, 0, 0, 0, 0, 0, 0, 0, 0, 0, 0, 0]]

def cursorAt (mouse : Int × Int) (px py : Int) : Option UInt32 :=
  if mouse.1 ≤ px ∧ px < mouse.1 + 12 ∧ mouse.2 ≤ py ∧ py < mouse.2 + 18 then
    match (cursorBmp.getD (py - mouse.2).toNat []).getD (px - mouse.1).toNat 0 with
    | 0 => none
    | 2 => some cCursorBg
    | _ => some cCursorFg
  else none

def drawCursor (bb : Surface) (mouse : Int × Int) : Surface :=
  bb.paint fun px py =>
    if px < 0 ∨ py < 0 ∨ bb.w ≤ px ∨ bb.h ≤ py then none else cursorAt mouse px py

def hdr : Rect := ⟨12, 10, 72 * 8, 16⟩

/-- "Shizuku GUI - F1: new terminal | click to focus, type into it" -/
def hdrLine : List UInt8 :=
  [83, 104, 105, 122, 117, 107, 117, 32, 71, 85, 73, 32, 45, 32, 70, 49, 58, 32, 110, 101, 119, 32,
    116, 101, 114, 109, 105, 110, 97, 108, 32, 124, 32, 99, 108, 105, 99, 107, 32, 116, 111, 32, 102,
    111, 99, 117, 115, 44, 32, 116, 121, 112, 101, 32, 105, 110, 116, 111, 32, 105, 116]

abbrev Windows := Nat → GuiWindow

def drawHeader (font : Font) (bb : Surface) : Surface :=
  drawString font bb 12 10 hdrLine cHeader cWallpaper

def blitWindow (win : GuiWindow) (r : Rect) (bb : Surface) : Surface :=
  blitClipped bb (i32 (win.x - frameBx)) (i32 (win.y - guiTitleH - frameBx)) win.frameSurface r

def paintWindow (wins : Windows) (r : Rect) (bb : Surface) (i : Nat) : Surface :=
  if (wins i).used ∧ rectIntersects r (windowRectScreen (wins i)) then blitWindow (wins i) r bb
  else bb

def paintRect (font : Font) (wins : Windows) (bb : Surface) (r : Rect) : Surface :=
  let filled := fillRect bb r cWallpaper
  let titled := if rectIntersects r hdr then drawHeader font filled else filled
  (List.range guiMaxWindows).foldl (paintWindow wins r) titled

def repaint (font : Font) (wins : Windows) (mouse : Int × Int) (bb : Surface) (rects : List Rect) :
    Surface :=
  drawCursor (rects.foldl (paintRect font wins) bb) mouse

def composite (font : Font) (wins : Windows) (bb : Surface) : Surface :=
  let screen : Rect := ⟨0, 0, bb.w, bb.h⟩
  let titled := drawHeader font (fillRect bb screen cWallpaper)
  (List.range guiMaxWindows).foldl (fun bb i =>
    if (wins i).used then blitWindow (wins i) screen bb else bb) titled

def fullRepaint (font : Font) (wins : Windows) (mouse : Int × Int) (bb : Surface) : Surface :=
  drawCursor (composite font wins bb) mouse

structure InScreen (s : Surface) (r : Rect) : Prop where
  x : 0 ≤ r.x ∧ 0 ≤ r.w ∧ r.x + r.w ≤ s.w
  y : 0 ≤ r.y ∧ 0 ≤ r.h ∧ r.y + r.h ≤ s.h

theorem InScreen.ends {s : Surface} (sized : Sized s.w s.h) {r : Rect} (inside : InScreen s r) :
    r.right = r.x + r.w ∧ r.bottom = r.y + r.h := by
  obtain ⟨⟨left, wide, right⟩, top, tall, bottom⟩ := inside
  have := sized.wide
  have := sized.tall
  exact ⟨i32_eq (by omega) (by omega), i32_eq (by omega) (by omega)⟩

theorem fillRect_pixels {s : Surface} (sized : Sized s.w s.h) {r : Rect} (inside : InScreen s r)
    (colour : UInt32) (px py : Int) :
    (fillRect s r colour).pixels px py = if Holds r (px, py) then colour else s.pixels px py := by
  obtain ⟨right, bottom⟩ := inside.ends sized
  obtain ⟨⟨left, wide, across⟩, top, tall, down⟩ := inside
  have clipped : clipToSurface s r = if 0 < r.w ∧ 0 < r.h then some r else none := by
    have keptLeft : ¬ r.x < 0 := by omega
    have keptTop : ¬ r.y < 0 := by omega
    have keptRight : ¬ r.right > s.w := by omega
    have keptBottom : ¬ r.bottom > s.h := by omega
    simp only [clipToSurface, keptLeft, keptTop, keptRight, keptBottom, ↓reduceIte]
  unfold fillRect
  rw [clipped]
  by_cases positive : 0 < r.w ∧ 0 < r.h
  · simp only [positive, and_self, ↓reduceIte, Surface.paint]
    by_cases held : Holds r (px, py)
    · rw [if_pos held]
      unfold Holds at held
      rw [if_pos (by omega)]
      rfl
    · rw [if_neg held]
      unfold Holds at held
      rw [if_neg (by omega)]
      rfl
  · rw [if_neg positive, if_neg]
    unfold Holds
    omega

@[simp] theorem fillRect_size (s : Surface) (r : Rect) (colour : UInt32) :
    (fillRect s r colour).w = s.w ∧ (fillRect s r colour).h = s.h := by
  unfold fillRect
  split <;> exact ⟨rfl, rfl⟩

def textAt (font : Font) (w h x y : Int) (str : List UInt8) (fg bg : UInt32) (px py : Int) :
    Option UInt32 :=
  match str with
  | [] => none
  | c :: rest =>
      if c = 0 ∨ i32 (x + fontW) > w then none
      else (textAt font w h (i32 (x + fontW)) y rest fg bg px py).or
        (if x ≤ px ∧ px < x + fontW ∧ y ≤ py ∧ py < y + fontH ∧
            0 ≤ px ∧ px < w ∧ 0 ≤ py ∧ py < h then
          some (if glyph font c (px - x) (py - y) then fg else bg)
        else none)

theorem drawString_size (font : Font) (s : Surface) (x y : Int) (str : List UInt8)
    (fg bg : UInt32) :
    (drawString font s x y str fg bg).w = s.w ∧ (drawString font s x y str fg bg).h = s.h := by
  induction str generalizing s x with
  | nil => exact ⟨rfl, rfl⟩
  | cons c rest ih =>
      unfold drawString
      split
      · exact ⟨rfl, rfl⟩
      · exact ih _ _

theorem drawString_pixels (font : Font) (s : Surface) (x y : Int) (str : List UInt8)
    (fg bg : UInt32) (px py : Int) : (drawString font s x y str fg bg).pixels px py =
      (textAt font s.w s.h x y str fg bg px py).getD (s.pixels px py) := by
  induction str generalizing s x with
  | nil => rfl
  | cons c rest ih =>
      unfold drawString textAt
      by_cases stop : c = 0 ∨ i32 (x + fontW) > s.w
      · rw [if_pos stop, if_pos stop]
        rfl
      · rw [if_neg stop, if_neg stop, ih]
        simp only [drawChar, Surface.paint]
        cases textAt font s.w s.h (i32 (x + fontW)) y rest fg bg px py <;> rfl

theorem textAt_line (font : Font) (w h x y : Int) (str : List UInt8) (fg bg colour : UInt32)
    (px py : Int) (low : -2 ^ 31 ≤ x) (fits : x + fontW * str.length < 2 ^ 31)
    (drawn : textAt font w h x y str fg bg px py = some colour) :
    (x ≤ px ∧ px < x + fontW * str.length) ∧ y ≤ py ∧ py < y + fontH := by
  induction str generalizing x with
  | nil => cases drawn
  | cons c rest ih =>
      have size : fontW = 8 := rfl
      rw [List.length_cons] at fits ⊢
      push_cast at fits ⊢
      rw [size] at fits ih ⊢
      unfold textAt at drawn
      split at drawn
      · cases drawn
      · rw [size, i32_eq (by omega) (by omega), Option.or_eq_some_iff] at drawn
        rcases drawn with later | ⟨_, here⟩
        · have line := ih (x + 8) (by omega) (by omega) later
          omega
        · split at here
          · omega
          · cases here

def headerAt (font : Font) (w h px py : Int) : Option UInt32 :=
  textAt font w h 12 10 hdrLine cHeader cWallpaper px py

theorem headerAt_hdr (font : Font) (w h px py : Int) (colour : UInt32)
    (drawn : headerAt font w h px py = some colour) : Holds hdr (px, py) := by
  have line := textAt_line font w h 12 10 hdrLine cHeader cWallpaper colour px py (by decide)
    (by decide) drawn
  have right : hdr.right = 588 := by decide
  have bottom : hdr.bottom = 26 := by decide
  have length : (hdrLine.length : Int) = 61 := by decide
  rw [length] at line
  unfold Holds
  rw [right, bottom]
  simp only [hdr, fontW, fontH] at line ⊢
  omega

def shownAt (win : GuiWindow) (px py : Int) : Option UInt32 :=
  if win.used ∧ Holds (windowRectScreen win) (px, py) then
    some (win.frame (px - (windowRectScreen win).x) (py - (windowRectScreen win).y))
  else none

theorem rectIntersects_of_holds {a b : Rect} {pixel : Int × Int} (one : Holds a pixel)
    (two : Holds b pixel) : rectIntersects a b = true := by
  unfold Holds at one two
  unfold rectIntersects
  rw [decide_eq_true_eq]
  omega

theorem blitWindow_pixels (win : GuiWindow) (used : win.used = true) (r : Rect) (bb : Surface)
    (px py : Int) : (blitWindow win r bb).pixels px py =
      if Holds r (px, py) then (shownAt win px py).getD (bb.pixels px py) else bb.pixels px py := by
  unfold blitWindow blitClipped shownAt
  simp only [used, true_and]
  have right : i32 (i32 (win.x - frameBx) + win.frameSurface.w) = (windowRectScreen win).right := rfl
  have bottom : i32 (i32 (win.y - guiTitleH - frameBx) + win.frameSurface.h) =
      (windowRectScreen win).bottom := rfl
  have left : i32 (win.x - frameBx) = (windowRectScreen win).x := rfl
  have top : i32 (win.y - guiTitleH - frameBx) = (windowRectScreen win).y := rfl
  rw [right, bottom, left, top]
  by_cases inside : Holds r (px, py)
  · by_cases shown : Holds (windowRectScreen win) (px, py)
    · rw [if_pos inside, if_pos shown]
      unfold Holds at inside shown
      rw [if_neg (by omega)]
      simp only [Surface.paint]
      rw [if_pos (by omega)]
      rfl
    · rw [if_pos inside, if_neg shown]
      unfold Holds at inside shown
      split
      · rfl
      · simp only [Surface.paint]
        rw [if_neg (by omega)]
  · rw [if_neg inside]
    unfold Holds at inside
    split
    · rfl
    · simp only [Surface.paint]
      rw [if_neg (by omega)]
      rfl

@[simp] theorem blitWindow_size (win : GuiWindow) (r : Rect) (bb : Surface) :
    (blitWindow win r bb).w = bb.w ∧ (blitWindow win r bb).h = bb.h := by
  unfold blitWindow blitClipped
  simp only
  split <;> exact ⟨rfl, rfl⟩

theorem paintWindow_pixels (wins : Windows) (r : Rect) (bb : Surface) (i : Nat) (px py : Int) :
    (paintWindow wins r bb i).pixels px py =
      if Holds r (px, py) then (shownAt (wins i) px py).getD (bb.pixels px py)
      else bb.pixels px py := by
  unfold paintWindow
  split
  · rename_i drawn
    exact blitWindow_pixels (wins i) drawn.1 r bb px py
  · rename_i skipped
    split
    · rename_i inside
      have hidden : shownAt (wins i) px py = none := by
        refine if_neg fun shown => skipped ⟨shown.1, ?_⟩
        exact rectIntersects_of_holds inside shown.2
      rw [hidden]
      rfl
    · rfl

def topAt (wins : Windows) (order : List Nat) (px py : Int) : Option UInt32 :=
  order.foldl (fun top i => (shownAt (wins i) px py).or top) none

theorem windows_pixels (wins : Windows) (r : Rect) (place : Surface → Nat → Surface)
    (pixels : ∀ bb i px py, (place bb i).pixels px py =
      if Holds r (px, py) then (shownAt (wins i) px py).getD (bb.pixels px py)
      else bb.pixels px py)
    (order : List Nat) (bb : Surface) (px py : Int) : (order.foldl place bb).pixels px py =
      if Holds r (px, py) then (topAt wins order px py).getD (bb.pixels px py)
      else bb.pixels px py := by
  induction order using List.reverseRecOn with
  | nil => simp [topAt]
  | append_singleton order i ih =>
      have top : topAt wins (order ++ [i]) px py =
          (shownAt (wins i) px py).or (topAt wins order px py) := by
        simp only [topAt, List.foldl_append, List.foldl_cons, List.foldl_nil]
      rw [List.foldl_append, List.foldl_cons, List.foldl_nil, pixels, ih, top]
      split
      · cases shownAt (wins i) px py <;> rfl
      · rfl

theorem windows_size (place : Surface → Nat → Surface)
    (size : ∀ bb i, (place bb i).w = bb.w ∧ (place bb i).h = bb.h) (order : List Nat)
    (bb : Surface) : (order.foldl place bb).w = bb.w ∧ (order.foldl place bb).h = bb.h := by
  induction order generalizing bb with
  | nil => exact ⟨rfl, rfl⟩
  | cons i rest ih =>
      obtain ⟨width, height⟩ := ih (place bb i)
      exact ⟨width.trans (size bb i).1, height.trans (size bb i).2⟩

def windowAt (wins : Windows) (px py : Int) : Option UInt32 :=
  topAt wins (List.range guiMaxWindows) px py

def sceneAt (font : Font) (wins : Windows) (bb : Surface) (px py : Int) : UInt32 :=
  (windowAt wins px py).getD ((headerAt font bb.w bb.h px py).getD cWallpaper)

theorem drawHeader_pixels (font : Font) (bb : Surface) (px py : Int) :
    (drawHeader font bb).pixels px py =
      (headerAt font bb.w bb.h px py).getD (bb.pixels px py) :=
  drawString_pixels font bb 12 10 hdrLine cHeader cWallpaper px py

theorem paintRect_size (font : Font) (wins : Windows) (bb : Surface) (r : Rect) :
    (paintRect font wins bb r).w = bb.w ∧ (paintRect font wins bb r).h = bb.h := by
  have place : ∀ bb i, (paintWindow wins r bb i).w = bb.w ∧ (paintWindow wins r bb i).h = bb.h := by
    intro bb i
    unfold paintWindow
    split
    · exact blitWindow_size _ _ _
    · exact ⟨rfl, rfl⟩
  obtain ⟨width, height⟩ := windows_size _ place (List.range guiMaxWindows)
    (if rectIntersects r hdr then drawHeader font (fillRect bb r cWallpaper)
      else fillRect bb r cWallpaper)
  obtain ⟨across, down⟩ := fillRect_size bb r cWallpaper
  unfold paintRect
  simp only
  rw [width, height]
  split
  · obtain ⟨across', down'⟩ := drawString_size font (fillRect bb r cWallpaper) 12 10 hdrLine cHeader
      cWallpaper
    exact ⟨across'.trans across, down'.trans down⟩
  · exact ⟨across, down⟩

theorem paintRect_pixels (font : Font) (wins : Windows) (bb : Surface) (sized : Sized bb.w bb.h)
    (r : Rect) (inside : InScreen bb r) (px py : Int) :
    (paintRect font wins bb r).pixels px py =
      if Holds r (px, py) then sceneAt font wins bb px py
      else if rectIntersects r hdr then (headerAt font bb.w bb.h px py).getD (bb.pixels px py)
      else bb.pixels px py := by
  obtain ⟨width, height⟩ := fillRect_size bb r cWallpaper
  unfold paintRect
  simp only
  rw [windows_pixels wins r _ (fun bb i => paintWindow_pixels wins r bb i)]
  by_cases held : Holds r (px, py)
  · rw [if_pos held, if_pos held]
    unfold sceneAt
    congr 1
    split
    · rw [drawHeader_pixels, width, height, fillRect_pixels sized inside, if_pos held]
    · rename_i away
      have absent : headerAt font bb.w bb.h px py = none := by
        cases drawn : headerAt font bb.w bb.h px py with
        | none => rfl
        | some colour =>
            exact absurd (rectIntersects_of_holds held (headerAt_hdr _ _ _ _ _ _ drawn)) away
      rw [absent, fillRect_pixels sized inside, if_pos held]
      rfl
  · rw [if_neg held, if_neg held]
    split
    · rw [drawHeader_pixels, width, height, fillRect_pixels sized inside, if_neg held]
    · rw [fillRect_pixels sized inside, if_neg held]

/-! ### The whole pass -/

theorem rects_size (font : Font) (wins : Windows) (rects : List Rect) (bb : Surface) :
    (rects.foldl (paintRect font wins) bb).w = bb.w ∧
      (rects.foldl (paintRect font wins) bb).h = bb.h := by
  induction rects generalizing bb with
  | nil => exact ⟨rfl, rfl⟩
  | cons r rest ih =>
      obtain ⟨width, height⟩ := ih (paintRect font wins bb r)
      obtain ⟨across, down⟩ := paintRect_size font wins bb r
      exact ⟨width.trans across, height.trans down⟩

theorem InScreen.resize {s t : Surface} {r : Rect} (size : t.w = s.w ∧ t.h = s.h)
    (inside : InScreen s r) : InScreen t r := by
  obtain ⟨x, y⟩ := inside
  exact ⟨size.1.symm ▸ x, size.2.symm ▸ y⟩

theorem rects_outside (font : Font) (wins : Windows) (rects : List Rect) (bb : Surface)
    (sized : Sized bb.w bb.h) (inside : ∀ r ∈ rects, InScreen bb r) (px py : Int)
    (outside : ∀ r ∈ rects, ¬ Holds r (px, py)) :
    (rects.foldl (paintRect font wins) bb).pixels px py =
      if ∃ r ∈ rects, rectIntersects r hdr then
        (headerAt font bb.w bb.h px py).getD (bb.pixels px py)
      else bb.pixels px py := by
  induction rects generalizing bb with
  | nil => simp
  | cons r rest ih =>
      have size := paintRect_size font wins bb r
      have first := paintRect_pixels font wins bb sized r (inside r List.mem_cons_self) px py
      rw [if_neg (outside r List.mem_cons_self)] at first
      rw [List.foldl_cons, ih (paintRect font wins bb r) (by rw [size.1, size.2]; exact sized)
        (fun other member => (inside other (List.mem_cons_of_mem _ member)).resize size)
        (fun other member => outside other (List.mem_cons_of_mem _ member)), size.1, size.2, first]
      simp only [List.exists_mem_cons_iff]
      by_cases meets : rectIntersects r hdr = true
      · simp only [meets, true_or, ↓reduceIte]
        split
        · cases headerAt font bb.w bb.h px py <;> rfl
        · rfl
      · simp only [meets, false_or, ↓reduceIte, Bool.false_eq_true]

theorem rects_pixels (font : Font) (wins : Windows) (bb : Surface) (sized : Sized bb.w bb.h)
    (before : List Rect) (r : Rect) (after : List Rect)
    (inside : ∀ one ∈ before ++ r :: after, InScreen bb one) (px py : Int)
    (held : Holds r (px, py)) (apart : ∀ later ∈ after, ¬ Holds later (px, py)) :
    ((before ++ r :: after).foldl (paintRect font wins) bb).pixels px py =
      if ∃ later ∈ after, rectIntersects later hdr then
        (headerAt font bb.w bb.h px py).getD (sceneAt font wins bb px py)
      else sceneAt font wins bb px py := by
  rw [List.foldl_append, List.foldl_cons]
  have size := rects_size font wins before bb
  generalize before.foldl (paintRect font wins) bb = start at size ⊢
  have sized' : Sized start.w start.h := by
    rw [size.1, size.2]
    exact sized
  have painted := paintRect_pixels font wins start sized' r
    ((inside r (by simp)).resize size) px py
  have size' := paintRect_size font wins start r
  rw [rects_outside font wins after _ (by rw [size'.1, size'.2]; exact sized')
    (fun later member => ((inside later (by simp [member])).resize size).resize size') px py apart,
    painted, if_pos held, size'.1, size'.2, size.1, size.2]
  simp only [sceneAt, size.1, size.2]

theorem drawCursor_pixels (bb : Surface) (mouse : Int × Int) (px py : Int)
    (screen : OnScreen bb.w bb.h (px, py)) :
    (drawCursor bb mouse).pixels px py = (cursorAt mouse px py).getD (bb.pixels px py) := by
  unfold OnScreen at screen
  simp only [drawCursor, Surface.paint]
  rw [if_neg (by omega)]

theorem composite_spec (font : Font) (wins : Windows) (bb : Surface) (sized : Sized bb.w bb.h) :
    ((composite font wins bb).w = bb.w ∧ (composite font wins bb).h = bb.h) ∧
      ∀ px py, OnScreen bb.w bb.h (px, py) →
        (composite font wins bb).pixels px py = sceneAt font wins bb px py := by
  let whole : Rect := ⟨0, 0, bb.w, bb.h⟩
  let place := fun (bb : Surface) i => if (wins i).used then blitWindow (wins i) whole bb else bb
  have inside : InScreen bb whole :=
    ⟨⟨le_refl _, sized.width, by simp [whole]⟩, le_refl _, sized.height, by simp [whole]⟩
  have pixels : ∀ bb i px py, (place bb i).pixels px py =
      if Holds whole (px, py) then (shownAt (wins i) px py).getD (bb.pixels px py)
      else bb.pixels px py := by
    intro bb i px py
    simp only [place]
    split
    · rename_i used
      exact blitWindow_pixels (wins i) used whole bb px py
    · rename_i unused
      have hidden : shownAt (wins i) px py = none := if_neg fun shown => unused shown.1
      rw [hidden]
      exact (ite_self _).symm
  have size : ∀ bb i, (place bb i).w = bb.w ∧ (place bb i).h = bb.h := by
    intro bb i
    simp only [place]
    split
    · exact blitWindow_size _ _ _
    · exact ⟨rfl, rfl⟩
  have filled := fillRect_size bb whole cWallpaper
  have titled := drawString_size font (fillRect bb whole cWallpaper) 12 10 hdrLine cHeader cWallpaper
  have placed := windows_size place size (List.range guiMaxWindows)
    (drawHeader font (fillRect bb whole cWallpaper))
  have unfolded : composite font wins bb = (List.range guiMaxWindows).foldl place
    (drawHeader font (fillRect bb whole cWallpaper)) := rfl
  rw [unfolded]
  refine ⟨⟨(placed.1.trans titled.1).trans filled.1, (placed.2.trans titled.2).trans filled.2⟩, ?_⟩
  intro px py screen
  have held : Holds whole (px, py) := by
    obtain ⟨right, bottom⟩ := inside.ends sized
    unfold Holds
    rw [right, bottom]
    unfold OnScreen at screen
    simp only [whole]
    omega
  rw [windows_pixels wins whole place pixels, if_pos held, drawHeader_pixels,
    fillRect_pixels sized inside, if_pos held, filled.1, filled.2]
  rfl

theorem fullRepaint_pixels (font : Font) (wins : Windows) (mouse : Int × Int) (bb : Surface)
    (sized : Sized bb.w bb.h) (px py : Int) (screen : OnScreen bb.w bb.h (px, py)) :
    (fullRepaint font wins mouse bb).pixels px py =
      (cursorAt mouse px py).getD (sceneAt font wins bb px py) := by
  obtain ⟨⟨width, height⟩, pixels⟩ := composite_spec font wins bb sized
  unfold fullRepaint
  rw [drawCursor_pixels, pixels px py screen]
  rw [width, height]
  exact screen

theorem InScreen.onScreen {s : Surface} (sized : Sized s.w s.h) {r : Rect} (inside : InScreen s r)
    {pixel : Int × Int} (held : Holds r pixel) : OnScreen s.w s.h pixel := by
  obtain ⟨right, bottom⟩ := inside.ends sized
  obtain ⟨x, y⟩ := inside
  unfold Holds at held
  rw [right, bottom] at held
  unfold OnScreen
  omega

theorem repaint_pixels (font : Font) (wins : Windows) (mouse : Int × Int) (bb : Surface)
    (sized : Sized bb.w bb.h) (before : List Rect) (r : Rect) (after : List Rect)
    (inside : ∀ one ∈ before ++ r :: after, InScreen bb one) (px py : Int)
    (held : Holds r (px, py)) (apart : ∀ later ∈ after, ¬ Holds later (px, py)) :
    (repaint font wins mouse bb (before ++ r :: after)).pixels px py =
      (cursorAt mouse px py).getD (if ∃ later ∈ after, rectIntersects later hdr then
        (headerAt font bb.w bb.h px py).getD (sceneAt font wins bb px py)
      else sceneAt font wins bb px py) := by
  have size := rects_size font wins (before ++ r :: after) bb
  unfold repaint
  rw [drawCursor_pixels, rects_pixels font wins bb sized before r after inside px py held apart]
  rw [size.1, size.2]
  exact (inside r (by simp)).onScreen sized held

/-- The header line of the later rectangle spoils a pixel of the earlier one: a window
covers the text there and has another colour. -/
def Spoils (font : Font) (wins : Windows) (mouse : Int × Int) (bb : Surface)
    (earlier later : Rect) : Prop :=
  rectIntersects later hdr = true ∧ ∃ px py shown text, Holds earlier (px, py) ∧
    cursorAt mouse px py = none ∧ windowAt wins px py = some shown ∧
    headerAt font bb.w bb.h px py = some text ∧ shown ≠ text

theorem header_keeps_scene (font : Font) (wins : Windows) (bb : Surface) (px py : Int) :
    (headerAt font bb.w bb.h px py).getD (sceneAt font wins bb px py) = sceneAt font wins bb px py ↔
      ∀ shown text, windowAt wins px py = some shown → headerAt font bb.w bb.h px py = some text →
        shown = text := by
  unfold sceneAt
  cases windowAt wins px py with
  | none => cases headerAt font bb.w bb.h px py <;> simp
  | some shown =>
      cases headerAt font bb.w bb.h px py with
      | none => simp
      | some text => simp [eq_comm]

theorem pairwise_iff_split {α : Type} {R : α → α → Prop} (items : List α) :
    items.Pairwise R ↔ ∀ before one after, items = before ++ one :: after →
      ∀ later ∈ after, R one later := by
  constructor
  · rintro related before one after rfl later member
    exact (List.pairwise_cons.mp (List.pairwise_append.mp related).2.1).1 later member
  · intro related
    induction items with
    | nil => exact .nil
    | cons first rest ih =>
        refine .cons (related [] first rest rfl) (ih fun before one after split => ?_)
        exact related (first :: before) one after (by rw [split]; rfl)

/-- The partial repaint shows the scene in its rectangles exactly when no rectangle that
meets the header is painted after one with covered text. -/
theorem partial_repaint_iff (font : Font) (wins : Windows) (mouse : Int × Int) (bb : Surface)
    (sized : Sized bb.w bb.h) (rects : List Rect) (inside : ∀ r ∈ rects, InScreen bb r)
    (disjoint : rects.Pairwise fun a b => ∀ pixel, ¬ (Holds a pixel ∧ Holds b pixel)) :
    (∀ r ∈ rects, ∀ px py, Holds r (px, py) →
      (repaint font wins mouse bb rects).pixels px py =
        (fullRepaint font wins mouse bb).pixels px py) ↔
      rects.Pairwise fun earlier later => ¬ Spoils font wins mouse bb earlier later := by
  -- Where a rectangle stands in the list decides which ones are painted after it.
  have painted : ∀ before r after, rects = before ++ r :: after → ∀ px py, Holds r (px, py) →
      ((repaint font wins mouse bb rects).pixels px py =
          (fullRepaint font wins mouse bb).pixels px py ↔
        (cursorAt mouse px py = none → (∃ later ∈ after, rectIntersects later hdr) →
          ∀ shown text, windowAt wins px py = some shown →
            headerAt font bb.w bb.h px py = some text → shown = text)) := by
    rintro before r after rfl px py held
    have apart : ∀ later ∈ after, ¬ Holds later (px, py) := fun later member other =>
      (pairwise_iff_split _).mp disjoint before r after rfl later member (px, py) ⟨held, other⟩
    rw [repaint_pixels font wins mouse bb sized before r after inside px py held apart,
      fullRepaint_pixels font wins mouse bb sized px py
        ((inside r (by simp)).onScreen sized held), ← header_keeps_scene]
    cases cursorAt mouse px py with
    | some _ => simp
    | none =>
        by_cases redrawn : ∃ later ∈ after, rectIntersects later hdr
        · simp only [redrawn, ↓reduceIte, Option.getD_none, forall_const]
        · simp only [redrawn, ↓reduceIte, Option.getD_none, forall_const, false_implies]
  rw [pairwise_iff_split]
  constructor
  · intro same before r after split later member
    rintro ⟨meets, px, py, shown, text, held, bare, top, drawn, differ⟩
    have equal := same r (by simp [split]) px py held
    exact differ ((painted before r after split px py held).mp equal bare ⟨later, member, meets⟩
      shown text top drawn)
  · intro clean r member px py held
    obtain ⟨before, after, split⟩ := List.append_of_mem member
    refine (painted before r after split px py held).mpr ?_
    rintro bare ⟨later, follows, meets⟩ shown text top drawn
    by_contra differ
    exact clean before r after split later follows
      ⟨meets, px, py, shown, text, held, bare, top, drawn, differ⟩

/-! A terminal has been dragged over the header line. -/

def blueTerminal : GuiWindow where
  title := []
  x := 20
  y := 21
  w := 320
  h := 200
  body := fun _ _ => 0xFF000000
  frame := fun _ _ => 0xFF3A6EA5
  used := true
  focused := true
  contentDirty := false
  chromeDirty := false
  vt := 1
  onPaint := none

def oneTerminal : Windows := fun i => { blueTerminal with used := i = 0 }

def emptyScreen : Surface := ⟨800, 600, fun _ _ => 0⟩

theorem partial_repaint_iff_below :
    (repaint font8x16 oneTerminal (400, 300) emptyScreen [⟨19, 0, 322, 222⟩, ⟨400, 300, 12, 18⟩]).pixels
      45 15 = 0xFF3A6EA5 := by
  have sized : Sized emptyScreen.w emptyScreen.h := by constructor <;> decide
  have inside : ∀ r ∈ [(⟨19, 0, 322, 222⟩ : Rect), ⟨400, 300, 12, 18⟩], InScreen emptyScreen r := by
    simp only [List.mem_cons, List.not_mem_nil, or_false, forall_eq_or_imp, forall_eq]
    refine ⟨?_, ?_⟩ <;> constructor <;> decide
  have disjoint : [(⟨19, 0, 322, 222⟩ : Rect), ⟨400, 300, 12, 18⟩].Pairwise fun a b =>
      ∀ pixel, ¬ (Holds a pixel ∧ Holds b pixel) := by
    refine .cons ?_ (List.pairwise_singleton _ _)
    intro b member pixel
    rw [List.mem_singleton.mp member]
    exact disjoint_of_apart (by decide) pixel
  have clean : [(⟨19, 0, 322, 222⟩ : Rect), ⟨400, 300, 12, 18⟩].Pairwise fun earlier later =>
      ¬ Spoils font8x16 oneTerminal (400, 300) emptyScreen earlier later := by
    refine .cons ?_ (List.pairwise_singleton _ _)
    rintro later member ⟨meets, _⟩
    rw [List.mem_singleton.mp member] at meets
    exact absurd meets (by decide)
  have same := (partial_repaint_iff font8x16 oneTerminal (400, 300) emptyScreen sized _ inside
    disjoint).mpr clean ⟨19, 0, 322, 222⟩ (by simp) 45 15 (by decide)
  rw [same]
  decide +kernel

/-- The cursor has moved over the free part of the header: the second rectangle draws the
whole line again, over the title bar of the terminal. -/
theorem header_drawn_over_window :
    InScreen emptyScreen ⟨19, 0, 322, 222⟩ ∧ InScreen emptyScreen ⟨400, 12, 12, 18⟩ ∧
    touching ⟨19, 0, 322, 222⟩ ⟨400, 12, 12, 18⟩ = false ∧
    Holds ⟨19, 0, 322, 222⟩ (45, 15) ∧
    (repaint font8x16 oneTerminal (400, 12) emptyScreen
      [⟨19, 0, 322, 222⟩, ⟨400, 12, 12, 18⟩]).pixels 45 15 = cHeader ∧
    (fullRepaint font8x16 oneTerminal (400, 12) emptyScreen).pixels 45 15 = 0xFF3A6EA5 := by
  refine ⟨?_, ?_, by decide, by decide, by decide +kernel, by decide +kernel⟩ <;>
    constructor <;> decide

end Shizuku.Gui
