import Shizuku.PixelSurfaces
import Shizuku.Vterm
import Shizuku.WindowDamage

/-!
What the windows show. Every painting operation of `gui/wm.rs` overwrites some pixels of a
surface whatever was there, so a frame that has just been rendered is current, and only the
pixels inside the body matter for it. `paint_terminal` leaves the rows of a terminal in the
body of its window, one glyph for each character.
-/

namespace Shizuku.Gui

open RowMajor Terminals

/-- On surfaces of this size: some pixels inside get colours that do not depend on the old. -/
def Overlays (w h : Int) (op : Surface → Surface) : Prop :=
  ∃ colour : Int → Int → Option UInt32, (∀ x y, ¬ InGrid w h x y → colour x y = none) ∧
    ∀ s, s.w = w → s.h = h → op s = s.paint colour

section Overlays
variable {w h : Int} {f g : Surface → Surface}

theorem paint_paint (s : Surface) (one two : Int → Int → Option UInt32) :
    (s.paint one).paint two = s.paint fun x y => (two x y).or (one x y) := by
  unfold Surface.paint
  congr 1
  funext x y
  cases here : two x y <;> simp only [here, Option.getD_none, Option.getD_some, Option.none_or,
    Option.some_or]

theorem Overlays.comp (first : Overlays w h f) (second : Overlays w h g) :
    Overlays w h fun s => g (f s) := by
  obtain ⟨one, inside, paints⟩ := first
  obtain ⟨two, inside', paints'⟩ := second
  refine ⟨fun x y => (two x y).or (one x y), fun x y outside => ?_, fun s wide tall => ?_⟩
  · simp only [inside x y outside, inside' x y outside, Option.or_none]
  · calc g (f s) = g (s.paint one) := by rw [paints s wide tall]
      _ = (s.paint one).paint two := paints' (s.paint one) wide tall
      _ = s.paint fun x y => (two x y).or (one x y) := paint_paint s one two

theorem Overlays.again (overlays : Overlays w h f) {s : Surface} (wide : s.w = w) (tall : s.h = h) :
    f (f s) = f s := by
  obtain ⟨colour, _, paints⟩ := overlays
  have twice := paints (s.paint colour) wide tall
  rw [paints s wide tall, twice, paint_paint]
  simp only [Option.or_self]

theorem Overlays.size (overlays : Overlays w h f) {s : Surface} (wide : s.w = w) (tall : s.h = h) :
    (f s).w = w ∧ (f s).h = h := by
  obtain ⟨colour, _, paints⟩ := overlays
  rw [paints s wide tall]
  exact ⟨wide, tall⟩

theorem Overlays.ext (one : Overlays w h f) (two : Overlays w h g) {s : Surface} (wide : s.w = w)
    (tall : s.h = h) (same : ∀ x y, InGrid w h x y → (f s).pixels x y = (g s).pixels x y) :
    f s = g s := by
  obtain ⟨colour, inside, paints⟩ := one
  obtain ⟨other, inside', paints'⟩ := two
  rw [paints s wide tall, paints' s wide tall] at same ⊢
  unfold Surface.paint at same ⊢
  congr 1
  funext x y
  by_cases within : InGrid w h x y
  · exact same x y within
  · simp only [inside x y within, inside' x y within]

theorem Overlays.nothing (same : ∀ s, s.w = w → s.h = h → f s = s) : Overlays w h f :=
  ⟨fun _ _ => none, fun _ _ _ => rfl, same⟩

theorem Overlays.patch (r : Rect) (colour : Int → Int → UInt32)
    (same : ∀ s, s.w = w → s.h = h → f s = s.paint fun x y =>
      if (r.cut w h).Covers x y then some (colour x y) else none) : Overlays w h f := by
  refine ⟨_, fun x y outside => ?_, same⟩
  rw [if_neg fun covered => outside (cut_placed r covered)]

theorem fillRect_overlays (sized : Sized w h) {r : Rect} (plain : Plain r) (colour : UInt32) :
    Overlays w h fun s => fillRect s r colour := by
  unfold fillRect
  by_cases some_ : 0 < (r.cut w h).w ∧ 0 < (r.cut w h).h
  · apply Overlays.patch r fun _ _ => colour
    rintro s rfl rfl
    obtain ⟨right, bottom⟩ := cut_ends sized some_
    simp only [clipped_some sized plain some_, right, bottom, Rect.covers_iff]
  · apply Overlays.nothing
    rintro s rfl rfl
    simp only [clipped_none sized plain some_]

theorem blit_overlays (sized : Sized w h) {dx dy : Int} {src : Surface}
    (plain : Plain ⟨dx, dy, src.w, src.h⟩) : Overlays w h fun s => blit s dx dy src := by
  unfold blit
  generalize (⟨dx, dy, src.w, src.h⟩ : Rect) = r at plain
  by_cases some_ : 0 < (r.cut w h).w ∧ 0 < (r.cut w h).h
  · apply Overlays.patch r fun x y => src.pixels (x - dx) (y - dy)
    rintro s rfl rfl
    simp only [clipped_some sized plain some_, Rect.covers_iff]
  · apply Overlays.nothing
    rintro s rfl rfl
    simp only [clipped_none sized plain some_]

theorem textAt_outside (font : Font) (x y : Int) (str : List UInt8) (fg bg : UInt32) {px py : Int}
    (outside : ¬ InGrid w h px py) : textAt font w h x y str fg bg px py = none := by
  induction str generalizing x with
  | nil => rfl
  | cons c rest ih =>
      have missed : ¬ (x ≤ px ∧ px < x + fontW ∧ y ≤ py ∧ py < y + fontH ∧
          0 ≤ px ∧ px < w ∧ 0 ≤ py ∧ py < h) :=
        fun ⟨_, _, _, _, left, right, top, bottom⟩ => outside ⟨⟨left, right⟩, top, bottom⟩
      rw [textAt, ih, if_neg missed]
      exact ite_self none

theorem drawString_overlays (font : Font) (x y : Int) (str : List UInt8) (fg bg : UInt32) :
    Overlays w h fun s => drawString font s x y str fg bg := by
  refine ⟨textAt font w h x y str fg bg, fun px py => textAt_outside font x y str fg bg,
    fun s wide tall => ?_⟩
  obtain ⟨sameW, sameH⟩ := drawString_size font s x y str fg bg
  have pixels : (drawString font s x y str fg bg).pixels =
      (s.paint (textAt font w h x y str fg bg)).pixels := by
    funext px py
    rw [drawString_pixels, wide, tall]
    rfl
  calc drawString font s x y str fg bg
      = ⟨_, _, (drawString font s x y str fg bg).pixels⟩ := rfl
    _ = s.paint (textAt font w h x y str fg bg) := by
      rw [sameW, sameH, pixels]
      rfl

end Overlays

structure Placed (win : GuiWindow) : Prop where
  wide : 0 ≤ win.w ∧ win.w ≤ 2 ^ 20
  tall : 0 ≤ win.h ∧ win.h ≤ 2 ^ 20
  across : -2 ^ 30 ≤ win.x ∧ win.x ≤ 2 ^ 30
  down : -2 ^ 30 ≤ win.y ∧ win.y ≤ 2 ^ 30

def chromeOver (font : Font) (win : GuiWindow) (s : Surface) : Surface :=
  let bar := if win.focused then cTitleAct else cTitleIna
  let f := fillRect s ⟨0, 0, i32 (win.w + 2), i32 (win.h + guiTitleH + 2)⟩ cBorder
  let f := fillRect f ⟨frameBx, frameBx, win.w, guiTitleH⟩ bar
  let f := drawString font f (frameBx + 6) (frameBx + 2) win.title cTitleTxt bar
  fillRect f ⟨i32 (frameBx + win.w - 22), frameBx + 4, 12, 12⟩
    (if win.focused then 0xFFC0505D else 0xFF777777)

def renderOver (font : Font) (win : GuiWindow) (s : Surface) : Surface :=
  blit (chromeOver font win s) frameBx frameBy ⟨win.w, win.h, win.onPaint.getD win.body⟩

theorem frameRender_frame (font : Font) (win : GuiWindow) :
    (frameRender font win).frame = (renderOver font win win.frameSurface).pixels := by
  unfold frameRender renderOver frameRenderChrome chromeOver
  rfl

section Frames
variable {font : Font} {win : GuiWindow} (placed : Placed win)
include placed

theorem Placed.frameSize : win.frameSurface.w = win.w + 2 ∧ win.frameSurface.h = win.h + 22 := by
  obtain ⟨wide, tall, _, _⟩ := placed
  simp only [GuiWindow.frameSurface, guiTitleH]
  rw [i32_eq (by omega) (by omega), i32_eq (by omega) (by omega)]
  omega

theorem Placed.sized : Sized (win.w + 2) (win.h + 22) where
  width := by have := placed.wide; omega
  height := by have := placed.tall; omega
  wide := by have := placed.wide; omega
  tall := by have := placed.tall; omega

theorem Placed.body_plain : Plain ⟨frameBx, frameBy, win.w, win.h⟩ := by
  obtain ⟨wide, tall, _, _⟩ := placed
  constructor <;> simp only [frameBx, frameBy, guiTitleH] <;> omega

theorem Placed.footprint :
    windowRectScreen win = ⟨win.x - 1, win.y - 21, win.w + 2, win.h + 22⟩ := by
  obtain ⟨wide, tall, across, down⟩ := placed
  simp only [windowRectScreen, frameBx, guiTitleH]
  rw [i32_eq (by omega) (by omega), i32_eq (by omega) (by omega), i32_eq (by omega) (by omega),
    i32_eq (by omega) (by omega)]
  congr 1 <;> ring

theorem Placed.footprint_plain : Plain (windowRectScreen win) := by
  rw [placed.footprint]
  obtain ⟨wide, tall, across, down⟩ := placed
  constructor <;> simp only <;> omega

theorem chrome_overlays (font : Font) : Overlays (win.w + 2) (win.h + 22) (chromeOver font win) := by
  have sized := placed.sized
  obtain ⟨wide, tall, _, _⟩ := placed
  have border : Plain ⟨0, 0, i32 (win.w + 2), i32 (win.h + guiTitleH + 2)⟩ := by
    simp only [guiTitleH]
    rw [i32_eq (by omega) (by omega), i32_eq (by omega) (by omega)]
    constructor <;> simp only <;> omega
  have title : Plain ⟨frameBx, frameBx, win.w, guiTitleH⟩ := by
    constructor <;> simp only [frameBx, guiTitleH] <;> omega
  have button : Plain ⟨i32 (frameBx + win.w - 22), frameBx + 4, 12, 12⟩ := by
    simp only [frameBx]
    rw [i32_eq (by omega) (by omega)]
    constructor <;> simp only <;> omega
  exact (((fillRect_overlays sized border _).comp (fillRect_overlays sized title _)).comp
    (drawString_overlays font _ _ _ _ _)).comp (fillRect_overlays sized button _)

theorem render_overlays (font : Font) : Overlays (win.w + 2) (win.h + 22) (renderOver font win) :=
  (chrome_overlays placed font).comp (blit_overlays placed.sized placed.body_plain)

theorem frameRender_placed : Placed (frameRender font win) :=
  ⟨placed.wide, placed.tall, placed.across, placed.down⟩

theorem frameRender_surface :
    (frameRender font win).frameSurface = renderOver font win win.frameSurface := by
  obtain ⟨wide, tall⟩ := placed.frameSize
  obtain ⟨colour, _, paints⟩ := render_overlays placed font
  have rendered := paints win.frameSurface wide tall
  rw [rendered]
  show (⟨_, _, (renderOver font win win.frameSurface).pixels⟩ : Surface) = _
  rw [rendered]
  rfl

theorem frameRender_current : Current font (frameRender font win) := by
  have same : renderOver font (frameRender font win) = renderOver font win := by
    unfold renderOver chromeOver frameRender
    cases win.onPaint <;> rfl
  obtain ⟨wide, tall⟩ := placed.frameSize
  rw [Current, frameRender_frame, same, frameRender_surface placed,
    (render_overlays placed font).again wide tall, frameRender_frame]

theorem frame_body {x y : Int} (inside : InGrid win.w win.h x y) :
    (frameRender font win).frame (x + frameBx) (y + frameBy) = (win.onPaint.getD win.body) x y := by
  obtain ⟨wide, tall⟩ := placed.frameSize
  obtain ⟨sameW, sameH⟩ := (chrome_overlays placed font).size wide tall
  have sized : Sized (chromeOver font win win.frameSurface).w
      (chromeOver font win win.frameSurface).h := by
    rw [sameW, sameH]
    exact placed.sized
  have within : InGrid (chromeOver font win win.frameSurface).w
      (chromeOver font win win.frameSurface).h (x + frameBx) (y + frameBy) := by
    obtain ⟨⟨left, right⟩, top, bottom⟩ := inside
    rw [sameW, sameH]
    simp only [frameBx, frameBy, guiTitleH, InGrid]
    omega
  rw [frameRender_frame, renderOver, blit_shows _ _ sized placed.body_plain within]
  rw [Int.add_sub_cancel, Int.add_sub_cancel, if_pos inside]

structure Alike (win other : GuiWindow) : Prop where
  title : other.title = win.title
  w : other.w = win.w
  h : other.h = win.h
  focused : other.focused = win.focused
  frame : other.frame = win.frame
  shows : ∀ x y, InGrid win.w win.h x y →
    (other.onPaint.getD other.body) x y = (win.onPaint.getD win.body) x y

theorem Alike.current {other : GuiWindow} (alike : Alike win other) (current : Current font win) :
    Current font other := by
  obtain ⟨title, w, h, focused, frame, shows⟩ := alike
  obtain ⟨wide, tall⟩ := placed.frameSize
  have surface : other.frameSurface = win.frameSurface := by
    unfold GuiWindow.frameSurface
    rw [w, h, frame]
  have chrome : chromeOver font other = chromeOver font win := by
    unfold chromeOver
    rw [title, w, h, focused]
  have size := (chrome_overlays placed font).size wide tall
  have sized := placed.sized
  have plain : Plain ⟨frameBx, frameBy, other.w, other.h⟩ := by
    rw [w, h]
    exact placed.body_plain
  have overlays : Overlays (win.w + 2) (win.h + 22) (renderOver font other) := by
    unfold renderOver
    rw [chrome]
    exact (chrome_overlays placed font).comp (blit_overlays sized plain)
  have same : renderOver font other win.frameSurface = renderOver font win win.frameSurface := by
    apply overlays.ext (render_overlays placed font) wide tall
    intro x y inside
    rw [← size.1, ← size.2] at sized inside
    rw [renderOver, renderOver, chrome, blit_shows _ _ sized plain inside,
      blit_shows _ _ sized placed.body_plain inside]
    simp only [w, h]
    exact ite_congr rfl (shows _ _) fun _ => rfl
  rw [Current, frameRender_frame] at current ⊢
  rw [surface, same, current, frame]

end Frames

/-- A line that fits shows its characters up to the first NUL, each in its own columns. -/
theorem textAt_row (font : Font) {w h x y : Int} (str : List UInt8) (fg bg : UInt32) {px py : Int}
    (small : w < 2 ^ 31) (left : 0 ≤ x) (fits : x + fontW * str.length ≤ w)
    (inside : InGrid w h px py) :
    textAt font w h x y str fg bg px py =
      if x ≤ px ∧ y ≤ py ∧ py < y + fontH then
        ((str.takeWhile (· ≠ 0))[((px - x) / fontW).toNat]?).map fun c =>
          if glyph font c ((px - x) % fontW) (py - y) then fg else bg
      else none := by
  induction str generalizing x with
  | nil => simp [textAt]
  | cons c rest ih =>
      have eight : fontW = 8 := rfl
      have room : x + fontW ≤ w ∧ x + fontW + fontW * rest.length ≤ w := by
        rw [List.length_cons, Nat.cast_add, Nat.cast_one, mul_add, mul_one] at fits
        have rest_ : 0 ≤ fontW * (rest.length : Int) := mul_nonneg (by decide) (Int.natCast_nonneg _)
        omega
      have next : i32 (x + fontW) = x + fontW := i32_eq (by omega) (by omega)
      by_cases nul : c = 0
      · simp [textAt, nul]
      · have drawn : ¬ (c = 0 ∨ i32 (x + fontW) > w) := by
          rw [next]
          rintro (zero | over_)
          · exact nul zero
          · omega
        rw [textAt, if_neg drawn, next, ih (by omega) room.2,
          List.takeWhile_cons_of_pos (by simpa using nul)]
        by_cases line : x ≤ px ∧ y ≤ py ∧ py < y + fontH
        · obtain ⟨from_, top, bottom⟩ := line
          obtain ⟨columns, rows⟩ := inside
          by_cases here : px < x + fontW
          · -- the columns of the first character
            have first : (px - x) / fontW = 0 := Int.ediv_eq_zero_of_lt (by omega) (by omega)
            have column : (px - x) % fontW = px - x := Int.emod_eq_of_lt (by omega) (by omega)
            have shown : x ≤ px ∧ y ≤ py ∧ py < y + fontH := ⟨from_, top, bottom⟩
            rw [if_neg (fun shown => absurd shown.1 (by omega)), if_pos shown, first, column,
              if_pos ⟨from_, here, top, bottom, columns.1, columns.2, rows⟩]
            rfl
          · have later : ((px - x) / fontW).toNat = ((px - (x + fontW)) / fontW).toNat + 1 := by
              simp only [fontW] at here ⊢
              omega
            have column : (px - (x + fontW)) % fontW = (px - x) % fontW := by
              simp only [fontW]
              omega
            have beyond : x + fontW ≤ px := by omega
            rw [if_pos ⟨beyond, top, bottom⟩, if_neg (fun shown => here shown.2.1), Option.or_none,
              if_pos ⟨from_, top, bottom⟩, later, column, List.getElem?_cons_succ]
        · rw [if_neg (fun shown => line ⟨by omega, shown.2⟩),
            if_neg (fun shown => line ⟨shown.1, shown.2.2.1, shown.2.2.2.1⟩), if_neg line]
          rfl

/-! ### Terminals -/

def cTermFg : UInt32 := 0xFFD0FFD0
def cTermBg : UInt32 := 0xFF101418

def terminalLine (t : Vterms) (vt : Int) (i : Nat) : List UInt8 :=
  if 0 ≤ vt then (t.row vt.toNat i).getD [] else []

def drawLine (font : Font) (lines : Nat → List UInt8) (body : Surface) (i : Nat) : Surface :=
  drawString font body 4 (4 + i * fontH) (lines i) cTermFg cTermBg

def terminalPicture (font : Font) (lines : Nat → List UInt8) (w h : Int) (body : Picture) : Picture :=
  ((List.range vtRows).foldl (drawLine font lines)
    (fillRect ⟨w, h, body⟩ ⟨0, 0, w, h⟩ cTermBg)).pixels

def paintTerminal (font : Font) (t : Vterms) (win : GuiWindow) : Picture :=
  terminalPicture font (terminalLine t win.vt) win.w win.h win.body

/-- The glyphs of a grid of characters, in the middle of the background. A line ends at its first NUL,
where `draw_string` stops; the cells from there on show the background. -/
def terminalAt (font : Font) (lines : Nat → List UInt8) (x y : Int) : UInt32 :=
  if 4 ≤ x ∧ 4 ≤ y ∧ y < 4 + vtRows * fontH then
    match ((lines ((y - 4) / fontH).toNat).takeWhile (· ≠ 0))[((x - 4) / fontW).toNat]? with
    | some c => if glyph font c ((x - 4) % fontW) ((y - 4) % fontH) then cTermFg else cTermBg
    | none => cTermBg
  else cTermBg

theorem terminalLine_length (t : Vterms) (vt : Int) (i : Nat) :
    (terminalLine t vt i).length ≤ vtCols := by
  unfold terminalLine Vterms.row
  split
  · split
    · exact Nat.zero_le _
    · simp
  · exact Nat.zero_le _

section Lines
variable (font : Font) (lines : Nat → List UInt8) (short : ∀ i, (lines i).length ≤ vtCols)
  {s : Surface} (sized : Sized s.w s.h) (wide : 4 + vtCols * fontW ≤ s.w) {x y : Int}
  (inside : InGrid s.w s.h x y)

theorem lines_size (s : Surface) (n : Nat) :
    ((List.range n).foldl (drawLine font lines) s).w = s.w ∧
      ((List.range n).foldl (drawLine font lines) s).h = s.h :=
  windows_size (drawLine font lines) (fun bb _ => drawString_size font bb _ _ _ _ _) _ s

include short sized wide inside

theorem lines_pixels (n : Nat) :
    ((List.range n).foldl (drawLine font lines) s).pixels x y =
      if 4 ≤ x ∧ 4 ≤ y ∧ y < 4 + n * fontH then
        (((lines ((y - 4) / fontH).toNat).takeWhile (· ≠ 0))[((x - 4) / fontW).toNat]?).elim
          (s.pixels x y) fun c =>
            if glyph font c ((x - 4) % fontW) ((y - 4) % fontH) then cTermFg else cTermBg
      else s.pixels x y := by
  -- The rows do not overlap, so each pixel shows the row it lies in.
  induction n with
  | zero =>
      rw [if_neg (by simp only [fontH]; omega)]
      rfl
  | succ n ih =>
      obtain ⟨sameW, sameH⟩ := lines_size font lines s n
      have fits : 4 + fontW * (lines n).length ≤ s.w := by
        have := short n
        simp only [fontW, vtCols] at this wide ⊢
        omega
      rw [List.range_succ, List.foldl_append, List.foldl_cons, List.foldl_nil, drawLine,
        drawString_pixels, sameW, sameH, ih,
        textAt_row font (lines n) cTermFg cTermBg sized.wide (by decide) fits inside]
      have sixteen : (n + 1 : Nat) * fontH = n * fontH + fontH := by
        rw [Nat.cast_add, Nat.cast_one, add_mul, one_mul]
      have below : 0 ≤ (n : Int) * fontH := mul_nonneg (Int.natCast_nonneg _) (by decide)
      have high : fontH = 16 := rfl
      rw [sixteen]
      by_cases here : 4 + (n : Int) * fontH ≤ y ∧ y < 4 + (n : Int) * fontH + fontH
      · have row : ((y - 4) / fontH).toNat = n := by
          simp only [fontH] at here ⊢
          omega
        have line : (y - 4) % fontH = y - (4 + (n : Int) * fontH) := by
          simp only [fontH] at here ⊢
          omega
        by_cases right : 4 ≤ x
        · rw [if_pos ⟨right, here⟩, if_neg (by omega), if_pos (by omega), row, line]
          cases (List.takeWhile (· ≠ 0) (lines n))[((x - 4) / fontW).toNat]? <;> rfl
        · rw [if_neg (by omega), if_neg (by omega), if_neg (by omega)]
          rfl
      · rw [if_neg (by omega), Option.getD_none]
        exact if_congr (by omega) rfl rfl

end Lines

theorem terminalPicture_pixels (font : Font) (lines : Nat → List UInt8)
    (short : ∀ i, (lines i).length ≤ vtCols) {w h : Int} (sized : Sized w h) (body : Picture)
    (wide : 4 + vtCols * fontW ≤ w) {x y : Int} (inside : InGrid w h x y) :
    terminalPicture font lines w h body x y = terminalAt font lines x y := by
  have whole : Plain ⟨0, 0, w, h⟩ := by
    obtain ⟨across, down, small, low⟩ := sized
    constructor <;> simp only <;> omega
  have covered : (⟨0, 0, w, h⟩ : Rect).Covers x y := by
    simpa only [Rect.Covers, InGrid, Int.zero_add] using inside
  have filled : (fillRect ⟨w, h, body⟩ ⟨0, 0, w, h⟩ cTermBg).pixels x y = cTermBg := by
    rw [fillRect_shows _ sized whole cTermBg inside, if_pos covered]
  obtain ⟨sameW, sameH⟩ := fillRect_size ⟨w, h, body⟩ ⟨0, 0, w, h⟩ cTermBg
  unfold terminalPicture
  generalize fillRect ⟨w, h, body⟩ ⟨0, 0, w, h⟩ cTermBg = s at *
  simp only at sameW sameH
  subst sameW sameH
  rw [lines_pixels font lines short sized wide inside, filled]
  unfold terminalAt
  cases ((lines ((y - 4) / fontH).toNat).takeWhile (· ≠ 0))[((x - 4) / fontW).toNat]? <;> rfl

theorem terminalAt_blank {font : Font} (blank : ∀ row, font space row = 0) {lines : Nat → List UInt8}
    (spaces : ∀ i, ∀ c ∈ lines i, c = space) (x y : Int) : terminalAt font lines x y = cTermBg := by
  unfold terminalAt
  split
  · split
    · next c found =>
        have member := List.mem_of_getElem? found
        have same := spaces _ c ((List.takeWhile_sublist _).mem member)
        rw [same, glyph, blank]
        simp
    · rfl
  · rfl

end Shizuku.Gui
