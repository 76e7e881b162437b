import Shizuku.Mouse
import Shizuku.WindowUpkeep
import Shizuku.WordMemory

/-!
The compositor thread of `gui/wm.rs` and what happens around it. A turn of its loop has six
phases, between which the mouse interrupt, terminal output and the function keys come in at
any time. Damage is collected in the first five; the last one repaints it in the back buffer
and copies its rows into the frame buffer, which is a byte memory with some unused bytes at the
end of each row.
-/

namespace Shizuku.Gui

open Absorption ByteMemory Machine RowMajor Terminals WordMemory

/-- The mode of the screen. Neither `fb.rs` nor `init` checks it: 32 bits for each pixel are assumed, and
that the page allocator has had a back buffer of four bytes for each pixel, whose number is then an `i32`. -/
structure Display where
  width : Nat
  height : Nat
  pitch : Nat
  wide : 0 < width ∧ width < 2 ^ 30
  tall : 0 < height ∧ height < 2 ^ 30
  cells : width * height < 2 ^ 31
  rows : 4 * width ≤ pitch

inductive Phase where
  | terminal
  | input
  | cursor
  | animate
  | refresh
  | present
  deriving DecidableEq

/-- The statics of the module, those of `mouse.rs` and `vterm.rs`, and the frame buffer. -/
structure Desktop where
  wm : Wm
  vt : Vterms
  vtWin : Nat → Int
  animate : Nat → Bool
  wantNewTerm : Bool
  mouse : Mouse
  cursorPrev : Int × Int
  bb : Surface
  fb : Nat → UInt8
  phase : Phase

def Desktop.pointer (d : Desktop) : Int × Int := (d.mouse.x, d.mouse.y)

def onVtDirty (font : Font) (d : Desktop) (vt : Nat) : Desktop :=
  if vt < vtMax ∧ 0 ≤ d.vtWin vt then
    { d with wm := markDirty d.wm (d.vtWin vt) (paintTerminal font d.vt (d.wm.wins (d.vtWin vt).toNat)) }
  else d

def Desktop.putc (font : Font) (d : Desktop) (id : Nat) (c : UInt8) : Outcome Desktop := do
  let put ← d.vt.putcVt id c
  let d := { d with vt := put.2 }
  return put.1.elim d (onVtDirty font d)

def onFnKey (d : Desktop) (f : Int) : Desktop := if f = 1 then { d with wantNewTerm := true } else d

def termTitle (vt : Nat) : List UInt8 := [116, 101, 114, 109, UInt8.ofNat (48 + vt)]

def GuiWindow.bindTo (win : GuiWindow) (font : Font) (t : Vterms) (vt : Nat) : GuiWindow :=
  { win with vt := vt, onPaint := some (paintTerminal font t { win with vt := vt }) }

def bindTerminal (font : Font) (d : Desktop) (wid vt : Nat) : Desktop :=
  { d with
    wm := { d.wm.setWin wid ((d.wm.wins wid).bindTo font d.vt vt) with routeVt := vt }
    vtWin := fun i => if i = vt then wid else d.vtWin i }

def terminalWindow (font : Font) (d : Desktop) (title : List UInt8) (x y vt : Int) (allocated : Bool) :
    Outcome (Int × Desktop) := do
  let w := i32 (vtCols * fontW + 8)
  let h := i32 (vtRows * fontH + 8)
  let made ← createWindow font d.wm title x y w h
    (some (terminalPicture font (terminalLine d.vt (-1)) w h fun _ _ => 0)) allocated
  let d := { d with wm := made.2 }
  return (made.1, match made.1, vt with
    | .ofNat wid, .ofNat vt => bindTerminal font d wid vt
    | _, _ => d)

/-- The shell that is spawned for the terminal is not part of this model. -/
def newTerminal (font : Font) (d : Desktop) (allocated : Bool) : Outcome Desktop :=
  match d.vt.create with
  | (.negSucc _, _) => .ok d
  | (.ofNat vt, terms) => do
      let made ← terminalWindow font { d with vt := terms } (termTitle vt) (100 + 40 * vt)
        (120 + 40 * vt) vt allocated
      return made.2

def openTerminal (font : Font) (d : Desktop) (allocated : Bool) : Outcome Desktop :=
  if d.wantNewTerm then newTerminal font { d with wantNewTerm := false } allocated else .ok d

def Desktop.updateMouse (disp : Display) (d : Desktop) : Outcome Desktop := do
  let wm ← wmUpdateMouse (i32 disp.width) (i32 disp.height) d.wm d.mouse.x d.mouse.y d.mouse.buttons
  return { d with wm := wm }

def moveCursor (d : Desktop) : Desktop :=
  if d.mouse.x ≠ d.cursorPrev.1 ∨ d.mouse.y ≠ d.cursorPrev.2 then
    let dirty := if 0 ≤ d.cursorPrev.1 then d.wm.dirty.addXywh d.cursorPrev.1 d.cursorPrev.2 12 18
      else d.wm.dirty
    { d with
      wm := { d.wm with dirty := dirty.addXywh d.mouse.x d.mouse.y 12 18 }
      cursorPrev := d.pointer }
  else d

/-- One turn; the hook of an animated window paints another picture each time. -/
def animateWindow (pictures : Nat → Picture) (d : Desktop) (i : Nat) : Desktop :=
  if (d.wm.wins i).used ∧ d.animate i then { d with wm := markDirty d.wm i (pictures i) } else d

def animateWindows (d : Desktop) (pictures : Nat → Picture) : Desktop :=
  (List.range guiMaxWindows).foldl (animateWindow pictures) d

def refreshFrames (font : Font) (d : Desktop) : Desktop :=
  { d with wm := { d.wm with wins := refresh font d.wm.wins } }

def pixelByte (picture : Picture) (x y : Int) : UInt8 :=
  UInt8.ofNat ((picture (x / 4) y).toNat / 256 ^ (x % 4).toNat)

def flipRow (disp : Display) (bb : Surface) (r : Rect) (fb : Nat → UInt8) (y : Int) : Nat → UInt8 :=
  ByteMemory.blit fb (asUsize y * disp.pitch + asUsize r.x * 4)
    ((List.range (asUsize r.w * 4)).map fun (k : Nat) => pixelByte bb.pixels (4 * r.x + k) y)

def flipRect (disp : Display) (bb : Surface) (fb : Nat → UInt8) (r : Rect) : Nat → UInt8 :=
  (Int.range r.y r.bottom).foldl (flipRow disp bb r) fb

def presentDamage (font : Font) (disp : Display) (d : Desktop) : Desktop :=
  match d.wm.dirty.flush dirtyMaxRects with
  | (dr, dirty) =>
      let d := { d with wm := { d.wm with dirty := dirty } }
      if dr = [] then d
      else
        let bb := repaint font d.wm.wins d.pointer d.bb dr
        { d with bb := bb, fb := dr.foldl (flipRect disp bb) d.fb }

inductive DeskOp where
  | mouse (b : UInt8)
  | putc (id : Nat) (c : UInt8)
  | functionKey (f : Int)
  | compositor (allocated : Bool) (pictures : Nat → Picture)

def compose (font : Font) (disp : Display) (d : Desktop) (allocated : Bool)
    (pictures : Nat → Picture) : Outcome Desktop :=
  match d.phase with
  | .terminal => do
      let d ← openTerminal font d allocated
      return { d with phase := .input }
  | .input => do
      let d ← d.updateMouse disp
      return { d with phase := .cursor }
  | .cursor => .ok { moveCursor d with phase := .animate }
  | .animate => .ok { animateWindows d pictures with phase := .refresh }
  | .refresh => .ok { refreshFrames font d with phase := .present }
  | .present => .ok { presentDamage font disp d with phase := .terminal }

def deskStep (font : Font) (disp : Display) (d : Desktop) : DeskOp → Outcome (Unit × Desktop)
  | .mouse b => .ok ((), { d with mouse := irqHandler disp.width disp.height d.mouse b })
  | .putc id c => do
      let d ← d.putc font id c
      return ((), d)
  | .functionKey f => .ok ((), onFnKey d f)
  | .compositor allocated pictures => do
      let d ← compose font disp d allocated pictures
      return ((), d)

def Displays (disp : Display) (fb : Nat → UInt8) (px py : Int) (colour : UInt32) : Prop :=
  slice fb (py.toNat * disp.pitch + px.toNat * 4) 4 = toBytes 4 colour.toNat

def Margin (disp : Display) (addr : Nat) : Prop :=
  ∀ x y : Int, InGrid (4 * disp.width) disp.height x y → place disp.pitch x y ≠ addr

section Flip
variable (disp : Display)

theorem byte_inGrid {x y : Int} (inside : InGrid (4 * disp.width) disp.height x y) :
    InGrid disp.pitch disp.height x y := by
  have rows := disp.rows
  obtain ⟨⟨left, right⟩, vertical⟩ := inside
  exact ⟨⟨left, by omega⟩, vertical⟩

theorem place_pixel {px py : Int} (screen : OnScreen disp.width disp.height (px, py)) (k : Nat)
    (small : k < 4) :
    InGrid (4 * disp.width) disp.height (4 * px + k) py ∧
      place disp.pitch (4 * px + k) py = py.toNat * disp.pitch + px.toNat * 4 + k := by
  obtain ⟨⟨left, right⟩, top, bottom⟩ := screen
  simp only at left right top bottom
  have inside : InGrid (4 * disp.width) disp.height (4 * px + k) py := ⟨⟨by omega, by omega⟩, top, bottom⟩
  refine ⟨inside, ?_⟩
  have cast := place_cast (byte_inGrid disp inside)
  have rows : ((py.toNat * disp.pitch : Nat) : Int) = py * disp.pitch := by
    rw [Nat.cast_mul, Int.toNat_of_nonneg top]
  omega

theorem slice_four (mem : Nat → UInt8) (a : Nat) :
    slice mem a 4 = [mem (a + 0), mem (a + 1), mem (a + 2), mem (a + 3)] := rfl

theorem toBytes_four (v : Nat) :
    toBytes 4 v = [UInt8.ofNat (v / 256 ^ 0), UInt8.ofNat (v / 256 ^ 1), UInt8.ofNat (v / 256 ^ 2),
      UInt8.ofNat (v / 256 ^ 3)] := by
  simp only [toBytes, Nat.div_div_eq_div_mul, pow_zero, Nat.div_one]
  norm_num

theorem pixelByte_four (picture : Picture) (px py : Int) (k : Nat) (small : k < 4) :
    pixelByte picture (4 * px + k) py = UInt8.ofNat ((picture px py).toNat / 256 ^ k) := by
  have column : (4 * px + k) / 4 = px := by omega
  have byte : ((4 * px + k) % 4).toNat = k := by omega
  rw [pixelByte, column, byte]

def ByteOf (r : Rect) (x y : Int) : Prop := (4 * r.x ≤ x ∧ x < 4 * (r.x + r.w)) ∧ r.y ≤ y ∧ y < r.y + r.h

section Rows
variable {disp} {r : Rect} (inside : InBounds disp.width disp.height r) (bb : Surface)
include inside

theorem flipRow_painted (fb : Nat → UInt8) {y : Int} (row : r.y ≤ y ∧ y < r.y + r.h) :
    Painted disp.pitch disp.height (fun x' y' => (4 * r.x ≤ x' ∧ x' < 4 * (r.x + r.w)) ∧ y' = y)
      (pixelByte bb.pixels) fb (flipRow disp bb r fb y) := by
  obtain ⟨⟨left, width, right⟩, top, height, bottom⟩ := inside
  obtain ⟨_, wide⟩ := disp.wide
  obtain ⟨_, tall⟩ := disp.tall
  have pitch := disp.rows
  have start : InGrid disp.pitch disp.height (4 * r.x) y := ⟨⟨by omega, by omega⟩, by omega, by omega⟩
  have at_ : asUsize y * disp.pitch + asUsize r.x * 4 = place disp.pitch (4 * r.x) y := by
    rw [asUsize_eq (by omega) (by omega), asUsize_eq (by omega) (by omega)]
    have cast := place_cast start
    have rows : ((y.toNat * disp.pitch : Nat) : Int) = y * disp.pitch := by
      rw [Nat.cast_mul, Int.toNat_of_nonneg (by omega)]
    omega
  rw [flipRow, at_, asUsize_eq (z := r.w) (by omega) (by omega)]
  have painted := painted_row (pixelByte bb.pixels) fb
    ((List.range (r.w.toNat * 4)).map fun (k : Nat) => pixelByte bb.pixels (4 * r.x + k) y) start
    (by rw [List.length_map, List.length_range]; omega) (fun k _ => by simp)
  refine painted.congr fun x' y' _ => ?_
  rw [List.length_map, List.length_range]
  omega

theorem flipRect_painted (fb : Nat → UInt8) :
    Painted disp.pitch disp.height (ByteOf r) (pixelByte bb.pixels) fb (flipRect disp bb fb r) := by
  have bottom : r.bottom = r.y + r.h := by
    obtain ⟨_, top, height, low⟩ := inside
    obtain ⟨_, tall⟩ := disp.tall
    exact i32_eq (by omega) (by omega)
  have round : ∀ y ∈ Int.range r.y r.bottom, ∀ cells,
      Painted disp.pitch disp.height (fun x' y' => (4 * r.x ≤ x' ∧ x' < 4 * (r.x + r.w)) ∧ y' = y)
        (pixelByte bb.pixels) cells (flipRow disp bb r cells y) := by
    intro y member cells
    rw [Int.mem_range_iff, bottom] at member
    exact flipRow_painted inside bb cells member
  refine (foldl_painted _ _ _ round fb).congr fun x' y' _ => ?_
  simp only [Int.mem_range_iff, bottom, ByteOf]
  constructor
  · rintro ⟨columns, rows⟩
    exact ⟨y', rows, columns, rfl⟩
  · rintro ⟨y, rows, columns, rfl⟩
    exact ⟨columns, rows⟩

end Rows

theorem flip_displays {disp : Display} (bb : Surface) (fb : Nat → UInt8) {rects : List Rect}
    (inside : ∀ r ∈ rects, InBounds disp.width disp.height r) :
    (∀ px py, OnScreen disp.width disp.height (px, py) → Covered Holds rects (px, py) →
      Displays disp (rects.foldl (flipRect disp bb) fb) px py (bb.pixels px py)) ∧
    (∀ px py colour, OnScreen disp.width disp.height (px, py) → ¬ Covered Holds rects (px, py) →
      Displays disp fb px py colour → Displays disp (rects.foldl (flipRect disp bb) fb) px py colour) ∧
    ∀ addr, Margin disp addr → rects.foldl (flipRect disp bb) fb addr = fb addr := by
  have round : ∀ r ∈ rects, ∀ cells, Painted disp.pitch disp.height (ByteOf r) (pixelByte bb.pixels)
      cells (flipRect disp bb cells r) :=
    fun r member cells => flipRect_painted (inside r member) bb cells
  have painted := foldl_painted ByteOf (pixelByte bb.pixels) rects round fb
  have holds : ∀ r ∈ rects, ∀ px py (k : Nat), k < 4 → (ByteOf r (4 * px + k) py ↔ Holds r (px, py)) := by
    intro r member px py k small
    obtain ⟨⟨left, width, right⟩, top, height, bottom⟩ := inside r member
    obtain ⟨_, wide⟩ := disp.wide
    obtain ⟨_, tall⟩ := disp.tall
    have ends : r.right = r.x + r.w ∧ r.bottom = r.y + r.h :=
      ⟨i32_eq (by omega) (by omega), i32_eq (by omega) (by omega)⟩
    simp only [ByteOf, Holds, ends.1, ends.2]
    omega
  have covered : ∀ px py (k : Nat), k < 4 →
      ((∃ r ∈ rects, ByteOf r (4 * px + k) py) ↔ Covered Holds rects (px, py)) := by
    intro px py k small
    exact exists_congr fun r => and_congr_right fun member => holds r member px py k small
  refine ⟨fun px py screen hit => ?_, fun px py colour screen missed before => ?_,
    fun addr margin => painted.outside addr ?_⟩
  · have byte : ∀ k < 4, rects.foldl (flipRect disp bb) fb
        (py.toNat * disp.pitch + px.toNat * 4 + k) =
        UInt8.ofNat ((bb.pixels px py).toNat / 256 ^ k) := by
      intro k small
      obtain ⟨within, at_⟩ := place_pixel disp screen k small
      rw [← at_, painted.inside _ _ (byte_inGrid disp within) ((covered px py k small).mpr hit),
        pixelByte_four bb.pixels px py k small]
    rw [Displays, slice_four, toBytes_four, byte 0 (by decide), byte 1 (by decide),
      byte 2 (by decide), byte 3 (by decide)]
  · rw [Displays, ← before]
    apply slice_congr
    intro addr low high
    obtain ⟨k, small, rfl⟩ : ∃ k < 4, addr = py.toNat * disp.pitch + px.toNat * 4 + k :=
      ⟨addr - (py.toNat * disp.pitch + px.toNat * 4), by omega, by omega⟩
    obtain ⟨within, at_⟩ := place_pixel disp screen k small
    classical
    rw [← at_, painted.pixel (byte_inGrid disp within),
      if_neg (fun hit => missed ((covered px py k small).mp hit))]
  · rintro x y _ ⟨r, member, byte⟩ same
    obtain ⟨⟨left, width, right⟩, top, height, bottom⟩ := inside r member
    obtain ⟨columns, rows⟩ := byte
    exact margin x y ⟨⟨by omega, by omega⟩, by omega, by omega⟩ same

end Flip

end Shizuku.Gui
