import Mathlib.Tactic

/-!
Pixel surfaces and the 8x16 font, after `gui/surface.rs` and `gui/font.rs`. Coordinates
are `i32`, and sums of them wrap as in the release build. Every drawing loop writes each
pixel of some area once, so it is given by the colours it paints. The pixel buffer is
addressed by column and row: all accesses are inside the surface, where the row-major
index is a bijection.
-/

namespace Shizuku.Gui

/-- The `i32` with the same low 32 bits. -/
def i32 (z : Int) : Int := (z + 2 ^ 31) % 2 ^ 32 - 2 ^ 31

theorem i32_eq {z : Int} (low : -2 ^ 31 ≤ z) (high : z < 2 ^ 31) : i32 z = z := by
  unfold i32
  omega

structure Rect where
  x : Int
  y : Int
  w : Int
  h : Int
  deriving DecidableEq, Repr

def Rect.right (r : Rect) : Int := i32 (r.x + r.w)

def Rect.bottom (r : Rect) : Int := i32 (r.y + r.h)

structure Surface where
  w : Int
  h : Int
  pixels : Int → Int → UInt32

def Surface.paint (s : Surface) (colour : Int → Int → Option UInt32) : Surface :=
  { s with pixels := fun x y => (colour x y).getD (s.pixels x y) }

def clipToSurface (s : Surface) (r : Rect) : Option Rect :=
  let r := if r.x < 0 then { r with w := i32 (r.w + r.x), x := 0 } else r
  let r := if r.y < 0 then { r with h := i32 (r.h + r.y), y := 0 } else r
  let r := if r.right > s.w then { r with w := i32 (s.w - r.x) } else r
  let r := if r.bottom > s.h then { r with h := i32 (s.h - r.y) } else r
  if 0 < r.w ∧ 0 < r.h then some r else none

def fillRect (s : Surface) (r : Rect) (colour : UInt32) : Surface :=
  match clipToSurface s r with
  | none => s
  | some r => s.paint fun x y =>
      if r.x ≤ x ∧ x < r.right ∧ r.y ≤ y ∧ y < r.bottom then some colour else none

def blit (dst : Surface) (dx dy : Int) (src : Surface) : Surface :=
  match clipToSurface dst ⟨dx, dy, src.w, src.h⟩ with
  | none => dst
  | some r => dst.paint fun x y =>
      if r.x ≤ x ∧ x < r.x + r.w ∧ r.y ≤ y ∧ y < r.y + r.h then
        some (src.pixels (x - dx) (y - dy))
      else none

/-! The font: sixteen rows of eight pixels for every byte. -/

def fontW : Int := 8
def fontH : Int := 16

abbrev Font := UInt8 → Nat → UInt8

/-- `FONT8X16`, with the sixteen rows of a glyph as the bytes of one number, the first row in front. -/
def font8x16Rows : List Nat :=
  [0, 0x7e81a58181bd9981817e00000000, 0x7effdbffffc3e7ffff7e00000000, 0x6cfefefefe7c381000000000,
    0x10387cfe7c38100000000000, 0x183c3ce7e7e718183c00000000, 0x183c7effff7e18183c00000000,
    0x183c3c18000000000000, 0xffffffffffffe7c3c3e7ffffffffffff, 0x3c664242663c0000000000,
    0xffffffffffc399bdbd99c3ffffffffff, 0x1e0e1a3278cccccccc7800000000, 0x3c666666663c187e181800000000,
    0x3f333f3030303070f0e000000000, 0x7f637f6363636367e7e6c0000000, 0x1818db3ce73cdb181800000000,
    0x80c0e0f0f8fef8f0e0c08000000000, 0x2060e1e3efe3e1e0e060200000000, 0x183c7e1818187e3c180000000000,
    0x6666666666666600666600000000, 0x7fdbdbdb7b1b1b1b1b1b00000000, 0x7cc660386cc6c66c380cc67c000000,
    0xfefefefe00000000, 0x183c7e1818187e3c187e00000000, 0x183c7e1818181818181800000000,
    0x181818181818187e3c1800000000, 0x180cfe0c18000000000000, 0x3060fe6030000000000000,
    0xc0c0c0fe000000000000, 0x286cfe6c28000000000000, 0x1038387c7cfefe0000000000, 0xfefe7c7c3838100000000000,
    0, 0x183c3c3c18181800181800000000, 0x666666240000000000000000000000, 0x6c6cfe6c6c6cfe6c6c00000000,
    0x18187cc6c2c07c060686c67c18180000, 0xc2c60c183060c68600000000, 0x386c6c3876dccccccc7600000000,
    0x303030600000000000000000000000, 0xc18303030303030180c00000000, 0x30180c0c0c0c0c0c183000000000,
    0x663cff3c66000000000000, 0x18187e1818000000000000, 0x18181830000000, 0xfe0000000000000000,
    0x181800000000, 0x2060c183060c08000000000, 0x386cc6c6d6d6c6c66c3800000000,
    0x1838781818181818187e00000000, 0x7cc6060c183060c0c6fe00000000, 0x7cc606063c060606c67c00000000,
    0xc1c3c6cccfe0c0c0c1e00000000, 0xfec0c0c0fc060606c67c00000000, 0x3860c0c0fcc6c6c6c67c00000000,
    0xfec606060c183030303000000000, 0x7cc6c6c67cc6c6c6c67c00000000, 0x7cc6c6c67e0606060c7800000000,
    0x181800000018180000000000, 0x181800000018183000000000, 0x60c18306030180c0600000000,
    0x7e00007e00000000000000, 0x6030180c060c18306000000000, 0x7cc6c60c18181800181800000000,
    0x7cc6c6dedededcc07c00000000, 0x10386cc6c6fec6c6c6c600000000, 0xfc6666667c66666666fc00000000,
    0x3c66c2c0c0c0c0c2663c00000000, 0xf86c6666666666666cf800000000, 0xfe6662687868606266fe00000000,
    0xfe6662687868606060f000000000, 0x3c66c2c0c0dec6c6663a00000000, 0xc6c6c6c6fec6c6c6c6c600000000,
    0x3c18181818181818183c00000000, 0x1e0c0c0c0c0ccccccc7800000000, 0xe666666c78786c6666e600000000,
    0xf06060606060606266fe00000000, 0xc6eefefed6c6c6c6c6c600000000, 0xc6e6f6fedecec6c6c6c600000000,
    0x7cc6c6c6c6c6c6c6c67c00000000, 0xfc6666667c60606060f000000000, 0x7cc6c6c6c6c6c6d6de7c0c0e0000,
    0xfc6666667c6c666666e600000000, 0x7cc6c660380c06c6c67c00000000, 0x7e7e5a1818181818183c00000000,
    0xc6c6c6c6c6c6c6c6c67c00000000, 0xc6c6c6c6c6c6c66c381000000000, 0xc6c6c6c6d6d6d6feee6c00000000,
    0xc6c66c7c38387c6cc6c600000000, 0x666666663c181818183c00000000, 0xfec6860c183060c2c6fe00000000,
    0x3c30303030303030303c00000000, 0x80c0e070381c0e060200000000, 0x3c0c0c0c0c0c0c0c0c3c00000000,
    0x10386cc6000000000000000000000000, 0xff0000, 0x30180c000000000000000000000000, 0x780c7ccccccc7600000000,
    0xe06060786c666666667c00000000, 0x7cc6c0c0c0c67c00000000, 0x1c0c0c3c6ccccccccc7600000000,
    0x7cc6fec0c0c67c00000000, 0x1c36323078303030307800000000, 0x76cccccccccc7c0ccc7800,
    0xe060606c7666666666e600000000, 0x1818003818181818183c00000000, 0x606000e06060606060666663c00,
    0xe06060666c78786c66e600000000, 0x3818181818181818183c00000000, 0xecfed6d6d6d6c600000000,
    0xdc66666666666600000000, 0x7cc6c6c6c6c67c00000000, 0xdc66666666667c6060f000, 0x76cccccccccc7c0c0c1e00,
    0xdc7666606060f000000000, 0x7cc660380cc67c00000000, 0x103030fc30303030361c00000000,
    0xcccccccccccc7600000000, 0xc6c6c6c6c66c3800000000, 0xc6c6d6d6d6fe6c00000000, 0xc66c3838386cc600000000,
    0xc6c6c6c6c6c67e060cf800, 0xfecc183060c6fe00000000, 0xe18181870181818180e00000000,
    0x1818181818181818181800000000, 0x701818180e181818187000000000, 0x76dc00000000000000000000000000,
    0x10386cc6c6c6fe0000000000, 0x3c66c2c0c0c0c0c2663c18700000, 0xcc0000cccccccccccc7600000000,
    0xc1830007cc6fec0c0c67c00000000, 0x10386c00780c7ccccccc7600000000, 0xcc0000780c7ccccccc7600000000,
    0x60301800780c7ccccccc7600000000, 0x386c3800780c7ccccccc7600000000, 0x7cc6c0c0c0c67c18700000,
    0x10386c007cc6fec0c0c67c00000000, 0xc600007cc6fec0c0c67c00000000, 0x603018007cc6fec0c0c67c00000000,
    0x6600003818181818183c00000000, 0x183c66003818181818183c00000000, 0x603018003818181818183c00000000,
    0xc60010386cc6c6fec6c6c600000000, 0x386c3810386cc6fec6c6c6c600000000, 0xc1800fe66626878686266fe00000000,
    0xec36367ed8d86e00000000, 0x3e6cccccfeccccccccce00000000, 0x10386c007cc6c6c6c6c67c00000000,
    0xc600007cc6c6c6c6c67c00000000, 0x603018007cc6c6c6c6c67c00000000, 0x3078cc00cccccccccccc7600000000,
    0x60301800cccccccccccc7600000000, 0xc60000c6c6c6c6c6c67e060c7800, 0xc6007cc6c6c6c6c6c6c67c00000000,
    0xc600c6c6c6c6c6c6c6c67c00000000, 0x18187cc6c0c0c0c67c181800000000, 0x386c6460f060606060e6fc00000000,
    0x66663c187e187e18181800000000, 0xf8ccccf8c4ccdeccccccc600000000, 0xe1b1818187e181818d87000000000,
    0x18306000780c7ccccccc7600000000, 0xc1830003818181818183c00000000, 0x183060007cc6c6c6c6c67c00000000,
    0x18306000cccccccccccc7600000000, 0x76dc00dc66666666666600000000, 0x76dc00c6e6f6fedecec6c6c600000000,
    0x3c6c6c3e007e0000000000000000, 0x386c6c38007c0000000000000000, 0x303000303060c0c6c67c00000000,
    0xfec0c0c0c00000000000, 0xfe060606060000000000, 0x60e062666c183060dc860c183e0000,
    0x60e062666c183066ce9a3f06060000, 0x1818001818183c3c3c1800000000, 0x366cd86c36000000000000,
    0xd86c366cd8000000000000, 0x11441144114411441144114411441144, 0x55aa55aa55aa55aa55aa55aa55aa55aa,
    0xdd77dd77dd77dd77dd77dd77dd77dd77, 0x18181818181818181818181818181818,
    0x18181818181818f81818181818181818, 0x1818181818f818f81818181818181818,
    0x36363636363636f63636363636363636, 0xfe3636363636363636, 0xf818f81818181818181818,
    0x3636363636f606f63636363636363636, 0x36363636363636363636363636363636, 0xfe06f63636363636363636,
    0x3636363636f606fe0000000000000000, 0x36363636363636fe0000000000000000,
    0x1818181818f818f80000000000000000, 0xf81818181818181818, 0x181818181818181f0000000000000000,
    0x18181818181818ff0000000000000000, 0xff1818181818181818, 0x181818181818181f1818181818181818,
    0xff0000000000000000, 0x18181818181818ff1818181818181818, 0x18181818181f181f1818181818181818,
    0x36363636363636373636363636363636, 0x363636363637303f0000000000000000, 0x3f30373636363636363636,
    0x3636363636f700ff0000000000000000, 0xff00f73636363636363636, 0x36363636363730373636363636363636,
    0xff00ff0000000000000000, 0x3636363636f700f73636363636363636, 0x1818181818ff00ff0000000000000000,
    0x36363636363636ff0000000000000000, 0xff00ff1818181818181818, 0xff3636363636363636,
    0x363636363636363f0000000000000000, 0x18181818181f181f0000000000000000, 0x1f181f1818181818181818,
    0x3f3636363636363636, 0x36363636363636ff3636363636363636, 0x1818181818ff18ff1818181818181818,
    0x18181818181818f80000000000000000, 0x1f1818181818181818, 0xffffffffffffffffffffffffffffffff,
    0xffffffffffffffffff, 0xf0f0f0f0f0f0f0f0f0f0f0f0f0f0f0f0, 0xf0f0f0f0f0f0f0f0f0f0f0f0f0f0f0f,
    0xffffffffffffff000000000000000000, 0x76dcd8d8d8dc7600000000, 0x78ccccccd8ccc6c6c6cc00000000,
    0xfec6c6c0c0c0c0c0c0c000000000, 0xfe6c6c6c6c6c6c00000000, 0xfec6603018183060c6fe00000000,
    0x7ed8d8d8d8d87000000000, 0x6666666666667c6060c000, 0x76dc18181818181800000000,
    0x7e183c666666663c187e00000000, 0x386cc6c6fec6c6c66c3800000000, 0x386cc6c6c66c6c6c6cee00000000,
    0x1e30180c3e666666663c00000000, 0x7edbdbdb7e000000000000, 0x3067edbdbf37e60c000000000,
    0x1c3060607c606060301c00000000, 0x7cc6c6c6c6c6c6c6c600000000, 0xfe0000fe0000fe0000000000,
    0x18187e181800007e00000000, 0x30180c060c1830007e00000000, 0xc18306030180c007e00000000,
    0xe1b1b1818181818181818181818, 0x181818181818181818d8d8d870000000, 0x18007e0018000000000000,
    0x76dc0076dc000000000000, 0x386c6c380000000000000000000000, 0x181800000000000000, 0x180000000000000000,
    0xf0c0c0c0c0cec6c6c3c1c00000000, 0x6c3636363636000000000000000000, 0x3c660c18327e000000000000000000,
    0x7e7e7e7e7e7e7e0000000000, 0]

def font8x16 : Font := fun c row => UInt8.ofNat (font8x16Rows.getD c.toNat 0 >>> (8 * (15 - row)))

def glyph (font : Font) (c : UInt8) (col row : Int) : Bool :=
  (font c row.toNat).toNat.testBit (7 - col.toNat)

def drawChar (font : Font) (s : Surface) (x y : Int) (c : UInt8) (fg bg : UInt32) : Surface :=
  s.paint fun px py =>
    if x ≤ px ∧ px < x + fontW ∧ y ≤ py ∧ py < y + fontH ∧
        0 ≤ px ∧ px < s.w ∧ 0 ≤ py ∧ py < s.h then
      some (if glyph font c (px - x) (py - y) then fg else bg)
    else none

def drawString (font : Font) (s : Surface) (x y : Int) (str : List UInt8) (fg bg : UInt32) :
    Surface :=
  match str with
  | [] => s
  | c :: rest =>
      if c = 0 ∨ i32 (x + fontW) > s.w then s
      else drawString font (drawChar font s x y c fg bg) (i32 (x + fontW)) y rest fg bg

end Shizuku.Gui
