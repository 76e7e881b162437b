import Shizuku.Compositor
import Shizuku.PageRuns
import Shizuku.RowMajor

/-!
The pixel operations of `gui/surface.rs` and `blit_clipped` of `gui/wm.rs` on the buffer
itself: loops over rows and columns, with the index of a pixel computed in `i32` and
checked here against the buffer. They paint exactly the pixels that their arguments say,
and that is what the operations on pictures by column and row are, which the compositor
is modelled with.
-/

namespace Shizuku.Gui

open Machine RowMajor Pmm

/-- The buffer has a word for each pixel. `create` takes it from the page allocator and fails where that
fails. `init` does not look whether it got the back buffer: that it did, and hence `small`, is assumed. -/
structure PixelSurface where
  w : Int
  h : Int
  pixels : Nat → UInt32
  wide : 0 < w
  tall : 0 < h
  small : w * h < 2 ^ 31

def PixelSurface.words (s : PixelSurface) : Nat := (s.w * s.h).toNat

def PixelSurface.pixel (s : PixelSurface) (x y : Int) : UInt32 := s.pixels (place s.w x y)

def PixelSurface.view (s : PixelSurface) : Surface := ⟨s.w, s.h, s.pixel⟩

def asUsize (z : Int) : Nat := (z % 2 ^ 64).toNat

def offset (w x y : Int) : Nat := asUsize (i32 (i32 (y * w) + x))

def PixelSurface.store (s : PixelSurface) (colour : UInt32) (x y : Int) (cells : Nat → UInt32) :
    Outcome (Nat → UInt32) := do
  index s.words (offset s.w x y)
  return Function.update cells (offset s.w x y) colour

def PixelSurface.fillRect (s : PixelSurface) (r : Rect) (colour : UInt32) : Outcome PixelSurface :=
  match clipToSurface s.view r with
  | none => .ok s
  | some r => do
      let row := fun cells y =>
        (Int.range r.x r.right).foldlM (fun cells x => s.store colour x y cells) cells
      let cells ← (Int.range r.y r.bottom).foldlM row s.pixels
      return { s with pixels := cells }

/-- `copy_nonoverlapping` of `count` pixels of `src` into the buffer `cells` of `dst`. -/
def copyRow (dst src : PixelSurface) (source target count : Nat) (cells : Nat → UInt32) :
    Outcome (Nat → UInt32) := do
  range src.words source (source + count)
  range dst.words target (target + count)
  return ByteMemory.blit cells target (ByteMemory.slice src.pixels source count)

def PixelSurface.blit (dst : PixelSurface) (dx dy : Int) (src : PixelSurface) : Outcome PixelSurface :=
  match clipToSurface dst.view ⟨dx, dy, src.w, src.h⟩ with
  | none => .ok dst
  | some r => do
      let sx := i32 (r.x - dx)
      let sy := i32 (r.y - dy)
      let row := fun cells y => copyRow dst src (offset src.w sx (i32 (sy + y)))
        (offset dst.w r.x (i32 (r.y + y))) (asUsize r.w) cells
      let cells ← (Int.range 0 r.h).foldlM row dst.pixels
      return { dst with pixels := cells }

def PixelSurface.blitClipped (dst : PixelSurface) (dx dy : Int) (src : PixelSurface) (clip : Rect) :
    Outcome PixelSurface :=
  let x0 := max dx clip.x
  let y0 := max dy clip.y
  let x1 := min (i32 (dx + src.w)) clip.right
  let y1 := min (i32 (dy + src.h)) clip.bottom
  if x1 ≤ x0 ∨ y1 ≤ y0 then .ok dst
  else do
    let row := fun cells y => copyRow dst src (offset src.w (i32 (x0 - dx)) (i32 (y - dy)))
      (offset dst.w x0 y) (asUsize (i32 (x1 - x0))) cells
    let cells ← (Int.range y0 y1).foldlM row dst.pixels
    return { dst with pixels := cells }

def pagesFor (w h : Int) : Nat := (w.toNat * h.toNat * 4 + pageSize - 1) / pageSize

theorem pages_small {w h : Int} {pmm after : State} {pa : Nat}
    (got : allocPages pmm (pagesFor w h) pageSize = .ok (pa, after)) (found : pa ≠ 0) (wide : 0 < w)
    (tall : 0 < h) : w * h < 2 ^ 31 := by
  -- Four bytes for each pixel come from the memory that the allocator manages.
  obtain ⟨page, _, _, run⟩ := allocPagesLoop_sound _ _ pa after got found
  have few : pagesFor w h ≤ 131072 := le_trans (Nat.le_add_left _ _) run.1
  have bytes : w.toNat * h.toNat ≤ 2 ^ 27 := by
    unfold pagesFor at few
    have size : pageSize = 4096 := rfl
    rw [size] at few
    omega
  obtain ⟨w, rfl⟩ := Int.eq_ofNat_of_zero_le wide.le
  obtain ⟨h, rfl⟩ := Int.eq_ofNat_of_zero_le tall.le
  rw [Int.toNat_natCast, Int.toNat_natCast] at bytes
  have cast : ((w * h : Nat) : Int) = (w : Int) * h := Nat.cast_mul w h
  omega

/-- `Surface::create`: a page for the header, and the buffer, with zeros. -/
def PixelSurface.create (w h : Int) (pmm : State) : Outcome (Option PixelSurface × State) :=
  if size : w ≤ 0 ∨ h ≤ 0 then .ok (none, pmm)
  else
    match allocPages pmm 1 pageSize with
    | .error panic => .error panic
    | .ok (hdr, pmm) =>
        if hdr = 0 then .ok (none, pmm)
        else
          match got : allocPages pmm (pagesFor w h) pageSize with
          | .error panic => .error panic
          | .ok (px, after) =>
              if found : px = 0 then .ok (none, freePage after hdr)
              else
                have wide : 0 < w := by omega
                have tall : 0 < h := by omega
                .ok (some ⟨w, h, fun _ => 0, wide, tall, pages_small got found wide tall⟩, after)

theorem PixelSurface.sides (s : PixelSurface) : s.w < 2 ^ 31 ∧ s.h < 2 ^ 31 := by
  have wide := s.wide
  have tall := s.tall
  have small := s.small
  constructor <;> nlinarith

theorem asUsize_eq {z : Int} (low : 0 ≤ z) (high : z < 2 ^ 31) : asUsize z = z.toNat := by
  unfold asUsize
  omega

theorem PixelSurface.offset_eq (s : PixelSurface) {x y : Int} (inside : InGrid s.w s.h x y) :
    offset s.w x y = place s.w x y := by
  have row := row_le inside
  have small := s.small
  have cast := place_cast inside
  obtain ⟨⟨left, right⟩, top, _⟩ := inside
  have start : 0 ≤ y * s.w := mul_nonneg top (by omega)
  have rows : i32 (y * s.w) = y * s.w := i32_eq (by omega) (by omega)
  rw [offset, rows, i32_eq (by omega) (by omega), asUsize_eq (by omega) (by omega), place]

theorem PixelSurface.place_words (s : PixelSurface) {x y : Int} (inside : InGrid s.w s.h x y)
    {n : Nat} (fits : x + n ≤ s.w) : place s.w x y + n ≤ s.words := by
  have row := row_le inside
  have cast := place_cast inside
  unfold PixelSurface.words
  omega

theorem PixelSurface.store_paints (s : PixelSurface) (colour : UInt32) {x y : Int}
    (inside : InGrid s.w s.h x y) (cells : Nat → UInt32) :
    ∃ next, s.store colour x y cells = .ok next ∧
      Painted s.w s.h (fun x' y' => x' = x ∧ y' = y) (fun _ _ => colour) cells next := by
  refine ⟨_, ?_, painted_cell cells inside⟩
  have checked : index s.words (place s.w x y) = .ok () := (index_ok _ _ _).mpr (place_lt inside)
  rw [PixelSurface.store, s.offset_eq inside, checked]
  rfl

theorem copyRow_paints (dst src : PixelSurface) {dx dy x y : Int} {n : Nat}
    (source : InGrid src.w src.h (x - dx) (y - dy)) (within : x - dx + n ≤ src.w)
    (target : InGrid dst.w dst.h x y) (fits : x + n ≤ dst.w) (cells : Nat → UInt32) :
    ∃ next, copyRow dst src (offset src.w (x - dx) (y - dy)) (offset dst.w x y) n cells = .ok next ∧
      Painted dst.w dst.h (fun x' y' => (x ≤ x' ∧ x' < x + n) ∧ y' = y)
        (fun x' y' => src.pixel (x' - dx) (y' - dy)) cells next := by
  have row : (ByteMemory.slice src.pixels (place src.w (x - dx) (y - dy)) n).length = n :=
    ByteMemory.slice_length ..
  have painted := painted_row (fun x' y' => src.pixel (x' - dx) (y' - dy)) cells
    (ByteMemory.slice src.pixels (place src.w (x - dx) (y - dy)) n) target (by omega) (by
      intro k inside
      simp only [ByteMemory.slice, List.getElem_map, List.getElem_range, PixelSurface.pixel]
      rw [← place_add source, show x + k - dx = x - dx + k by ring])
  rw [row] at painted
  refine ⟨_, ?_, painted⟩
  rw [copyRow, src.offset_eq source, dst.offset_eq target,
    (range_ok _ _ _ ()).mpr ⟨Nat.le_add_right .., src.place_words source within⟩,
    (range_ok _ _ _ ()).mpr ⟨Nat.le_add_right .., dst.place_words target fits⟩]
  rfl

def Rect.Covers (r : Rect) (x y : Int) : Prop :=
  (r.x ≤ x ∧ x < r.x + r.w) ∧ r.y ≤ y ∧ y < r.y + r.h

instance (r : Rect) (x y : Int) : Decidable (r.Covers x y) := inferInstanceAs (Decidable ((_ ∧ _) ∧ _))

theorem Plain.ends {r : Rect} (plain : Plain r) : r.right = r.x + r.w ∧ r.bottom = r.y + r.h :=
  ⟨i32_eq plain.right.1 plain.right.2, i32_eq plain.bottom.1 plain.bottom.2⟩

def Rect.cut (r : Rect) (w h : Int) : Rect where
  x := max r.x 0
  y := max r.y 0
  w := min (r.x + r.w) w - max r.x 0
  h := min (r.y + r.h) h - max r.y 0

theorem cut_covers (r : Rect) {w h x y : Int} (inside : InGrid w h x y) :
    (r.cut w h).Covers x y ↔ r.Covers x y := by
  obtain ⟨⟨left, right⟩, top, bottom⟩ := inside
  simp only [Rect.Covers, Rect.cut]
  omega

theorem clipToSurface_eq (s : Surface) (sized : Sized s.w s.h) {r : Rect} (plain : Plain r) :
    clipToSurface s r =
      if 0 < (r.cut s.w s.h).w ∧ 0 < (r.cut s.w s.h).h then some (r.cut s.w s.h) else none := by
  obtain ⟨width, height, wide, tall⟩ := sized
  obtain ⟨left, top, across, down, right, bottom⟩ := plain
  obtain ⟨x, y, w, h⟩ := r
  simp only at left top across down right bottom
  -- the sides are cut one after the other; each cut keeps the end that it does not move
  have first : (if x < 0 then (⟨0, y, i32 (w + x), h⟩ : Rect) else ⟨x, y, w, h⟩) =
      ⟨max x 0, y, x + w - max x 0, h⟩ := by
    split
    · rw [i32_eq (by omega) (by omega), Rect.mk.injEq]
      omega
    · rw [Rect.mk.injEq]
      omega
  have second : (if y < 0 then (⟨max x 0, 0, x + w - max x 0, i32 (h + y)⟩ : Rect)
      else ⟨max x 0, y, x + w - max x 0, h⟩) =
      ⟨max x 0, max y 0, x + w - max x 0, y + h - max y 0⟩ := by
    split
    · rw [i32_eq (by omega) (by omega), Rect.mk.injEq]
      omega
    · rw [Rect.mk.injEq]
      omega
  have third : (if i32 (max x 0 + (x + w - max x 0)) > s.w then
      (⟨max x 0, max y 0, i32 (s.w - max x 0), y + h - max y 0⟩ : Rect)
      else ⟨max x 0, max y 0, x + w - max x 0, y + h - max y 0⟩) =
      ⟨max x 0, max y 0, min (x + w) s.w - max x 0, y + h - max y 0⟩ := by
    rw [i32_eq (by omega) (by omega), i32_eq (by omega) (by omega)]
    split <;> rw [Rect.mk.injEq] <;> omega
  have fourth : (if i32 (max y 0 + (y + h - max y 0)) > s.h then
      (⟨max x 0, max y 0, min (x + w) s.w - max x 0, i32 (s.h - max y 0)⟩ : Rect)
      else ⟨max x 0, max y 0, min (x + w) s.w - max x 0, y + h - max y 0⟩) =
      ⟨max x 0, max y 0, min (x + w) s.w - max x 0, min (y + h) s.h - max y 0⟩ := by
    rw [i32_eq (by omega) (by omega), i32_eq (by omega) (by omega)]
    split <;> rw [Rect.mk.injEq] <;> omega
  simp only [clipToSurface, first, second, Rect.right, third, Rect.bottom, fourth, Rect.cut]
  rfl

theorem cut_placed (r : Rect) {w h x y : Int} (covered : (r.cut w h).Covers x y) : InGrid w h x y := by
  simp only [Rect.Covers, Rect.cut] at covered
  exact ⟨⟨by omega, by omega⟩, by omega, by omega⟩

theorem cut_empty (r : Rect) {w h x y : Int} (nothing : ¬ (0 < (r.cut w h).w ∧ 0 < (r.cut w h).h))
    (inside : InGrid w h x y) : ¬ r.Covers x y := by
  intro covered
  apply nothing
  have part := (cut_covers r inside).mpr covered
  unfold Rect.Covers at part
  constructor <;> omega

theorem clipped_some {s : Surface} (sized : Sized s.w s.h) {r : Rect} (plain : Plain r)
    (some_ : 0 < (r.cut s.w s.h).w ∧ 0 < (r.cut s.w s.h).h) :
    clipToSurface s r = some (r.cut s.w s.h) := by
  rw [clipToSurface_eq s sized plain]
  exact if_pos some_

theorem clipped_none {s : Surface} (sized : Sized s.w s.h) {r : Rect} (plain : Plain r)
    (nothing : ¬ (0 < (r.cut s.w s.h).w ∧ 0 < (r.cut s.w s.h).h)) : clipToSurface s r = none := by
  rw [clipToSurface_eq s sized plain]
  exact if_neg nothing

theorem cut_ends {w h : Int} (sized : Sized w h) {r : Rect}
    (some_ : 0 < (r.cut w h).w ∧ 0 < (r.cut w h).h) :
    (r.cut w h).right = (r.cut w h).x + (r.cut w h).w ∧
      (r.cut w h).bottom = (r.cut w h).y + (r.cut w h).h := by
  obtain ⟨_, _, wide, tall⟩ := sized
  simp only [Rect.cut] at some_
  constructor
  · apply i32_eq <;> simp only [Rect.cut] <;> omega
  · apply i32_eq <;> simp only [Rect.cut] <;> omega

theorem covers_source (w h dx dy x y : Int) :
    (⟨dx, dy, w, h⟩ : Rect).Covers x y ↔ InGrid w h (x - dx) (y - dy) := by
  simp only [Rect.Covers, InGrid]
  omega

def Rect.overlap (clip : Rect) (w h dx dy : Int) : Rect where
  x := max dx clip.x
  y := max dy clip.y
  w := min (dx + w) (clip.x + clip.w) - max dx clip.x
  h := min (dy + h) (clip.y + clip.h) - max dy clip.y

theorem overlap_covers (clip : Rect) (w h dx dy x y : Int) : (clip.overlap w h dx dy).Covers x y ↔
    clip.Covers x y ∧ InGrid w h (x - dx) (y - dy) := by
  simp only [Rect.overlap, Rect.Covers, InGrid]
  omega

section Effects
variable (s dst src : PixelSurface)

theorem PixelSurface.sized : Sized s.w s.h :=
  ⟨s.wide.le, s.tall.le, s.sides.1, s.sides.2⟩

def Paints (s : PixelSurface) (result : Outcome PixelSurface) (area : Int → Int → Prop)
    (colour : Int → Int → UInt32) : Prop :=
  ∃ cells, result = .ok { s with pixels := cells } ∧ Painted s.w s.h area colour s.pixels cells

theorem Paints.nothing {area : Int → Int → Prop} {colour : Int → Int → UInt32}
    (none_ : ∀ x y, InGrid s.w s.h x y → ¬ area x y) : Paints s (.ok s) area colour :=
  have unpainted : Painted s.w s.h area colour s.pixels s.pixels := .nothing _ none_
  ⟨s.pixels, rfl, unpainted⟩

theorem Paints.loop {loop : Outcome (Nat → UInt32)} {area area' : Int → Int → Prop}
    {colour : Int → Int → UInt32}
    (ran : ∃ cells, loop = .ok cells ∧ Painted s.w s.h area colour s.pixels cells)
    (same : ∀ x y, InGrid s.w s.h x y → (area' x y ↔ area x y)) :
    Paints s (do let cells ← loop; return { s with pixels := cells }) area' colour := by
  obtain ⟨cells, rfl, painted⟩ := ran
  exact ⟨cells, rfl, painted.congr same⟩

theorem fill_loop (c : Rect) (placed : ∀ x y, c.Covers x y → InGrid s.w s.h x y) (colour : UInt32) :
    ∃ cells, (Int.range c.y (c.y + c.h)).foldlM (fun cells y =>
        (Int.range c.x (c.x + c.w)).foldlM (fun cells x => s.store colour x y cells) cells) s.pixels =
      .ok cells ∧ Painted s.w s.h c.Covers (fun _ _ => colour) s.pixels cells := by
  obtain ⟨cells, done, painted⟩ := foldlM_painted
    (fun y x' y' => ∃ x ∈ Int.range c.x (c.x + c.w), x' = x ∧ y' = y) (fun _ _ => colour)
    (Int.range c.y (c.y + c.h)) (fun y row => foldlM_painted (fun x x' y' => x' = x ∧ y' = y)
      (fun _ _ => colour) (Int.range c.x (c.x + c.w)) fun x column => s.store_paints colour
        (placed x y ⟨Int.mem_range_iff.mp column, Int.mem_range_iff.mp row⟩)) s.pixels
  refine ⟨cells, done, painted.congr fun x y _ => ?_⟩
  simp only [Rect.Covers, Int.mem_range_iff]
  constructor
  · intro covered
    exact ⟨y, covered.2, x, covered.1, rfl, rfl⟩
  · rintro ⟨_, rows, _, columns, rfl, rfl⟩
    exact ⟨columns, rows⟩

def Fits (dst src : PixelSurface) (dx dy : Int) (c : Rect) : Prop :=
  ∀ x y, c.Covers x y → InGrid dst.w dst.h x y ∧ InGrid src.w src.h (x - dx) (y - dy)

theorem copy_loop {dx dy : Int} (c : Rect) (wide : 0 < c.w) (placed : Fits dst src dx dy c)
    (rounds : List Int) (row : Int → Int)
    (rows : ∀ y, (∃ i ∈ rounds, y = row i) ↔ c.y ≤ y ∧ y < c.y + c.h)
    (step : (Nat → UInt32) → Int → Outcome (Nat → UInt32))
    (round : ∀ i ∈ rounds, ∀ cells, step cells i = copyRow dst src
      (offset src.w (c.x - dx) (row i - dy)) (offset dst.w c.x (row i)) c.w.toNat cells) :
    ∃ cells, rounds.foldlM step dst.pixels = .ok cells ∧
      Painted dst.w dst.h c.Covers (fun x y => src.pixel (x - dx) (y - dy)) dst.pixels cells := by
  have width : (c.w.toNat : Int) = c.w := Int.toNat_of_nonneg wide.le
  have each : ∀ i ∈ rounds, ∀ cells, ∃ next, step cells i = .ok next ∧
      Painted dst.w dst.h (fun x' y' => (c.x ≤ x' ∧ x' < c.x + c.w.toNat) ∧ y' = row i)
        (fun x y => src.pixel (x - dx) (y - dy)) cells next := by
    intro i member cells
    have inside := (rows (row i)).mp ⟨i, member, rfl⟩
    obtain ⟨target, source⟩ := placed c.x (row i) ⟨⟨by omega, by omega⟩, inside⟩
    -- the last pixel of the row bounds it on both surfaces
    obtain ⟨targetEnd, sourceEnd⟩ := placed (c.x + c.w - 1) (row i) ⟨⟨by omega, by omega⟩, inside⟩
    have fits := targetEnd.1.2
    have within := sourceEnd.1.2
    rw [round i member cells]
    exact copyRow_paints dst src source (by omega) target (by omega) cells
  obtain ⟨cells, done, painted⟩ := foldlM_painted
    (fun i x' y' => (c.x ≤ x' ∧ x' < c.x + c.w.toNat) ∧ y' = row i) _ rounds each dst.pixels
  refine ⟨cells, done, painted.congr fun x y _ => ?_⟩
  simp only [width, Rect.Covers]
  constructor
  · rintro ⟨columns, down⟩
    obtain ⟨i, member, same⟩ := (rows y).mpr down
    exact ⟨i, member, columns, same⟩
  · rintro ⟨i, member, columns, same⟩
    exact ⟨columns, (rows y).mp ⟨i, member, same⟩⟩

theorem fillRect_paints {r : Rect} (plain : Plain r) (colour : UInt32) :
    Paints s (s.fillRect r colour) r.Covers fun _ _ => colour := by
  unfold PixelSurface.fillRect
  by_cases some_ : 0 < (r.cut s.w s.h).w ∧ 0 < (r.cut s.w s.h).h
  · obtain ⟨right, bottom⟩ := cut_ends s.sized some_
    have clipped : clipToSurface s.view r = some (r.cut s.w s.h) := clipped_some s.sized plain some_
    rw [clipped]
    simp only [right, bottom]
    exact .loop s (fill_loop s (r.cut s.w s.h) (fun _ _ => cut_placed r) colour) fun x y inside =>
      (cut_covers r inside).symm
  · have clipped : clipToSurface s.view r = none := clipped_none s.sized plain some_
    rw [clipped]
    exact .nothing s fun x y inside => cut_empty r some_ inside

variable (dx dy : Int)

theorem blit_loop (c : Rect) (some_ : 0 < c.w ∧ 0 < c.h) (placed : Fits dst src dx dy c) :
    ∃ cells, (Int.range 0 c.h).foldlM (fun cells y => copyRow dst src
        (offset src.w (i32 (c.x - dx)) (i32 (i32 (c.y - dy) + y))) (offset dst.w c.x (i32 (c.y + y)))
        (asUsize c.w) cells) dst.pixels = .ok cells ∧
      Painted dst.w dst.h c.Covers (fun x y => src.pixel (x - dx) (y - dy)) dst.pixels cells := by
  apply copy_loop dst src c some_.1 placed (Int.range 0 c.h) (fun i => c.y + i)
  · intro y
    simp only [Int.mem_range_iff]
    constructor
    · rintro ⟨i, inside, rfl⟩
      omega
    · intro inside
      exact ⟨y - c.y, by omega, by omega⟩
  · intro i member cells
    rw [Int.mem_range_iff] at member
    obtain ⟨wide, tall⟩ := dst.sides
    obtain ⟨wide', tall'⟩ := src.sides
    obtain ⟨target, source⟩ := placed c.x (c.y + i) ⟨⟨by omega, by omega⟩, by omega, by omega⟩
    obtain ⟨last, _⟩ := placed (c.x + c.w - 1) (c.y + i) ⟨⟨by omega, by omega⟩, by omega, by omega⟩
    obtain ⟨_, first⟩ := placed c.x c.y ⟨⟨by omega, by omega⟩, by omega, by omega⟩
    unfold InGrid at target source last first
    -- no coordinate wraps: all of them are differences of points on the two surfaces
    have top : i32 (c.y - dy) = c.y - dy := i32_eq (by omega) (by omega)
    rw [top, i32_eq (z := c.x - dx) (by omega) (by omega), i32_eq (z := c.y + i) (by omega) (by omega),
      i32_eq (z := c.y - dy + i) (by omega) (by omega), asUsize_eq (by omega) (by omega),
      show c.y - dy + i = c.y + i - dy by ring]

theorem blit_paints (plain : Plain ⟨dx, dy, src.w, src.h⟩) :
    Paints dst (dst.blit dx dy src) (fun x y => InGrid src.w src.h (x - dx) (y - dy))
      fun x y => src.pixel (x - dx) (y - dy) := by
  have covers := covers_source src.w src.h dx dy
  unfold PixelSurface.blit
  generalize (⟨dx, dy, src.w, src.h⟩ : Rect) = r at plain covers
  by_cases some_ : 0 < (r.cut dst.w dst.h).w ∧ 0 < (r.cut dst.w dst.h).h
  · have clipped : clipToSurface dst.view r = some (r.cut dst.w dst.h) :=
      clipped_some dst.sized plain some_
    have placed : Fits dst src dx dy (r.cut dst.w dst.h) := by
      intro x y covered
      have inside := cut_placed r covered
      exact ⟨inside, (covers x y).mp ((cut_covers r inside).mp covered)⟩
    rw [clipped]
    apply Paints.loop dst (blit_loop dst src dx dy (r.cut dst.w dst.h) some_ placed)
    intro x y inside
    rw [← covers, cut_covers r inside]
  · have clipped : clipToSurface dst.view r = none := clipped_none dst.sized plain some_
    rw [clipped]
    apply Paints.nothing
    intro x y inside
    rw [← covers]
    exact cut_empty r some_ inside

theorem clipped_loop (c : Rect) (wide : 0 < c.w) (placed : Fits dst src dx dy c) :
    ∃ cells, (Int.range c.y (c.y + c.h)).foldlM (fun cells y => copyRow dst src
        (offset src.w (i32 (c.x - dx)) (i32 (y - dy))) (offset dst.w c.x y) (asUsize (i32 c.w)) cells)
        dst.pixels = .ok cells ∧
      Painted dst.w dst.h c.Covers (fun x y => src.pixel (x - dx) (y - dy)) dst.pixels cells := by
  apply copy_loop dst src c wide placed (Int.range c.y (c.y + c.h)) id
  · intro y
    simp only [Int.mem_range_iff, id_eq, exists_eq_right']
  · intro y member cells
    rw [Int.mem_range_iff] at member
    obtain ⟨wide, tall⟩ := dst.sides
    obtain ⟨wide', tall'⟩ := src.sides
    obtain ⟨target, source⟩ := placed c.x y ⟨⟨by omega, by omega⟩, member⟩
    obtain ⟨last, _⟩ := placed (c.x + c.w - 1) y ⟨⟨by omega, by omega⟩, member⟩
    unfold InGrid at target source last
    rw [i32_eq (z := c.x - dx) (by omega) (by omega), i32_eq (z := y - dy) (by omega) (by omega),
      i32_eq (z := c.w) (by omega) (by omega), asUsize_eq (by omega) (by omega)]
    rfl

theorem blitClipped_eq {clip : Rect} (plain : Plain ⟨dx, dy, src.w, src.h⟩) (bounded : Plain clip) :
    dst.blitClipped dx dy src clip =
      let c := clip.overlap src.w src.h dx dy
      if c.w ≤ 0 ∨ c.h ≤ 0 then .ok dst
      else do
        let cells ← (Int.range c.y (c.y + c.h)).foldlM (fun cells y => copyRow dst src
          (offset src.w (i32 (c.x - dx)) (i32 (y - dy))) (offset dst.w c.x y) (asUsize (i32 c.w)) cells)
          dst.pixels
        return { dst with pixels := cells } := by
  obtain ⟨right, bottom⟩ := plain.ends
  obtain ⟨right', bottom'⟩ := bounded.ends
  simp only [Rect.right, Rect.bottom] at right bottom
  simp only [PixelSurface.blitClipped, right, bottom, right', bottom', Rect.overlap, sub_nonpos,
    add_sub_cancel]

theorem blitClipped_paints {clip : Rect} (plain : Plain ⟨dx, dy, src.w, src.h⟩) (bounded : Plain clip)
    (within : ∀ x y, clip.Covers x y → InGrid dst.w dst.h x y) :
    Paints dst (dst.blitClipped dx dy src clip)
      (fun x y => clip.Covers x y ∧ InGrid src.w src.h (x - dx) (y - dy))
      fun x y => src.pixel (x - dx) (y - dy) := by
  have covers := overlap_covers clip src.w src.h dx dy
  rw [blitClipped_eq dst src dx dy plain bounded]
  generalize clip.overlap src.w src.h dx dy = c at covers
  by_cases none_ : c.w ≤ 0 ∨ c.h ≤ 0
  · simp only [none_, ↓reduceIte]
    apply Paints.nothing
    intro x y _
    rw [← covers]
    unfold Rect.Covers
    omega
  · have placed : Fits dst src dx dy c := by
      intro x y covered
      obtain ⟨shown, source⟩ := (covers x y).mp covered
      exact ⟨within x y shown, source⟩
    simp only [none_, ↓reduceIte]
    exact .loop dst (clipped_loop dst src dx dy c (by omega) placed) fun x y _ => (covers x y).symm

end Effects

def Leaves (s : PixelSurface) (result : Outcome PixelSurface) (shown : Int → Int → UInt32) : Prop :=
  ∃ after, result = .ok after ∧ (after.w = s.w ∧ after.h = s.h) ∧
    ∀ x y, InGrid s.w s.h x y → after.pixel x y = shown x y

section Pixels
variable {s : PixelSurface} {result : Outcome PixelSurface}

theorem Paints.leaves {area : Int → Int → Prop} [∀ x y, Decidable (area x y)]
    {colour : Int → Int → UInt32} (paints : Paints s result area colour) :
    Leaves s result fun x y => if area x y then colour x y else s.pixel x y := by
  obtain ⟨cells, done, painted⟩ := paints
  exact ⟨_, done, ⟨rfl, rfl⟩, fun x y inside => painted.pixel inside⟩

theorem Leaves.congr {shown other : Int → Int → UInt32} (leaves : Leaves s result shown)
    (same : ∀ x y, InGrid s.w s.h x y → other x y = shown x y) : Leaves s result other := by
  obtain ⟨after, done, size, pixels⟩ := leaves
  exact ⟨after, done, size, fun x y inside => by rw [pixels x y inside, same x y inside]⟩

theorem Paints.unique {other : Outcome PixelSurface} {area area' : Int → Int → Prop}
    {colour : Int → Int → UInt32} (paints : Paints s result area colour)
    (again : Paints s other area' colour)
    (same : ∀ x y, InGrid s.w s.h x y → (area x y ↔ area' x y)) : result = other := by
  obtain ⟨cells, done, painted⟩ := paints
  obtain ⟨cells', done', painted'⟩ := again
  rw [done, done', painted.unique (painted'.congr same)]

end Pixels

/-- The three operations never leave a buffer and paint what they should, and no other
pixel; a blit is a clipped blit with the whole destination as the clip. -/
theorem pixel_operations_exact (s dst src : PixelSurface) :
    (∀ r colour, Plain r →
      Leaves s (s.fillRect r colour) fun x y => if r.Covers x y then colour else s.pixel x y) ∧
    ∀ dx dy, Plain ⟨dx, dy, src.w, src.h⟩ →
      (Leaves dst (dst.blit dx dy src) fun x y =>
        if InGrid src.w src.h (x - dx) (y - dy) then src.pixel (x - dx) (y - dy)
        else dst.pixel x y) ∧
      (∀ clip, Plain clip → (∀ x y, clip.Covers x y → InGrid dst.w dst.h x y) →
        Leaves dst (dst.blitClipped dx dy src clip) fun x y =>
          if clip.Covers x y ∧ InGrid src.w src.h (x - dx) (y - dy) then src.pixel (x - dx) (y - dy)
          else dst.pixel x y) ∧
      dst.blit dx dy src = dst.blitClipped dx dy src ⟨0, 0, dst.w, dst.h⟩ := by
  refine ⟨fun r colour plain => (fillRect_paints s plain colour).leaves, fun dx dy plain => ?_⟩
  refine ⟨(blit_paints dst src dx dy plain).leaves, fun clip bounded within =>
    (blitClipped_paints dst src dx dy plain bounded within).leaves, ?_⟩
  have whole : ∀ x y, (⟨0, 0, dst.w, dst.h⟩ : Rect).Covers x y ↔ InGrid dst.w dst.h x y := by
    intro x y
    simp only [Rect.Covers, InGrid]
    omega
  have bounded : Plain ⟨0, 0, dst.w, dst.h⟩ := by
    obtain ⟨wide, tall⟩ := dst.sides
    have wide' := dst.wide
    have tall' := dst.tall
    constructor <;> simp only <;> omega
  apply (blit_paints dst src dx dy plain).unique
    (blitClipped_paints dst src dx dy plain bounded fun x y => (whole x y).mp)
  intro x y inside
  rw [whole, and_iff_right inside]

def board : PixelSurface := ⟨3, 2, UInt32.ofNat, by decide, by decide, by decide⟩

def tile : PixelSurface := ⟨2, 2, fun p => UInt32.ofNat (100 + p), by decide, by decide, by decide⟩

theorem pixel_operations_exact_corner : Plain ⟨-1, 1, 2, 2⟩ ∧
    (∃ after, board.blit (-1) 1 tile = .ok after ∧ after.pixel 0 1 = 101 ∧ after.pixel 1 1 = 4) ∧
    ∃ after, board.fillRect ⟨-1, -1, 2, 2⟩ 7 = .ok after ∧ after.pixel 0 0 = 7 ∧
      after.pixel 1 0 = 1 := by
  have plain : Plain ⟨-1, 1, 2, 2⟩ := by constructor <;> decide
  obtain ⟨fills, blits⟩ := pixel_operations_exact board board tile
  obtain ⟨⟨shown, blitted, _, pixels⟩, _⟩ := blits (-1) 1 plain
  obtain ⟨filled, done, _, colours⟩ := fills ⟨-1, -1, 2, 2⟩ 7 (by constructor <;> decide)
  refine ⟨plain, ⟨shown, blitted, ?_, ?_⟩, filled, done, ?_, ?_⟩
  · rw [pixels 0 1 (by decide)]
    rfl
  · rw [pixels 1 1 (by decide)]
    rfl
  · rw [colours 0 0 (by decide)]
    rfl
  · rw [colours 1 0 (by decide)]
    rfl

/-! ### Pictures by column and row -/

section Pictures
variable (s dst src : Surface) {x y : Int}

theorem paint_pixels (area : Int → Int → Prop) [∀ x y, Decidable (area x y)]
    (colour : Int → Int → UInt32) :
    (s.paint fun x y => if area x y then some (colour x y) else none).pixels x y =
      if area x y then colour x y else s.pixels x y := by
  simp only [Surface.paint]
  split <;> rfl

theorem Rect.covers_iff (c : Rect) :
    (c.x ≤ x ∧ x < c.x + c.w ∧ c.y ≤ y ∧ y < c.y + c.h) ↔ c.Covers x y :=
  and_assoc.symm

theorem fillRect_shows (sized : Sized s.w s.h) {r : Rect} (plain : Plain r) (colour : UInt32)
    (inside : InGrid s.w s.h x y) :
    (fillRect s r colour).pixels x y = if r.Covers x y then colour else s.pixels x y := by
  unfold fillRect
  by_cases some_ : 0 < (r.cut s.w s.h).w ∧ 0 < (r.cut s.w s.h).h
  · obtain ⟨right, bottom⟩ := cut_ends sized some_
    rw [clipped_some sized plain some_]
    simp only [right, bottom, Rect.covers_iff]
    rw [paint_pixels s (fun x y => (r.cut s.w s.h).Covers x y) fun _ _ => colour]
    exact if_congr (cut_covers r inside) rfl rfl
  · rw [clipped_none sized plain some_, if_neg (cut_empty r some_ inside)]

theorem blit_shows (sized : Sized dst.w dst.h) {dx dy : Int} (plain : Plain ⟨dx, dy, src.w, src.h⟩)
    (inside : InGrid dst.w dst.h x y) :
    (blit dst dx dy src).pixels x y =
      if InGrid src.w src.h (x - dx) (y - dy) then src.pixels (x - dx) (y - dy)
      else dst.pixels x y := by
  have covers := covers_source src.w src.h dx dy x y
  unfold blit
  generalize (⟨dx, dy, src.w, src.h⟩ : Rect) = r at plain covers
  by_cases some_ : 0 < (r.cut dst.w dst.h).w ∧ 0 < (r.cut dst.w dst.h).h
  · rw [clipped_some sized plain some_]
    simp only [Rect.covers_iff]
    rw [paint_pixels dst (fun x y => (r.cut dst.w dst.h).Covers x y) fun x y =>
      src.pixels (x - dx) (y - dy)]
    exact if_congr ((cut_covers r inside).trans covers) rfl rfl
  · rw [clipped_none sized plain some_, if_neg (mt covers.mpr (cut_empty r some_ inside))]

theorem blitClipped_shows {dx dy : Int} {clip : Rect} (plain : Plain ⟨dx, dy, src.w, src.h⟩)
    (bounded : Plain clip) :
    (blitClipped dst dx dy src clip).pixels x y =
      if clip.Covers x y ∧ InGrid src.w src.h (x - dx) (y - dy) then src.pixels (x - dx) (y - dy)
      else dst.pixels x y := by
  obtain ⟨right, bottom⟩ := plain.ends
  obtain ⟨right', bottom'⟩ := bounded.ends
  simp only [Rect.right, Rect.bottom] at right bottom
  have covers : (max dx clip.x ≤ x ∧ x < min (dx + src.w) (clip.x + clip.w) ∧ max dy clip.y ≤ y ∧
      y < min (dy + src.h) (clip.y + clip.h)) ↔
      clip.Covers x y ∧ InGrid src.w src.h (x - dx) (y - dy) := by
    simp only [Rect.Covers, InGrid]
    omega
  simp only [blitClipped, right, bottom, right', bottom']
  split
  · rw [if_neg]
    rw [← covers]
    omega
  · rw [paint_pixels dst (fun x y => max dx clip.x ≤ x ∧ x < min (dx + src.w) (clip.x + clip.w) ∧
      max dy clip.y ≤ y ∧ y < min (dy + src.h) (clip.y + clip.h)) fun x y => src.pixels (x - dx) (y - dy)]
    exact if_congr covers rfl rfl

end Pictures

/-- What the loops leave in the buffers are the pictures that the compositor is modelled with. -/
theorem loops_paint_pictures (s dst src : PixelSurface) :
    (∀ r colour, Plain r → Leaves s (s.fillRect r colour) (fillRect s.view r colour).pixels) ∧
    ∀ dx dy, Plain ⟨dx, dy, src.w, src.h⟩ →
      Leaves dst (dst.blit dx dy src) (blit dst.view dx dy src.view).pixels ∧
      ∀ clip, Plain clip → (∀ x y, clip.Covers x y → InGrid dst.w dst.h x y) →
        Leaves dst (dst.blitClipped dx dy src clip) (blitClipped dst.view dx dy src.view clip).pixels := by
  refine ⟨fun r colour plain => ?_, fun dx dy plain => ⟨?_, fun clip bounded within => ?_⟩⟩
  · exact (fillRect_paints s plain colour).leaves.congr fun x y =>
      fillRect_shows s.view s.sized plain colour
  · exact (blit_paints dst src dx dy plain).leaves.congr fun x y =>
      blit_shows dst.view src.view dst.sized plain
  · exact (blitClipped_paints dst src dx dy plain bounded within).leaves.congr fun x y _ =>
      blitClipped_shows dst.view src.view plain bounded

end Shizuku.Gui
