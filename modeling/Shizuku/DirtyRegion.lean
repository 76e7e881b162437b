import Shizuku.Absorption
import Shizuku.Surface

/-!
The dirty region of `gui/dirty.rs`. The live rectangles are the first `n` entries of
the array, and `add` clips a rectangle and gathers it among them. A rectangle has the
pixels from `x` up to the wrapped sum `x + w`; one that reaches past the largest `i32`
has none, but `clip` lets it through.
-/

namespace Shizuku.Gui

open Absorption

def dirtyMaxRects : Nat := 16

structure DirtyRegion where
  r : List Rect
  bw : Int
  bh : Int

def DirtyRegion.init (boundsW boundsH : Int) : DirtyRegion := ⟨[], boundsW, boundsH⟩

def DirtyRegion.clip (d : DirtyRegion) (r : Rect) : Option Rect :=
  let x1 := min r.right d.bw
  let y1 := min r.bottom d.bh
  let x := max r.x 0
  let y := max r.y 0
  let w := i32 (x1 - x)
  let h := i32 (y1 - y)
  if 0 < w ∧ 0 < h then some ⟨x, y, w, h⟩ else none

def union (a b : Rect) : Rect :=
  let x0 := min a.x b.x
  let y0 := min a.y b.y
  let x1 := max a.right b.right
  let y1 := max a.bottom b.bottom
  ⟨x0, y0, i32 (x1 - x0), i32 (y1 - y0)⟩

def touching (a b : Rect) : Bool :=
  decide (a.x ≤ b.right ∧ b.x ≤ a.right ∧ a.y ≤ b.bottom ∧ b.y ≤ a.bottom)

def DirtyRegion.add (d : DirtyRegion) (r : Rect) : DirtyRegion :=
  match d.clip r with
  | none => d
  | some r => { d with r := gather touching union dirtyMaxRects d.r r }

def DirtyRegion.clear (d : DirtyRegion) : DirtyRegion := { d with r := [] }

def DirtyRegion.addXywh (d : DirtyRegion) (x y w h : Int) : DirtyRegion := d.add ⟨x, y, w, h⟩

def DirtyRegion.addAll (d : DirtyRegion) : DirtyRegion := { d with r := [⟨0, 0, d.bw, d.bh⟩] }

/-- With room for `room` rectangles in the output. -/
def DirtyRegion.flush (d : DirtyRegion) (room : Nat) : List Rect × DirtyRegion :=
  (d.r.take room, d.clear)

def Normal (bound start len : Int) : Prop := 0 ≤ start ∧ 0 < len ∧ start + len ≤ bound

theorem Normal.last {bound start len : Int} (small : bound < 2 ^ 31)
    (normal : Normal bound start len) : i32 (start + len) = start + len := by
  obtain ⟨low, positive, high⟩ := normal
  exact i32_eq (by omega) (by omega)

theorem normal_union {bound start len start' len' : Int} (small : bound < 2 ^ 31)
    (one : Normal bound start len) (two : Normal bound start' len') :
    Normal bound (min start start')
      (i32 (max (i32 (start + len)) (i32 (start' + len')) - min start start')) := by
  rw [one.last small, two.last small]
  unfold Normal at *
  rw [i32_eq (by omega) (by omega)]
  omega

theorem span_last {start last : Int} (low : -2 ^ 31 ≤ last) (high : last < 2 ^ 31) :
    i32 (start + i32 (last - start)) = last := by
  unfold i32
  omega

theorem i32_range (z : Int) : -2 ^ 31 ≤ i32 z ∧ i32 z < 2 ^ 31 := by
  unfold i32
  omega

def Holds (r : Rect) (pixel : Int × Int) : Prop :=
  (r.x ≤ pixel.1 ∧ pixel.1 < r.right) ∧ r.y ≤ pixel.2 ∧ pixel.2 < r.bottom

instance (r : Rect) (pixel : Int × Int) : Decidable (Holds r pixel) :=
  inferInstanceAs (Decidable ((_ ∧ _) ∧ _))

def InBounds (bw bh : Int) (r : Rect) : Prop := Normal bw r.x r.w ∧ Normal bh r.y r.h

theorem union_right (a b : Rect) : (union a b).right = max a.right b.right := by
  have left := i32_range (a.x + a.w)
  have right := i32_range (b.x + b.w)
  exact span_last (by unfold Rect.right; omega) (by unfold Rect.right; omega)

theorem union_bottom (a b : Rect) : (union a b).bottom = max a.bottom b.bottom := by
  have left := i32_range (a.y + a.h)
  have right := i32_range (b.y + b.h)
  exact span_last (by unfold Rect.bottom; omega) (by unfold Rect.bottom; omega)

theorem holds_union {a b : Rect} {pixel : Int × Int} (held : Holds a pixel ∨ Holds b pixel) :
    Holds (union a b) pixel := by
  unfold Holds at *
  rw [union_right, union_bottom]
  simp only [union]
  omega

theorem touching_comm (a b : Rect) : touching a b = touching b a := by
  unfold touching
  congr 1
  exact propext ⟨fun ⟨p, q, r, s⟩ => ⟨q, p, s, r⟩, fun ⟨p, q, r, s⟩ => ⟨q, p, s, r⟩⟩

theorem disjoint_of_apart {a b : Rect} (apart : touching a b = false) (pixel : Int × Int) :
    ¬ (Holds a pixel ∧ Holds b pixel) := by
  unfold touching at apart
  unfold Holds
  simp only [decide_eq_false_iff_not] at apart
  omega

/-- Unions keep the pixels of all rectangles, even of those that wrap around. -/
theorem union_joins : Joins union (fun _ => True) Holds where
  sound := fun _ _ _ _ => trivial
  left := fun _ _ _ _ _ held => holds_union (.inl held)
  right := fun _ _ _ _ _ held => holds_union (.inr held)

structure Boxed (boxes : List Rect) (r : Rect) : Prop where
  left : ∃ c ∈ boxes, c.x ≤ r.x
  top : ∃ c ∈ boxes, c.y ≤ r.y
  right : ∃ c ∈ boxes, r.right ≤ c.right
  bottom : ∃ c ∈ boxes, r.bottom ≤ c.bottom

theorem Boxed.union {boxes : List Rect} {a b : Rect} (one : Boxed boxes a) (two : Boxed boxes b) :
    Boxed boxes (Gui.union a b) := by
  constructor
  · change ∃ c ∈ boxes, c.x ≤ min a.x b.x
    rcases min_choice a.x b.x with same | same
    · exact same.symm ▸ one.left
    · exact same.symm ▸ two.left
  · change ∃ c ∈ boxes, c.y ≤ min a.y b.y
    rcases min_choice a.y b.y with same | same
    · exact same.symm ▸ one.top
    · exact same.symm ▸ two.top
  · rw [union_right]
    rcases max_choice a.right b.right with same | same
    · exact same.symm ▸ one.right
    · exact same.symm ▸ two.right
  · rw [union_bottom]
    rcases max_choice a.bottom b.bottom with same | same
    · exact same.symm ▸ one.bottom
    · exact same.symm ▸ two.bottom

theorem Boxed.self {boxes : List Rect} {r : Rect} (member : r ∈ boxes) : Boxed boxes r :=
  ⟨⟨r, member, le_refl _⟩, ⟨r, member, le_refl _⟩, ⟨r, member, le_refl _⟩, ⟨r, member, le_refl _⟩⟩

theorem Boxed.mono {boxes more : List Rect} {r : Rect} (subset : boxes ⊆ more)
    (boxed : Boxed boxes r) : Boxed more r := by
  obtain ⟨⟨a, inA, left⟩, ⟨b, inB, top⟩, ⟨c, inC, right⟩, ⟨d, inD, bottom⟩⟩ := boxed
  exact ⟨⟨a, subset inA, left⟩, ⟨b, subset inB, top⟩, ⟨c, subset inC, right⟩,
    ⟨d, subset inD, bottom⟩⟩

theorem boxed_joins (bw bh : Int) (wide : bw < 2 ^ 31) (tall : bh < 2 ^ 31) (boxes : List Rect) :
    Joins union (fun r => InBounds bw bh r ∧ Boxed boxes r) Holds where
  sound := fun _ _ one two => ⟨⟨normal_union wide one.1.1 two.1.1, normal_union tall one.1.2 two.1.2⟩,
    one.2.union two.2⟩
  left := fun _ _ _ _ _ held => holds_union (.inl held)
  right := fun _ _ _ _ _ held => holds_union (.inr held)

structure Sized (bw bh : Int) : Prop where
  width : 0 ≤ bw
  height : 0 ≤ bh
  wide : bw < 2 ^ 31
  tall : bh < 2 ^ 31

def OnScreen (bw bh : Int) (pixel : Int × Int) : Prop :=
  (0 ≤ pixel.1 ∧ pixel.1 < bw) ∧ 0 ≤ pixel.2 ∧ pixel.2 < bh

structure Plain (r : Rect) : Prop where
  x : -2 ^ 31 ≤ r.x ∧ r.x < 2 ^ 31
  y : -2 ^ 31 ≤ r.y ∧ r.y < 2 ^ 31
  w : -2 ^ 31 ≤ r.w ∧ r.w < 2 ^ 31
  h : -2 ^ 31 ≤ r.h ∧ r.h < 2 ^ 31
  right : -2 ^ 31 ≤ r.x + r.w ∧ r.x + r.w < 2 ^ 31
  bottom : -2 ^ 31 ≤ r.y + r.h ∧ r.y + r.h < 2 ^ 31

theorem clip_some {d : DirtyRegion} {r c : Rect} (clipped : d.clip r = some c) :
    c.x = max r.x 0 ∧ c.y = max r.y 0 ∧ c.w = i32 (min r.right d.bw - max r.x 0) ∧
      c.h = i32 (min r.bottom d.bh - max r.y 0) ∧ 0 < c.w ∧ 0 < c.h := by
  unfold DirtyRegion.clip at clipped
  simp only at clipped
  split at clipped
  · rename_i positive
    cases clipped
    exact ⟨rfl, rfl, rfl, rfl, positive⟩
  · cases clipped

theorem clip_ends {d : DirtyRegion} (sized : Sized d.bw d.bh) {r c : Rect}
    (clipped : d.clip r = some c) : c.right = min r.right d.bw ∧ c.bottom = min r.bottom d.bh := by
  obtain ⟨x, y, w, h, _⟩ := clip_some clipped
  obtain ⟨width, height, wide, tall⟩ := sized
  have across := i32_range (r.x + r.w)
  have down := i32_range (r.y + r.h)
  constructor
  · rw [Rect.right, x, w]
    exact span_last (by unfold Rect.right; omega) (by unfold Rect.right; omega)
  · rw [Rect.bottom, y, h]
    exact span_last (by unfold Rect.bottom; omega) (by unfold Rect.bottom; omega)

theorem clip_holds {d : DirtyRegion} (sized : Sized d.bw d.bh) {r : Rect} {pixel : Int × Int}
    (held : Holds r pixel) (screen : OnScreen d.bw d.bh pixel) :
    ∃ c, d.clip r = some c ∧ Holds c pixel := by
  obtain ⟨⟨left, right⟩, top, bottom⟩ := held
  obtain ⟨⟨first, wide⟩, upper, tall⟩ := screen
  have sides := sized.wide
  have ends := sized.tall
  have across : 0 < i32 (min r.right d.bw - max r.x 0) := by
    rw [i32_eq (by omega) (by omega)]
    omega
  have down : 0 < i32 (min r.bottom d.bh - max r.y 0) := by
    rw [i32_eq (by omega) (by omega)]
    omega
  have clipped : d.clip r = some ⟨max r.x 0, max r.y 0, i32 (min r.right d.bw - max r.x 0),
      i32 (min r.bottom d.bh - max r.y 0)⟩ := if_pos ⟨across, down⟩
  obtain ⟨right', bottom'⟩ := clip_ends sized clipped
  refine ⟨_, clipped, ⟨?_, ?_⟩, ?_, ?_⟩
  · exact max_le left first
  · rw [right']
    exact lt_min right wide
  · exact max_le top upper
  · rw [bottom']
    exact lt_min bottom tall

theorem normal_clip {bound start len : Int} (nonneg : 0 ≤ bound) (small : bound < 2 ^ 31)
    (range : -2 ^ 31 ≤ start ∧ start < 2 ^ 31) (size : -2 ^ 31 ≤ len)
    (sum : -2 ^ 31 ≤ start + len ∧ start + len < 2 ^ 31)
    (kept : 0 < i32 (min (i32 (start + len)) bound - max start 0)) :
    Normal bound (max start 0) (i32 (min (i32 (start + len)) bound - max start 0)) := by
  rw [i32_eq sum.1 sum.2] at kept ⊢
  rw [i32_eq (by omega) (by omega)] at kept ⊢
  unfold Normal
  omega

theorem clip_inBounds {d : DirtyRegion} (sized : Sized d.bw d.bh) {r c : Rect} (plain : Plain r)
    (clipped : d.clip r = some c) : InBounds d.bw d.bh c := by
  obtain ⟨x, y, w, h, across, down⟩ := clip_some clipped
  rw [w] at across
  rw [h] at down
  unfold InBounds
  rw [x, y, w, h]
  exact ⟨normal_clip sized.width sized.wide plain.x plain.w.1 plain.right across,
    normal_clip sized.height sized.tall plain.y plain.h.1 plain.bottom down⟩

/-! ### Runs of `add` -/

theorem add_keeps (d : DirtyRegion) (r : Rect) (pixel : Int × Int)
    (covered : Covered Holds d.r pixel) : Covered Holds (d.add r).r pixel := by
  unfold DirtyRegion.add
  split
  · exact covered
  · exact gather_covers union_joins _ _ _ (fun _ _ => trivial) trivial pixel (.inr covered)

theorem add_covers {d : DirtyRegion} (sized : Sized d.bw d.bh) {r : Rect} {pixel : Int × Int}
    (held : Holds r pixel) (screen : OnScreen d.bw d.bh pixel) :
    Covered Holds (d.add r).r pixel := by
  obtain ⟨c, clipped, inside⟩ := clip_holds sized held screen
  simp only [DirtyRegion.add, clipped]
  exact gather_covers union_joins _ _ _ (fun _ _ => trivial) trivial pixel (.inl inside)

structure Collected (d : DirtyRegion) (added : List Rect) : Prop where
  gathered : Gathered touching
    (fun r => InBounds d.bw d.bh r ∧ Boxed (added.filterMap d.clip) r) dirtyMaxRects d.r
  covers : ∀ r ∈ added, ∀ pixel, Holds r pixel → OnScreen d.bw d.bh pixel →
    Covered Holds d.r pixel

theorem add_collected {d : DirtyRegion} (sized : Sized d.bw d.bh) {added : List Rect} {r : Rect}
    (plain : Plain r) (collected : Collected d added) : Collected (d.add r) (added ++ [r]) := by
  obtain ⟨⟨bounded, sound, apart⟩, covers⟩ := collected
  have earlier : added.filterMap d.clip ⊆ (added ++ [r]).filterMap d.clip := by
    rw [List.filterMap_append]
    exact List.subset_append_left _ _
  have before : Gathered touching (fun one => InBounds d.bw d.bh one ∧
      Boxed ((added ++ [r]).filterMap d.clip) one) dirtyMaxRects d.r :=
    ⟨bounded, fun one member => ⟨(sound one member).1, (sound one member).2.mono earlier⟩, apart⟩
  have all : ∀ one ∈ added ++ [r], ∀ pixel, Holds one pixel → OnScreen d.bw d.bh pixel →
      Covered Holds (d.add r).r pixel := by
    intro one member pixel held screen
    rcases List.mem_append.mp member with old | new
    · exact add_keeps d r pixel (covers one old pixel held screen)
    · exact add_covers sized (List.mem_singleton.mp new ▸ held) screen
  cases clipped : d.clip r with
  | none =>
      have same : d.add r = d := by simp [DirtyRegion.add, clipped]
      rw [same] at all ⊢
      exact ⟨before, all⟩
  | some c =>
      have added' : c ∈ (added ++ [r]).filterMap d.clip :=
        List.mem_filterMap.mpr ⟨r, by simp, clipped⟩
      have gathered := gather_gathered (boxed_joins d.bw d.bh sized.wide sized.tall _)
        touching_comm dirtyMaxRects (by decide) d.r c before
        ⟨clip_inBounds sized plain clipped, .self added'⟩
      have same : d.add r = { d with r := gather touching union dirtyMaxRects d.r c } := by
        simp [DirtyRegion.add, clipped]
      rw [same] at all ⊢
      exact ⟨gathered, all⟩

theorem add_bounds (d : DirtyRegion) (r : Rect) : (d.add r).bw = d.bw ∧ (d.add r).bh = d.bh := by
  unfold DirtyRegion.add
  split <;> exact ⟨rfl, rfl⟩

theorem run_collected (bw bh : Int) (sized : Sized bw bh) (added : List Rect)
    (plain : ∀ r ∈ added, Plain r) :
    let d := added.foldl DirtyRegion.add (.init bw bh)
    Collected d added ∧ d.bw = bw ∧ d.bh = bh := by
  induction added using List.reverseRecOn with
  | nil => exact ⟨⟨.nil _, fun _ member => by cases member⟩, rfl, rfl⟩
  | append_singleton added r ih =>
      obtain ⟨collected, width, height⟩ := ih fun one member =>
        plain one (List.mem_append_left _ member)
      rw [List.foldl_append]
      obtain ⟨width', height'⟩ := add_bounds (added.foldl DirtyRegion.add (.init bw bh)) r
      refine ⟨add_collected ?_ (plain r (by simp)) collected, width'.trans width,
        height'.trans height⟩
      rw [width, height]
      exact sized

/-- For bounds that are a size: few, nonempty, bounded and separate rectangles, which
together have every added pixel and stay within the box of what was added. -/
theorem dirty_region_covers (bw bh : Int) (sized : Sized bw bh) (added : List Rect)
    (plain : ∀ r ∈ added, Plain r) :
    let d := added.foldl DirtyRegion.add (.init bw bh)
    d.r.length ≤ dirtyMaxRects ∧
    (∀ r ∈ d.r, (0 < r.w ∧ 0 < r.h) ∧ (0 ≤ r.x ∧ r.x + r.w ≤ bw) ∧ 0 ≤ r.y ∧ r.y + r.h ≤ bh) ∧
    (d.r.Pairwise fun a b => touching a b = false ∧
      ∀ pixel, ¬ (Holds a pixel ∧ Holds b pixel)) ∧
    (∀ r ∈ added, ∀ px py, r.x ≤ px → px < r.x + r.w → r.y ≤ py → py < r.y + r.h →
      OnScreen bw bh (px, py) → ∃ live ∈ d.r, Holds live (px, py)) ∧
    ∀ r ∈ d.r, Boxed (added.filterMap (DirtyRegion.init bw bh).clip) r := by
  obtain ⟨⟨⟨bounded, sound, apart⟩, covers⟩, width, height⟩ := run_collected bw bh sized added plain
  simp only at bounded sound apart covers width height ⊢
  have clips : (added.foldl DirtyRegion.add (.init bw bh)).clip = (DirtyRegion.init bw bh).clip := by
    funext r
    simp only [DirtyRegion.clip, width, height]
    rfl
  rw [width, height, clips] at sound
  rw [width, height] at covers
  refine ⟨bounded, fun r member => ?_, ?_, ?_, fun r member => (sound r member).2⟩
  · obtain ⟨⟨left, across, right⟩, top, down, bottom⟩ := (sound r member).1
    exact ⟨⟨across, down⟩, ⟨left, right⟩, top, bottom⟩
  · exact apart.imp fun away => ⟨away, disjoint_of_apart away⟩
  · intro r member px py left right top bottom screen
    have shape := plain r member
    refine covers r member (px, py) ⟨⟨left, ?_⟩, top, ?_⟩ screen
    · rw [Rect.right, i32_eq shape.right.1 shape.right.2]
      exact right
    · rw [Rect.bottom, i32_eq shape.bottom.1 shape.bottom.2]
      exact bottom

theorem dirty_region_covers_bridge : Sized 100 100 ∧
    ([⟨0, 0, 10, 10⟩, ⟨20, 20, 10, 10⟩, ⟨5, 5, 20, 20⟩].foldl DirtyRegion.add (.init 100 100)).r =
      [⟨0, 0, 30, 30⟩] ∧ Holds ⟨0, 0, 30, 30⟩ (24, 24) := by
  have sized : Sized 100 100 := by constructor <;> decide
  have plain : ∀ r ∈ [(⟨0, 0, 10, 10⟩ : Rect), ⟨20, 20, 10, 10⟩, ⟨5, 5, 20, 20⟩], Plain r := by
    simp only [List.mem_cons, List.not_mem_nil, or_false, forall_eq_or_imp, forall_eq]
    refine ⟨?_, ?_, ?_⟩ <;> constructor <;> decide
  have live : ([⟨0, 0, 10, 10⟩, ⟨20, 20, 10, 10⟩, ⟨5, 5, 20, 20⟩].foldl DirtyRegion.add
      (.init 100 100)).r = [⟨0, 0, 30, 30⟩] := by decide
  obtain ⟨_, _, _, covers, _⟩ := dirty_region_covers 100 100 sized _ plain
  obtain ⟨r, member, held⟩ := covers ⟨5, 5, 20, 20⟩ (by simp) 24 24 (by decide) (by decide)
    (by decide) (by decide) ⟨by decide, by decide⟩
  rw [live] at member
  exact ⟨sized, live, List.mem_singleton.mp member ▸ held⟩

/-- With a negative width the difference in `clip` wraps, and a rectangle far outside
is taken up. -/
theorem negative_bounds_admit_rect : Plain ⟨2147483646, 0, 1, 10⟩ ∧
    ([⟨2147483646, 0, 1, 10⟩].foldl DirtyRegion.add (.init (-5) 100)).r =
      [⟨2147483646, 0, 2147483645, 10⟩] ∧ ¬ (2147483646 + 2147483645 ≤ (-5 : Int)) := by
  refine ⟨?_, by decide, by decide⟩
  constructor <;> decide

end Shizuku.Gui
