import Mathlib.Order.Interval.Set.Defs
import Mathlib.Tactic
import Mathlib.Order.CompletePartialOrder

/-!
Flat memories as total functions from addresses to cells, with the three bulk
operations a systems program performs on them: reading a slice, copying a list
of cells in (`blit`) and filling a range. Bounds are the caller's business: a
program that checks a slice against an array length does so before it gets here.
-/

namespace Shizuku.ByteMemory

variable {Cell : Type}

def slice (mem : Nat → Cell) (off len : Nat) : List Cell :=
  (List.range len).map fun index => mem (off + index)

def blit (mem : Nat → Cell) (base : Nat) (data : List Cell) : Nat → Cell :=
  fun addr => if base ≤ addr then (data[addr - base]?).getD (mem addr) else mem addr

def fill (mem : Nat → Cell) (base len : Nat) (value : Cell) : Nat → Cell :=
  fun addr => if base ≤ addr ∧ addr < base + len then value else mem addr

@[simp] theorem slice_length (mem : Nat → Cell) (off len : Nat) :
    (slice mem off len).length = len := by
  simp [slice]

theorem slice_getElem? (mem : Nat → Cell) (off len index : Nat) :
    (slice mem off len)[index]? = if index < len then some (mem (off + index)) else none := by
  by_cases inside : index < len
  · simp [slice, inside]
  · simp [slice, inside]

theorem slice_snoc (mem : Nat → Cell) (off len : Nat) :
    slice mem off (len + 1) = slice mem off len ++ [mem (off + len)] := by
  simp [slice, List.range_succ]

theorem slice_cons (mem : Nat → Cell) (off len : Nat) :
    slice mem off (len + 1) = mem off :: slice mem (off + 1) len := by
  simp [slice, List.range_succ_eq_map, Function.comp_def, Nat.add_comm, Nat.add_left_comm]

theorem slice_congr (before after : Nat → Cell) (off len : Nat)
    (agree : ∀ addr, off ≤ addr → addr < off + len → after addr = before addr) :
    slice after off len = slice before off len := by
  apply List.map_congr_left
  intro index member
  have bound := List.mem_range.mp member
  exact agree (off + index) (by omega) (by omega)

theorem slice_drop_take (mem : Nat → Cell) (off len start count : Nat)
    (inside : start + count ≤ len) :
    ((slice mem off len).drop start).take count = slice mem (off + start) count := by
  apply List.ext_getElem?
  intro index
  rw [List.getElem?_take, List.getElem?_drop, slice_getElem?, slice_getElem?]
  by_cases bound : index < count
  · have within : start + index < len := by omega
    simp [bound, within, Nat.add_assoc]
  · simp [bound]

theorem blit_outside (mem : Nat → Cell) (base : Nat) (data : List Cell) (addr : Nat)
    (outside : addr < base ∨ base + data.length ≤ addr) : blit mem base data addr = mem addr := by
  unfold blit
  by_cases above : base ≤ addr
  · have past : data.length ≤ addr - base := by omega
    simp [above, List.getElem?_eq_none past]
  · simp [above]

theorem blit_inside (mem : Nat → Cell) (base : Nat) (data : List Cell) (index : Nat)
    (inside : index < data.length) : blit mem base data (base + index) = data[index] := by
  simp [blit, inside]

@[simp] theorem blit_nil (mem : Nat → Cell) (base : Nat) : blit mem base [] = mem := by
  funext addr
  exact blit_outside mem base [] addr (by simp; omega)

theorem blit_congr (mem other : Nat → Cell) (base : Nat) (data : List Cell) (addr : Nat)
    (same : mem addr = other addr) : blit mem base data addr = blit other base data addr := by
  unfold blit
  rw [same]

theorem blit_append (mem : Nat → Cell) (base : Nat) (first second : List Cell) (addr : Nat) :
    blit (blit mem base first) (base + first.length) second addr =
      blit mem base (first ++ second) addr := by
  by_cases before : addr < base + first.length
  · rw [blit_outside _ _ second addr (.inl before)]
    unfold blit
    by_cases above : base ≤ addr
    · rw [if_pos above, if_pos above, List.getElem?_append_left (by omega)]
    · rw [if_neg above, if_neg above]
  · have above : base ≤ addr := by omega
    have index : addr - base - first.length = addr - (base + first.length) := by omega
    rw [blit_congr _ mem _ second addr (blit_outside mem base first addr (.inr (by omega)))]
    unfold blit
    rw [if_pos (by omega), if_pos above, List.getElem?_append_right (by omega), index]

theorem slice_blit_disjoint (mem : Nat → Cell) (base off len : Nat) (data : List Cell)
    (apart : off + len ≤ base ∨ base + data.length ≤ off) :
    slice (blit mem base data) off len = slice mem off len := by
  apply slice_congr
  intro addr low high
  exact blit_outside mem base data addr (by omega)

theorem slice_blit_within (mem : Nat → Cell) (off len start : Nat) (data : List Cell)
    (fits : start + data.length ≤ len) :
    slice (blit mem (off + start) data) off len =
      (slice mem off len).take start ++ data ++ (slice mem off len).drop (start + data.length) := by
  apply List.ext_getElem?
  intro index
  rw [slice_getElem?, List.append_assoc]
  by_cases before : index < start
  · have inLen : index < len := by omega
    rw [List.getElem?_append_left (by simp; omega), List.getElem?_take, slice_getElem?]
    simp only [before, inLen, ↓reduceIte]
    rw [blit_outside _ _ _ _ (by omega)]
  · rw [List.getElem?_append_right (by simp; omega)]
    have taken : ((slice mem off len).take start).length = start := by simp; omega
    rw [taken]
    by_cases covered : index - start < data.length
    · have inLen : index < len := by omega
      have place : off + index = off + start + (index - start) := by omega
      rw [List.getElem?_append_left covered, place, blit_inside _ _ _ _ covered]
      simp [inLen, covered]
    · rw [List.getElem?_append_right (by omega), List.getElem?_drop, slice_getElem?]
      have same : start + data.length + (index - start - data.length) = index := by omega
      rw [same, blit_outside _ _ _ _ (by omega)]

theorem slice_blit_all (mem : Nat → Cell) (off : Nat) (data : List Cell) :
    slice (blit mem off data) off data.length = data := by
  have whole := slice_blit_within mem off data.length 0 data (by omega)
  simpa [List.drop_eq_nil_of_le] using whole

theorem slice_blit_front (mem : Nat → Cell) (base len : Nat) (data : List Cell) :
    slice (blit mem base data) base (data.length + len) =
      data ++ slice mem (base + data.length) len := by
  have whole := slice_blit_within mem base (data.length + len) 0 data (by omega)
  have back := slice_drop_take mem base (data.length + len) data.length len le_rfl
  rw [List.take_of_length_le (by simp)] at back
  rw [Nat.add_zero, List.take_zero, List.nil_append, Nat.zero_add, back] at whole
  exact whole

theorem fill_outside (mem : Nat → Cell) (base len : Nat) (value : Cell) (addr : Nat)
    (outside : addr < base ∨ base + len ≤ addr) : fill mem base len value addr = mem addr := by
  have apart : ¬ (base ≤ addr ∧ addr < base + len) := by omega
  simp [fill, apart]

theorem fill_inside (mem : Nat → Cell) (base len : Nat) (value : Cell) (addr : Nat)
    (low : base ≤ addr) (high : addr < base + len) : fill mem base len value addr = value := by
  simp [fill, low, high]

/-! Extents of a bump allocated pool: live keys own disjoint ranges below the top. -/
section Extents
variable {Key : Type}

structure Extent where
  off : Nat
  size : Nat

def Extent.cells (extent : Extent) : Set Nat := Set.Ico extent.off (extent.off + extent.size)

theorem mem_cells (extent : Extent) (addr : Nat) :
    addr ∈ extent.cells ↔ extent.off ≤ addr ∧ addr < extent.off + extent.size := Iff.rfl

structure Packed (live : Key → Prop) (extent : Key → Extent) (top : Nat) : Prop where
  below : ∀ key, live key → (extent key).off + (extent key).size ≤ top
  apart : ∀ key other, live key → live other → key ≠ other →
    Disjoint (extent key).cells (extent other).cells

theorem Packed.mono {live fewer : Key → Prop} {extent kept : Key → Extent} {top : Nat}
    (packed : Packed live extent top)
    (subset : ∀ key, fewer key → live key ∧ kept key = extent key) : Packed fewer kept top where
  below key member := by
    rw [(subset key member).2]
    exact packed.below key (subset key member).1
  apart key other first second different := by
    rw [(subset key first).2, (subset other second).2]
    exact packed.apart key other (subset key first).1 (subset other second).1 different

/-- Giving one key a fresh range at the top keeps the pool packed. The key may
be new or may leave an older range behind. -/
theorem Packed.push {live grown : Key → Prop} {extent moved : Key → Extent} {top : Nat}
    (packed : Packed live extent top) (key : Key) (size : Nat) (placed : moved key = ⟨top, size⟩)
    (others : ∀ other, grown other → other ≠ key → live other ∧ moved other = extent other) :
    Packed grown moved (top + size) := by
  have fresh : ∀ other, grown other → other ≠ key →
      Disjoint (moved key).cells (moved other).cells := by
    intro other member different
    have bound := packed.below other (others other member different).1
    rw [placed, (others other member different).2, Set.disjoint_left]
    intro addr inside outside
    rw [mem_cells] at inside outside
    simp only at inside
    omega
  constructor
  · intro other member
    by_cases same : other = key
    · rw [same, placed]
    · have bound := packed.below other (others other member same).1
      rw [(others other member same).2]
      omega
  · intro left right first second different
    by_cases leftSame : left = key
    · subst left
      exact fresh right second (Ne.symm different)
    · by_cases rightSame : right = key
      · subst right
        exact (fresh left first different).symm
      · rw [(others left first leftSame).2, (others right second rightSame).2]
        exact packed.apart left right (others left first leftSame).1
          (others right second rightSame).1 different

theorem Packed.slice_blit_other {live : Key → Prop} {extent : Key → Extent} {top : Nat}
    (packed : Packed live extent top) (mem : Nat → Cell) (key other : Key) (first : live key)
    (second : live other) (different : other ≠ key) (start : Nat) (data : List Cell)
    (fits : start + data.length ≤ (extent key).size) :
    slice (blit mem ((extent key).off + start) data) (extent other).off (extent other).size =
      slice mem (extent other).off (extent other).size := by
  have disjoint := Set.disjoint_left.mp (packed.apart key other first second (Ne.symm different))
  apply slice_congr
  intro addr low high
  apply blit_outside
  by_contra inside
  exact disjoint (a := addr) ((mem_cells _ _).mpr (by omega)) ((mem_cells _ _).mpr ⟨low, high⟩)

theorem Packed.slice_blit_top {live : Key → Prop} {extent : Key → Extent} {top : Nat}
    (packed : Packed live extent top) (mem : Nat → Cell) (key : Key) (member : live key)
    (base : Nat) (above : top ≤ base) (data : List Cell) :
    slice (blit mem base data) (extent key).off (extent key).size =
      slice mem (extent key).off (extent key).size := by
  have bound := packed.below key member
  exact slice_blit_disjoint mem base _ _ data (.inl (by omega))

end Extents

end Shizuku.ByteMemory
