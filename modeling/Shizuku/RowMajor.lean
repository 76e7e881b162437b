import Mathlib.Data.Int.Range
import Shizuku.ByteMemory
import Shizuku.Machine

/-!
Pictures in flat memories, one row after the other. What a drawing loop does is said by
the area that it paints and the colour of each point: such effects compose, so a loop over
points, or over rows of points, paints the union of what its rounds paint. An effect fixes
the memory after it, also the cells behind the last row.
-/

namespace Shizuku.RowMajor

open ByteMemory Machine

def InGrid (w h x y : Int) : Prop := (0 ≤ x ∧ x < w) ∧ 0 ≤ y ∧ y < h

instance (w h x y : Int) : Decidable (InGrid w h x y) := inferInstanceAs (Decidable ((_ ∧ _) ∧ _))

def place (w x y : Int) : Nat := (y * w + x).toNat

section Places
variable {w h x y : Int}

theorem place_cast (inside : InGrid w h x y) : (place w x y : Int) = y * w + x := by
  obtain ⟨⟨left, right⟩, top, _⟩ := inside
  have rows : 0 ≤ y * w := mul_nonneg top (by omega)
  exact Int.toNat_of_nonneg (by omega)

theorem row_le (inside : InGrid w h x y) : y * w + w ≤ w * h := by
  -- The last point of a row lies before the next row.
  obtain ⟨⟨left, right⟩, _, bottom⟩ := inside
  have rows : (y + 1) * w ≤ h * w := mul_le_mul_of_nonneg_right (by omega) (by omega)
  calc y * w + w = (y + 1) * w := by ring
    _ ≤ h * w := rows
    _ = w * h := mul_comm h w

theorem place_lt (inside : InGrid w h x y) : place w x y < (w * h).toNat := by
  have cast := place_cast inside
  have last := row_le inside
  have right := inside.1.2
  omega

theorem place_inj {x' y' : Int} (one : InGrid w h x y) (two : InGrid w h x' y')
    (same : place w x y = place w x' y') : x = x' ∧ y = y' := by
  have sums : y * w + x = y' * w + x' := by
    rw [← place_cast one, ← place_cast two, same]
  have columns : x = x' := by
    have rest := congrArg (· % w) sums
    simp only [Int.mul_add_emod_self_right] at rest
    rwa [Int.emod_eq_of_lt one.1.1 one.1.2, Int.emod_eq_of_lt two.1.1 two.1.2] at rest
  subst columns
  have wide : w ≠ 0 := by
    have := one.1
    omega
  exact ⟨rfl, mul_right_cancel₀ wide (by omega)⟩

theorem place_add (inside : InGrid w h x y) (k : Nat) : place w (x + k) y = place w x y + k := by
  have cast := place_cast inside
  have start : 0 ≤ y * w + x := by omega
  unfold place at cast ⊢
  omega

end Places

section Painting
variable {Cell : Type} {w h : Int}

/-- The points of the area get their colour, and no other cell is touched. -/
structure Painted (w h : Int) (area : Int → Int → Prop) (colour : Int → Int → Cell)
    (before after : Nat → Cell) : Prop where
  inside : ∀ x y, InGrid w h x y → area x y → after (place w x y) = colour x y
  outside : ∀ p, (∀ x y, InGrid w h x y → area x y → place w x y ≠ p) → after p = before p

variable {area : Int → Int → Prop} {colour : Int → Int → Cell} {before after : Nat → Cell}

theorem Painted.pixel (painted : Painted w h area colour before after) {x y : Int}
    [Decidable (area x y)] (inside : InGrid w h x y) :
    after (place w x y) = if area x y then colour x y else before (place w x y) := by
  by_cases member : area x y
  · rw [if_pos member]
    exact painted.inside x y inside member
  · rw [if_neg member]
    apply painted.outside
    intro x' y' inside' member' same
    obtain ⟨rfl, rfl⟩ := place_inj inside' inside same
    exact member member'

theorem Painted.unique {other : Nat → Cell} (painted : Painted w h area colour before after)
    (again : Painted w h area colour before other) : after = other := by
  funext p
  by_cases hit : ∃ x y, InGrid w h x y ∧ area x y ∧ place w x y = p
  · obtain ⟨x, y, inside, member, rfl⟩ := hit
    rw [painted.inside x y inside member, again.inside x y inside member]
  · have missed : ∀ x y, InGrid w h x y → area x y → place w x y ≠ p :=
      fun x y inside member same => hit ⟨x, y, inside, member, same⟩
    rw [painted.outside p missed, again.outside p missed]

theorem Painted.congr {area' : Int → Int → Prop} (painted : Painted w h area colour before after)
    (same : ∀ x y, InGrid w h x y → (area' x y ↔ area x y)) :
    Painted w h area' colour before after where
  inside x y inside member := painted.inside x y inside ((same x y inside).mp member)
  outside p missed := painted.outside p fun x y inside member =>
    missed x y inside ((same x y inside).mpr member)

theorem Painted.nothing (before : Nat → Cell) (none_ : ∀ x y, InGrid w h x y → ¬ area x y) :
    Painted w h area colour before before where
  inside x y inside member := absurd member (none_ x y inside)
  outside _ _ := rfl

theorem Painted.both {area' : Int → Int → Prop} {later : Nat → Cell}
    (first : Painted w h area colour before after) (second : Painted w h area' colour after later) :
    Painted w h (fun x y => area x y ∨ area' x y) colour before later where
  inside x y inside member := by
    classical
    rw [second.pixel inside]
    by_cases twice : area' x y
    · rw [if_pos twice]
    · rw [if_neg twice]
      exact first.inside x y inside (member.resolve_right twice)
  outside p missed := by
    rw [second.outside p fun x y inside member => missed x y inside (.inr member)]
    exact first.outside p fun x y inside member => missed x y inside (.inl member)

theorem foldlM_painted {Index : Type} {step : (Nat → Cell) → Index → Outcome (Nat → Cell)}
    (part : Index → Int → Int → Prop) (colour : Int → Int → Cell) (rounds : List Index)
    (round : ∀ i ∈ rounds, ∀ cells, ∃ next, step cells i = .ok next ∧
      Painted w h (part i) colour cells next) (before : Nat → Cell) :
    ∃ after, rounds.foldlM step before = .ok after ∧
      Painted w h (fun x y => ∃ i ∈ rounds, part i x y) colour before after := by
  induction rounds generalizing before with
  | nil => exact ⟨before, rfl, .nothing before (by simp)⟩
  | cons i rest ih =>
      obtain ⟨next, taken, painted⟩ := round i List.mem_cons_self before
      obtain ⟨after, finished, more⟩ :=
        ih (fun j member => round j (List.mem_cons_of_mem i member)) next
      refine ⟨after, ?_, (painted.both more).congr fun x y _ => ?_⟩
      · rw [List.foldlM_cons, taken, ok_bind, finished]
      · simp only [List.mem_cons, exists_eq_or_imp]

theorem foldl_painted {Index : Type} {step : (Nat → Cell) → Index → Nat → Cell}
    (part : Index → Int → Int → Prop) (colour : Int → Int → Cell) (rounds : List Index)
    (round : ∀ i ∈ rounds, ∀ cells, Painted w h (part i) colour cells (step cells i))
    (before : Nat → Cell) :
    Painted w h (fun x y => ∃ i ∈ rounds, part i x y) colour before (rounds.foldl step before) := by
  induction rounds generalizing before with
  | nil => exact .nothing before (by simp)
  | cons i rest ih =>
      have first := round i List.mem_cons_self before
      have more := ih (fun j member => round j (List.mem_cons_of_mem i member)) (step before i)
      refine (first.both more).congr fun x y _ => ?_
      simp only [List.mem_cons, exists_eq_or_imp]

theorem painted_cell (before : Nat → Cell) {x y : Int} (inside : InGrid w h x y) :
    Painted w h (fun x' y' => x' = x ∧ y' = y) colour before
      (Function.update before (place w x y) (colour x y)) where
  inside := by
    rintro _ _ _ ⟨rfl, rfl⟩
    exact Function.update_self ..
  outside p missed := Function.update_of_ne (missed x y inside ⟨rfl, rfl⟩).symm ..

theorem painted_row (colour : Int → Int → Cell) (before : Nat → Cell) (data : List Cell) {x y : Int}
    (start : InGrid w h x y) (fits : x + data.length ≤ w)
    (shown : ∀ k (inside : k < data.length), data[k] = colour (x + k) y) :
    Painted w h (fun x' y' => (x ≤ x' ∧ x' < x + data.length) ∧ y' = y) colour before
      (blit before (place w x y) data) where
  inside := by
    rintro x' _ _ ⟨⟨left, right⟩, rfl⟩
    obtain ⟨k, rfl⟩ : ∃ k : Nat, x' = x + k := ⟨(x' - x).toNat, by omega⟩
    have within : k < data.length := by omega
    rw [place_add start, blit_inside before _ data k within, shown k within]
  outside p missed := by
    apply blit_outside
    by_contra hit
    have column : InGrid w h (x + (p - place w x y : Nat)) y := by
      obtain ⟨⟨left, _⟩, rows⟩ := start
      exact ⟨⟨by omega, by omega⟩, rows⟩
    apply missed _ y column ⟨⟨by omega, by omega⟩, rfl⟩
    rw [place_add start]
    omega

end Painting

end Shizuku.RowMajor
