import Mathlib.Data.List.Basic
import Mathlib.Tactic

/-!
Positions with a property, and the maximal runs of them. `scan` is the loop that moves on
while the property holds; the runs in order of their starts are what a scanner that
alternates between two such loops should find.
-/

namespace Shizuku.Scanning

variable {p q : Nat → Bool} {bound i j stop : Nat}

/-- `rounds` bounds the number of steps. -/
def scan (p : Nat → Bool) : Nat → Nat → Nat
  | 0, i => i
  | rounds + 1, i => if p i then scan p rounds (i + 1) else i

theorem scan_eq {rounds : Nat} (low : i ≤ stop) (all : ∀ k, i ≤ k → k < stop → p k = true)
    (ends : p stop = false) (enough : stop ≤ i + rounds) : scan p rounds i = stop := by
  induction rounds generalizing i with
  | zero => exact Nat.le_antisymm low enough
  | succ rounds ih =>
      by_cases here : i = stop
      · subst i
        simp [scan, ends]
      · have inside : p i = true := all i (Nat.le_refl i) (by omega)
        rw [scan, if_pos inside]
        exact ih (by omega) (fun k above below => all k (by omega) below) (by omega)

theorem exists_stop (low : i ≤ bound) (ends : p bound = false) :
    ∃ stop, i ≤ stop ∧ stop ≤ bound ∧ (∀ k, i ≤ k → k < stop → p k = true) ∧ p stop = false := by
  induction low using Nat.decreasingInduction with
  | self => exact ⟨bound, Nat.le_refl _, Nat.le_refl _, fun k _ _ => by omega, ends⟩
  | of_succ i below ih =>
      by_cases here : p i = true
      · obtain ⟨stop, above, high, all, free⟩ := ih
        refine ⟨stop, by omega, high, fun k low short => ?_, free⟩
        by_cases first : k = i
        · rw [first, here]
        · exact all k (by omega) short
      · exact ⟨i, Nat.le_refl _, Nat.le_of_lt below, fun k _ _ => by omega, by simpa using here⟩

structure MaximalRun (p : Nat → Bool) (span : Nat × Nat) : Prop where
  nonempty : span.1 < span.2
  all : ∀ k, span.1 ≤ k → k < span.2 → p k = true
  left : span.1 = 0 ∨ p (span.1 - 1) = false
  right : p span.2 = false

def startsAt (p : Nat → Bool) (i : Nat) : Bool := p i && (i == 0 || !p (i - 1))

def runAt (p : Nat → Bool) (bound i : Nat) : Option (Nat × Nat) :=
  if startsAt p i then some (i, scan p bound i) else none

def runsFrom (p : Nat → Bool) (bound i : Nat) : List (Nat × Nat) :=
  (List.range' i (bound - i)).filterMap (runAt p bound)

theorem runsFrom_end (p : Nat → Bool) (bound : Nat) : runsFrom p bound bound = [] := by
  simp [runsFrom]

theorem runsFrom_next (p : Nat → Bool) (inside : i < bound) :
    runsFrom p bound i = (runAt p bound i).toList ++ runsFrom p bound (i + 1) := by
  have count : bound - i = (bound - (i + 1)) + 1 := by omega
  unfold runsFrom
  rw [count, List.range'_succ, List.filterMap_cons]
  cases runAt p bound i <;> rfl

theorem runsFrom_skip (low : i ≤ j) (high : j ≤ bound)
    (none_ : ∀ k, i ≤ k → k < j → startsAt p k = false) : runsFrom p bound i = runsFrom p bound j := by
  induction low using Nat.decreasingInduction with
  | self => rfl
  | of_succ i below ih =>
      have silent : runAt p bound i = none := by
        rw [runAt, none_ i (Nat.le_refl i) below]
        rfl
      rw [runsFrom_next p (by omega), silent]
      exact ih fun k low short => none_ k (by omega) short

theorem runsFrom_run (inside : i < bound) (starts : startsAt p i = true)
    (low : i < stop) (high : stop ≤ bound) (all : ∀ k, i ≤ k → k < stop → p k = true)
    (free : p stop = false) :
    runsFrom p bound i = (i, stop) :: runsFrom p bound stop := by
  have run : runAt p bound i = some (i, stop) := by
    rw [runAt, starts, scan_eq (Nat.le_of_lt low) all free (by omega)]
    rfl
  rw [runsFrom_next p inside, run, Option.toList_some, List.singleton_append]
  congr 1
  apply runsFrom_skip (by omega) high
  intro k above below
  -- Just before there is a position of the same run.
  have before : p (k - 1) = true := all (k - 1) (by omega) (by omega)
  have positive : k ≠ 0 := by omega
  simp [startsAt, before, positive]

theorem mem_runsFrom (beyond : ∀ k, bound ≤ k → p k = false) (span : Nat × Nat) :
    span ∈ runsFrom p bound 0 ↔ MaximalRun p span := by
  have ends := beyond bound (Nat.le_refl bound)
  unfold runsFrom
  rw [List.mem_filterMap]
  constructor
  · rintro ⟨i, member, found⟩
    have inside : i < bound := by simpa using member
    unfold runAt at found
    split at found
    · rename_i starts
      cases found
      obtain ⟨stop, low, high, all, free⟩ := exists_stop (Nat.le_of_lt inside) ends
      rw [startsAt, Bool.and_eq_true] at starts
      have more : i < stop := by
        by_contra none_
        have same : stop = i := by omega
        rw [same, starts.1] at free
        cases free
      rw [scan_eq low all free (by omega)]
      exact ⟨more, all, by simpa using starts.2, free⟩
    · cases found
  · rintro ⟨nonempty, all, left, right⟩
    obtain ⟨i, stop⟩ := span
    have here : p i = true := all i (Nat.le_refl i) nonempty
    have inside : i < bound := by
      by_contra outside
      rw [beyond i (by omega)] at here
      cases here
    have short : stop ≤ bound := by
      by_contra long
      have last := all bound (by simp only; omega) (by simp only; omega)
      rw [ends] at last
      cases last
    refine ⟨i, by simpa using inside, ?_⟩
    have starts : startsAt p i = true := by
      rw [startsAt, here, Bool.true_and]
      simpa using left
    rw [runAt, if_pos starts, scan_eq (Nat.le_of_lt nonempty) all right (by omega)]

theorem runsFrom_pairwise (beyond : ∀ k, bound ≤ k → p k = false) :
    (runsFrom p bound 0).Pairwise fun one two => one.2 < two.1 := by
  unfold runsFrom
  rw [List.pairwise_filterMap]
  have order : (List.range' 0 (bound - 0)).Pairwise (· < ·) := List.pairwise_lt_range' ..
  refine order.imp_of_mem fun {i j} first second less one found two found' => ?_
  -- The end of the first run cannot be past a position at which another starts.
  have ends := beyond bound (Nat.le_refl bound)
  have inside : i < bound := by simpa using first
  unfold runAt at found found'
  split at found
  · split at found'
    · rename_i starts starts'
      cases found
      cases found'
      obtain ⟨stop, low, high, all, free⟩ := exists_stop (Nat.le_of_lt inside) ends
      rw [scan_eq low all free (by omega)]
      rw [startsAt, Bool.and_eq_true] at starts'
      have gap : p (j - 1) = false := by
        have edge := starts'.2
        have positive : j ≠ 0 := by omega
        simpa [positive] using edge
      by_contra late
      simp only at late
      have covered := all (j - 1) (by omega) (by omega)
      rw [gap] at covered
      cases covered
    · cases found'
  · cases found

end Shizuku.Scanning
