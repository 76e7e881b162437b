import Shizuku.Pmm

/-!
What the two scans find. With an alignment of one page both are first fit: the word
scan of `alloc_page` and the bit scan of `alloc_pages`, which skips past used pages,
agree with a search from the bottom. With a larger alignment, stepping over a used
page leaves the scan at an index that need not be aligned, and from there the loop
falls back to the boundary below, steps one page up and falls back again.
-/

namespace Shizuku.Pmm

open Machine

theorem allocPages_one (pmm : State) : allocPages pmm 1 pageSize = .ok (allocPage pmm) := by
  rcases allocPages_cases pmm 1 with ⟨nothing, none⟩ | ⟨start, run, lowest, found⟩
  · rcases allocPage_cases pmm with ⟨empty, _⟩ | ⟨page, free, _, _⟩
    · rw [nothing, empty]
    · exact absurd ((freeRun_one pmm page).mpr free) (none page)
  · have free := (freeRun_one pmm start).mp run
    rcases allocPage_cases pmm with ⟨_, none⟩ | ⟨page, other, least, got⟩
    · exact absurd free (none start)
    · have same : start = page := by
        apply Nat.le_antisymm
        · exact Nat.le_of_not_lt fun below => lowest page below ((freeRun_one pmm page).mpr other)
        · exact Nat.le_of_not_lt fun below => least start below free
      rw [found, got, same]
      rfl

/-- What a first fit search for `count` pages returns: the lowest run of that many
free pages, and 0 exactly if there is none. -/
structure FirstFit (pmm : State) (count ret : Nat) : Prop where
  zero : ret = 0 ↔ ∀ start, ¬ FreeRun pmm start count
  lowest : ret ≠ 0 → ∃ start, ret = start * pageSize ∧ FreeRun pmm start count ∧
    ∀ lower, lower < start → ¬ FreeRun pmm lower count

theorem firstFit_found (pmm : State) (count start : Nat) (reserved : ¬ Free pmm 0)
    (some_ : 1 ≤ count) (run : FreeRun pmm start count)
    (lowest : ∀ lower, lower < start → ¬ FreeRun pmm lower count) :
    FirstFit pmm count (start * pageSize) := by
  -- A page address is 0 only for page 0, which is not free.
  have above : start ≠ 0 := by
    rintro rfl
    exact reserved ⟨by decide, run.2 0 some_⟩
  refine ⟨⟨fun zero => ?_, fun none => absurd run (none start)⟩, fun _ => ⟨start, rfl, run, lowest⟩⟩
  exact absurd zero (Nat.mul_ne_zero above (by decide))

theorem allocPages_firstFit (pmm : State) (count : Nat) (reserved : ¬ Free pmm 0)
    (some_ : 1 ≤ count) :
    ∃ ret after, allocPages pmm count pageSize = .ok (ret, after) ∧ FirstFit pmm count ret := by
  rcases allocPages_cases pmm count with ⟨nothing, none⟩ | ⟨start, run, lowest, found⟩
  · exact ⟨0, pmm, nothing, ⟨fun _ => none, fun _ => rfl⟩, fun found => absurd rfl found⟩
  · exact ⟨_, _, found, firstFit_found pmm count start reserved some_ run lowest⟩

/-- Both entry points on every bitmap that keeps page 0: the lowest free page, the
lowest free run of every length, and the two scans agree on a single page. -/
theorem allocation_is_first_fit (pmm : State) (reserved : ¬ Free pmm 0) :
    (((allocPage pmm).1 = 0 ↔ ∀ page, ¬ Free pmm page) ∧
      ((allocPage pmm).1 ≠ 0 → ∃ page, (allocPage pmm).1 = page * pageSize ∧ Free pmm page ∧
        ∀ lower, lower < page → ¬ Free pmm lower)) ∧
    (∀ count, 1 ≤ count →
      ∃ ret after, allocPages pmm count pageSize = .ok (ret, after) ∧ FirstFit pmm count ret) ∧
    allocPages pmm 1 pageSize = .ok (allocPage pmm) := by
  refine ⟨?_, fun count some_ => allocPages_firstFit pmm count reserved some_, allocPages_one pmm⟩
  obtain ⟨ret, after, done, fit⟩ := allocPages_firstFit pmm 1 reserved (Nat.le_refl 1)
  have same : (allocPage pmm).1 = ret := by
    rw [allocPages_one, Except.ok.injEq] at done
    rw [done]
  have zero := fit.zero
  have lowest := fit.lowest
  simp only [freeRun_one] at zero lowest
  rw [same]
  exact ⟨zero, lowest⟩

/-! ### Larger alignments -/

def Finishes (pmm : State) (count align : Nat) : Prop :=
  ∃ rounds answer, allocPagesLoop pmm count (max align pageSize / pageSize) rounds 0 = .ok answer

section Scan
variable {pmm : State} {count alignPages : Nat}

/-- An index off the boundary never comes back to one. -/
theorem allocPagesLoop_stuck (rounds start : Nat) (fits : start + count ≤ bitmapPages)
    (off : start % alignPages ≠ 0) :
    allocPagesLoop pmm count alignPages rounds start = .error .hang := by
  induction rounds generalizing start with
  | zero => rfl
  | succ rounds ih =>
      simp only [allocPagesLoop, fits, off, ne_eq, not_false_eq_true, ↓reduceIte]
      have down : start % alignPages ≤ start := Nat.mod_le start alignPages
      apply ih (start - start % alignPages + 1) (by omega)
      have several : alignPages ≠ 1 := by
        rintro rfl
        exact off (Nat.mod_one start)
      have boundary : alignPages ∣ start - start % alignPages := Nat.dvd_sub_mod start
      rw [Nat.add_mod, Nat.mod_eq_zero_of_dvd boundary, Nat.zero_add, Nat.mod_mod]
      intro zero
      exact several (Nat.dvd_one.mp (Nat.dvd_of_mod_eq_zero zero))

theorem allocPagesLoop_hangs (page : Nat) (fits : page + 1 + count ≤ bitmapPages)
    (skipped : Skipped pmm count page) (off : ¬ alignPages ∣ page + 1) (rounds start : Nat)
    (before : start ≤ page) :
    allocPagesLoop pmm count alignPages rounds start = .error .hang := by
  -- A used page that has to be stepped over and does not end at a boundary.
  induction rounds generalizing start with
  | zero => rfl
  | succ rounds ih =>
      by_cases even : start % alignPages = 0
      · obtain ⟨short, free, _⟩ := freeRun_spec pmm start count
        have inside : start + count ≤ bitmapPages := by omega
        have broken : freeRun pmm start count ≠ count := fun whole =>
          skipped.2 start before ⟨inside, fun offset less => free offset (by omega)⟩
        -- The inner loop stops at the used page at the latest.
        have stops : start + freeRun pmm start count ≤ page := by
          by_contra past
          have set := free (page - start) (by omega)
          rw [show start + (page - start) = page by omega, skipped.1] at set
          cases set
        simp only [allocPagesLoop, inside, even, broken, ne_eq, not_true_eq_false, ↓reduceIte]
        by_cases here : start + freeRun pmm start count = page
        · rw [here]
          exact allocPagesLoop_stuck rounds (page + 1) fits fun zero =>
            off (Nat.dvd_of_mod_eq_zero zero)
        · exact ih _ (by omega)
      · exact allocPagesLoop_stuck (rounds + 1) start (by omega) even

theorem allocPagesLoop_sound (rounds start pa : Nat) (after : State)
    (done : allocPagesLoop pmm count alignPages rounds start = .ok (pa, after)) (found : pa ≠ 0) :
    ∃ page, pa = page * pageSize ∧ alignPages ∣ page ∧ FreeRun pmm page count := by
  induction rounds generalizing start with
  | zero => cases done
  | succ rounds ih =>
      rw [allocPagesLoop] at done
      split at done
      · rename_i fits
        split at done
        · exact ih _ done
        · rename_i even
          dsimp only at done
          split at done
          · rename_i whole
            rw [Except.ok.injEq, Prod.mk.injEq] at done
            refine ⟨start, done.1.symm, Nat.dvd_of_mod_eq_zero (not_not.mp even), fits, ?_⟩
            intro offset less
            exact (freeRun_spec pmm start count).2.1 offset (by omega)
          · exact ih _ done
      · rw [Except.ok.injEq, Prod.mk.injEq] at done
        exact absurd done.1.symm found

end Scan

theorem finishes_iff (pmm : State) (count align : Nat) :
    Finishes pmm count align ↔ Steady pmm count (max align pageSize / pageSize) := by
  constructor
  · rintro ⟨rounds, answer, done⟩ page fits skipped
    by_contra off
    rw [allocPagesLoop_hangs page fits skipped off rounds 0 (Nat.zero_le page)] at done
    cases done
  · intro steady
    refine ⟨bitmapPages + 2, ?_⟩
    rcases allocPagesLoop_steady pmm count _ (bitmapPages + 2) 0 steady (by omega) (by omega)
      (fun _ => dvd_zero _) (by omega) with ⟨none, _⟩ | ⟨found, _, _, some_⟩
    · exact ⟨_, none⟩
    · exact ⟨_, some_⟩

theorem power_dvd_boundary (exponent : Nat) :
    2 ^ exponent ∣ max (2 ^ exponent) pageSize / pageSize * pageSize := by
  -- A power of two divides the boundary that the scan keeps to.
  have size : pageSize = 2 ^ 12 := rfl
  rcases Nat.le_total exponent 12 with small | large
  · rw [size, Nat.max_eq_right (Nat.pow_le_pow_right (by decide) small), Nat.div_self (by decide),
      Nat.one_mul]
    exact Nat.pow_dvd_pow 2 small
  · rw [size, Nat.max_eq_left (Nat.pow_le_pow_right (by decide) large),
      Nat.div_mul_cancel (Nat.pow_dvd_pow 2 large)]

/-- For every bitmap and count and every alignment that is a power of two: the
call returns exactly on steady bitmaps, and what it returns there is aligned and
heads a run of free pages. -/
theorem allocPages_finishes_aligned (pmm : State) (count exponent : Nat) :
    (Finishes pmm count (2 ^ exponent) ∧
      ∀ rounds pa after, allocPagesLoop pmm count (max (2 ^ exponent) pageSize / pageSize) rounds 0 =
        .ok (pa, after) → pa ≠ 0 → 2 ^ exponent ∣ pa ∧ FreeRun pmm (pa / pageSize) count) ↔
      Steady pmm count (max (2 ^ exponent) pageSize / pageSize) := by
  rw [finishes_iff, and_iff_left_iff_imp]
  intro _ rounds pa after done found
  obtain ⟨page, rfl, boundary, run⟩ := allocPagesLoop_sound rounds 0 pa after done found
  rw [Nat.mul_div_cancel page (by decide)]
  exact ⟨(power_dvd_boundary exponent).trans (Nat.mul_dvd_mul_right boundary pageSize), run⟩

def lowestUsed : State where
  bitmap place := if place = 0 then ~~~1#64 else BitVec.allOnes 64
  freePages := BitVec.ofNat 64 (bitmapPages - 1)
  badFrees := []

theorem allocation_is_first_fit_lowestUsed :
    ¬ Free lowestUsed 0 ∧ (allocPage lowestUsed).1 = pageSize ∧
      ∃ ret after, allocPages lowestUsed 3 pageSize = .ok (ret, after) ∧ ret = pageSize := by
  have reserved : ¬ Free lowestUsed 0 := by decide
  have next : Free lowestUsed 1 := by decide
  obtain ⟨⟨zero, lowest⟩, runs, _⟩ := allocation_is_first_fit lowestUsed reserved
  have low : ∀ page, Free lowestUsed page → 1 ≤ page := by
    intro page free
    refine Nat.pos_of_ne_zero fun zero => reserved ?_
    exact zero ▸ free
  refine ⟨reserved, ?_, ?_⟩
  · obtain ⟨page, same, free, least⟩ := lowest fun none => zero.mp none 1 next
    have first : page = 1 :=
      Nat.le_antisymm (Nat.le_of_not_lt fun below => least 1 below next) (low page free)
    rw [same, first, Nat.one_mul]
  · have run : FreeRun lowestUsed 1 3 := by
      refine ⟨by decide, fun offset small => ?_⟩
      interval_cases offset <;> decide
    obtain ⟨ret, after, done, fit⟩ := runs 3 (by decide)
    obtain ⟨start, same, found, least⟩ := fit.lowest fun none => fit.zero.mp none 1 run
    have first : start = 1 := by
      apply Nat.le_antisymm
      · exact Nat.le_of_not_lt fun below => least 1 below run
      · exact low start ⟨Nat.lt_of_lt_of_le (Nat.lt_add_of_pos_right (by decide)) found.1,
          found.2 0 (by decide)⟩
    exact ⟨ret, after, done, by rw [same, first, Nat.one_mul]⟩

/-- One page at an 8 KiB boundary: page 2 would do, and the scan never gets there. -/
theorem aligned_scan_hangs : FreeRun lowestUsed 2 1 ∧ ¬ Finishes lowestUsed 1 (2 ^ 13) := by
  constructor
  · refine ⟨by decide, fun offset less => ?_⟩
    rw [Nat.lt_one_iff.mp less]
    decide
  · rintro ⟨rounds, answer, done⟩
    have skipped : Skipped lowestUsed 1 0 := by
      refine ⟨by decide, fun start low run => ?_⟩
      have set := run.2 0 Nat.zero_lt_one
      rw [Nat.le_zero.mp low] at set
      exact absurd set (by decide)
    rw [show max (2 ^ 13) pageSize / pageSize = 2 from rfl,
      allocPagesLoop_hangs 0 (by decide) skipped (by decide) rounds 0 (Nat.le_refl 0)] at done
    cases done

end Shizuku.Pmm
