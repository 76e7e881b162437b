import Shizuku.Machine
import Shizuku.PackedBits

/-!
The physical page allocator of `mm/pmm.rs`: one bit for each 4 KiB page below
512 MiB, 1 for free, in 64-bit words, and a counter kept beside it. `badFrees`
collects the arguments of the rejected frees, which the source only logs.
-/

namespace Shizuku.Pmm

open Machine

def pageSize : Nat := 4096
def pmmMaxPhys : Nat := 512 * 2 ^ 20
def bitmapPages : Nat := pmmMaxPhys / pageSize
def bitmapWords : Nat := bitmapPages / 64

structure State where
  bitmap : Nat → BitVec 64
  freePages : BitVec 64
  badFrees : List Nat

def State.setWord (pmm : State) (place : Nat) (word : BitVec 64) : State :=
  { pmm with bitmap := fun key => if key = place then word else pmm.bitmap key }

def bmSet (pmm : State) (page : Nat) : State :=
  pmm.setWord (page >>> 6) (pmm.bitmap (page >>> 6) ||| (1#64 <<< (page &&& 63)))

def bmClear (pmm : State) (page : Nat) : State :=
  pmm.setWord (page >>> 6) (pmm.bitmap (page >>> 6) &&& ~~~(1#64 <<< (page &&& 63)))

def bmTest (pmm : State) (page : Nat) : Bool :=
  (pmm.bitmap (page >>> 6) >>> (page &&& 63)) &&& 1#64 != 0#64

def allocPage (pmm : State) : Nat × State :=
  match (List.range bitmapWords).find? fun place => pmm.bitmap place != 0#64 with
  | none => (0, pmm)
  | some place =>
      let page := (place <<< 6) + (pmm.bitmap place).ctz.toNat
      (page * pageSize, { bmClear pmm page with freePages := pmm.freePages - 1 })

/-- The inner loop of `alloc_pages`: how many of the `count` pages from `start`
are free before the first used one. -/
def freeRun (pmm : State) (start : Nat) : Nat → Nat
  | 0 => 0
  | count + 1 => if bmTest pmm start then freeRun pmm (start + 1) count + 1 else 0

def clearRun (pmm : State) (start count : Nat) : State :=
  (List.range count).foldl (fun state offset => bmClear state (start + offset)) pmm

/-- The outer loop. With an alignment of one page the index grows in every round;
with a larger one the source can fall back, so the rounds are counted. The sum
`start + count` cannot wrap: the first round has already refused a larger count. -/
def allocPagesLoop (pmm : State) (count alignPages : Nat) : Nat → Nat → Outcome (Nat × State)
  | 0, _ => .error .hang
  | rounds + 1, start =>
      if start + count ≤ bitmapPages then
        if start % alignPages ≠ 0 then
          allocPagesLoop pmm count alignPages rounds (start - start % alignPages + 1)
        else
          let run := freeRun pmm start count
          if run = count then
            .ok (start * pageSize, { clearRun pmm start count with
              freePages := pmm.freePages - BitVec.ofNat 64 count })
          else allocPagesLoop pmm count alignPages rounds (start + run + 1)
      else .ok (0, pmm)

def allocPages (pmm : State) (count align : Nat) : Outcome (Nat × State) :=
  allocPagesLoop pmm count (max align pageSize / pageSize) (bitmapPages + 2) 0

def freePage (pmm : State) (pa : Nat) : State :=
  let page := pa / pageSize
  if pa % pageSize ≠ 0 ∨ bitmapPages ≤ page ∨ bmTest pmm page then
    { pmm with badFrees := pa :: pmm.badFrees }
  else { bmSet pmm page with freePages := pmm.freePages + 1 }

/-! The bitmap as a set of pages. -/

theorem page_word (page : Nat) : page >>> 6 = page / 64 := Nat.shiftRight_eq_div_pow page 6

theorem page_bit (page : Nat) : page &&& 63 = page % 64 := Nat.and_two_pow_sub_one_eq_mod page 6

theorem bmTest_packed (pmm : State) (page : Nat) :
    bmTest pmm page = PackedBits.test pmm.bitmap page := by
  rw [bmTest, PackedBits.test, page_bit, page_word]
  cases bit : (pmm.bitmap (page / 64)).getLsbD (page % 64) with
  | false =>
      have zero : (pmm.bitmap (page / 64) >>> (page % 64)) &&& 1#64 = 0#64 := by
        ext index inside
        by_cases first : index = 0
        · subst index
          simp [bit]
        · simp [first]
      simp [zero]
  | true =>
      simp only [bne_iff_ne, ne_eq]
      intro zero
      have first := congrArg (fun word => word.getLsbD 0) zero
      simp [bit] at first

theorem bmSet_packed (pmm : State) (page : Nat) :
    (bmSet pmm page).bitmap = PackedBits.insert pmm.bitmap page := by
  funext key
  simp only [bmSet, State.setWord, PackedBits.insert, page_bit, page_word, BitVec.twoPow]
  split
  · rename_i same
    rw [same]
  · rfl

theorem bmClear_packed (pmm : State) (page : Nat) :
    (bmClear pmm page).bitmap = PackedBits.erase pmm.bitmap page := by
  funext key
  simp only [bmClear, State.setWord, PackedBits.erase, page_bit, page_word, BitVec.twoPow]
  split
  · rename_i same
    rw [same]
  · rfl

def Free (pmm : State) (page : Nat) : Prop := page < bitmapPages ∧ bmTest pmm page = true

instance (pmm : State) (page : Nat) : Decidable (Free pmm page) :=
  inferInstanceAs (Decidable (_ ∧ _))

def take (pmm : State) (page : Nat) : State :=
  { bmClear pmm page with freePages := pmm.freePages - 1 }

def release (pmm : State) (page : Nat) : State :=
  { bmSet pmm page with freePages := pmm.freePages + 1 }

theorem free_take (pmm : State) (page other : Nat) :
    Free (take pmm page) other ↔ Free pmm other ∧ other ≠ page := by
  have test : bmTest (take pmm page) other =
      (!decide (other = page) && bmTest pmm other) := by
    rw [bmTest_packed, bmTest_packed, ← PackedBits.test_erase (by decide), ← bmClear_packed]
    rfl
  simp only [Free, test, Bool.and_eq_true, Bool.not_eq_true', decide_eq_false_iff_not]
  tauto

theorem free_release (pmm : State) (page other : Nat) (inside : page < bitmapPages) :
    Free (release pmm page) other ↔ Free pmm other ∨ other = page := by
  have test : bmTest (release pmm page) other =
      (decide (other = page) || bmTest pmm other) := by
    rw [bmTest_packed, bmTest_packed, ← PackedBits.test_insert (by decide), ← bmSet_packed]
    rfl
  simp only [Free, test, Bool.or_eq_true, decide_eq_true_eq]
  constructor
  · rintro ⟨low, same | old⟩
    · exact .inr same
    · exact .inl ⟨low, old⟩
  · rintro (old | same)
    · exact ⟨old.1, .inr old.2⟩
    · exact ⟨by rw [same]; exact inside, .inl same⟩

@[simp] theorem take_badFrees (pmm : State) (page : Nat) :
    (take pmm page).badFrees = pmm.badFrees := rfl

@[simp] theorem release_badFrees (pmm : State) (page : Nat) :
    (release pmm page).badFrees = pmm.badFrees := rfl

/-! What each entry point does to the free set. -/

theorem page_split (page : Nat) (inside : page < bitmapPages) :
    page / 64 < bitmapWords ∧ page / 64 * 64 + page % 64 = page := by
  have words : bitmapWords * 64 = bitmapPages := by decide
  omega

theorem allocPage_cases (pmm : State) :
    (allocPage pmm = (0, pmm) ∧ ∀ page, ¬ Free pmm page) ∨
      ∃ page, Free pmm page ∧ (∀ lower, lower < page → ¬ Free pmm lower) ∧
        allocPage pmm = (page * pageSize, take pmm page) := by
  unfold allocPage
  cases found : (List.range bitmapWords).find? fun place => pmm.bitmap place != 0#64 with
  | none =>
      refine .inl ⟨rfl, fun page free => ?_⟩
      have zero := List.find?_eq_none.mp found (page / 64)
        (List.mem_range.mpr (page_split page free.1).1)
      have word : pmm.bitmap (page / 64) = 0#64 := by simpa using zero
      have set := free.2
      rw [bmTest_packed, PackedBits.test, word] at set
      simp at set
  | some place =>
      obtain ⟨nonzero, smaller, earlier⟩ := List.find?_range_eq_some.mp found
      have word : pmm.bitmap place ≠ 0#64 := by simpa using nonzero
      have inside : place < bitmapWords := List.mem_range.mp smaller
      obtain ⟨bit, set, lowest⟩ := PackedBits.least_member (by decide) pmm.bitmap place word
        fun before less => by simpa using earlier before less
      have shift : place <<< 6 = place * 64 := Nat.shiftLeft_eq place 6
      refine .inr ⟨(place <<< 6) + (pmm.bitmap place).ctz.toNat, ⟨?_, ?_⟩, ?_, rfl⟩
      · have words : bitmapWords * 64 = bitmapPages := by decide
        rw [shift]
        omega
      · rw [shift, bmTest_packed]
        exact set
      · intro lower less free
        rw [shift] at less
        have unset := lowest lower less
        rw [← bmTest_packed, free.2] at unset
        cases unset

theorem freePage_accepted (pmm : State) (page : Nat) (inside : page < bitmapPages)
    (used : ¬ Free pmm page) : freePage pmm (page * pageSize) = release pmm page := by
  have unset : bmTest pmm page = false := by
    cases bit : bmTest pmm page with
    | false => rfl
    | true => exact absurd ⟨inside, bit⟩ used
  have exact_ : page * pageSize / pageSize = page := Nat.mul_div_cancel page (by decide)
  have aligned : page * pageSize % pageSize = 0 := Nat.mul_mod_left page pageSize
  have low : ¬ bitmapPages ≤ page := by omega
  simp [freePage, exact_, aligned, low, unset, release]

def FreeRun (pmm : State) (start count : Nat) : Prop :=
  start + count ≤ bitmapPages ∧ ∀ offset, offset < count → bmTest pmm (start + offset) = true

theorem freeRun_one (pmm : State) (page : Nat) : FreeRun pmm page 1 ↔ Free pmm page := by
  constructor
  · intro run
    exact ⟨run.1, run.2 0 Nat.one_pos⟩
  · intro free
    refine ⟨free.1, fun offset small => ?_⟩
    rw [Nat.lt_one_iff.mp small]
    exact free.2

theorem freeRun_spec (pmm : State) (start count : Nat) :
    freeRun pmm start count ≤ count ∧
      (∀ offset, offset < freeRun pmm start count → bmTest pmm (start + offset) = true) ∧
      (freeRun pmm start count < count →
        bmTest pmm (start + freeRun pmm start count) = false) := by
  induction count generalizing start with
  | zero => simp [freeRun]
  | succ count ih =>
      obtain ⟨short, free, stop⟩ := ih (start + 1)
      by_cases bit : bmTest pmm start = true
      · simp only [freeRun, bit, ↓reduceIte]
        refine ⟨by omega, fun offset less => ?_, fun less => ?_⟩
        · cases offset with
          | zero => exact bit
          | succ offset =>
              have later := free offset (by omega)
              rwa [show start + 1 + offset = start + (offset + 1) by omega] at later
        · have later := stop (by omega)
          rwa [show start + 1 + freeRun pmm (start + 1) count =
            start + (freeRun pmm (start + 1) count + 1) by omega] at later
      · simp only [freeRun, bit, Bool.false_eq_true, ↓reduceIte]
        refine ⟨by omega, fun offset less => by omega, fun _ => ?_⟩
        simpa using bit

def takeAll (pmm : State) (pages : List Nat) : State := pages.foldl take pmm

theorem takeAll_append (pmm : State) (first second : List Nat) :
    takeAll pmm (first ++ second) = takeAll (takeAll pmm first) second :=
  List.foldl_append

theorem free_takeAll (pmm : State) (pages : List Nat) (other : Nat) :
    Free (takeAll pmm pages) other ↔ Free pmm other ∧ other ∉ pages := by
  induction pages generalizing pmm with
  | nil => simp [takeAll]
  | cons page rest ih =>
      rw [show takeAll pmm (page :: rest) = takeAll (take pmm page) rest from rfl, ih, free_take]
      simp only [List.mem_cons, not_or, and_assoc]

theorem clearRun_taken (pmm : State) (start count : Nat) :
    { clearRun pmm start count with freePages := pmm.freePages - BitVec.ofNat 64 count } =
      takeAll pmm ((List.range count).map (start + ·)) := by
  induction count with
  | zero => simp [clearRun, takeAll]
  | succ count ih =>
      rw [List.range_succ, List.map_append, takeAll_append, ← ih]
      simp only [clearRun, List.range_succ, List.foldl_append, List.foldl_cons, List.foldl_nil,
        List.map_cons, List.map_nil, takeAll, take, bmClear, State.setWord]
      have count_ : pmm.freePages - BitVec.ofNat 64 (count + 1) =
          pmm.freePages - BitVec.ofNat 64 count - 1 := by
        rw [BitVec.ofNat_add, sub_add_eq_sub_sub]
        rfl
      rw [count_]

/-- A used page that the scan has to step over: no free run of `count` pages starts
at it or below it. -/
def Skipped (pmm : State) (count page : Nat) : Prop :=
  bmTest pmm page = false ∧ ∀ start, start ≤ page → ¬ FreeRun pmm start count

/-- Wherever the scan steps over a used page, it goes on at a multiple of the
alignment, or past the last page that could start a run. -/
def Steady (pmm : State) (count alignPages : Nat) : Prop :=
  ∀ page, page + 1 + count ≤ bitmapPages → Skipped pmm count page → alignPages ∣ page + 1

/-- First fit: either no run of `count` free pages exists, or the lowest one is
taken. Every round moves the index up, so the loop ends. -/
theorem allocPagesLoop_steady (pmm : State) (count alignPages rounds start : Nat)
    (steady : Steady pmm count alignPages) (low : start ≤ bitmapPages)
    (enough : bitmapPages + 1 ≤ rounds + start)
    (aligned : start + count ≤ bitmapPages → alignPages ∣ start)
    (below : ∀ lower, lower < start → ¬ FreeRun pmm lower count) :
    (allocPagesLoop pmm count alignPages rounds start = .ok (0, pmm) ∧
      ∀ other, ¬ FreeRun pmm other count) ∨
    ∃ found, FreeRun pmm found count ∧
      (∀ lower, lower < found → ¬ FreeRun pmm lower count) ∧
      allocPagesLoop pmm count alignPages rounds start =
        .ok (found * pageSize, takeAll pmm ((List.range count).map (found + ·))) := by
  induction rounds generalizing start with
  | zero => omega
  | succ rounds ih =>
      obtain ⟨short, free, stop⟩ := freeRun_spec pmm start count
      by_cases fits : start + count ≤ bitmapPages
      · have even : start % alignPages = 0 := Nat.mod_eq_zero_of_dvd (aligned fits)
        simp only [allocPagesLoop, fits, even, ne_eq, not_true_eq_false, ↓reduceIte]
        by_cases whole : freeRun pmm start count = count
        · refine .inr ⟨start, ⟨fits, fun offset less => free offset (by omega)⟩, below, ?_⟩
          simp only [whole, ↓reduceIte, clearRun_taken]
        · -- Every run that starts at or before the used page contains it.
          have skipped : Skipped pmm count (start + freeRun pmm start count) := by
            refine ⟨stop (by omega), fun lower less run => ?_⟩
            by_cases before : lower < start
            · exact below lower before run
            · have set := run.2 (start + freeRun pmm start count - lower) (by omega)
              rw [show lower + (start + freeRun pmm start count - lower) =
                start + freeRun pmm start count by omega, stop (by omega)] at set
              cases set
          simp only [whole, ↓reduceIte]
          exact ih _ (by omega) (by omega) (fun inside => steady _ inside skipped)
            fun lower less => skipped.2 lower (by omega)
      · rw [allocPagesLoop, if_neg fits]
        refine .inl ⟨rfl, fun other run => ?_⟩
        by_cases before : other < start
        · exact below other before run
        · have bound := run.1
          omega

theorem allocPages_cases (pmm : State) (count : Nat) :
    (allocPages pmm count pageSize = .ok (0, pmm) ∧ ∀ start, ¬ FreeRun pmm start count) ∨
      ∃ start, FreeRun pmm start count ∧
        (∀ lower, lower < start → ¬ FreeRun pmm lower count) ∧
        allocPages pmm count pageSize =
          .ok (start * pageSize, takeAll pmm ((List.range count).map (start + ·))) := by
  have single : max pageSize pageSize / pageSize = 1 := by decide
  rw [allocPages, single]
  exact allocPagesLoop_steady pmm count 1 (bitmapPages + 2) 0 (fun page _ _ => one_dvd (page + 1))
    (by omega) (by omega) (fun _ => one_dvd 0) (by omega)

/-! The counter follows the number of set bits. -/

def freeCount (pmm : State) : Nat := (PackedBits.members pmm.bitmap bitmapPages).card

/-- How far the counter is from the bitmap; every operation keeps it. -/
def drift (pmm : State) : BitVec 64 := pmm.freePages - BitVec.ofNat 64 (freeCount pmm)

theorem freeCount_take (pmm : State) (page : Nat) (free : Free pmm page) :
    freeCount (take pmm page) + 1 = freeCount pmm := by
  have bits : (take pmm page).bitmap = PackedBits.erase pmm.bitmap page := bmClear_packed pmm page
  rw [freeCount, bits]
  exact PackedBits.card_erase (by decide) _ _ _ free.1 (by rw [← bmTest_packed, free.2])

theorem freeCount_release (pmm : State) (page : Nat) (inside : page < bitmapPages)
    (used : ¬ Free pmm page) : freeCount (release pmm page) = freeCount pmm + 1 := by
  have bits : (release pmm page).bitmap = PackedBits.insert pmm.bitmap page := bmSet_packed pmm page
  rw [freeCount, bits]
  refine PackedBits.card_insert (by decide) _ _ _ inside ?_
  rw [← bmTest_packed]
  cases bit : bmTest pmm page with
  | false => rfl
  | true => exact absurd ⟨inside, bit⟩ used

theorem drift_take (pmm : State) (page : Nat) (free : Free pmm page) :
    drift (take pmm page) = drift pmm := by
  have count := freeCount_take pmm page free
  have counter : (take pmm page).freePages = pmm.freePages - 1 := rfl
  rw [drift, drift, counter, ← count, BitVec.ofNat_add, sub_add_eq_sub_sub, sub_right_comm]
  rfl

theorem drift_release (pmm : State) (page : Nat) (inside : page < bitmapPages)
    (used : ¬ Free pmm page) : drift (release pmm page) = drift pmm := by
  have count := freeCount_release pmm page inside used
  have counter : (release pmm page).freePages = pmm.freePages + 1 := rfl
  rw [drift, drift, counter, count, BitVec.ofNat_add]
  exact add_sub_add_right_eq_sub _ _ _

theorem takeAll_counters (pmm : State) (pages : List Nat) (distinct : pages.Nodup)
    (free : ∀ page, page ∈ pages → Free pmm page) :
    (takeAll pmm pages).badFrees = pmm.badFrees ∧ drift (takeAll pmm pages) = drift pmm := by
  induction pages generalizing pmm with
  | nil => exact ⟨rfl, rfl⟩
  | cons page rest ih =>
      obtain ⟨fresh, distinctRest⟩ := List.nodup_cons.mp distinct
      obtain ⟨bad, counted⟩ := ih (take pmm page) distinctRest fun other member =>
        (free_take pmm page other).mpr
          ⟨free other (List.mem_cons_of_mem page member), fun same => fresh (same ▸ member)⟩
      exact ⟨bad, counted.trans (drift_take pmm page (free page List.mem_cons_self))⟩

theorem free_of_positive (pmm : State) (positive : 0 < freeCount pmm) : ∃ page, Free pmm page := by
  obtain ⟨page, member⟩ := Finset.card_pos.mp positive
  obtain ⟨inside, set⟩ := (PackedBits.mem_members _ _ _).mp member
  exact ⟨page, inside, by rw [bmTest_packed, set]⟩

theorem freeCount_list (pmm : State) (pages : List Nat) (distinct : pages.Nodup)
    (listed : ∀ page, Free pmm page ↔ page ∈ pages) : freeCount pmm = pages.length := by
  have same : PackedBits.members pmm.bitmap bitmapPages = pages.toFinset := by
    ext page
    rw [PackedBits.mem_members, List.mem_toFinset, ← listed page, Free, bmTest_packed]
  rw [freeCount, same, List.toFinset_card_of_nodup distinct]

def SameBitmap (before after : State) : Prop :=
  ∀ place, place < bitmapWords → after.bitmap place = before.bitmap place

theorem sameBitmap_iff (before after : State) :
    SameBitmap before after ↔ ∀ page, Free after page ↔ Free before page := by
  constructor
  · intro same page
    unfold Free
    refine and_congr_right fun inside => ?_
    rw [bmTest_packed, bmTest_packed, PackedBits.test, PackedBits.test,
      same _ (page_split page inside).1]
  · intro same place inside
    ext bit low
    have words : bitmapWords * 64 = bitmapPages := by decide
    obtain ⟨high, rest⟩ := PackedBits.place_split place bit low
    have page := same (place * 64 + bit)
    unfold Free at page
    rw [bmTest_packed, bmTest_packed, PackedBits.test, PackedBits.test, high, rest] at page
    have bits := (and_congr_right_iff.mp page) (by omega)
    rw [← BitVec.getLsbD_eq_getElem, ← BitVec.getLsbD_eq_getElem]
    exact Bool.eq_iff_iff.mpr bits

theorem counters_agree (before after : State)
    (same : ∀ page, Free after page ↔ Free before page) (kept : drift after = drift before) :
    after.freePages = before.freePages := by
  have members : PackedBits.members after.bitmap bitmapPages =
      PackedBits.members before.bitmap bitmapPages := by
    ext page
    have free := same page
    unfold Free at free
    rw [bmTest_packed, bmTest_packed] at free
    rw [PackedBits.mem_members, PackedBits.mem_members]
    exact free
  rw [drift, drift, freeCount, freeCount, members] at kept
  exact sub_left_injective kept

end Shizuku.Pmm
