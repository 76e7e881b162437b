import Shizuku.Pmm

/-!
The page allocator from the boot loader's memory map on. `init` marks the pages of
the usable entries and counts them twice, in `FREE_PAGES` and in `TOTAL_PAGES`; the
direct map offset and the highest address, which is only logged, are left out.
From there the counter stays the number of set bits under every call.
-/

namespace Shizuku.Pmm

open Machine

structure MemmapEntry where
  base : Nat
  length : Nat
  typ : Nat

def limineMemmapUsable : Nat := 0

structure Counted where
  pmm : State
  totalPages : BitVec 64

def Counted.zeroed : Counted where
  pmm := { bitmap := fun _ => 0#64, freePages := 0#64, badFrees := [] }
  totalPages := 0#64

/-- The values of `p` in the page loop of an entry, none if `base >= end`. -/
def entryPages (e : MemmapEntry) : List Nat :=
  let base := (e.base + pageSize - 1) % 2 ^ 64 / pageSize * pageSize
  let stop := min ((e.base + e.length) % 2 ^ 64 / pageSize * pageSize) pmmMaxPhys
  (List.range ((stop - base + pageSize - 1) / pageSize)).map fun i => base + i * pageSize

def markPage (c : Counted) (p : Nat) : Counted where
  pmm := { bmSet c.pmm (p / pageSize) with freePages := c.pmm.freePages + 1 }
  totalPages := c.totalPages + 1

def addEntry (c : Counted) (e : MemmapEntry) : Counted :=
  if e.typ ≠ limineMemmapUsable then c else (entryPages e).foldl markPage c

def init (entries : List MemmapEntry) : Counted := entries.foldl addEntry .zeroed

def Usable (e : MemmapEntry) : Prop := e.typ = limineMemmapUsable

instance (e : MemmapEntry) : Decidable (Usable e) := inferInstanceAs (Decidable (_ = _))

def Covers (e : MemmapEntry) (address : Nat) : Prop :=
  e.base ≤ address ∧ address < e.base + e.length

def Inside (e : MemmapEntry) (page : Nat) : Prop :=
  e.base ≤ page * pageSize ∧ (page + 1) * pageSize ≤ e.base + e.length

/-- The rounding of the entry's ends stays within 64 bits. -/
def NoWrap (e : MemmapEntry) : Prop := e.base + e.length + 4095 < 2 ^ 64

theorem inside_covers {e : MemmapEntry} {page : Nat} (inside : Inside e page) :
    Covers e (page * pageSize) := by
  refine ⟨inside.1, Nat.lt_of_lt_of_le ?_ inside.2⟩
  exact Nat.mul_lt_mul_of_pos_right (Nat.lt_succ_self page) (by decide)

theorem entryPages_numbers (e : MemmapEntry) (noWrap : NoWrap e) :
    (entryPages e).map (· / pageSize) =
      (List.range (min ((e.base + e.length) / pageSize) bitmapPages -
        (e.base + 4095) / pageSize)).map ((e.base + 4095) / pageSize + ·) := by
  have size : pageSize = 4096 := rfl
  have most : pmmMaxPhys = bitmapPages * 4096 := by decide
  unfold NoWrap at noWrap
  have base : (e.base + pageSize - 1) % 2 ^ 64 = e.base + 4095 := by
    rw [size]
    omega
  have stop : (e.base + e.length) % 2 ^ 64 = e.base + e.length := Nat.mod_eq_of_lt (by omega)
  have count : (min ((e.base + e.length) / 4096 * 4096) (bitmapPages * 4096) -
      (e.base + 4095) / 4096 * 4096 + 4096 - 1) / 4096 =
      min ((e.base + e.length) / 4096) bitmapPages - (e.base + 4095) / 4096 := by omega
  simp only [entryPages, base, stop]
  rw [size, most, count, List.map_map]
  refine List.map_congr_left fun i _ => ?_
  simp only [Function.comp_apply]
  omega

theorem mem_entryPages (e : MemmapEntry) (noWrap : NoWrap e) (page : Nat) :
    page ∈ (entryPages e).map (· / pageSize) ↔ page < bitmapPages ∧ Inside e page := by
  have size : pageSize = 4096 := rfl
  rw [entryPages_numbers e noWrap, Inside, size]
  simp only [List.mem_map, List.mem_range]
  constructor
  · rintro ⟨offset, small, rfl⟩
    omega
  · rintro ⟨low, above, below⟩
    exact ⟨page - (e.base + 4095) / 4096, by omega, by omega⟩

theorem entryPages_nodup (e : MemmapEntry) (noWrap : NoWrap e) :
    ((entryPages e).map (· / pageSize)).Nodup := by
  rw [entryPages_numbers e noWrap]
  exact List.nodup_range.map fun _ _ same => Nat.add_left_cancel same

theorem markPage_pmm (c : Counted) (p : Nat) : (markPage c p).pmm = release c.pmm (p / pageSize) :=
  rfl

structure Marked (c after : Counted) (pages : List Nat) : Prop where
  free : ∀ page, Free after.pmm page ↔ Free c.pmm page ∨ page ∈ pages
  counter : drift after.pmm = drift c.pmm
  total : after.totalPages - after.pmm.freePages = c.totalPages - c.pmm.freePages

theorem markPages_marked (c : Counted) (pages : List Nat)
    (distinct : (pages.map (· / pageSize)).Nodup)
    (fresh : ∀ page ∈ pages.map (· / pageSize), page < bitmapPages ∧ ¬ Free c.pmm page) :
    Marked c (pages.foldl markPage c) (pages.map (· / pageSize)) := by
  induction pages generalizing c with
  | nil => exact ⟨fun page => by simp, rfl, rfl⟩
  | cons p rest ih =>
      obtain ⟨new, distinctRest⟩ := List.nodup_cons.mp distinct
      obtain ⟨inside, used⟩ := fresh (p / pageSize) List.mem_cons_self
      have grown := free_release c.pmm (p / pageSize)
      have marked := ih (markPage c p) distinctRest fun page member => by
        obtain ⟨low, absent⟩ := fresh page (List.mem_cons_of_mem _ member)
        refine ⟨low, fun free => ?_⟩
        rcases (grown page inside).mp free with old | same
        · exact absent old
        · rw [same] at member
          exact new member
      refine ⟨fun page => ?_, ?_, ?_⟩
      · rw [List.foldl_cons, marked.free page, markPage_pmm, grown page inside, List.map_cons,
          List.mem_cons, or_assoc]
      · exact marked.counter.trans (drift_release c.pmm _ inside used)
      · rw [List.foldl_cons, marked.total]
        exact add_sub_add_right_eq_sub _ _ _

structure Mapped (c : Counted) (entries : List MemmapEntry) : Prop where
  free : ∀ page, Free c.pmm page ↔
    page < bitmapPages ∧ ∃ e ∈ entries, Usable e ∧ Inside e page
  counter : drift c.pmm = 0
  total : c.totalPages = c.pmm.freePages

theorem addEntry_mapped (c : Counted) (entries : List MemmapEntry) (e : MemmapEntry)
    (mapped : Mapped c entries) (noWrap : Usable e → NoWrap e)
    (apart : Usable e → ∀ earlier ∈ entries, Usable earlier →
      ∀ address, Covers earlier address → ¬ Covers e address) :
    Mapped (addEntry c e) (entries ++ [e]) := by
  by_cases usable : Usable e
  · have added : addEntry c e = (entryPages e).foldl markPage c := if_neg (not_not.mpr usable)
    have marked := markPages_marked c (entryPages e) (entryPages_nodup e (noWrap usable))
      fun page member => by
        obtain ⟨low, inside⟩ := (mem_entryPages e (noWrap usable) page).mp member
        refine ⟨low, fun free => ?_⟩
        obtain ⟨_, earlier, known, usable', covered⟩ := (mapped.free page).mp free
        exact apart usable earlier known usable' _ (inside_covers covered) (inside_covers inside)
    rw [added]
    refine ⟨fun page => ?_, marked.counter.trans mapped.counter, ?_⟩
    · rw [marked.free page, mapped.free page, mem_entryPages e (noWrap usable) page, ← and_or_left]
      simp only [List.mem_append, List.mem_singleton, or_and_right, exists_or, exists_eq_left,
        usable, true_and]
    · have same := marked.total
      rw [mapped.total, sub_self] at same
      exact sub_eq_zero.mp same
  · have skipped : addEntry c e = c := if_pos usable
    rw [skipped]
    refine ⟨fun page => ?_, mapped.counter, mapped.total⟩
    rw [mapped.free page]
    simp only [List.mem_append, List.mem_singleton, or_and_right, exists_or, exists_eq_left,
      usable, false_and, or_false]

theorem init_mapped (entries : List MemmapEntry) (noWrap : ∀ e ∈ entries, Usable e → NoWrap e)
    (disjoint : entries.Pairwise fun one two => Usable one → Usable two →
      ∀ address, Covers one address → ¬ Covers two address) : Mapped (init entries) entries := by
  induction entries using List.reverseRecOn with
  | nil =>
      have nothing : ∀ page, ¬ Free Counted.zeroed.pmm page := by
        rintro page ⟨_, set⟩
        rw [bmTest_packed, PackedBits.test] at set
        simp [Counted.zeroed] at set
      have none_ : freeCount Counted.zeroed.pmm = 0 := by
        by_contra positive
        obtain ⟨page, free⟩ := free_of_positive _ (Nat.pos_of_ne_zero positive)
        exact nothing page free
      refine ⟨fun page => ⟨fun free => absurd free (nothing page), ?_⟩, ?_, rfl⟩
      · rintro ⟨_, _, member, _⟩
        cases member
      · change drift Counted.zeroed.pmm = 0
        rw [drift, none_]
        rfl
  | append_singleton entries e ih =>
      rw [List.pairwise_append] at disjoint
      obtain ⟨earlier, _, across⟩ := disjoint
      have mapped := ih (fun e member => noWrap e (List.mem_append_left _ member)) earlier
      rw [init, List.foldl_append]
      exact addEntry_mapped _ entries e mapped (noWrap e (by simp)) fun usable one member known =>
        across one member e (by simp) known usable

/-! ### The calls -/

inductive Op where
  | allocPage
  | allocPages (count : Nat)
  | freePage (pa : Nat)

def step (pmm : State) : Op → Outcome (Nat × State)
  | .allocPage => .ok (allocPage pmm)
  | .allocPages count => allocPages pmm count pageSize
  | .freePage pa => .ok (0, freePage pmm pa)

def Rejected (pmm : State) (pa : Nat) : Prop :=
  pa % pageSize ≠ 0 ∨ pmmMaxPhys ≤ pa ∨ Free pmm (pa / pageSize)

def Took (pmm after : State) (pa count : Nat) : Prop :=
  ∃ first, pa = first * pageSize ∧ (∀ page, first ≤ page → page < first + count → Free pmm page) ∧
    ∀ page, Free after page ↔ Free pmm page ∧ ¬ (first ≤ page ∧ page < first + count)

def Served (pmm : State) (ret : Nat) (after : State) : Op → Prop
  | .allocPage => ret ≠ 0 → Took pmm after ret 1
  | .allocPages count => ret ≠ 0 → Took pmm after ret count
  | .freePage pa =>
      (Rejected pmm pa → after.bitmap = pmm.bitmap ∧ after.freePages = pmm.freePages) ∧
        (¬ Rejected pmm pa → ∀ page, Free after page ↔ Free pmm page ∨ page = pa / pageSize)

theorem took_run (pmm : State) (first count : Nat) (run : FreeRun pmm first count) :
    Took pmm (takeAll pmm ((List.range count).map (first + ·))) (first * pageSize) count := by
  refine ⟨first, rfl, fun page low high => ?_, fun page => ?_⟩
  · have set := run.2 (page - first) (by omega)
    have bound := run.1
    rw [show first + (page - first) = page by omega] at set
    exact ⟨by omega, set⟩
  · rw [free_takeAll]
    refine and_congr_right fun _ => not_congr ?_
    simp only [List.mem_map, List.mem_range]
    constructor
    · rintro ⟨offset, small, rfl⟩
      omega
    · rintro ⟨low, high⟩
      exact ⟨page - first, by omega, by omega⟩

theorem rejected_iff (pmm : State) (pa : Nat) : Rejected pmm pa ↔
    pa % pageSize ≠ 0 ∨ bitmapPages ≤ pa / pageSize ∨ bmTest pmm (pa / pageSize) = true := by
  have beyond : pmmMaxPhys ≤ pa ↔ bitmapPages ≤ pa / pageSize := by
    rw [show pmmMaxPhys = bitmapPages * pageSize by decide, Nat.le_div_iff_mul_le (by decide)]
  unfold Rejected Free
  rw [beyond]
  refine or_congr_right ⟨?_, ?_⟩
  · rintro (high | ⟨_, set⟩)
    · exact .inl high
    · exact .inr set
  · rintro (high | set)
    · exact .inl high
    · exact (Nat.lt_or_ge (pa / pageSize) bitmapPages).symm.imp_right fun low => ⟨low, set⟩

theorem step_served (pmm : State) (op : Op) : ∃ ret after, step pmm op = .ok (ret, after) ∧
    drift after = drift pmm ∧ Served pmm ret after op := by
  cases op with
  | allocPage =>
      rcases allocPage_cases pmm with ⟨nothing, _⟩ | ⟨page, free, _, got⟩
      · exact ⟨0, pmm, by rw [step, nothing], rfl, fun nonzero => absurd rfl nonzero⟩
      · refine ⟨_, _, by rw [step, got], drift_take pmm page free, fun _ => ?_⟩
        exact took_run pmm page 1 ((freeRun_one pmm page).mpr free)
  | allocPages count =>
      rcases allocPages_cases pmm count with ⟨nothing, _⟩ | ⟨first, run, _, got⟩
      · exact ⟨0, pmm, nothing, rfl, fun nonzero => absurd rfl nonzero⟩
      · refine ⟨_, _, got, ?_, fun _ => took_run pmm first count run⟩
        refine (takeAll_counters pmm _ ?_ ?_).2
        · exact List.nodup_range.map fun _ _ same => Nat.add_left_cancel same
        · simp only [List.mem_map, List.mem_range]
          rintro _ ⟨offset, small, rfl⟩
          exact ⟨by have := run.1; omega, run.2 offset small⟩
  | freePage pa =>
      have same := rejected_iff pmm pa
      by_cases bad : Rejected pmm pa
      · have kept : freePage pmm pa = { pmm with badFrees := pa :: pmm.badFrees } :=
          if_pos (same.mp bad)
        refine ⟨0, freePage pmm pa, rfl, by rw [kept]; rfl, fun _ => ?_, fun good => absurd bad good⟩
        rw [kept]
        exact ⟨rfl, rfl⟩
      · have freed : freePage pmm pa = release pmm (pa / pageSize) :=
          if_neg fun refused => bad (same.mpr refused)
        have low : pa / pageSize < bitmapPages := by
          by_contra beyond
          exact bad (same.mpr (.inr (.inl (Nat.le_of_not_lt beyond))))
        refine ⟨0, _, by rw [step, freed], drift_release pmm _ low fun free => ?_, ?_⟩
        · exact bad (.inr (.inr free))
        · exact ⟨fun refused => absurd refused bad, fun _ page => free_release pmm _ page low⟩

theorem toNat_freePages (pmm : State) (zero : drift pmm = 0) :
    pmm.freePages.toNat = freeCount pmm := by
  have bound : freeCount pmm ≤ bitmapPages := by
    refine (Finset.card_filter_le _ _).trans ?_
    rw [Finset.card_range]
  rw [sub_eq_zero.mp zero, BitVec.toNat_ofNat]
  exact Nat.mod_eq_of_lt (Nat.lt_of_le_of_lt bound (by decide))

/-- From the memory map on, through any calls. -/
theorem allocator_keeps_count (entries : List MemmapEntry)
    (noWrap : ∀ e ∈ entries, Usable e → NoWrap e)
    (disjoint : entries.Pairwise fun one two => Usable one → Usable two →
      ∀ address, Covers one address → ¬ Covers two address) :
    ((∀ page, Free (init entries).pmm page ↔
        page < bitmapPages ∧ ∃ e ∈ entries, Usable e ∧ Inside e page) ∧
      (init entries).pmm.freePages.toNat = freeCount (init entries).pmm ∧
      (init entries).totalPages.toNat = freeCount (init entries).pmm) ∧
    ∀ pmm, Run step (fun _ _ => True) (init entries).pmm pmm →
      pmm.freePages.toNat = freeCount pmm ∧
        ∀ op, ∃ ret after, step pmm op = .ok (ret, after) ∧ Served pmm ret after op := by
  have mapped := init_mapped entries noWrap disjoint
  have counted := toNat_freePages _ mapped.counter
  refine ⟨⟨mapped.free, counted, mapped.total ▸ counted⟩, fun pmm run => ?_⟩
  have kept := run_invariant step _ (fun pmm => drift pmm = 0) ?_ run mapped.counter
  · refine ⟨toNat_freePages pmm kept, fun op => ?_⟩
    obtain ⟨ret, after, done, _, served⟩ := step_served pmm op
    exact ⟨ret, after, done, served⟩
  · intro before op ret after zero _ done
    obtain ⟨value, next, returned, same, _⟩ := step_served before op
    cases returned.symm.trans done
    exact same.trans zero

def smallMap : List MemmapEntry := [⟨0, 4096, 1⟩, ⟨4097, 12288, limineMemmapUsable⟩]

theorem smallMap_plain : (∀ e ∈ smallMap, Usable e → NoWrap e) ∧
    smallMap.Pairwise fun one two => Usable one → Usable two →
      ∀ address, Covers one address → ¬ Covers two address := by
  constructor
  · simp [smallMap, NoWrap]
  · simp [smallMap, Usable, limineMemmapUsable]

theorem allocator_keeps_count_small :
    (∀ page, Free (init smallMap).pmm page ↔ page = 2 ∨ page = 3) ∧
    (init smallMap).totalPages.toNat = freeCount (init smallMap).pmm ∧
    ∃ pmm, Run step (fun _ _ => True) (init smallMap).pmm pmm ∧
      pmm.freePages.toNat = freeCount pmm ∧ (∀ page, Free pmm page ↔ page = 3) := by
  obtain ⟨⟨free, counted, total⟩, kept⟩ :=
    allocator_keeps_count smallMap smallMap_plain.1 smallMap_plain.2
  have pages : ∀ page, Free (init smallMap).pmm page ↔ page = 2 ∨ page = 3 := by
    intro page
    rw [free page, show bitmapPages = 131072 by decide]
    simp only [smallMap, List.mem_cons, List.not_mem_nil, or_false, exists_eq_or_imp,
      exists_eq_left, Usable, limineMemmapUsable, Inside, pageSize, one_ne_zero, false_and,
      true_and, false_or]
    omega
  have returned : (step (init smallMap).pmm .allocPage).map Prod.fst = .ok 8192 := by decide +kernel
  obtain ⟨after, done⟩ := ok_of_returned _ _ returned
  have run : Run step (fun _ _ => True) (init smallMap).pmm after :=
    .single ⟨.allocPage, 8192, trivial, done⟩
  obtain ⟨_, _, again, served⟩ := (kept _ .refl).2 .allocPage
  cases done.symm.trans again
  obtain ⟨first, place, _, left⟩ := served (by decide)
  have second : first = 2 := by
    rw [pageSize] at place
    omega
  refine ⟨pages, total, after, run, (kept after run).1, fun page => ?_⟩
  rw [left page, pages page, second]
  omega

end Shizuku.Pmm
