import Shizuku.MemoryMap

/-!
Frees of addresses that were never handed out. The bitmap has one bit for two facts,
that a page is usable and that it is not allocated, so `free_page` refuses an address
that is unaligned, beyond the map or free already, and takes a reserved page for an
allocated one. The free set stays within what `init` marked exactly as long as no
free names a page outside it.
-/

namespace Shizuku.Pmm

open Machine

structure MemStats where
  free : BitVec 64
  total : BitVec 64
  usedMiB : BitVec 64
  totalMiB : BitVec 64

def cmdMem (c : Counted) : MemStats :=
  let free := c.pmm.freePages
  let total := c.totalPages
  { free, total, usedMiB := (total - free) * 4#64 / 1024#64, totalMiB := total * 4#64 / 1024#64 }

def InMap (entries : List MemmapEntry) (page : Nat) : Prop :=
  ∃ e ∈ entries, Usable e ∧ Inside e page

/-- The allocator owns no page that `init` did not mark: the free pages are among the
marked ones, `cmd_mem` subtracts the smaller number, and a call takes no other page. -/
structure Backed (entries : List MemmapEntry) (pmm : State) : Prop where
  marked : ∀ page, Free pmm page → Free (init entries).pmm page
  counted : pmm.freePages.toNat ≤ (init entries).totalPages.toNat
  used : (cmdMem ⟨pmm, (init entries).totalPages⟩).usedMiB.toNat =
    ((init entries).totalPages.toNat - pmm.freePages.toNat) * 4 / 1024
  handed : ∀ op ret after, step pmm op = .ok (ret, after) →
    ∀ page, Free pmm page → ¬ Free after page → page ≠ 0 ∧ InMap entries page

/-- A free that is not refused for its address alone is of a page of usable memory. -/
def Harmless (entries : List MemmapEntry) : Op → Prop
  | .allocPage => True
  | .allocPages _ => True
  | .freePage pa => pa % pageSize = 0 → pa < pmmMaxPhys → InMap entries (pa / pageSize)

theorem step_free {pmm after : State} {op : Op} {ret : Nat} (done : step pmm op = .ok (ret, after))
    (page : Nat) (free : Free after page) :
    Free pmm page ∨ ∃ pa, op = .freePage pa ∧ pa % pageSize = 0 ∧ pa < pmmMaxPhys ∧
      page = pa / pageSize := by
  cases op with
  | allocPage =>
      rcases allocPage_cases pmm with ⟨nothing, _⟩ | ⟨taken, _, _, got⟩
      · rw [step, nothing] at done
        cases done
        exact .inl free
      · rw [step, got] at done
        cases done
        exact .inl ((free_take pmm taken page).mp free).1
  | allocPages count =>
      rcases allocPages_cases pmm count with ⟨nothing, _⟩ | ⟨first, _, _, got⟩
      · rw [step, nothing] at done
        cases done
        exact .inl free
      · rw [step, got] at done
        cases done
        exact .inl ((free_takeAll pmm _ page).mp free).1
  | freePage pa =>
      obtain ⟨value, next, returned, _, refused, accepted⟩ := step_served pmm (.freePage pa)
      cases returned.symm.trans done
      by_cases bad : Rejected pmm pa
      · left
        unfold Free bmTest at free ⊢
        rwa [(refused bad).1] at free
      · refine ((accepted bad page).mp free).imp_right fun same => ?_
        have good := not_or.mp bad
        exact ⟨pa, rfl, not_not.mp good.1, Nat.lt_of_not_le (not_or.mp good.2).1, same⟩

section Calls
variable {entries : List MemmapEntry} (mapped : Mapped (init entries) entries)
include mapped

theorem step_marked (pmm : State) (op : Op) (harmless : Harmless entries op)
    (counted : drift pmm = 0) (marked : ∀ page, Free pmm page → Free (init entries).pmm page) :
    ∃ ret after, step pmm op = .ok (ret, after) ∧ drift after = 0 ∧
      ∀ page, Free after page → Free (init entries).pmm page := by
  obtain ⟨ret, after, done, same, _⟩ := step_served pmm op
  refine ⟨ret, after, done, same.trans counted, fun page free => ?_⟩
  rcases step_free done page free with old | ⟨pa, rfl, aligned, low, rfl⟩
  · exact marked page old
  · refine (mapped.free _).mpr ⟨?_, harmless aligned low⟩
    exact Nat.div_lt_of_lt_mul low

theorem marked_backed (lowest : ∀ e ∈ entries, Usable e → pageSize ≤ e.base) (pmm : State)
    (counted : drift pmm = 0) (marked : ∀ page, Free pmm page → Free (init entries).pmm page) :
    Backed entries pmm := by
  have fewer : freeCount pmm ≤ freeCount (init entries).pmm := by
    refine Finset.card_le_card fun page member => ?_
    rw [PackedBits.mem_members, ← bmTest_packed] at member ⊢
    exact marked page member
  have most : freeCount (init entries).pmm ≤ bitmapPages := by
    refine (Finset.card_filter_le _ _).trans ?_
    rw [Finset.card_range]
  have free := toNat_freePages pmm counted
  have total := toNat_freePages _ mapped.counter
  rw [← mapped.total] at total
  refine ⟨marked, by omega, ?_, fun op ret after done page before after_ => ?_⟩
  · have pages : bitmapPages = 131072 := by decide
    have difference : ((init entries).totalPages - pmm.freePages).toNat =
        (init entries).totalPages.toNat - pmm.freePages.toNat := by
      rw [BitVec.toNat_sub_of_le]
      exact BitVec.le_def.mpr (by omega)
    simp only [cmdMem, BitVec.toNat_udiv, BitVec.toNat_mul, difference]
    simp only [BitVec.toNat_ofNat, Nat.reducePow, Nat.reduceMod]
    rw [Nat.mod_eq_of_lt (by omega)]
  · obtain ⟨_, e, member, usable, inside⟩ := (mapped.free page).mp (marked page before)
    refine ⟨?_, e, member, usable, inside⟩
    rintro rfl
    have base := lowest e member usable
    have start := inside.1
    simp only [pageSize] at base start
    omega

end Calls

/-- From a memory map whose usable entries are disjoint and leave page 0 out, through
any calls: nothing is created at any point exactly if every free that is not refused
for its address names a page of usable memory. -/
theorem frees_create_no_memory (entries : List MemmapEntry) (ops : List Op)
    (noWrap : ∀ e ∈ entries, Usable e → NoWrap e)
    (disjoint : entries.Pairwise fun one two => Usable one → Usable two →
      ∀ address, Covers one address → ¬ Covers two address)
    (lowest : ∀ e ∈ entries, Usable e → pageSize ≤ e.base) :
    (∀ done, done <+: ops → ∃ rets pmm,
      replay step (init entries).pmm done = .ok (rets, pmm) ∧ Backed entries pmm) ↔
      ∀ op ∈ ops, Harmless entries op := by
  have mapped := init_mapped entries noWrap disjoint
  constructor
  · intro backed op member
    obtain ⟨before, later, rfl⟩ := List.append_of_mem member
    cases op with
    | allocPage => trivial
    | allocPages count => trivial
    | freePage pa =>
        intro aligned low
        -- The page is free right after the call, whether the call was refused or not.
        obtain ⟨rets, pmm, replayed, kept⟩ := backed (before ++ [.freePage pa]) (by simp)
        obtain ⟨_, start, ret, _, stepped⟩ := replay_concat replayed
        obtain ⟨value, next, returned, _, refused, accepted⟩ := step_served start (.freePage pa)
        cases returned.symm.trans stepped
        have free : Free pmm (pa / pageSize) := by
          by_cases bad : Rejected start pa
          · unfold Free bmTest
            rw [(refused bad).1]
            rcases bad with unaligned | high | free
            · exact absurd aligned unaligned
            · omega
            · exact free
          · exact (accepted bad _).mpr (.inr rfl)
        exact ((mapped.free _).mp (kept.marked _ free)).2
  · rintro harmless done ⟨later, rfl⟩
    obtain ⟨rets, pmm, replayed, counted, marked⟩ := replay_invariant step
      (fun pmm => drift pmm = 0 ∧ ∀ page, Free pmm page → Free (init entries).pmm page) done
      (fun op member pmm kept => step_marked mapped pmm op
        (harmless op (List.mem_append_left _ member)) kept.1 kept.2)
      (init entries).pmm ⟨mapped.counter, fun page free => free⟩
    exact ⟨rets, pmm, replayed, marked_backed mapped lowest pmm counted marked⟩

theorem frees_create_no_memory_small : ∃ rets pmm,
    replay step (init smallMap).pmm [.allocPage, .freePage 8192, .freePage 8193] = .ok (rets, pmm) ∧
      Backed smallMap pmm := by
  refine (frees_create_no_memory smallMap [.allocPage, .freePage 8192, .freePage 8193]
    smallMap_plain.1 smallMap_plain.2 ?_).mpr ?_ _ (List.prefix_refl _)
  · simp [smallMap, Usable, limineMemmapUsable, pageSize]
  · simp only [List.mem_cons, List.not_mem_nil, or_false]
    rintro op (rfl | rfl | rfl)
    · trivial
    · intro _ _
      exact ⟨⟨4097, 12288, limineMemmapUsable⟩, by simp [smallMap], rfl, by decide, by decide⟩
    · intro aligned _
      cases aligned

/-- Page 1 is the firmware's. Once freed it is counted and handed out. -/
theorem reserved_page_handed_out : ∃ pmm after,
    step (init smallMap).pmm (.freePage 4096) = .ok (0, pmm) ∧
      (init smallMap).totalPages.toNat < pmm.freePages.toNat ∧
      step pmm .allocPage = .ok (4096, after) ∧ ¬ InMap smallMap 1 := by
  obtain ⟨after, taken⟩ := ok_of_returned
    (step (freePage (init smallMap).pmm 4096) .allocPage) 4096 (by decide +kernel)
  refine ⟨freePage (init smallMap).pmm 4096, after, rfl, by decide +kernel, taken, ?_⟩
  rintro ⟨e, member, usable, inside⟩
  simp only [smallMap, List.mem_cons, List.not_mem_nil, or_false] at member
  rcases member with rfl | rfl
  · cases usable
  · exact absurd inside.1 (by decide)

end Shizuku.Pmm
