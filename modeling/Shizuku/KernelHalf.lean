import Shizuku.SpaceLifetime

/-!
The high half of an address space: entries 256..511 of its root and the tables
below them, which the boot loader built and every space shares. They stay outside
the forest of low halves, as held pages, and are only read.
-/

namespace Shizuku.Vmm

open ByteMemory WordMemory PointerForest Pmm

structure High (path : List Nat) : Prop where
  short : path.length ≤ 3
  bounded : ∀ index, index ∈ path → index < 512
  half : ∀ index, path.head? = some index → 256 ≤ index

theorem high_front (va : Nat) (above : 256 ≤ tableIndex va 4) : High (front va) where
  short := by simp
  bounded index member := front_bounded va index member
  half index head := by
    simp only [front, indices, List.head?_cons, Option.some.injEq] at head
    exact head ▸ above

def HighTable (mem : Nat → UInt8) (root tbl : Nat) : Prop :=
  ∃ path, path ≠ [] ∧ High path ∧ follow (plainChild mem) root path = some tbl

theorem plainChild_aligned (mem : Nat → UInt8) (tbl idx next : Nat)
    (linked : plainChild mem tbl idx = some next) : next % pageSize = 0 := by
  unfold plainChild at linked
  split at linked
  · cases linked
  · rw [Option.some.injEq] at linked
    rw [← linked]
    exact masked_aligned _

theorem HighTable.aligned {mem : Nat → UInt8} {root tbl : Nat} (high : HighTable mem root tbl) :
    tbl % pageSize = 0 := by
  obtain ⟨path, nonempty, _, reached⟩ := high
  obtain ⟨first, index, rfl⟩ := (List.eq_nil_or_concat' path).resolve_left nonempty
  rw [follow_snoc] at reached
  obtain ⟨middle, _, linked⟩ := Option.bind_eq_some_iff.mp reached
  exact plainChild_aligned mem middle index tbl linked

theorem SamePage.plainChild {before after : Nat → UInt8} {tbl : Nat}
    (same : SamePage before after tbl) (idx : Nat) (bound : idx < 512) :
    plainChild after tbl idx = plainChild before tbl idx := by
  unfold Vmm.plainChild
  rw [same.entry idx bound]

/-- Two roots with the same high entries, above tables with the same bytes, lead to the same tables. -/
theorem high_follow {before after : Nat → UInt8} {root other : Nat}
    (entries : ∀ idx, 256 ≤ idx → idx < 512 → entry after other idx = entry before root idx)
    (tables : ∀ tbl, HighTable before root tbl → SamePage before after tbl)
    (path : List Nat) (nonempty : path ≠ []) (high : High path) :
    follow (plainChild after) other path = follow (plainChild before) root path := by
  cases path with
  | nil => exact absurd rfl nonempty
  | cons index rest =>
      have bound := high.bounded index (by simp)
      have first : plainChild after other index = plainChild before root index := by
        unfold plainChild
        rw [entries index (high.half index rfl) bound]
      rw [follow_cons, follow_cons, first]
      cases link : plainChild before root index with
      | none => rw [Option.bind_none, Option.bind_none]
      | some next =>
          apply follow_congr
          intro front later back middle split reached
          have short := high.short
          rw [split, List.length_cons, List.length_append, List.length_cons] at short
          refine (tables middle ⟨index :: front, by simp, ⟨?_, ?_, ?_⟩, ?_⟩).plainChild later
            (high.bounded later (by simp [split]))
          · rw [List.length_cons]
            omega
          · intro item member
            refine high.bounded item ?_
            rw [split]
            rcases List.mem_cons.mp member with rfl | inside
            · simp
            · simp [inside]
          · exact fun item head => high.half item head
          · rw [follow_cons, link]
            exact reached

theorem translate_high {before after : Mm} {root other : Nat}
    (entries : ∀ idx, 256 ≤ idx → idx < 512 → entry after.mem other idx = entry before.mem root idx)
    (tables : ∀ tbl, HighTable before.mem root tbl → SamePage before.mem after.mem tbl)
    (va : Nat) (above : 256 ≤ tableIndex va 4) :
    translate after other va = translate before root va := by
  have high := high_front va above
  have nonempty : front va ≠ [] := by simp [front, indices]
  have walked := high_follow entries tables (front va) nonempty high
  rw [translate, translate, walk_reads, walk_reads]
  simp only [walked]
  cases reached : follow (plainChild before.mem) root (front va) with
  | none => rfl
  | some tbl =>
      have same := tables tbl ⟨front va, nonempty, high, reached⟩
      simp only [same.entry (tableIndex va 1) (tableIndex_lt va 1)]

/-- What the kernel relies on from the boot loader: page 0 is not reported as
usable, some page is, the direct map of the managed memory does not wrap, and the
page tables left behind are not usable pages. -/
structure Limine (pre : Mm) (cr3 : Nat) : Prop where
  zero : ¬ Free pre.pmm 0
  memory : ∃ page, Free pre.pmm page
  direct : pre.hhdmOffset + pmmMaxPhys + 4 * pageSize < 2 ^ 64
  tables : ∀ path tbl, High path →
    follow (plainChild pre.mem) (cr3 &&& pteAddrMask) path = some tbl → ¬ FreeAt pre.pmm tbl

theorem init_hhdm (pre : Mm) (cr3 : Nat) : (init pre cr3).hhdmOffset = pre.hhdmOffset := by
  simp only [init, shareHighHalf, zeroTable]

theorem Owned.with_kernel {mm : Mm} {live held : Set Nat} (owned : Owned mm live held)
    (kernelSpace : Nat) : Owned { mm with kernelSpace := kernelSpace } live held :=
  ⟨owned.zero, owned.unshared, owned.valid, owned.plain, owned.apart⟩

theorem init_booted (pre : Mm) (cr3 : Nat) (limine : Limine pre cr3) :
    Owned (init pre cr3) {(init pre cr3).kernelSpace}
        { tbl | HighTable (init pre cr3).mem (init pre cr3).kernelSpace tbl } ∧
      (∀ path, path ≠ [] → High path →
        follow (plainChild (init pre cr3).mem) (init pre cr3).kernelSpace path =
          follow (plainChild pre.mem) (cr3 &&& pteAddrMask) path) ∧
      ∀ idx, idx < 256 → entry (init pre cr3).mem (init pre cr3).kernelSpace idx = 0 := by
  have nothing : Owned pre ∅ { tbl | HighTable pre.mem (cr3 &&& pteAddrMask) tbl } := by
    constructor
    · exact limine.zero
    · intro root path other way page first
      exact first.1.elim
    · intro root path page named
      exact named.1.elim
    · intro root path tbl index named
      exact named.1.elim
    · rintro page ⟨path, nonempty, high, reached⟩
      exact ⟨HighTable.aligned ⟨path, nonempty, high, reached⟩,
        limine.tables path page high reached, fun root path named => named.1.elim⟩
  obtain ⟨some_, available⟩ := limine.memory
  rcases allocPage_cases pre.pmm with ⟨_, full⟩ | ⟨page, free, _, taken⟩
  · exact absurd available (full some_)
  · have isPage := free_page nothing page free
    have number : page * pageSize / pageSize = page := Nat.mul_div_cancel page (by decide)
    have rootUsed : ¬ FreeAt pre.pmm (cr3 &&& pteAddrMask) :=
      limine.tables [] _ ⟨by simp, by simp, by simp⟩ rfl
    have fresh : ∀ tbl, ¬ FreeAt pre.pmm tbl → tbl ≠ page * pageSize := by
      rintro tbl used rfl
      rw [FreeAt, number] at used
      exact used free
    obtain ⟨low, high, outside⟩ := shared_entries pre.mem (cr3 &&& pteAddrMask) (page * pageSize)
      (masked_aligned cr3) isPage.aligned (fresh _ rootUsed)
    have rooted := nothing.fresh_root page free _ low outside
    have shape : init pre cr3 = { pre with
        pmm := Pmm.take pre.pmm page
        mem := blit (fill pre.mem (page * pageSize) pageSize 0) (page * pageSize + 8 * 256)
          (slice (fill pre.mem (page * pageSize) pageSize 0)
            ((cr3 &&& pteAddrMask) + 8 * 256) (8 * 256))
        kernelSpace := page * pageSize } := by
      simp only [init, taken, shareHighHalf, zeroTable]
    rw [shape]
    have same : ∀ tbl, HighTable pre.mem (cr3 &&& pteAddrMask) tbl → SamePage pre.mem _ tbl :=
      fun tbl table => samePage_of_outside pre.mem _ (page * pageSize) tbl isPage.aligned
        table.aligned (fresh tbl (by
          obtain ⟨path, _, isHigh, reached⟩ := table
          exact limine.tables path tbl isHigh reached)) outside
    have moved := high_follow high same
    have kernel := rooted.with_kernel (page * pageSize)
    rw [insert_empty_eq] at kernel
    refine ⟨kernel.held_mono ?_, moved, low⟩
    rintro tbl ⟨path, nonempty, isHigh, reached⟩
    exact ⟨path, nonempty, isHigh, (moved path nonempty isHigh).symm.trans reached⟩

section Selftest
variable {base mm : Mm} {live held : Set Nat}

theorem missing_empty {mem : Nat → UInt8} {space : Nat} (va : Nat)
    (empty : ∀ idx, idx < 256 → entry mem space idx = 0) (half : tableIndex va 4 < 256) :
    missing mem space [] (front va) = 3 := by
  rw [missing_all, front_length]
  intro index back shape
  obtain ⟨rfl, _⟩ : tableIndex va 4 = index ∧ _ := List.cons.inj shape
  change view mem space [tableIndex va 4] = none
  exact view_cons_none _ _ _ _ (by rw [child, empty _ half]; rfl)

theorem selftest_keeps (owned : Owned base live held) (kernel : base.kernelSpace ∈ live)
    (empty : ∀ idx, idx < 256 → entry base.mem base.kernelSpace idx = 0)
    (done : selftest base = some mm) :
    ∃ cleared gone, Building live held base.kernelSpace base cleared gone ∧ cleared.mem = mm.mem ∧
      mm.kernelSpace = base.kernelSpace ∧ mm.hhdmOffset = base.hhdmOffset ∧ Owned mm live held := by
  have half : tableIndex selftestVa 4 < 256 := by decide
  have needed := missing_empty selftestVa empty half
  rw [selftest] at done
  rcases (Building.refl owned kernel).alloc with ⟨nothing, none_⟩ |
    ⟨pa, pmm, taken, page, fresh, _, flying⟩
  · -- Without a free page the walk cannot add its three tables.
    obtain ⟨walked, _, _, outcome⟩ := map_cases (Building.refl owned kernel) selftestVa 0 pteRw half
      ⟨rfl, by decide, by decide, by decide⟩
    rcases outcome with ⟨failed, _, _⟩ | ⟨_, _, _, count, _⟩
    · simp only [nothing, failed, reduceCtorEq] at done
    · omega
  · obtain ⟨ok, mapped, shape, outcome⟩ := flying.map_flying fresh selftestVa pteRw half
      (page.leafArgs (by decide) (by decide))
    simp only [taken, shape] at done
    rcases outcome with ⟨rfl, _⟩ | ⟨rfl, built, _, here, _⟩
    · cases done
    · have target : translate mapped base.kernelSpace selftestVa = pa := by
        rw [translate_view built.owned.plain _ _ kernel half, here]
        exact Nat.add_zero pa
      have low := low_full selftestVa half
      simp only [target] at done
      obtain ⟨stored, views⟩ := built.scribble pa (write64 mapped.mem pa 0xDEADBEEF12345678)
        (.inr ⟨full selftestVa, low, by simp [full], here⟩) fun place outside => by
          apply blit_outside
          rw [toBytes_length]
          simp only [pageSize] at outside
          omega
      have still := (views _ _ ⟨kernel, low⟩).trans here
      rcases unmap_cases stored.owned base.kernelSpace selftestVa kernel half with
        ⟨_, absent⟩ | ⟨tbl, frame, reached, _, cleared⟩
      · cases still.symm.trans absent
      · simp only [cleared, Option.some.injEq] at done
        have named : Named live base.kernelSpace (front selftestVa ++ [tableIndex selftestVa 1]) :=
          ⟨kernel, low⟩
        have unmapped := stored.store low reached (by decide : 0 < 2 ^ 64)
          (view_store stored.owned named reached (by decide) fun rest longer belongs =>
            (beyond_leaf (front_length selftestVa) rest longer belongs).elim)
          (fun page linked => by cases linked) (fun short => by simp at short)
          (fun page linked => by cases linked)
        refine ⟨_, _, unmapped, by rw [← done], by rw [← done]; exact unmapped.kernel,
          by rw [← done]; exact unmapped.hhdm, ?_⟩
        rw [← done]
        refine (unmapped.owned.release pa (.inr ⟨.inr still, by simp [entryChild, pteP]⟩) page).2.held_mono
          fun other member => ⟨.inl member, ?_⟩
        rintro rfl
        obtain ⟨_, used, unnamed⟩ := owned.apart other member
        refine (flying.stranger other used ?_).2 (Set.mem_insert _ _)
        rintro ⟨path, low, reached⟩
        exact unnamed _ path ⟨kernel, low⟩ reached

end Selftest

/-- Memory when the scheduler starts, with or without the self-test. -/
def Started (pre : Mm) (cr3 : Nat) (mm : Mm) : Prop :=
  mm = init pre cr3 ∨ selftest (init pre cr3) = some mm

theorem started_owned {pre mm : Mm} {cr3 : Nat} (limine : Limine pre cr3) (started : Started pre cr3 mm) :
    Owned mm {mm.kernelSpace} { tbl | HighTable mm.mem mm.kernelSpace tbl } ∧
      mm.hhdmOffset = pre.hhdmOffset := by
  obtain ⟨owned, _, empty⟩ := init_booted pre cr3 limine
  have offset := init_hhdm pre cr3
  unfold Started at started
  generalize init pre cr3 = base at *
  rcases started with rfl | tested
  · exact ⟨owned, offset⟩
  · obtain ⟨cleared, gone, built, bytes, space, hhdm, kept⟩ :=
      selftest_keeps owned (Set.mem_singleton _) empty tested
    have same : ∀ tbl, HighTable base.mem base.kernelSpace tbl → SamePage base.mem mm.mem tbl := by
      intro tbl table
      obtain ⟨aligned, used, unnamed⟩ := owned.apart tbl table
      rw [← bytes]
      exact built.keeps tbl aligned used fun ⟨path, low, reached⟩ =>
        unnamed _ path ⟨Set.mem_singleton _, low⟩ reached
    have entries := built.high
    rw [bytes] at entries
    rw [space]
    refine ⟨kept.held_mono ?_, hhdm.trans offset⟩
    rintro tbl ⟨path, nonempty, high, reached⟩
    exact ⟨path, nonempty, high, (high_follow entries same path nonempty high).symm.trans reached⟩

/-! ### A machine to start from -/

/-- Blank memory, `word` as the first word of the bitmap and no other page free,
and page tables beyond the allocator's range. -/
def blankMachine (word : BitVec 64) : Mm where
  pmm := { bitmap := fun place => if place = 0 then word else 0#64, freePages := 0#64, badFrees := [] }
  mem := fun _ => 0
  kernelSpace := 0
  hhdmOffset := 0xFFFF800000000000

theorem blankMachine_limine (word : BitVec 64) (zero : word.getLsbD 0 = false) (page : Nat)
    (inside : page < 64) (free : word.getLsbD page = true) : Limine (blankMachine word) (2 ^ 29) := by
  have bits : ∀ page, page < 64 → bmTest (blankMachine word).pmm page = word.getLsbD page := by
    intro page small
    rw [bmTest_packed, PackedBits.test, Nat.div_eq_of_lt small, Nat.mod_eq_of_lt small]
    rfl
  have blank : ∀ tbl idx, plainChild (blankMachine word).mem tbl idx = none := by
    intro tbl idx
    exact plainChild_zero (read64_zeroed _ _ fun _ _ _ => rfl)
  have direct : 0xFFFF800000000000 + pmmMaxPhys + 4 * pageSize < 2 ^ 64 := by decide
  refine ⟨?_, ⟨page, ?_, ?_⟩, direct, ?_⟩
  · intro first
    have set := first.2
    rw [bits 0 (by decide), zero] at set
    cases set
  · exact Nat.lt_trans inside (by decide)
  · rw [bits page inside, free]
  · rintro path tbl _ reached
    cases path with
    | nil =>
        rw [PointerForest.follow_nil, Option.some.injEq] at reached
        subst tbl
        intro used
        exact absurd used.1 (by decide)
    | cons index rest =>
        rw [follow_cons, blank, Option.bind_none] at reached
        cases reached

theorem blankMachine_wide : Limine (blankMachine (-2)) (2 ^ 29) :=
  blankMachine_limine (-2) (by decide) 1 (by decide) (by decide)

example : (selftest (init (blankMachine (-2)) (2 ^ 29))).isSome = true := by decide +kernel

theorem blankMachine_free (word : BitVec 64) (page : Nat) (free : Free (blankMachine word).pmm page) :
    page < 64 ∧ word.getLsbD page = true := by
  have set := free.2
  rw [bmTest_packed, PackedBits.test] at set
  by_cases first : page / 64 = 0
  · have small : page < 64 := by omega
    simp only [blankMachine, first, ↓reduceIte, Nat.mod_eq_of_lt small] at set
    exact ⟨small, set⟩
  · simp [blankMachine, first] at set

theorem init_free (pre : Mm) (cr3 page : Nat) (free : Free (init pre cr3).pmm page) :
    Free pre.pmm page := by
  have shape : (init pre cr3).pmm = (allocPage pre.pmm).2 := by
    simp only [init, shareHighHalf, zeroTable]
  rw [shape] at free
  rcases allocPage_cases pre.pmm with ⟨nothing, _⟩ | ⟨taken, _, _, got⟩
  · rwa [nothing] at free
  · rw [got] at free
    exact ((free_take _ _ _).mp free).1

end Shizuku.Vmm
