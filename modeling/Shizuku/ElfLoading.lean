import Shizuku.ElfReads
import Shizuku.PageContents

/-!
A loaded image in the address space: for images whose segments lie in the file and,
page by page apart, in the low half, every address of a segment reads as the file
says, and every other byte of its pages is 0.
-/

namespace Shizuku.Process

open ByteMemory WordMemory PointerForest Machine Pmm Vmm Elf Sched

def Loads (ph : Phdr) : Prop := ph.pType = ptLoad ∧ ph.pMemsz ≠ 0

/-- Headers and file ranges lie inside the image; the segments lie in the low half,
hold their file part, and share no page. -/
structure Loadable (image : Image) : Prop where
  headers : ∀ i, i < ePhnum image → phOffset image i + 56 ≤ image.len
  file : ∀ ph, ph ∈ phdrs image → Loads ph → ph.pOffset + ph.pFilesz ≤ image.len
  low : ∀ ph, ph ∈ phdrs image → Loads ph → ph.pVaddr + ph.pMemsz ≤ 2 ^ 47
  sizes : ∀ ph, ph ∈ phdrs image → Loads ph → ph.pFilesz ≤ ph.pMemsz
  apart : ∀ i j, i < j → j < ePhnum image → ∀ va, va ∈ headerPages (phdr image i) →
    va ∉ headerPages (phdr image j)

structure LoadedExactly (mm : Mm) (space : Nat) (image : Image) (ph : Phdr) : Prop where
  bytes : ∀ a, ph.pVaddr ≤ a → a < ph.pVaddr + ph.pMemsz → translate mm space a ≠ 0 ∧
    mm.mem (translate mm space a) =
      if a < ph.pVaddr + ph.pFilesz then image.byte (ph.pOffset + (a - ph.pVaddr)) else 0
  flags : ∀ a, ph.pVaddr ≤ a → a < ph.pVaddr + ph.pMemsz → ∃ e, leafEntry mm.mem space a = some e ∧
    e &&& pteUs ≠ 0 ∧ (e &&& pteRw ≠ 0 ↔ ph.pFlags &&& pfW ≠ 0) ∧
    (e &&& pteNx ≠ 0 ↔ ph.pFlags &&& pfX = 0)
  rest : ∀ va, va ∈ headerPages ph → ∀ a, va ≤ a → a < va + pageSize →
    ¬ (ph.pVaddr ≤ a ∧ a < ph.pVaddr + ph.pMemsz) → translate mm space a ≠ 0 ∧
    mm.mem (translate mm space a) = 0

theorem mem_headerPages {ph : Phdr} {va : Nat} :
    va ∈ headerPages ph ↔ Loads ph ∧ va ∈ segmentPages ph := by
  rw [headerPages, Loads]
  split
  · rename_i skipped
    constructor
    · intro impossible
      cases impossible
    · rintro ⟨⟨kind, some_⟩, _⟩
      exact absurd skipped (by simp [kind, some_])
  · rename_i loaded
    rw [not_or, not_not] at loaded
    exact ⟨fun member => ⟨loaded, member⟩, fun both => both.2⟩

theorem mem_segmentPages {ph : Phdr} (low : ph.pVaddr + ph.pMemsz ≤ 2 ^ 47) (va : Nat) : va ∈ segmentPages ph ↔
      va % pageSize = 0 ∧ ph.pVaddr < va + pageSize ∧ va < ph.pVaddr + ph.pMemsz := by
  simp only [segmentPages, pageDown, List.mem_map, List.mem_range, pageSize]
  rw [Nat.mod_eq_of_lt (by omega)]
  constructor
  · rintro ⟨i, bound, rfl⟩
    omega
  · rintro ⟨aligned, above, below⟩
    exact ⟨(va - ph.pVaddr / 4096 * 4096) / 4096, by omega, by omega⟩

theorem segmentPages_nodup (ph : Phdr) : (segmentPages ph).Nodup := by
  apply List.nodup_range.map_on
  intro first _ second _ same
  simp only [pageSize] at same
  omega

theorem headerPages_nodup (ph : Phdr) : (headerPages ph).Nodup := by
  rw [headerPages]
  split
  · exact List.nodup_nil
  · exact segmentPages_nodup ph

theorem Loadable.distinct {image : Image} (loadable : Loadable image) (valid : headerOk image = true) :
    (loadVas image).Nodup := by
  rw [loadVas, if_pos valid, List.nodup_flatMap]
  refine ⟨fun ph _ => headerPages_nodup ph, ?_⟩
  rw [phdrs, List.pairwise_map]
  refine List.pairwise_lt_range.imp_of_mem fun {i j} _ bound order => ?_
  exact fun va first second => loadable.apart i j order (List.mem_range.mp bound) va first second

theorem segment_flags {e pf : Nat} (stored : entryFlags e = elfFlagsToPte pf ||| pteP) :
    e &&& pteUs ≠ 0 ∧ (e &&& pteRw ≠ 0 ↔ pf &&& pfW ≠ 0) ∧ (e &&& pteNx ≠ 0 ↔ pf &&& pfX = 0) := by
  rw [entryFlags_bit e pteUs (by decide), entryFlags_bit e pteRw (by decide),
    entryFlags_bit e pteNx (by decide), stored]
  by_cases writable : pf &&& pfW = 0 <;> by_cases runnable : pf &&& pfX = 0 <;>
    simp only [elfFlagsToPte, writable, runnable, ne_eq, not_true_eq_false, not_false_eq_true, ↓reduceIte] <;>
    decide

section Loading
variable {live held : Set Nat} {space : Nat} {mm after : Mm} {image : Image}

theorem Loadable.fills (loadable : Loadable image) (slice : image.len < 2 ^ 63) (alive : space ∈ live)
    {ph : Phdr} (listed : ph ∈ phdrs image) {va : Nat} (page : va ∈ headerPages ph) :
    Fills live held space (va, fun mm => loadPage space image ph mm va) (elfFlagsToPte ph.pFlags)
      (segmentBytes image ph va) := by
  obtain ⟨loads, inside⟩ := mem_headerPages.mp page
  have low := loadable.low ph listed loads
  have file := loadable.file ph listed loads
  have sizes := loadable.sizes ph listed loads
  obtain ⟨aligned, _, below⟩ := (mem_segmentPages low va).mp inside
  refine ⟨by dsimp only; omega, fun mm after owned done => ?_⟩
  dsimp only at done ⊢
  exact loadPage_filled owned alive aligned (by omega) (by omega) (by omega) done

theorem elfLoad_holds (loadable : Loadable image) (slice : image.len < 2 ^ 63) (alive : space ∈ live)
    (owned : Owned mm live held) (valid : headerOk image = true)
    (done : runItems mm (imageItems space image) = (true, after)) :
    Owned after live held ∧ ∀ ph, ph ∈ phdrs image → ∀ va, va ∈ headerPages ph →
      Holds after space va (elfFlagsToPte ph.pFlags) (segmentBytes image ph va) := by
  have each : ∀ item, item ∈ imageItems space image →
      ∃ flags content, Fills live held space item flags content := by
    intro item member
    obtain ⟨ph, listed, inside⟩ := List.mem_flatMap.mp member
    obtain ⟨va, page, rfl⟩ := List.mem_map.mp inside
    exact ⟨_, _, loadable.fills slice alive listed page⟩
  have distinct : ((imageItems space image).map fun item => item.1 / pageSize).Nodup := by
    have pages := imageItems_pages space image valid
    have numbers : (imageItems space image).map (fun item => item.1 / pageSize) =
        (loadVas image).map fun va => va / pageSize := by
      rw [← pages, List.map_map]
      rfl
    rw [numbers]
    refine (loadable.distinct valid).map_on fun first member second other same => ?_
    have left := (loadVas_bounds image first member).1
    have right := (loadVas_bounds image second other).1
    simp only [pageSize] at *
    omega
  obtain ⟨left, filled, _⟩ := runItems_filled _ alive each distinct owned done
  refine ⟨left, fun ph listed va page => ?_⟩
  have item : (va, fun mm => loadPage space image ph mm va) ∈ imageItems space image :=
    List.mem_flatMap.mpr ⟨ph, listed, List.mem_map.mpr ⟨va, page, rfl⟩⟩
  exact filled _ item _ _ (loadable.fills slice alive listed page)

theorem loadedExactly_of_holds (loadable : Loadable image) (owned : Owned mm live held)
    (alive : space ∈ live) {ph : Phdr} (listed : ph ∈ phdrs image) (kind : ph.pType = ptLoad)
    (holds : ∀ va, va ∈ headerPages ph →
      Holds mm space va (elfFlagsToPte ph.pFlags) (segmentBytes image ph va)) :
    LoadedExactly mm space image ph := by
  have read : ∀ va, va ∈ headerPages ph → ∀ a, va ≤ a → a < va + pageSize →
      translate mm space a ≠ 0 ∧ mm.mem (translate mm space a) = segmentBytes image ph va (a - va) ∧
        ∃ e, leafEntry mm.mem space a = some e ∧ entryFlags e = elfFlagsToPte ph.pFlags ||| pteP := by
    intro va page a above below
    obtain ⟨loads, inside⟩ := mem_headerPages.mp page
    have low := loadable.low ph listed loads
    obtain ⟨aligned, _, bound⟩ := (mem_segmentPages low va).mp inside
    refine Holds.read (holds va page) owned alive aligned a above below ?_
    simp only [pageSize] at *
    omega
  have page : ∀ a, ph.pVaddr ≤ a → a < ph.pVaddr + ph.pMemsz →
      a / pageSize * pageSize ∈ headerPages ph := by
    intro a above below
    have loads : Loads ph := ⟨kind, by omega⟩
    have bounds := page_of a
    exact mem_headerPages.mpr ⟨loads, (mem_segmentPages (loadable.low ph listed loads) _).mpr
      ⟨bounds.2.2, by omega, by omega⟩⟩
  refine ⟨fun a above below => ?_, fun a above below => ?_, fun va member a above below outside => ?_⟩
  · obtain ⟨mapped, byte, _⟩ := read _ (page a above below) a (page_of a).1 (page_of a).2.1
    have back := Nat.add_sub_cancel' (page_of a).1
    rw [segmentBytes, back] at byte
    simp only [above, true_and] at byte
    exact ⟨mapped, byte⟩
  · obtain ⟨_, _, e, found, stored⟩ := read _ (page a above below) a (page_of a).1 (page_of a).2.1
    exact ⟨e, found, segment_flags stored⟩
  · obtain ⟨mapped, byte, _⟩ := read va member a above below
    obtain ⟨loads, _⟩ := mem_headerPages.mp member
    have sizes := loadable.sizes ph listed loads
    rw [segmentBytes, if_neg (by omega)] at byte
    exact ⟨mapped, byte⟩

end Loading

/-- Loading a loadable image into a live space, whatever the space maps already: if
the loader returns an entry address, it is the one of the header, and every segment
is in memory as the file says. -/
theorem elf_loading_is_exact (mm after : Mm) (live held : Set Nat) (space entry : Nat) (image : Image)
    (owned : Owned mm live held) (alive : space ∈ live) (slice : image.len < 2 ^ 63)
    (loadable : Loadable image) (done : elfLoad mm space image = (entry, after)) (nonzero : entry ≠ 0) :
    entry = eEntry image ∧
      ∀ ph, ph ∈ phdrs image → ph.pType = ptLoad → LoadedExactly after space image ph := by
  by_cases valid : headerOk image = true
  · rw [elfLoad_items mm space image valid] at done
    split at done
    · exact absurd (Prod.mk.inj done).1.symm nonzero
    · rename_i loaded loop
      obtain ⟨rfl, rfl⟩ := Prod.mk.inj done
      obtain ⟨left, holds⟩ := elfLoad_holds loadable slice alive owned valid loop
      exact ⟨rfl, fun ph listed kind =>
        loadedExactly_of_holds loadable left alive listed kind (holds ph listed)⟩
  · rw [elfLoad, if_neg valid] at done
    exact absurd (Prod.mk.inj done).1.symm nonzero

theorem smallImage_loadable : Loadable (smallImage 0x400000) := by
  have one : ePhnum (smallImage 0x400000) = 1 := by decide +kernel
  have only : phdrs (smallImage 0x400000) = [⟨1, 5, 0, 0x400000, 120, 4096⟩] := by decide +kernel
  refine ⟨fun i bound => ?_, ?_, ?_, ?_, fun i j order bound => ?_⟩
  · obtain rfl : i = 0 := by omega
    decide +kernel
  all_goals first
    | omega
    | (rw [only]; intro ph listed _; rw [List.mem_singleton.mp listed]; decide)

theorem smallImage_loads (mm : Mm) (shape : mm = Vmm.init (blankMachine (-2)) (2 ^ 29)) :
    (newSpace mm).1 ≠ 0 ∧ (elfLoad (newSpace mm).2 (newSpace mm).1 (smallImage 0x400000)).1 = 0x400000 := by
  rw [shape]
  decide +kernel

theorem elf_loading_is_exact_small :
    ∃ mm space entry after, entry ≠ 0 ∧ elfLoad mm space (smallImage 0x400000) = (entry, after) ∧
      entry = 0x400000 ∧ ∀ ph, ph ∈ phdrs (smallImage 0x400000) → ph.pType = ptLoad →
        LoadedExactly after space (smallImage 0x400000) ph := by
  obtain ⟨owned, _⟩ := init_booted (blankMachine (-2)) (2 ^ 29) blankMachine_wide
  obtain ⟨nonzero, entry⟩ := smallImage_loads _ rfl
  generalize Vmm.init (blankMachine (-2)) (2 ^ 29) = mm at owned nonzero entry
  rcases newSpace_cases owned (Set.mem_singleton _) with ⟨nothing, _⟩ | ⟨page, mem, free, made, rooted, _⟩
  · rw [nothing] at nonzero
    exact absurd rfl nonzero
  · rw [made] at entry
    cases done : elfLoad { mm with pmm := Pmm.take mm.pmm page, mem := mem } (page * pageSize)
        (smallImage 0x400000) with
    | mk result after =>
        rw [done] at entry
        dsimp only at entry
        have nonzero : result ≠ 0 := by rw [entry]; decide
        have loaded := elf_loading_is_exact _ after _ _ _ result _ rooted (Set.mem_insert _ _)
          (by decide) smallImage_loadable done nonzero
        exact ⟨_, _, result, after, nonzero, done, entry, loaded.2⟩

end Shizuku.Process
