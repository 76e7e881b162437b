import Shizuku.KernelHalf

/-!
The tables of the high half by level. `Owned` speaks about low halves only, while the
loader maps a page wherever the image asks for it, also below the high entries of
the root, into tables that all spaces share. Such a store keeps every walk intact as
long as each table serves a single level, which is how the boot loader builds them and
how `walk` adds to them.
-/

namespace Shizuku.Vmm

open ByteMemory WordMemory PointerForest Pmm

theorem allocPage_taken {pmm rest : Pmm.State} {pa : Nat} (got : allocPage pmm = (pa, rest))
    (nonzero : pa ≠ 0) : Page pa ∧ FreeAt pmm pa ∧ rest = Pmm.take pmm (pa / pageSize) := by
  rcases allocPage_cases pmm with ⟨nothing, _⟩ | ⟨page, free, _, taken⟩
  · rw [nothing, Prod.mk.injEq] at got
    exact absurd got.1.symm nonzero
  · rw [taken, Prod.mk.injEq] at got
    obtain ⟨rfl, rfl⟩ := got
    have number : page * pageSize / pageSize = page := Nat.mul_div_cancel page (by decide)
    rw [FreeAt, number]
    exact ⟨⟨Nat.mul_mod_left page pageSize, nonzero, number.symm ▸ free.1⟩, free, rfl⟩

theorem translate_entry {mm : Mm} {space va pt pa flags : Nat} (args : LeafArgs pa flags)
    (reached : follow (plainChild mm.mem) space (front va) = some pt)
    (stored : entry mm.mem pt (tableIndex va 1) = leafValue pa flags) :
    translate mm space va = pa + va % pageSize := by
  have offset : va &&& (pageSize - 1) = va % pageSize := Nat.and_two_pow_sub_one_eq_mod va 12
  obtain ⟨present, address⟩ := entryChild_some (leaf_bits args).1
  rw [translate, walk_reads, offset, reached]
  simp only [stored, present, ↓reduceIte, address]

def OneLevel (mem : Nat → UInt8) (root : Nat) : Prop :=
  ∀ path other tbl, path ≠ [] → other ≠ [] → High path → High other →
    follow (plainChild mem) root path = some tbl → follow (plainChild mem) root other = some tbl →
    path.length = other.length

/-- What a new space takes over: the root of the kernel and the tables below its
high entries are in use, and each of these tables serves one level. -/
structure KernelTables (mm : Mm) : Prop where
  aligned : mm.kernelSpace % pageSize = 0
  root : ¬ FreeAt mm.pmm mm.kernelSpace
  tables : ∀ tbl, HighTable mm.mem mm.kernelSpace tbl → ¬ FreeAt mm.pmm tbl
  levels : OneLevel mm.mem mm.kernelSpace

open Classical in
noncomputable def highLevel (mem : Nat → UInt8) (root tbl : Nat) : Nat :=
  if table : HighTable mem root tbl then 4 - table.choose.length else 0

theorem highLevel_path {mem : Nat → UInt8} {root tbl : Nat} (levels : OneLevel mem root)
    (path : List Nat) (nonempty : path ≠ []) (high : High path)
    (reached : follow (plainChild mem) root path = some tbl) :
    highLevel mem root tbl = 4 - path.length := by
  have table : HighTable mem root tbl := ⟨path, nonempty, high, reached⟩
  obtain ⟨chosen, isHigh, same⟩ := table.choose_spec
  rw [highLevel, dif_pos table,
    levels _ path tbl chosen nonempty isHigh high same reached]

theorem highLevel_table {mem : Nat → UInt8} {root tbl : Nat} (table : highLevel mem root tbl ≠ 0) :
    HighTable mem root tbl := by
  by_contra none_
  exact table (dif_neg none_)

theorem High.snoc {path : List Nat} (high : High path) (nonempty : path ≠ []) (short : path.length < 3)
    (index : Nat) (bound : index < 512) : High (path ++ [index]) where
  short := by
    rw [List.length_append, List.length_singleton]
    omega
  bounded other member := by
    rcases List.mem_append.mp member with old | new
    · exact high.bounded other old
    · exact List.mem_singleton.mp new ▸ bound
  half other head := by
    rw [List.head?_append_of_ne_nil path nonempty] at head
    exact high.half other head

theorem high_single (index : Nat) (above : 256 ≤ index) (bound : index < 512) : High [index] where
  short := by simp
  bounded other member := List.mem_singleton.mp member ▸ bound
  half other head := by
    rw [List.head?_cons, Option.some.injEq] at head
    exact head ▸ above

theorem newSpace_made {mm fresh : Mm} {space : Nat} (tables : KernelTables mm)
    (made : newSpace mm = (space, fresh)) (nonzero : space ≠ 0) :
    Page space ∧ FreeAt mm.pmm space ∧ fresh.pmm = Pmm.take mm.pmm (space / pageSize) ∧
      (∀ idx, idx < 256 → entry fresh.mem space idx = 0) ∧
      (∀ idx, 256 ≤ idx → idx < 512 → entry fresh.mem space idx = entry mm.mem mm.kernelSpace idx) ∧
      ∀ place, place < space ∨ space + pageSize ≤ place → fresh.mem place = mm.mem place := by
  rw [newSpace] at made
  cases got : allocPage mm.pmm with
  | mk root pmm =>
      rw [got] at made
      by_cases zero : root = 0
      · simp only [zero, ↓reduceIte, Prod.mk.injEq] at made
        exact absurd made.1.symm nonzero
      · simp only [zero, ↓reduceIte, Prod.mk.injEq] at made
        obtain ⟨rfl, rfl⟩ := made
        obtain ⟨page, free, rfl⟩ := allocPage_taken got zero
        have different : mm.kernelSpace ≠ root := by
          rintro rfl
          exact tables.root free
        exact ⟨page, free, rfl, shared_entries mm.mem mm.kernelSpace root tables.aligned page.aligned
          different⟩

end Shizuku.Vmm
