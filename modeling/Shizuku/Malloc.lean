import Shizuku.UserHeap

/-!
`malloc` of the user library on top of `sys_sbrk`. What the kernel can supply is
known before the call: a heap call succeeds exactly if the break stays in its window
and the free pages cover the new pages and the page tables that these lack.
-/

namespace Shizuku.Process

open ByteMemory WordMemory PointerForest Machine Pmm Vmm Elf Sched

/-- `size.max(1)` rounded up to 16; the sum wraps. The result is NULL if the register
that `sbrk` returns is negative as an `i64`. -/
def malloc (k : Kernel) (size : Nat) : Nat × Kernel :=
  let size := (max size 1 + 15) % 2 ^ 64 / 16 * 16
  let (p, k) := sysSbrk k size
  -- Out of memory is reported as the old break minus one, which is positive.
  if p < 0 then (0, k) else (p.toNat, k)

def tablesOf (va : Nat) : Finset (List Nat) :=
  {[tableIndex va 4], [tableIndex va 4, tableIndex va 3],
    [tableIndex va 4, tableIndex va 3, tableIndex va 2]}

def absentTables (mem : Nat → UInt8) (space : Nat) (vas : List Nat) : Finset (List Nat) :=
  (vas.toFinset.biUnion tablesOf).filter fun path => view mem space path = none

def pagesNeeded (mem : Nat → UInt8) (space : Nat) (vas : List Nat) : Nat :=
  vas.length + (absentTables mem space vas).card

theorem absent_single (mem : Nat → UInt8) (space va : Nat) :
    (absentTables mem space [va]).card = missing mem space [] (front va) := by
  simp only [absentTables, List.toFinset_cons, List.toFinset_nil, insert_empty_eq,
    Finset.singleton_biUnion, tablesOf, Finset.filter_insert, Finset.filter_singleton, missing, front,
    indices, List.nil_append, List.cons_append]
  split <;> split <;> split <;> simp

theorem mem_absentTables {mem : Nat → UInt8} {space : Nat} {vas : List Nat} {path : List Nat} :
    path ∈ absentTables mem space vas ↔
      (∃ va, va ∈ vas ∧ path ∈ tablesOf va) ∧ view mem space path = none := by
  simp [absentTables]

theorem mem_tablesOf {va : Nat} {path : List Nat} :
    path ∈ tablesOf va ↔ path ≠ [] ∧ path.length ≤ 3 ∧ path <+: full va := by
  simp only [tablesOf, Finset.mem_insert, Finset.mem_singleton]
  constructor
  · rintro (rfl | rfl | rfl) <;> simp [full, front, indices]
  · rintro ⟨nonempty, short, part⟩
    have shape := List.prefix_iff_eq_take.mp part
    have positive := List.length_pos_iff.mpr nonempty
    generalize path.length = length at *
    interval_cases length <;> simp [shape, full, front, indices]

theorem tablesOf_low {va : Nat} (half : tableIndex va 4 < 256) {path : List Nat} (member : path ∈ tablesOf va) :
    Low path := by
  obtain ⟨_, _, rest, whole⟩ := mem_tablesOf.mp member
  have low := low_full va half
  rw [← whole] at low
  exact low.front_of

section Supply
variable {live held lost : Set Nat} {space : Nat} {base mm : Mm}

theorem absentTables_placed {after : Nat → UInt8} {va : Nat} (vas : List Nat)
    (lows : ∀ other, other ∈ vas → tableIndex other 4 < 256)
    (grown : ∀ path, Low path → (view after space path ≠ none ↔
      view mm.mem space path ≠ none ∨ path <+: full va)) :
    absentTables after space vas = (absentTables mm.mem space vas).filter (· ∉ tablesOf va) := by
  ext path
  rw [Finset.mem_filter, mem_absentTables, mem_absentTables, and_assoc]
  refine and_congr_right fun ⟨other, listed, member⟩ => ?_
  obtain ⟨nonempty, short, _⟩ := mem_tablesOf.mp member
  have now := not_congr (grown path (tablesOf_low (lows other listed) member))
  rw [not_not, not_or, not_not] at now
  rw [now, mem_tablesOf]
  exact and_congr_right fun _ => not_congr ⟨fun part => ⟨nonempty, short, part⟩, fun all => all.2.2⟩

theorem runItems_supplied (items : List Item)
    (places : ∀ item, item ∈ items → Places live held space base item)
    (lows : ∀ item, item ∈ items → tableIndex item.1 4 < 256)
    (building : Building live held space base mm lost) :
    (runItems mm items).1 = true ↔
      pagesNeeded mm.mem space (items.map Prod.fst) ≤ freeCount mm.pmm := by
  induction items generalizing mm lost with
  | nil => simp [runItems, forEach, pagesNeeded, absentTables]
  | cons item rest ih =>
      obtain ⟨va, action⟩ := item
      have half : tableIndex va 4 < 256 := lows (va, action) List.mem_cons_self
      have round : Placed live held lost space base va mm (action mm) :=
        places _ List.mem_cons_self mm lost building
      -- A table that the first page and a later one lack is counted with the first.
      have split : absentTables mm.mem space (va :: rest.map Prod.fst) =
          absentTables mm.mem space [va] ∪
            (absentTables mm.mem space (rest.map Prod.fst)).filter (· ∉ tablesOf va) := by
        ext path
        simp only [Finset.mem_union, Finset.mem_filter, mem_absentTables, List.mem_cons,
          List.not_mem_nil, or_false, exists_eq_or_imp, exists_eq_left]
        tauto
      have disjoint : Disjoint (absentTables mm.mem space [va])
          ((absentTables mm.mem space (rest.map Prod.fst)).filter (· ∉ tablesOf va)) := by
        rw [Finset.disjoint_left]
        intro path first second
        obtain ⟨⟨other, listed, member⟩, _⟩ := mem_absentTables.mp first
        rw [List.mem_singleton.mp listed] at member
        exact (Finset.mem_filter.mp second).2 member
      have count : pagesNeeded mm.mem space (va :: rest.map Prod.fst) =
          1 + missing mm.mem space [] (front va) + (rest.length +
            ((absentTables mm.mem space (rest.map Prod.fst)).filter (· ∉ tablesOf va)).card) := by
        rw [pagesNeeded, split, Finset.card_union_of_disjoint disjoint, absent_single, List.length_cons,
          List.length_map]
        omega
      simp only [runItems, forEach, List.map_cons]
      rw [count]
      generalize step : action mm = result at round
      cases round with
      | exhausted none_ => simp [none_]
      | leaked pa after some_ short fresh flying =>
          simp only [Bool.false_eq_true, false_iff]
          omega
      | placed after spent flying grown =>
          have left : absentTables after.mem space (rest.map Prod.fst) =
              (absentTables mm.mem space (rest.map Prod.fst)).filter (· ∉ tablesOf va) := by
            refine absentTables_placed _ (fun other listed => ?_) grown
            obtain ⟨item, inside, rfl⟩ := List.mem_map.mp listed
            exact lows item (List.mem_cons_of_mem _ inside)
          have later := ih (fun item member => places item (List.mem_cons_of_mem _ member))
            (fun item member => lows item (List.mem_cons_of_mem _ member)) flying
          rw [pagesNeeded, left, List.length_map] at later
          refine later.trans ?_
          omega

end Supply

theorem heapLoop_supplied {live held : Set Nat} {mm : Mm} {space old new : Nat} (owned : Owned mm live held)
    (alive : space ∈ live) (window : HeapWindow old) (inside : HeapWindow new) :
    (forEach (mapDataPage space) mm (heapPages old new)).1 = true ↔
      pagesNeeded mm.mem space (heapPages old new) ≤ freeCount mm.pmm := by
  have users : ∀ va, va ∈ heapPages old new → tableIndex va 4 < 256 := fun va member =>
    (heapPages_bounds old new va window.2 inside.2 member).1.half
  have supplied := runItems_supplied (heapItems space old new) (fun item member => by
    obtain ⟨va, listed, rfl⟩ := List.mem_map.mp member
    intro mm lost building
    dsimp only
    exact mapDataPage_placed building va (users va listed)) (fun item member => by
    obtain ⟨va, listed, rfl⟩ := List.mem_map.mp member
    exact users va listed) (Building.refl owned alive)
  have pages : (heapItems space old new).map Prod.fst = heapPages old new := by
    simp [heapItems, Function.comp_def]
  rw [pages] at supplied
  rw [forEach_pages]
  exact supplied

def blockSize (size : Nat) : Nat := (max size 1 + 15) / 16 * 16

def InWindow (slot : Nat) (k : Kernel) (size : Nat) : Prop :=
  (k.threads slot).brk + blockSize size ≤ userHeapBase + userHeapMax

def Supplied (slot : Nat) (k : Kernel) (size : Nat) : Prop :=
  pagesNeeded k.mm.mem (k.threads slot).space
    (heapPages (k.threads slot).brk ((k.threads slot).brk + blockSize size)) ≤ freeCount k.mm.pmm

/-- The bytes asked for, from `p` on; a request for none still has a place of its own. -/
def blockAt (p size : Nat) : Extent := ⟨p, max size 1⟩

structure MallocOk (slot : Nat) (k : Kernel) (blocks : List Extent) (size : Nat) (p : Nat)
    (after : Kernel) : Prop where
  aligned : p ≠ 0 → p % 16 = 0
  inside : p ≠ 0 → (blockAt p size).cells ⊆ Set.Ico userHeapBase (after.threads slot).brk
  mapped : p ≠ 0 → ∀ va, va ∈ (blockAt p size).cells →
    translate after.mm (after.threads slot).space va ≠ 0
  apart : p ≠ 0 → ∀ block, block ∈ blocks → Disjoint block.cells (blockAt p size).cells
  null : ¬ (InWindow slot k size ∧ Supplied slot k size) → p = 0

/-- The sum does not wrap, and if the window has room for the block there is memory for it. -/
def Answerable (slot : Nat) (k : Kernel) (size : Nat) : Prop :=
  max size 1 + 15 < 2 ^ 64 ∧ (InWindow slot k size → Supplied slot k size)

inductive Answered (slot : Nat) (k : Kernel) (size : Nat) : Nat × Kernel → Prop where
  | wrapped (overflow : 2 ^ 64 ≤ max size 1 + 15) : Answered slot k size ((k.threads slot).brk, k)
  | refused (fits : max size 1 + 15 < 2 ^ 64) (outside : ¬ InWindow slot k size) : Answered slot k size (0, k)
  | exhausted (after : Mm) (inside : InWindow slot k size) (short : ¬ Supplied slot k size) :
      Answered slot k size ((k.threads slot).brk - 1, { k with mm := after })
  | granted (after : Mm) (fits : max size 1 + 15 < 2 ^ 64) (inside : InWindow slot k size)
      (supplied : Supplied slot k size) :
      Answered slot k size ((k.threads slot).brk, { k with mm := after }.setThread slot
        { k.threads slot with brk := (k.threads slot).brk + blockSize size })

section Calls
variable {slot : Nat} {k : Kernel} {size : Nat}

theorem malloc_state (k : Kernel) (size : Nat) :
    (malloc k size).2 = (sysSbrk k ((max size 1 + 15) % 2 ^ 64 / 16 * 16)).2 := by
  simp only [malloc]
  split <;> rfl

theorem sysSbrk_refused {rdi : Nat} (window : HeapWindow (k.threads k.currentIdx).brk) (positive : rdi ≠ 0)
    (word : rdi < 2 ^ 64) (outside : userHeapBase + userHeapMax < (k.threads k.currentIdx).brk + rdi) :
    sysSbrk k rdi = (-1, k) := by
  have base : userHeapBase = 0x600000000000 := rfl
  have most : userHeapMax = 67108864 := rfl
  obtain ⟨low, high⟩ := window
  simp only [sysSbrk]
  rw [if_neg positive, if_pos (by omega)]

theorem sysSbrk_looped {rdi : Nat} {ok : Bool} {after : Mm} (window : HeapWindow (k.threads k.currentIdx).brk)
    (positive : rdi ≠ 0) (inside : (k.threads k.currentIdx).brk + rdi ≤ userHeapBase + userHeapMax)
    (loop : forEach (mapDataPage (k.threads k.currentIdx).space) k.mm
      (heapPages (k.threads k.currentIdx).brk ((k.threads k.currentIdx).brk + rdi)) = (ok, after)) :
    sysSbrk k rdi = if ok then (toI64 (k.threads k.currentIdx).brk, { k with mm := after }.setThread k.currentIdx
        { k.threads k.currentIdx with brk := (k.threads k.currentIdx).brk + rdi })
      else (toI64 (k.threads k.currentIdx).brk - 1, { k with mm := after }) := by
  have base : userHeapBase = 0x600000000000 := rfl
  have most : userHeapMax = 67108864 := rfl
  obtain ⟨low, high⟩ := window
  have sum : ((k.threads k.currentIdx).brk + rdi) % 2 ^ 64 = (k.threads k.currentIdx).brk + rdi :=
    Nat.mod_eq_of_lt (by omega)
  simp only [sysSbrk]
  rw [if_neg positive, sum, if_neg (by omega), loop]
  cases ok <;> rfl

theorem malloc_answered (owner : HeapOwner slot k) (turn : k.currentIdx = slot) (word : size < 2 ^ 64) :
    Answered slot k size (malloc k size) := by
  subst turn
  have base : userHeapBase = 0x600000000000 := rfl
  have most : userHeapMax = 67108864 := rfl
  have window := owner.window
  have signed := break_toI64 window
  have positive : 0 ≤ toI64 (k.threads k.currentIdx).brk := by omega
  by_cases fits : max size 1 + 15 < 2 ^ 64
  · have some_ : blockSize size ≠ 0 ∧ blockSize size < 2 ^ 64 := by simp only [blockSize]; omega
    by_cases inside : InWindow k.currentIdx k size
    · have bound : HeapWindow ((k.threads k.currentIdx).brk + blockSize size) :=
        ⟨Nat.le_add_right_of_le window.1, inside⟩
      obtain ⟨live, held, owned, alive⟩ := owner.owned
      have supply := heapLoop_supplied owned alive window bound
      simp only [malloc, Nat.mod_eq_of_lt fits]
      rw [show (max size 1 + 15) / 16 * 16 = blockSize size from rfl]
      cases loop : forEach (mapDataPage (k.threads k.currentIdx).space) k.mm
          (heapPages (k.threads k.currentIdx).brk ((k.threads k.currentIdx).brk + blockSize size)) with
      | mk ok after =>
          rw [loop] at supply
          rw [sysSbrk_looped window some_.1 inside loop]
          cases ok with
          | false =>
              have value : (toI64 (k.threads k.currentIdx).brk - 1).toNat = (k.threads k.currentIdx).brk - 1 := by
                omega
              simp only [Bool.false_eq_true, if_false]
              rw [if_neg (by have low := window.1; omega), value]
              exact .exhausted after inside fun enough => by simpa using supply.mpr enough
          | true =>
              simp only [if_true]
              rw [if_neg (by omega), signed, Int.toNat_natCast]
              exact .granted after fits inside (supply.mp rfl)
    · have outside := Nat.lt_of_not_le inside
      simp only [malloc, Nat.mod_eq_of_lt fits]
      rw [show (max size 1 + 15) / 16 * 16 = blockSize size from rfl,
        sysSbrk_refused window some_.1 some_.2 outside]
      exact .refused fits inside
  · -- The rounded size is zero, and the call only asks for the break.
    have none_ : (max size 1 + 15) % 2 ^ 64 / 16 * 16 = 0 := by omega
    simp only [malloc, none_, sysSbrk, if_true]
    rw [if_neg (by omega), signed, Int.toNat_natCast]
    exact .wrapped (Nat.le_of_not_lt fits)

theorem HeapOwner.byte_mapped (owner : HeapOwner slot k) {va : Nat} (low : userHeapBase ≤ va)
    (high : va < (k.threads slot).brk) : translate k.mm (k.threads slot).space va ≠ 0 := by
  obtain ⟨live, held, owned, alive⟩ := owner.owned
  have below : va < pageUp (k.threads slot).brk := by
    simp only [pageUp, pageDown, pageSize]
    omega
  obtain ⟨small, number⟩ := below_break owner.window below
  obtain ⟨start, stop, aligned⟩ := page_of va
  obtain ⟨frame, mapped⟩ := owner.mapped (va / pageSize) (Nat.div_le_div_right low) number
  have holds : Holds k.mm (k.threads slot).space (va / pageSize * pageSize) dataFlags
      fun offset => k.mm.mem (frame + offset) := by
    refine ⟨frame, ?_, fun _ _ => rfl⟩
    rw [Nat.mul_div_cancel _ (by decide)]
    exact mapped
  exact (Holds.read holds owned alive aligned va start stop small).1

theorem malloc_ok_iff {blocks : List Extent} (owner : HeapOwner slot k)
    (after : HeapOwner slot (malloc k size).2) (multiple : (k.threads slot).brk % 16 = 0)
    (below : ∀ block, block ∈ blocks → block.off + block.size ≤ (k.threads slot).brk)
    (turn : k.currentIdx = slot) (word : size < 2 ^ 64) :
    MallocOk slot k blocks size (malloc k size).1 (malloc k size).2 ↔ Answerable slot k size := by
  have low := owner.window.1
  have base : userHeapBase = 0x600000000000 := rfl
  have most : userHeapMax = 67108864 := rfl
  have answer := malloc_answered owner turn word
  generalize malloc k size = result at answer after
  cases answer with
  | wrapped overflow =>
      have outside : ¬ InWindow slot k size := by
        simp only [InWindow, blockSize]
        omega
      constructor
      · intro ok
        have null := ok.null fun all => outside all.1
        dsimp only at null
        omega
      · intro answerable
        exact absurd answerable.1 (Nat.not_lt.mpr overflow)
  | refused fits outside =>
      constructor
      · intro _
        exact ⟨fits, fun inside => absurd inside outside⟩
      · intro _
        exact ⟨fun some_ => absurd rfl some_, fun some_ => absurd rfl some_, fun some_ => absurd rfl some_,
          fun some_ => absurd rfl some_, fun _ => rfl⟩
  | exhausted mm inside short =>
      -- The break minus one is not null, although there was no memory.
      constructor
      · intro ok
        have null := ok.null fun all => short all.2
        dsimp only at null
        omega
      · intro answerable
        exact absurd (answerable.2 inside) short
  | granted mm fits inside supplied =>
      have moved : (({ k with mm := mm }.setThread slot { k.threads slot with
          brk := (k.threads slot).brk + blockSize size }).threads slot).brk =
          (k.threads slot).brk + blockSize size := by
        rw [setThread_same]
      have room : max size 1 ≤ blockSize size := by
        simp only [blockSize]
        omega
      have within : (blockAt (k.threads slot).brk size).cells ⊆ Set.Ico userHeapBase
          (({ k with mm := mm }.setThread slot { k.threads slot with
            brk := (k.threads slot).brk + blockSize size }).threads slot).brk := by
        rw [moved]
        exact Set.Ico_subset_Ico low (Nat.add_le_add_left room _)
      refine ⟨fun _ => ⟨fits, fun _ => supplied⟩, fun _ => ⟨fun _ => multiple, fun _ => within, ?_, ?_, ?_⟩⟩
      · intro _ va member
        exact after.byte_mapped (within member).1 (within member).2
      · intro _ block member
        exact Set.Ico_disjoint_Ico.mpr ((min_le_left _ _).trans ((below block member).trans (le_max_right _ _)))
      · intro missing
        exact absurd ⟨inside, supplied⟩ missing

theorem malloc_break (owner : HeapOwner slot k) (turn : k.currentIdx = slot) (word : size < 2 ^ 64)
    (multiple : (k.threads slot).brk % 16 = 0) :
    ((malloc k size).2.threads slot).brk % 16 = 0 ∧
      (k.threads slot).brk ≤ ((malloc k size).2.threads slot).brk ∧
      (Answerable slot k size → (malloc k size).1 ≠ 0 →
        (malloc k size).1 + max size 1 ≤ ((malloc k size).2.threads slot).brk) := by
  have answer := malloc_answered owner turn word
  generalize malloc k size = result at answer
  cases answer with
  | wrapped overflow => exact ⟨multiple, le_rfl, fun answerable => absurd answerable.1 (Nat.not_lt.mpr overflow)⟩
  | refused fits outside => exact ⟨multiple, le_rfl, fun _ some_ => absurd rfl some_⟩
  | exhausted mm inside short =>
      exact ⟨multiple, le_rfl, fun answerable => absurd (answerable.2 inside) short⟩
  | granted mm fits inside supplied =>
      dsimp only
      rw [setThread_same]
      simp only [blockSize]
      omega

end Calls

/-! ### Many calls -/

/-- What `slot` and the others do: a call of `malloc`, recorded with the state that it
is made in, or another operation. The latest call comes first. -/
inductive MallocRun (slot : Nat) (others : Kernel → Op → Prop) (start : Kernel) :
    List (Kernel × Nat) → Kernel → Prop where
  | start : MallocRun slot others start [] start
  | call {calls : List (Kernel × Nat)} {k : Kernel} (run : MallocRun slot others start calls k)
      (turn : k.currentIdx = slot) (size : Nat) (word : size < 2 ^ 64) :
      MallocRun slot others start ((k, size) :: calls) (malloc k size).2
  | other {calls : List (Kernel × Nat)} {k after : Kernel} {op : Op} {ret : Int}
      (run : MallocRun slot others start calls k) (allowed : others k op)
      (done : step k op = .ok (ret, after)) : MallocRun slot others start calls after

def blocksOf : List (Kernel × Nat) → List Extent
  | [] => []
  | (k, size) :: calls =>
      if (malloc k size).1 = 0 then blocksOf calls else blockAt (malloc k size).1 size :: blocksOf calls

def AllOk (slot : Nat) : List (Kernel × Nat) → Prop
  | [] => True
  | (k, size) :: calls =>
      MallocOk slot k (blocksOf calls) size (malloc k size).1 (malloc k size).2 ∧ AllOk slot calls

structure Guards (slot : Nat) (others : Kernel → Op → Prop) (inv : Kernel → Prop) : Prop where
  owner : ∀ k, inv k → HeapOwner slot k
  call : ∀ k rdi, inv k → k.currentIdx = slot → inv (sysSbrk k rdi).2
  other : ∀ k op ret after, inv k → others k op → step k op = .ok (ret, after) →
    inv after ∧ (after.threads slot).brk = (k.threads slot).brk

section Runs
variable {slot : Nat} {others : Kernel → Op → Prop} {inv : Kernel → Prop} {start k : Kernel}
  {calls : List (Kernel × Nat)}

theorem mallocRun_ok_iff (guards : Guards slot others inv) (begins : inv start)
    (fresh : (start.threads slot).brk = userHeapBase) (run : MallocRun slot others start calls k) :
    inv k ∧ (k.threads slot).brk % 16 = 0 ∧
      (AllOk slot calls ↔ ∀ call, call ∈ calls → Answerable slot call.1 call.2) ∧
      (AllOk slot calls → ∀ block, block ∈ blocksOf calls → block.off + block.size ≤ (k.threads slot).brk) := by
  induction run with
  | start =>
      refine ⟨begins, by rw [fresh]; decide, ?_, ?_⟩ <;> simp [AllOk, blocksOf]
  | @call calls k run turn size word ih =>
      obtain ⟨kept, multiple, same, below⟩ := ih
      have owner := guards.owner k kept
      have still : inv (malloc k size).2 := by
        rw [malloc_state]
        exact guards.call k _ kept turn
      obtain ⟨later, further, passed⟩ := malloc_break owner turn word multiple
      -- Once a call went wrong, the blocks say nothing about the break any more.
      have head : AllOk slot calls → (MallocOk slot k (blocksOf calls) size (malloc k size).1 (malloc k size).2 ↔
          Answerable slot k size) := fun ok =>
        malloc_ok_iff owner (guards.owner _ still) multiple (below ok) turn word
      refine ⟨still, later, ?_, ?_⟩
      · rw [AllOk, List.forall_mem_cons, ← same]
        exact and_congr_left head
      · rintro ⟨ok, earlier⟩ block member
        have before : block ∈ blocksOf calls → block.off + block.size ≤ ((malloc k size).2.threads slot).brk :=
          fun old => (below earlier block old).trans further
        rw [blocksOf] at member
        split at member
        · exact before member
        · rename_i some_
          rcases List.mem_cons.mp member with rfl | old
          · exact passed ((head earlier).mp ok) some_
          · exact before old
  | @other calls k after op ret run allowed done ih =>
      obtain ⟨kept, multiple, same, below⟩ := ih
      obtain ⟨still, brk⟩ := guards.other k op ret after kept allowed done
      rw [brk]
      exact ⟨still, multiple, same, below⟩

end Runs

theorem idle_guards (slot : Nat) : Guards slot Idle (HeapOwner slot) where
  owner _ owner := owner
  call k rdi owner turn := alone_step slot k (.sbrk rdi) _ _ owner turn rfl
  other k op ret after owner idle done := by
    obtain ⟨mm, same⟩ := idle_step idle done
    exact ⟨owner.same_holding mm (same slot), (same slot).brk⟩

def Elsewhere (slot : Nat) (k : Kernel) (op : Op) : Prop :=
  Allowed k op ∧ match op with
    | .sbrk _ => k.currentIdx ≠ slot
    | .reap tid => tid ≠ slot
    | _ => True

theorem elsewhere_step {slot : Nat} {k after : Kernel} {op : Op} {ret : Int} (own : Ownership k)
    (user : (k.threads slot).isUser = true) (elsewhere : Elsewhere slot k op)
    (done : step k op = .ok (ret, after)) : SameHolding (k.threads slot) (after.threads slot) := by
  -- A new thread takes a slot that no process has.
  cases step_slot own elsewhere.1 done slot with
  | kept same => exact same
  | started unused _ =>
      have nothing := (own.idle slot unused).1
      rw [ownSpace, if_pos user] at nothing
      cases nothing
  | removed reaped _ =>
      subst reaped
      exact absurd rfl elsewhere.2
  | grown rdi called caller =>
      subst called
      exact absurd caller.symm elsewhere.2

structure Running (slot : Nat) (k : Kernel) : Prop where
  own : Ownership k
  heaps : Heaps k
  user : (k.threads slot).isUser = true

theorem running_guards (slot : Nat) : Guards slot (Elsewhere slot) (Running slot) where
  owner k running := ⟨⟨_, _, running.own.owned, .inr ⟨slot, by rw [ownSpace, if_pos running.user]⟩⟩,
    running.own.heap slot running.user, running.heaps slot running.user⟩
  call k rdi running turn := by
    subst turn
    have done : step k (.sbrk rdi) = .ok ((sysSbrk k rdi).1, (sysSbrk k rdi).2) := rfl
    refine ⟨(step_ownership k (.sbrk rdi) _ _ running.own running.user done).1,
      step_heaps (.sbrk rdi) _ running.own running.heaps running.user done, ?_⟩
    obtain ⟨_, stepped⟩ := sysSbrk_called k rdi running.own.owned
      (.inr ⟨k.currentIdx, by rw [ownSpace, if_pos running.user]⟩) (running.own.heap _ running.user)
      (running.heaps _ running.user)
    rw [stepped.threads, if_pos rfl]
    exact running.user
  other k op ret after running elsewhere done := by
    have same := elsewhere_step running.own running.user elsewhere done
    exact ⟨⟨(step_ownership k op ret after running.own elsewhere.1 done).1,
      step_heaps op ret running.own running.heaps elsewhere.1 done, same.isUser.trans running.user⟩, same.brk⟩

/-- A process that has not used its heap, and what the others may do: it was just
spawned, from any image, and is left alone; or it is in a booted system with images that
keep to the low half, and the others do what they like. -/
inductive NewProcess (slot : Nat) : (Kernel → Op → Prop) → Kernel → Prop where
  | alone (k spawned : Kernel) (name : List UInt8) (image : Image) (argv : List (List UInt8)) (tid : Int)
      (tables : KernelTables k.mm) (zero : ¬ Free k.mm.pmm 0) (short : ShortArgs argv)
      (done : spawnElf k name image argv = .ok (tid, spawned)) (success : 0 ≤ tid) (here : tid.toNat = slot) :
      NewProcess slot Idle spawned
  | together (start k : Kernel) (booted : Sched.Booted start) (run : Run step Allowed start k)
      (user : (k.threads slot).isUser = true) (fresh : (k.threads slot).brk = userHeapBase) :
      NewProcess slot (Elsewhere slot) k

/-- A process on its own may come from any image that leaves the direct map alone, which the
model takes to stay; beside others, the images keep to the low half. -/
theorem malloc_ok_iff_answerable (slot : Nat) (others : Kernel → Op → Prop) (start : Kernel)
    (new : NewProcess slot others start) (calls : List (Kernel × Nat)) (after : Kernel)
    (run : MallocRun slot others start calls after) :
    AllOk slot calls ↔ ∀ call, call ∈ calls → Answerable slot call.1 call.2 := by
  cases new with
  | alone k spawned name image argv tid tables zero short done success here =>
      subst here
      have owner := spawned_heapOwner k start name image argv tid tables short done success
      obtain ⟨_, _, _, _, _, _, _, _, _, _, fresh, _⟩ :=
        spawnElf_succeeded k start name image argv tid done success
      exact (mallocRun_ok_iff (idle_guards tid.toNat) owner fresh run).2.2.1
  | together booting _ booted reached user fresh =>
      obtain ⟨own, heaps⟩ := run_heaps booting start booted reached
      exact (mallocRun_ok_iff (running_guards slot) ⟨own, heaps, user⟩ fresh run).2.2.1

theorem ticked_idle (slot : Nat) (start : Kernel) (count : Nat) :
    MallocRun slot Idle start [] (ticked start count) := by
  induction count with
  | zero => exact .start
  | succ count ih =>
      have idle : Idle (ticked start count) (.tick .zeroed) := trivial
      exact .other ih idle rfl

theorem malloc_ok_iff_answerable_small :
    ∃ start born current, KernelTables start.mm ∧ ¬ Free start.mm.pmm 0 ∧
      spawnElf start [] (smallImage 0x400000) [] = .ok (1, born) ∧
      MallocRun 1 Idle born [(current, 100)] (malloc current 100).2 ∧
      (malloc current 100).1 = userHeapBase ∧ AllOk 1 [(current, 100)] := by
  have booted := bootedKernel_booted _ _ blankMachine_wide
  have levels := blank_oneLevel
  have evaluated : ((spawnElf (bootedKernel (Vmm.init (blankMachine (-2)) (2 ^ 29))) []
      (smallImage 0x400000) []).map fun result => (result.1, (ticked result.2 5).currentIdx,
        ((ticked result.2 5).threads 1).brk, (malloc (ticked result.2 5) 100).1)) =
      .ok (1, 1, userHeapBase, userHeapBase) := by decide +kernel
  generalize Vmm.init (blankMachine (-2)) (2 ^ 29) = mm at booted levels evaluated
  have tables := run_kernelTables (bootedKernel mm) (bootedKernel mm) booted levels .refl
  have zero := (init_ownership _ booted).owned.zero
  obtain ⟨⟨ret, born⟩, shape, values⟩ := (map_ok _ _ _).mp evaluated
  simp only [Prod.mk.injEq] at values
  obtain ⟨rfl, turn, brk, block⟩ := values
  have short : ShortArgs [] := fun bytes member => by cases member
  have owner := run_invariant step _ (HeapOwner 1) (alone_step 1) (ticked_alone 1 born 5)
    (spawned_heapOwner _ born [] _ [] 1 tables short shape (by decide))
  have waited := ticked_idle 1 born 5
  generalize ticked born 5 = current at turn brk block waited owner
  have answerable : Answerable 1 current 100 := by
    have answer := @malloc_answered 1 current 100 owner turn (by decide)
    generalize malloc current 100 = result at answer block
    cases answer with
    | wrapped overflow => exact absurd overflow (by decide)
    | refused fits outside => cases block
    | exhausted after inside short =>
        rw [brk] at block
        cases block
    | granted after fits inside supplied => exact ⟨fits, fun _ => supplied⟩
  have called := MallocRun.call waited turn 100 (by decide)
  refine ⟨_, born, current, tables, zero, shape, called, block, ?_⟩
  have new : NewProcess 1 Idle born := .alone _ born [] _ [] 1 tables zero short shape (by decide) rfl
  refine (malloc_ok_iff_answerable 1 Idle born new _ _ called).mpr ?_
  intro call member
  rw [List.mem_singleton.mp member]
  exact answerable

/-- No page is free: `sys_sbrk` reports that by the old break minus one, which is not
negative, and `malloc` returns it as a block. With the largest size the rounding wraps
to zero, and the break comes back as a block of that size. -/
theorem malloc_returns_no_block :
    ∃ start born current, Sched.Booted start ∧
      spawnElf start [] (smallImage 0x400000) [] = .ok (1, born) ∧
      MallocRun 1 Idle born [(current, 16)] (malloc current 16).2 ∧
      (malloc current 16).1 = userHeapBase - 1 ∧ ¬ AllOk 1 [(current, 16)] ∧
      MallocRun 1 Idle born [(current, 2 ^ 64 - 1)] (malloc current (2 ^ 64 - 1)).2 ∧
      (malloc current (2 ^ 64 - 1)).1 = userHeapBase ∧ ¬ AllOk 1 [(current, 2 ^ 64 - 1)] := by
  have booted := bootedKernel_booted _ _ (blankMachine_limine (2 ^ 18 - 2) (by decide) 1 (by decide) (by decide))
  have evaluated : ((spawnElf (bootedKernel (Vmm.init (blankMachine (2 ^ 18 - 2)) (2 ^ 29))) []
      (smallImage 0x400000) []).map fun result => (result.1, (ticked result.2 5).currentIdx,
        (malloc (ticked result.2 5) 16).1, (malloc (ticked result.2 5) (2 ^ 64 - 1)).1,
        ((malloc (ticked result.2 5) (2 ^ 64 - 1)).2.threads 1).brk)) =
      .ok (1, 1, userHeapBase - 1, userHeapBase, userHeapBase) := by decide +kernel
  generalize Vmm.init (blankMachine (2 ^ 18 - 2)) (2 ^ 29) = mm at booted evaluated
  obtain ⟨⟨ret, born⟩, shape, values⟩ := (map_ok _ _ _).mp evaluated
  simp only [Prod.mk.injEq] at values
  obtain ⟨rfl, turn, odd, whole, brk⟩ := values
  have waited := ticked_idle 1 born 5
  generalize ticked born 5 = current at turn odd whole brk waited
  refine ⟨_, born, current, booted, shape, .call waited turn 16 (by decide), odd, fun ok => ?_,
    .call waited turn (2 ^ 64 - 1) (by decide), whole, fun ok => ?_⟩
  · have aligned := ok.1.aligned
    rw [odd] at aligned
    exact absurd (aligned (by decide)) (by decide)
  · have inside := ok.1.inside
    rw [whole, brk] at inside
    have member : userHeapBase ∈ (blockAt userHeapBase (2 ^ 64 - 1)).cells := ⟨le_rfl, by decide⟩
    exact absurd (inside (by decide) member).2 (Nat.lt_irrefl _)

end Shizuku.Process
