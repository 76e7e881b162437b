import Shizuku.Arguments
import Shizuku.HighImages
import Shizuku.ProcessMemory

/-!
The heap of a process. `sys_sbrk` maps the pages between the old and the new break
one by one and moves the break when all of them are there. What it leaves behind is
stated for a thread whose low half is its own, which holds of every thread from its
spawn on, whatever image it was spawned from.
-/

namespace Shizuku.Process

open ByteMemory WordMemory PointerForest Machine Pmm Vmm Elf Sched

def pageUp (x : Nat) : Nat := pageDown (x + pageSize - 1)

/-- The break is in its window, and every page of the heap up to the break, rounded
up, is mapped for the user, writable and not executable. -/
structure HeapState (mm : Mm) (t : Thread) : Prop where
  window : HeapWindow t.brk
  mapped : ∀ va, userHeapBase ≤ va → va < pageUp t.brk → ∃ e, leafEntry mm.mem t.space va = some e ∧
    e &&& pteUs ≠ 0 ∧ e &&& pteRw ≠ 0 ∧ e &&& pteNx ≠ 0

structure HeapCall (k : Kernel) (rdi : Nat) (ret : Int) (after : Kernel) : Prop where
  kept : ∀ va, va < pageUp (k.threads k.currentIdx).brk →
    translate after.mm (k.threads k.currentIdx).space va = translate k.mm (k.threads k.currentIdx).space va
  moved : (after.threads k.currentIdx).brk ≠ (k.threads k.currentIdx).brk →
    ret = (k.threads k.currentIdx).brk ∧
      ((after.threads k.currentIdx).brk : Int) = (k.threads k.currentIdx).brk + toI64 rdi ∧
      ∀ va, pageUp (k.threads k.currentIdx).brk ≤ va → va < pageUp (after.threads k.currentIdx).brk →
        translate after.mm (k.threads k.currentIdx).space va ≠ 0 ∧
        after.mm.mem (translate after.mm (k.threads k.currentIdx).space va) = 0

def HeapMapped (mm : Mm) (space brk : Nat) : Prop :=
  ∀ number, userHeapBase / pageSize ≤ number → number < pageUp brk / pageSize →
    ∃ frame, pageMap mm space number = some (frame, dataFlags ||| pteP)

theorem mem_heapPages {old new : Nat} (window : HeapWindow old) (va : Nat) :
    va ∈ heapPages old new ↔ va % pageSize = 0 ∧ pageUp old ≤ va ∧ va < pageUp new := by
  have base : userHeapBase = 0x600000000000 := rfl
  have most : userHeapMax = 67108864 := rfl
  obtain ⟨low, high⟩ := window
  simp only [heapPages, pageUp, pageDown, List.mem_map, List.mem_range, pageSize]
  rw [Nat.mod_eq_of_lt (by omega)]
  constructor
  · rintro ⟨i, inside, rfl⟩
    omega
  · rintro ⟨aligned, above, below⟩
    exact ⟨(va - (old + 4096 - 1) / 4096 * 4096) / 4096, by omega, by omega⟩

theorem pageUp_window {brk : Nat} (window : HeapWindow brk) :
    pageUp brk % pageSize = 0 ∧ pageUp brk ≤ userHeapBase + userHeapMax ∧ userHeapBase ≤ pageUp brk := by
  have base : userHeapBase = 0x600000000000 := rfl
  have most : userHeapMax = 67108864 := rfl
  obtain ⟨low, high⟩ := window
  simp only [pageUp, pageDown, pageSize]
  omega

section Loop
variable {mm after : Mm} {live held : Set Nat} {space old new : Nat}

/-- The pages that the loop got to are mapped and blank, every other page of a live
space is mapped as before. -/
theorem heapLoop {ok : Bool} (owned : Owned mm live held) (alive : space ∈ live) (window : HeapWindow old)
    (bound : HeapWindow new)
    (loop : forEach (mapDataPage space) mm (heapPages old new) = (ok, after)) :
    Owned after live held ∧
      (∀ other number, other ∈ live → number < 2 ^ 35 → (other = space → number < pageUp old / pageSize) →
        pageMap after other number = pageMap mm other number) ∧
      (ok = true → ∀ va, va ∈ heapPages old new → Holds after space va dataFlags fun _ => 0) := by
  have low : ∀ va, va ∈ heapPages old new → va < 2 ^ 47 := fun va member =>
    (heapPages_bounds old new va window.2 bound.2 member).1.2
  have spares : ∀ item, item ∈ heapItems space old new → Spares live held space item := by
    intro item member
    obtain ⟨va, listed, rfl⟩ := List.mem_map.mp member
    exact (mapDataPage_fills alive va (low va listed)).2
  rw [forEach_pages] at loop
  obtain ⟨left, same⟩ := runItems_spares (heapItems space old new) spares owned loop
  refine ⟨left, fun other number member small below => same other number member small ?_, ?_⟩
  · rintro here item listed rfl
    obtain ⟨va, page, rfl⟩ := List.mem_map.mp listed
    have above := ((mem_heapPages window va).mp page).2.1
    have limit := below here
    dsimp only at limit
    exact absurd limit (Nat.not_lt.mpr (Nat.div_le_div_right above))
  · rintro rfl va member
    have fills : ∀ va, va ∈ heapPages old new →
        Fills live held space (va, fun mm => mapDataPage space mm va) dataFlags fun _ => 0 :=
      fun va listed => (mapDataPage_fills alive va (low va listed)).1
    have distinct : ((heapItems space old new).map fun item => item.1 / pageSize).Nodup := by
      have numbers : (heapItems space old new).map (fun item => item.1 / pageSize) =
          (heapPages old new).map fun va => va / pageSize := by
        rw [heapItems, List.map_map]
        rfl
      rw [numbers]
      refine (heapPages_nodup old new).map_on fun first one second two equal => ?_
      have left := ((mem_heapPages window first).mp one).1
      have right := ((mem_heapPages window second).mp two).1
      simp only [pageSize] at *
      omega
    have filled := (runItems_filled (heapItems space old new) alive (fun item listed => by
      obtain ⟨va, page, rfl⟩ := List.mem_map.mp listed
      exact ⟨_, _, fills va page⟩) distinct owned loop).2.1
    exact filled _ (List.mem_map.mpr ⟨va, member, rfl⟩) _ _ (fills va member)

end Loop

def newPages (k : Kernel) (rdi : Nat) : List Nat :=
  let old := (k.threads k.currentIdx).brk
  let new := (old + rdi) % 2 ^ 64
  if rdi = 0 ∨ new < old ∨ userHeapMax < (new + 2 ^ 64 - userHeapBase) % 2 ^ 64 then []
  else heapPages old new

theorem sysSbrk_cases (k : Kernel) (rdi : Nat) (window : HeapWindow (k.threads k.currentIdx).brk) :
    (newPages k rdi = [] ∧ ∃ ret, sysSbrk k rdi = (ret, k)) ∨
      ∃ new after, new = ((k.threads k.currentIdx).brk + rdi) % 2 ^ 64 ∧
        (k.threads k.currentIdx).brk ≤ new ∧ HeapWindow new ∧
        newPages k rdi = heapPages (k.threads k.currentIdx).brk new ∧
        (forEach (mapDataPage (k.threads k.currentIdx).space) k.mm
            (heapPages (k.threads k.currentIdx).brk new) = (false, after) ∧
          sysSbrk k rdi = (toI64 (k.threads k.currentIdx).brk - 1, { k with mm := after }) ∨
        forEach (mapDataPage (k.threads k.currentIdx).space) k.mm
            (heapPages (k.threads k.currentIdx).brk new) = (true, after) ∧
          sysSbrk k rdi = (toI64 (k.threads k.currentIdx).brk,
            { k with mm := after }.setThread k.currentIdx { k.threads k.currentIdx with brk := new })) := by
  have word : ((k.threads k.currentIdx).brk + rdi) % 2 ^ 64 < 2 ^ 64 := Nat.mod_lt _ (by decide)
  simp only [newPages, sysSbrk]
  generalize shape : ((k.threads k.currentIdx).brk + rdi) % 2 ^ 64 = new at word
  by_cases zero : rdi = 0
  · rw [if_pos (.inl zero), if_pos zero]
    exact .inl ⟨rfl, _, rfl⟩
  · by_cases refused : new < (k.threads k.currentIdx).brk ∨ userHeapMax < (new + 2 ^ 64 - userHeapBase) % 2 ^ 64
    · rw [if_pos (.inr refused), if_neg zero, if_pos refused]
      exact .inl ⟨rfl, _, rfl⟩
    · rw [if_neg (not_or.mpr ⟨zero, refused⟩), if_neg zero, if_neg refused]
      have base : userHeapBase = 0x600000000000 := rfl
      have most : userHeapMax = 67108864 := rfl
      obtain ⟨low, high⟩ := window
      have order : (k.threads k.currentIdx).brk ≤ new := by omega
      have inside : HeapWindow new := ⟨by omega, by omega⟩
      cases loop : forEach (mapDataPage (k.threads k.currentIdx).space) k.mm
          (heapPages (k.threads k.currentIdx).brk new) with
      | mk ok after =>
          refine .inr ⟨new, after, rfl, order, inside, rfl, ?_⟩
          cases ok with
          | false => exact .inl ⟨loop, rfl⟩
          | true => exact .inr ⟨loop, rfl⟩

section Calls
variable {live held : Set Nat}

theorem below_break {brk va : Nat} (window : HeapWindow brk) (below : va < pageUp brk) :
    va < 2 ^ 47 ∧ va / pageSize < pageUp brk / pageSize := by
  have base : userHeapBase = 0x600000000000 := rfl
  have most : userHeapMax = 67108864 := rfl
  obtain ⟨aligned, bound, _⟩ := pageUp_window window
  simp only [pageSize] at *
  omega

theorem heap_number {brk number : Nat} (window : HeapWindow brk) (high : number < pageUp brk / pageSize) :
    number < 2 ^ 35 := by
  have base : userHeapBase = 0x600000000000 := rfl
  have most : userHeapMax = 67108864 := rfl
  obtain ⟨_, bound, _⟩ := pageUp_window window
  simp only [pageSize] at *
  omega

theorem HeapMapped.grow {mm after : Mm} {space old new : Nat} (window : HeapWindow old)
    (inside : HeapWindow new) (mapped : HeapMapped mm space old)
    (same : ∀ number, number < 2 ^ 35 → number < pageUp old / pageSize →
      pageMap after space number = pageMap mm space number)
    (filled : ∀ va, va ∈ heapPages old new → Holds after space va dataFlags fun _ => 0) :
    HeapMapped after space new := by
  intro number low high
  by_cases before : number < pageUp old / pageSize
  · rw [same number (heap_number window before) before]
    exact mapped number low before
  · have page : number * pageSize ∈ heapPages old new := by
      obtain ⟨aligned, _, _⟩ := pageUp_window window
      obtain ⟨newAligned, _, _⟩ := pageUp_window inside
      refine (mem_heapPages window _).mpr ⟨Nat.mul_mod_left _ _, ?_, ?_⟩ <;>
        (simp only [pageSize] at *; omega)
    obtain ⟨frame, here, _⟩ := filled _ page
    rw [Nat.mul_div_cancel number (by decide)] at here
    exact ⟨frame, here⟩

theorem increment_exact {old new rdi : Nat} (window : HeapWindow old) (inside : HeapWindow new)
    (word : rdi < 2 ^ 64) (sum : new = (old + rdi) % 2 ^ 64) (order : old ≤ new) :
    (new : Int) = old + toI64 rdi := by
  have base : userHeapBase = 0x600000000000 := rfl
  have most : userHeapMax = 67108864 := rfl
  obtain ⟨low, high⟩ := window
  obtain ⟨_, limit⟩ := inside
  rw [toI64]
  split <;> omega

theorem break_toI64 {brk : Nat} (window : HeapWindow brk) : toI64 brk = brk := by
  have base : userHeapBase = 0x600000000000 := rfl
  have most : userHeapMax = 67108864 := rfl
  obtain ⟨_, high⟩ := window
  rw [toI64, if_pos (by omega)]

structure HeapStepped (live held : Set Nat) (k : Kernel) (rdi : Nat) (result : Int × Kernel) (brk : Nat) :
    Prop where
  threads : ∀ slot, result.2.threads slot =
    if slot = k.currentIdx then { k.threads slot with brk := brk } else k.threads slot
  owned : Owned result.2.mm live held
  window : HeapWindow brk
  mapped : HeapMapped result.2.mm (k.threads k.currentIdx).space brk
  others : ∀ other number, other ∈ live → other ≠ (k.threads k.currentIdx).space → number < 2 ^ 35 →
    pageMap result.2.mm other number = pageMap k.mm other number
  call : rdi < 2 ^ 64 → HeapCall k rdi result.1 result.2

section Stepped
variable {k : Kernel} {rdi : Nat} {after : Mm}

theorem kept_below {other : Nat} (owned : Owned k.mm live held) (left : Owned after live held) (alive : other ∈ live)
    {brk : Nat} (window : HeapWindow brk)
    (same : ∀ number, number < 2 ^ 35 → number < pageUp brk / pageSize →
      pageMap after other number = pageMap k.mm other number) (va : Nat) (below : va < pageUp brk) :
    translate after other va = translate k.mm other va := by
  -- What the loop leaves alone is translated as before.
  obtain ⟨small, number⟩ := below_break window below
  exact translate_congr owned.plain left.plain _ va alive small (same _ (page_number_below va small) number)

theorem sysSbrk_unmoved {ret : Int} (owned : Owned k.mm live held)
    (alive : (k.threads k.currentIdx).space ∈ live) (window : HeapWindow (k.threads k.currentIdx).brk)
    (mapped : HeapMapped k.mm (k.threads k.currentIdx).space (k.threads k.currentIdx).brk)
    (left : Owned after live held)
    (same : ∀ other number, other ∈ live → number < 2 ^ 35 → (other = (k.threads k.currentIdx).space →
      number < pageUp (k.threads k.currentIdx).brk / pageSize) → pageMap after other number = pageMap k.mm other number) :
    HeapStepped live held k rdi (ret, { k with mm := after }) (k.threads k.currentIdx).brk where
  threads slot := by
    split
    · rename_i here
      rw [here]
    · rfl
  owned := left
  window := window
  mapped number low high := by
    rw [same _ number alive (heap_number window high) fun _ => high]
    exact mapped number low high
  others other number member different small := same other number member small fun here => absurd here different
  call _ :=
    { kept := kept_below owned left alive window fun number small below => same _ number alive small fun _ => below
      moved := fun moved => absurd rfl moved }

theorem sysSbrk_moved {new : Nat} (owned : Owned k.mm live held)
    (alive : (k.threads k.currentIdx).space ∈ live) (window : HeapWindow (k.threads k.currentIdx).brk)
    (mapped : HeapMapped k.mm (k.threads k.currentIdx).space (k.threads k.currentIdx).brk)
    (sum : new = ((k.threads k.currentIdx).brk + rdi) % 2 ^ 64) (order : (k.threads k.currentIdx).brk ≤ new)
    (inside : HeapWindow new)
    (loop : forEach (mapDataPage (k.threads k.currentIdx).space) k.mm
      (heapPages (k.threads k.currentIdx).brk new) = (true, after)) :
    HeapStepped live held k rdi (toI64 (k.threads k.currentIdx).brk,
      { k with mm := after }.setThread k.currentIdx { k.threads k.currentIdx with brk := new }) new := by
  obtain ⟨left, same, filled⟩ := heapLoop owned alive window inside loop
  have below : ∀ number, number < 2 ^ 35 → number < pageUp (k.threads k.currentIdx).brk / pageSize →
      pageMap after (k.threads k.currentIdx).space number = pageMap k.mm (k.threads k.currentIdx).space number :=
    fun number small below => same _ number alive small fun _ => below
  refine ⟨fun slot => ?_, left, inside, mapped.grow window inside below (filled rfl),
    fun other number member different small => same other number member small fun here => absurd here different,
    fun word => ⟨kept_below owned left alive window below, fun _ => ?_⟩⟩
  · split
    · rename_i here
      rw [here, setThread_same]
    · rename_i elsewhere
      rw [setThread_other _ _ _ _ elsewhere]
  · rw [setThread_same]
    refine ⟨break_toI64 window, increment_exact window inside word sum order, fun va above high => ?_⟩
    -- The page of `va` is one that the loop filled with zeros.
    obtain ⟨small, _⟩ := below_break inside high
    obtain ⟨start, stop, aligned⟩ := page_of va
    have page : va / pageSize * pageSize ∈ heapPages (k.threads k.currentIdx).brk new := by
      refine (mem_heapPages window _).mpr ⟨aligned, ?_, Nat.lt_of_le_of_lt start high⟩
      obtain ⟨multiple, _, _⟩ := pageUp_window window
      simp only [pageSize] at *
      omega
    obtain ⟨present, byte, _⟩ := Holds.read (filled rfl _ page) left alive aligned va start stop small
    exact ⟨present, byte⟩

end Stepped

theorem sysSbrk_called (k : Kernel) (rdi : Nat) (owned : Owned k.mm live held)
    (alive : (k.threads k.currentIdx).space ∈ live) (window : HeapWindow (k.threads k.currentIdx).brk)
    (mapped : HeapMapped k.mm (k.threads k.currentIdx).space (k.threads k.currentIdx).brk) :
    ∃ brk, HeapStepped live held k rdi (sysSbrk k rdi) brk := by
  obtain ⟨_, ret, done⟩ | ⟨new, after, sum, order, inside, _, ⟨loop, done⟩ | ⟨loop, done⟩⟩ :=
    sysSbrk_cases k rdi window
  · rw [done]
    exact ⟨_, sysSbrk_unmoved owned alive window mapped owned fun _ _ _ _ _ => rfl⟩
  · rw [done]
    obtain ⟨left, same, _⟩ := heapLoop owned alive window inside loop
    exact ⟨_, sysSbrk_unmoved owned alive window mapped left same⟩
  · rw [done]
    exact ⟨new, sysSbrk_moved owned alive window mapped sum order inside loop⟩

end Calls

theorem heapState_of {mm : Mm} {t : Thread} (window : HeapWindow t.brk)
    (mapped : HeapMapped mm t.space t.brk) : HeapState mm t := by
  refine ⟨window, fun va above below => ?_⟩
  obtain ⟨small, number⟩ := below_break window below
  obtain ⟨frame, here⟩ := mapped (va / pageSize) (Nat.div_le_div_right above) number
  rw [pageMap, leafEntry_page _ _ _ small] at here
  obtain ⟨e, found, pair⟩ := Option.map_eq_some_iff.mp here
  refine ⟨e, found, ?_⟩
  rw [entryFlags_bit e pteUs (by decide), entryFlags_bit e pteRw (by decide),
    entryFlags_bit e pteNx (by decide), (Prod.mk.inj pair).2]
  decide

theorem heapMapped_base (mm : Mm) (space : Nat) : HeapMapped mm space userHeapBase := by
  intro number low high
  have empty : pageUp userHeapBase = userHeapBase := by decide
  rw [empty] at high
  omega

/-- Only `slot` changes memory, by heap calls; timer ticks and exits come in between. -/
def Alone (slot : Nat) (k : Kernel) : Op → Prop
  | .sbrk _ => k.currentIdx = slot
  | .tick _ | .threadExit _ | .sysExit _ _ => True
  | _ => False

theorem alone_cases {slot : Nat} {k : Kernel} {op : Op} (alone : Alone slot k op) :
    (∃ rdi, op = .sbrk rdi ∧ k.currentIdx = slot) ∨ Idle k op := by
  cases op with
  | sbrk rdi => exact .inl ⟨rdi, rfl, alone⟩
  | tick _ | threadExit _ | sysExit _ _ => exact .inr trivial
  | spawnElf _ _ _ | kthreadCreate _ _ _ | reap _ => exact alone.elim

theorem idle_allowed {k : Kernel} {op : Op} (idle : Idle k op) : Allowed k op := by
  cases op with
  | tick _ | threadExit _ | sysExit _ _ => trivial
  | spawnElf _ _ _ | kthreadCreate _ _ _ | reap _ | sbrk _ => exact idle.elim

structure HeapOwner (slot : Nat) (k : Kernel) : Prop where
  owned : ∃ live held, Owned k.mm live held ∧ (k.threads slot).space ∈ live
  window : HeapWindow (k.threads slot).brk
  mapped : HeapMapped k.mm (k.threads slot).space (k.threads slot).brk

theorem HeapOwner.same_holding {slot : Nat} {k after : Kernel} (owner : HeapOwner slot k)
    (mm : after.mm = k.mm) (same : SameHolding (k.threads slot) (after.threads slot)) :
    HeapOwner slot after := by
  refine ⟨?_, ?_, ?_⟩
  · rw [mm, same.space]
    exact owner.owned
  · rw [same.brk]
    exact owner.window
  · rw [mm, same.space, same.brk]
    exact owner.mapped

theorem alone_step (slot : Nat) (k : Kernel) (op : Op) (ret : Int) (after : Kernel)
    (owner : HeapOwner slot k) (alone : Alone slot k op) (done : step k op = .ok (ret, after)) :
    HeapOwner slot after := by
  rcases alone_cases alone with ⟨rdi, rfl, rfl⟩ | idle
  · obtain ⟨live, held, owned, alive⟩ := owner.owned
    obtain ⟨brk, stepped⟩ := sysSbrk_called k rdi owned alive owner.window owner.mapped
    rw [step, Except.ok.injEq] at done
    rw [done] at stepped
    have current := stepped.threads k.currentIdx
    rw [if_pos rfl] at current
    refine ⟨⟨live, held, stepped.owned, ?_⟩, ?_, ?_⟩
    · rw [current]
      exact alive
    · rw [current]
      exact stepped.window
    · rw [current]
      exact stepped.mapped
  · obtain ⟨mm, same⟩ := idle_step idle done
    exact owner.same_holding mm (same slot)

theorem spawned_heapOwner (k after : Kernel) (name : List UInt8) (image : Image)
    (argv : List (List UInt8)) (tid : Int) (tables : KernelTables k.mm)
    (short : ShortArgs argv) (done : spawnElf k name image argv = .ok (tid, after)) (success : 0 ≤ tid) :
    HeapOwner tid.toNat after := by
  obtain ⟨space, fresh, entry, rsp, built, made, nonzero, building, hasSpace, _, brk, first, run, final⟩ :=
    spawnElf_succeeded k after name image argv tid done success
  obtain ⟨held, owned⟩ := buildUser_owned image argv short (Set.mem_singleton space)
    (newSpace_alone tables made nonzero) building
  have taken := owned.takeAll _ (run_nodup first 4) (run_free built.pmm first 4 run)
  refine ⟨⟨_, _, final ▸ taken, by rw [hasSpace]; exact Set.mem_singleton space⟩, ?_, ?_⟩
  · rw [brk]
    exact ⟨le_rfl, Nat.le_add_right _ _⟩
  · rw [brk]
    exact heapMapped_base _ _

/-! ### All threads together -/

def Heaps (k : Kernel) : Prop :=
  ∀ slot, (k.threads slot).isUser = true → HeapMapped k.mm (k.threads slot).space (k.threads slot).brk

section Together
variable {k after : Kernel}

theorem Heaps.keep (own : Ownership k) (heaps : Heaps k)
    (keeps : ∀ page, page % pageSize = 0 → ¬ FreeAt k.mm.pmm page →
      SamePage k.mm.mem after.mm.mem page)
    (threads : ∀ slot, (after.threads slot).isUser = true →
      (after.threads slot).brk = userHeapBase ∨ (k.threads slot).isUser = true ∧
        (after.threads slot).space = (k.threads slot).space ∧
        (after.threads slot).brk = (k.threads slot).brk) : Heaps after := by
  -- Steps that keep the pages in use: old threads keep their heaps, new ones have none.
  intro slot user
  rcases threads slot user with base | ⟨was, space, brk⟩
  · rw [base]
    exact heapMapped_base _ _
  · rw [space, brk]
    have alive : (k.threads slot).space ∈ liveSpaces k := .inr ⟨slot, by rw [ownSpace, if_pos was]⟩
    intro number low high
    have tables : ∀ root path tbl, Named (liveSpaces k) root path → path.length < 4 →
        view k.mm.mem root path = some tbl → SamePage k.mm.mem after.mm.mem tbl := by
      intro root path tbl named _ reached
      obtain ⟨page, used⟩ := own.owned.valid root path tbl named reached
      exact keeps tbl page.aligned used
    have same : pageMap after.mm (k.threads slot).space number = pageMap k.mm (k.threads slot).space number :=
      pageMap_congr tables _ number alive (heap_number (own.heap slot was) high)
    rw [same]
    exact heaps slot was number low high

inductive SlotStep (k : Kernel) (op : Op) (slot : Nat) (t : Thread) : Prop where
  | kept (same : SameHolding (k.threads slot) t) : SlotStep k op slot t
  | started (unused : (k.threads slot).state = .unused) (fresh : t.isUser = true → t.brk = userHeapBase) :
      SlotStep k op slot t
  | removed (reaped : op = .reap slot) (gone : t.isUser = false) : SlotStep k op slot t
  | grown (rdi : Nat) (called : op = .sbrk rdi) (caller : slot = k.currentIdx) : SlotStep k op slot t

theorem SlotStep.start {fresh : Nat} {t : Thread} {op : Op} (found : unusedSlot k = some fresh)
    (new : t.isUser = true → t.brk = userHeapBase) (slot : Nat) :
    SlotStep k op slot ((k.setThread fresh t).threads slot) := by
  by_cases here : slot = fresh
  · subst slot
    rw [setThread_same]
    exact .started (unusedSlot_some k fresh found).2 new
  · rw [setThread_other _ _ _ _ here]
    exact .kept (.refl _)

theorem step_slot {op : Op} {ret : Int} (own : Ownership k) (allowed : Allowed k op)
    (done : step k op = .ok (ret, after)) (slot : Nat) : SlotStep k op slot (after.threads slot) := by
  cases step_called own allowed done with
  | spawn outcome =>
      -- A failed spawn may have published the slot already, as a kernel thread without a heap.
      cases outcome with
      | noSpace _ | failed _ _ _ _ _ _ => exact .kept (.refl _)
      | noStack space built gone fresh _ _ _ found _ =>
          rw [published, growTable_threads]
          exact .start found (fun impossible => by cases impossible) slot
      | spawned space built gone fresh first entry rsp _ _ _ found _ _ shape =>
          rw [shape, growTable_threads]
          exact .start found (fun _ => rfl) slot
  | @heap rdi _ _ _ outcome =>
      by_cases here : slot = k.currentIdx
      · exact .grown rdi rfl here
      · cases outcome with
        | unchanged _ _ | exhausted _ _ _ => exact .kept (.refl _)
        | grown _ _ _ _ _ _ _ =>
            rw [setThread_other _ _ _ _ here]
            exact .kept (.refl _)
  | create outcome =>
      cases outcome with
      | noSlot _ | noStack _ _ _ _ => exact .kept (.refl _)
      | created fresh first found _ _ _ =>
          rw [growTable_threads]
          exact .start found (fun impossible => by cases impossible) slot
  | quiet _ same => exact .kept (same slot)
  | @reaped tid _ _ _ shape =>
      rw [shape]
      by_cases here : slot = tid
      · subst slot
        rw [setThread_same]
        exact .removed rfl rfl
      · rw [setThread_other _ _ _ _ here]
        exact .kept (.refl _)

theorem step_pages {op : Op} {ret : Int} (own : Ownership k) (allowed : Allowed k op)
    (done : step k op = .ok (ret, after)) (page : Nat) (aligned : page % pageSize = 0)
    (used : ¬ FreeAt k.mm.pmm page)
    (outside : ∀ rdi, op = .sbrk rdi → ¬ InTree k.mm.mem (k.threads k.currentIdx).space page) :
    SamePage k.mm.mem after.mm.mem page := by
  have unchanged : after.mm.mem = k.mm.mem → SamePage k.mm.mem after.mm.mem page := fun same place _ _ => by rw [same]
  cases step_called own allowed done with
  | spawn outcome =>
      cases outcome with
      | noSpace _ => exact unchanged rfl
      | failed _ _ _ _ isBuilt _ => exact isBuilt.keeps page aligned used
      | noStack _ _ _ _ _ isBuilt _ _ _ => exact isBuilt.keeps page aligned used
      | spawned _ _ _ _ _ _ _ _ isBuilt _ _ _ _ shape =>
          rw [shape, growTable_mm]
          exact isBuilt.keeps page aligned used
  | @heap rdi _ _ _ outcome =>
      cases outcome with
      | unchanged _ _ => exact unchanged rfl
      | exhausted _ _ building => exact building.keeps page aligned used (outside rdi rfl)
      | grown _ _ _ _ _ building _ => exact building.keeps page aligned used (outside rdi rfl)
  | create outcome =>
      cases outcome with
      | noSlot _ | noStack _ _ _ _ => exact unchanged rfl
      | created _ _ _ _ _ _ => exact unchanged (by rw [growTable_mm]; rfl)
  | quiet mm _ => exact unchanged (by rw [mm])
  | @reaped tid _ _ _ shape =>
      obtain ⟨_, _, _, memory, _⟩ := freeThread_spec own tid
      exact unchanged (by rw [shape]; exact memory)

theorem step_heaps_kept {op : Op} {ret : Int} (own : Ownership k) (heaps : Heaps k) (allowed : Allowed k op)
    (done : step k op = .ok (ret, after)) (other : ∀ rdi, op ≠ .sbrk rdi) : Heaps after := by
  -- Steps that grow no heap: old threads keep theirs, new ones have none.
  refine heaps.keep own (fun page aligned used => step_pages own allowed done page aligned used
    fun rdi called => absurd called (other rdi)) fun slot user => ?_
  cases step_slot own allowed done slot with
  | kept same => exact .inr ⟨same.isUser.symm.trans user, same.space, same.brk⟩
  | started _ fresh => exact .inl (fresh user)
  | removed _ gone =>
      rw [gone] at user
      cases user
  | grown rdi called _ => exact absurd called (other rdi)

theorem step_heaps (op : Op) (ret : Int) (own : Ownership k) (heaps : Heaps k) (allowed : Allowed k op)
    (done : step k op = .ok (ret, after)) : Heaps after := by
  cases op with
  | sbrk rdi =>
      have space : ∀ slot, (k.threads slot).isUser = true → ownSpace (k.threads slot) = some (k.threads slot).space :=
        fun slot user => by rw [ownSpace, if_pos user]
      obtain ⟨brk, stepped⟩ := sysSbrk_called k rdi own.owned
        (.inr ⟨_, space _ allowed⟩) (own.heap _ allowed) (heaps _ allowed)
      rw [step, Except.ok.injEq] at done
      rw [done] at stepped
      intro slot user
      rw [stepped.threads slot] at user ⊢
      by_cases here : slot = k.currentIdx
      · subst slot
        rw [if_pos rfl]
        exact stepped.mapped
      · rw [if_neg here] at user ⊢
        -- Two threads never share a space.
        intro number low high
        rw [stepped.others _ number (.inr ⟨slot, space slot user⟩) (fun same => here
          (own.spaceApart slot k.currentIdx _ (space slot user) (same ▸ space _ allowed)))
          (heap_number (own.heap slot user) high)]
        exact heaps slot user number low high
  | spawnElf _ _ _ | kthreadCreate _ _ _ | threadExit _ | sysExit _ _ | reap _ | tick _ =>
      exact step_heaps_kept own heaps allowed done fun rdi called => by cases called

end Together

theorem booted_kernel_threads (k : Kernel) (booted : Sched.Booted k) (slot : Nat) :
    (k.threads slot).isUser = false := by
  obtain ⟨_, _, before, _, _, fresh, rfl⟩ := booted
  by_cases boot : slot = 0
  · subst slot
    rfl
  · rw [show (Sched.init before).threads slot = .zeroed from
      (setThread_other before 0 slot _ boot).trans (fresh slot)]
    rfl

theorem run_heaps (start k : Kernel) (booted : Sched.Booted start) (run : Run step Allowed start k) :
    Ownership k ∧ Heaps k := by
  refine run_invariant step Allowed (fun k => Ownership k ∧ Heaps k) ?_ run
    ⟨init_ownership start booted, ?_⟩
  · intro before op ret after kept allowed done
    exact ⟨(step_ownership before op ret after kept.1 allowed done).1,
      step_heaps op ret kept.1 kept.2 allowed done⟩
  · intro slot user
    rw [booted_kernel_threads start booted slot] at user
    cases user

/-- The heap of every user thread over its life: spawned into a kernel with sound tables
from any image that leaves the direct map as the model takes it, and calling `sys_sbrk` as
it likes; and, with images that keep to the low half, in every run of the whole system,
whatever the other threads do. -/
theorem user_heap_invariant :
    (∀ (k spawned after : Kernel) (name : List UInt8) (image : Image) (argv : List (List UInt8)) (tid : Int),
      KernelTables k.mm → ¬ Free k.mm.pmm 0 → ShortArgs argv →
      spawnElf k name image argv = .ok (tid, spawned) → 0 ≤ tid →
      Run step (Alone tid.toNat) spawned after →
      HeapState after.mm (after.threads tid.toNat) ∧
        (after.currentIdx = tid.toNat → ∀ rdi, rdi < 2 ^ 64 →
          HeapCall after rdi (sysSbrk after rdi).1 (sysSbrk after rdi).2)) ∧
    ∀ (start k : Kernel), Sched.Booted start → Run step Allowed start k →
      ∀ slot, (k.threads slot).isUser = true →
        HeapState k.mm (k.threads slot) ∧
          (k.currentIdx = slot → ∀ rdi, rdi < 2 ^ 64 →
            HeapCall k rdi (sysSbrk k rdi).1 (sysSbrk k rdi).2) := by
  constructor
  · intro k spawned after name image argv tid tables zero short done success run
    have owner := run_invariant step _ (HeapOwner tid.toNat) (alone_step tid.toNat) run
      (spawned_heapOwner k spawned name image argv tid tables short done success)
    refine ⟨heapState_of owner.window owner.mapped, ?_⟩
    rintro here rdi word
    rw [← here] at owner
    obtain ⟨live, held, owned, alive⟩ := owner.owned
    obtain ⟨_, stepped⟩ := sysSbrk_called after rdi owned alive owner.window owner.mapped
    exact stepped.call word
  · intro start k booted run slot user
    obtain ⟨own, heaps⟩ := run_heaps start k booted run
    refine ⟨heapState_of (own.heap slot user) (heaps slot user), ?_⟩
    rintro rfl rdi word
    obtain ⟨_, stepped⟩ := sysSbrk_called k rdi own.owned
      (.inr ⟨_, by rw [ownSpace, if_pos user]⟩) (own.heap _ user) (heaps _ user)
    exact stepped.call word

theorem ticked_alone (slot : Nat) (k : Kernel) (count : Nat) :
    Run step (Alone slot) k (ticked k count) := by
  induction count with
  | zero => exact .refl
  | succ count ih => exact ih.tail ⟨.tick .zeroed, 0, trivial, rfl⟩

theorem user_heap_invariant_small :
    ∃ start born after, KernelTables start.mm ∧ ¬ Free start.mm.pmm 0 ∧
      spawnElf start [] (smallImage 0x400000) [] = .ok (1, born) ∧ Run step (Alone 1) born after ∧
      (after.threads 1).brk = userHeapBase + 5000 ∧ HeapState after.mm (after.threads 1) := by
  have booted := bootedKernel_booted _ _ blankMachine_wide
  have levels := blank_oneLevel
  have evaluated : ((spawnElf (bootedKernel (Vmm.init (blankMachine (-2)) (2 ^ 29))) []
      (smallImage 0x400000) []).map fun result => (result.1, (ticked result.2 5).currentIdx,
        ((sysSbrk (ticked result.2 5) 5000).2.threads 1).brk)) =
      .ok (1, 1, userHeapBase + 5000) := by decide +kernel
  generalize Vmm.init (blankMachine (-2)) (2 ^ 29) = mm at booted levels evaluated
  have tables := run_kernelTables (bootedKernel mm) (bootedKernel mm) booted levels .refl
  have zero := (init_ownership _ booted).owned.zero
  obtain ⟨⟨ret, born⟩, shape, values⟩ := (map_ok _ _ _).mp evaluated
  simp only [Prod.mk.injEq] at values
  obtain ⟨rfl, turn, brk⟩ := values
  have waited := ticked_alone 1 born 5
  generalize ticked born 5 = current at turn brk waited
  have run : Run step (Alone 1) born (sysSbrk current 5000).2 :=
    waited.tail ⟨.sbrk 5000, (sysSbrk current 5000).1, turn, rfl⟩
  exact ⟨_, born, _, tables, zero, shape, run, brk, (user_heap_invariant.1 _ born _ [] _ [] 1 tables zero
    (fun bytes member => by cases member) shape (by decide) run).1⟩

end Shizuku.Process
