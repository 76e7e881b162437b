import Shizuku.PageOwnership

/-!
Where the memory of a process goes. A failed spawn gives everything back exactly
when its pages fit, and a process that was spawned, grew its heap, exited and was
reaped leaves the allocator as it found it.
-/

namespace Shizuku.Process

open ByteMemory WordMemory PointerForest Machine Pmm Vmm Elf Sched

def SameFree (before after : Pmm.State) : Prop :=
  SameBitmap before after ∧ after.freePages = before.freePages

theorem sameFree_of_drift {before after : Pmm.State} (kept : drift after = drift before) :
    SameFree before after ↔ ∀ page, Free after page ↔ Free before page := by
  rw [SameFree, sameBitmap_iff]
  exact ⟨And.left, fun same => ⟨same, counters_agree before after same kept⟩⟩

theorem spawnPages_user (image : Image) (low : ∀ va, va ∈ loadVas image → va < 2 ^ 47) (va : Nat)
    (member : va ∈ spawnPages image) : UserPage va := by
  have loaded : va ∈ loadVas image → UserPage va := fun inside =>
    ⟨(loadVas_bounds image va inside).1, low va inside⟩
  rw [spawnPages] at member
  split at member
  · rcases List.mem_append.mp member with inside | stack
    · exact loaded inside
    · exact stackVas_user va stack
  · exact loaded member

theorem Built.sameFree_iff {live held : Set Nat} {mm after : Mm} {space : Nat} {gone : Set Nat}
    (built : Built live held mm space after gone) :
    SameFree mm.pmm (destroySpace after space).pmm ↔ gone = ∅ := by
  obtain ⟨freed, lost, _, counted, _⟩ := built.destroyed
  rw [sameFree_of_drift counted]
  constructor
  · intro same
    ext page
    refine ⟨fun member => lost page member ?_, fun impossible => impossible.elim⟩
    -- A page that had gone was free before the call, and it is not free now.
    have ledger := (built.ledger page).mpr (.inr (.inr member))
    exact (same (page / pageSize)).mpr ledger.1
  · intro nothing page
    rw [freed page, nothing]
    exact ⟨Or.inl, fun either => either.elim id fun impossible => impossible.elim⟩

theorem failed_spawn_iff {k after : Kernel} (own : Ownership k) (name : List UInt8) (image : Image)
    (argv : List (List UInt8)) (short : ShortArgs argv)
    (low : ∀ va, va ∈ loadVas image → va < 2 ^ 47)
    (failed : spawnElf k name image argv = .ok (-1, after)) :
    SameFree k.mm.pmm after.mm.pmm ↔
      freeCount k.mm.pmm = 0 ∨ Fits (freeCount k.mm.pmm - 1) [] (spawnPages image) := by
  have users := spawnPages_user image low
  obtain ⟨result, equal, outcome⟩ := spawnElf_spawned k name image argv own.owned (kernel_live k)
    (fun va member => tableIndex_low va (low va member)) short
  rw [failed, Except.ok.injEq] at equal
  subst result
  have given : ∀ space memory gone, 0 < freeCount k.mm.pmm →
      Built (liveSpaces k) (heldPages k) k.mm space memory gone → FitsExactly k.mm image gone →
      (SameFree k.mm.pmm (destroySpace memory space).pmm ↔
        freeCount k.mm.pmm = 0 ∨ Fits (freeCount k.mm.pmm - 1) [] (spawnPages image)) := by
    intro space memory gone some_ built fits
    rw [built.sameFree_iff, fits users]
    exact ⟨Or.inr, fun either => either.resolve_left (by omega)⟩
  generalize minus : (-1 : Int) = ret at outcome
  cases outcome with
  | noSpace none_ =>
      refine ⟨fun _ => .inl none_, fun _ => ?_⟩
      rw [sameFree_of_drift rfl]
      exact fun page => Iff.rfl
  | failed space memory gone some_ built fits => exact given space memory gone some_ built fits
  | noStack space memory gone slot some_ built fits _ _ =>
      exact given space memory gone some_ built fits
  | spawned space memory gone slot start entry userRsp _ _ _ _ _ _ _ => omega

/-- A failed spawn gives every page back exactly when the free pages, after the one
for the root, run out at a data page or not at all: when a table is missing after
the data page was taken, that page is lost. -/
theorem failed_spawn_conserves_memory_iff (start k : Kernel) (booted : Sched.Booted start)
    (run : Run step Allowed start k) (name : List UInt8) (image : Image)
    (argv : List (List UInt8)) (short : ShortArgs argv)
    (low : ∀ va, va ∈ loadVas image → va < 2 ^ 47) (after : Kernel)
    (failed : spawnElf k name image argv = .ok (-1, after)) :
    (SameBitmap k.mm.pmm after.mm.pmm ∧ after.mm.pmm.freePages = k.mm.pmm.freePages) ↔
      freeCount k.mm.pmm = 0 ∨ Fits (freeCount k.mm.pmm - 1) [] (spawnPages image) :=
  failed_spawn_iff (run_ownership start k booted run).1 name image argv short low failed

instance (pmm : Pmm.State) (page : Nat) : Decidable (Free pmm page) :=
  inferInstanceAs (Decidable (_ ∧ _))

theorem blank_freeCount (word : BitVec 64) (pages : List Nat) (distinct : pages.Nodup)
    (still : ∀ page, page ∈ pages → Free (Vmm.init (blankMachine word) (2 ^ 29)).pmm page)
    (all : ∀ page, page < 64 → word.getLsbD page = true →
      page ∈ pages ∨ ¬ Free (Vmm.init (blankMachine word) (2 ^ 29)).pmm page) :
    freeCount (Vmm.init (blankMachine word) (2 ^ 29)).pmm = pages.length := by
  apply freeCount_list _ pages distinct
  intro page
  refine ⟨fun free => ?_, still page⟩
  obtain ⟨small, set⟩ := blankMachine_free word page (init_free _ _ page free)
  exact (all page small set).resolve_right fun used => used free

theorem failed_spawn_conserves_memory_iff_no_data :
    ∃ start after, Sched.Booted start ∧
      spawnElf start [] (smallImage 0x400000) [] = .ok (-1, after) ∧
      SameBitmap start.mm.pmm after.mm.pmm ∧
      after.mm.pmm.freePages = start.mm.pmm.freePages := by
  have limine := blankMachine_limine 6 (by decide) 1 (by decide) (by decide)
  have booted := bootedKernel_booted _ _ limine
  have count := blank_freeCount 6 [2] (by decide) (by decide +kernel) (by decide +kernel)
  have returned : (spawnElf (bootedKernel (Vmm.init (blankMachine 6) (2 ^ 29))) []
      (smallImage 0x400000) []).map Prod.fst = .ok (-1) := by decide +kernel
  generalize Vmm.init (blankMachine 6) (2 ^ 29) = mm at booted count returned
  obtain ⟨after, done⟩ := ok_of_returned _ _ returned
  have fits : Fits 0 [] (spawnPages (smallImage 0x400000)) := by decide +kernel
  have kept := (failed_spawn_conserves_memory_iff (bootedKernel mm) (bootedKernel mm) booted
    Relation.ReflTransGen.refl [] (smallImage 0x400000) [] (fun bytes member => by cases member)
    (by decide +kernel) after done).mpr (.inr (by rw [bootedKernel_mm, count]; exact fits))
  exact ⟨_, after, booted, done, kept⟩

/-- Two free pages: one becomes the root, one the data page, and none is left for
its tables. The root comes back, the data page does not. -/
theorem table_shortage_leaks_data_page :
    ∃ start after, Sched.Booted start ∧ (loadVas (smallImage 0x400000)).Nodup ∧
      (∀ va, va ∈ loadVas (smallImage 0x400000) → va < 2 ^ 47) ∧
      spawnElf start [] (smallImage 0x400000) [] = .ok (-1, after) ∧
      ¬ (SameBitmap start.mm.pmm after.mm.pmm ∧
        after.mm.pmm.freePages = start.mm.pmm.freePages) := by
  have limine := blankMachine_limine 14 (by decide) 1 (by decide) (by decide)
  have booted := bootedKernel_booted _ _ limine
  have count := blank_freeCount 14 [2, 3] (by decide) (by decide +kernel) (by decide +kernel)
  have returned : (spawnElf (bootedKernel (Vmm.init (blankMachine 14) (2 ^ 29))) []
      (smallImage 0x400000) []).map Prod.fst = .ok (-1) := by decide +kernel
  generalize Vmm.init (blankMachine 14) (2 ^ 29) = mm at booted count returned
  obtain ⟨after, done⟩ := ok_of_returned _ _ returned
  have low : ∀ va, va ∈ loadVas (smallImage 0x400000) → va < 2 ^ 47 := by decide +kernel
  have tooFew : ¬ (2 = 0 ∨ Fits 1 [] (spawnPages (smallImage 0x400000))) := by decide +kernel
  refine ⟨_, after, booted, by decide +kernel, low, done, fun same => tooFew ?_⟩
  have fits := (failed_spawn_iff (init_ownership _ booted) [] (smallImage 0x400000) []
    (fun bytes member => by cases member) low done).mp same
  rw [bootedKernel_mm, count] at fits
  exact fits

/-! ### A whole life -/

structure Tidy (image : Image) : Prop where
  distinct : (loadVas image).Nodup
  low : ∀ va, va ∈ loadVas image → va < 2 ^ 47
  stack : ∀ va, va ∈ loadVas image → va ∉ stackVas
  heap : ∀ va, va ∈ loadVas image → ¬ (userHeapBase ≤ va ∧ va < userHeapBase + userHeapMax)

/-- The process `tid` grows its heap without running out of memory; otherwise only
ticks and exits happen. -/
def Life (tid : Nat) (k : Kernel) : Op → Prop
  | .sbrk rdi => k.currentIdx = tid ∧ (sysSbrk k rdi).1 ≠ toI64 (k.threads tid).brk - 1
  | .threadExit _ => True
  | .sysExit _ _ => True
  | .tick _ => True
  | _ => False

def HeapAbove (mem : Nat → UInt8) (space brk : Nat) : Prop :=
  ∃ placed, Domain mem space placed ∧ placed.Nodup ∧ (∀ va, va ∈ placed → UserPage va) ∧
    ∀ va, va ∈ placed → brk ≤ va → userHeapBase + userHeapMax ≤ va

structure Accounted (before : Pmm.State) (tid space : Nat) (k : Kernel) : Prop where
  own : Ownership k
  mine : ownSpace (k.threads tid) = some space
  ledger : ∀ page, FreeAt before page ∧ Page page ↔ FreeAt k.mm.pmm page ∧ Page page ∨
    InTree k.mm.mem space page ∨ page ∈ ownStack (k.threads tid)
  counter : drift k.mm.pmm = drift before
  heap : HeapAbove k.mm.mem space (k.threads tid).brk

theorem spawnPages_tidy (image : Image) (tidy : Tidy image) :
    (spawnPages image).Nodup ∧
      ∀ va, va ∈ spawnPages image → userHeapBase ≤ va → userHeapBase + userHeapMax ≤ va := by
  have window : ∀ va, va ∈ loadVas image → userHeapBase ≤ va → userHeapBase + userHeapMax ≤ va := by
    intro va member above
    by_contra inside
    exact tidy.heap va member ⟨above, by omega⟩
  rw [spawnPages]
  split
  · refine ⟨List.nodup_append.mpr ⟨tidy.distinct, by decide, fun va first other second same => ?_⟩, ?_⟩
    · exact tidy.stack va first (same ▸ second)
    · intro va member above
      rcases List.mem_append.mp member with loaded | stack
      · exact window va loaded above
      · have beyond : ∀ va ∈ stackVas, userHeapBase + userHeapMax ≤ va := by decide
        exact beyond va stack
  · exact ⟨tidy.distinct, window⟩

theorem spawned_accounted {k final : Kernel} (own : Ownership k) (name : List UInt8) (image : Image)
    (tidy : Tidy image) (tid : Nat)
    (outcome : Spawned (liveSpaces k) (heldPages k) k name image ((tid : Int), final)) :
    ∃ space, Accounted k.mm.pmm tid space final := by
  have kept := (spawned_ownership own name image tid final outcome).1
  generalize ret : (tid : Int) = result at outcome
  cases outcome with
  | noSpace _ => omega
  | failed => omega
  | noStack => omega
  | spawned space after gone slot start entry userRsp _ built success found nonzero run shape =>
      have here : tid = slot := by omega
      subst slot
      have users := spawnPages_user image tidy.low
      obtain ⟨distinct, away⟩ := spawnPages_tidy image tidy
      obtain ⟨domain, nothing⟩ := success users
      have thread : final.threads tid = processThread { k with mm := after } tid name entry userRsp
          space (start * pageSize) := by rw [shape, growTable_threads, setThread_same]
      have memory : final.mm = { after with
          pmm := takeAll after.pmm ((List.range 4).map (start + ·)) } := by
        rw [shape, growTable_mm]
        rfl
      have free := run_free after.pmm start 4 run
      have stack : ownStack (final.threads tid) = stackPages (start * pageSize) := by
        rw [thread]
        exact if_neg (run_nonzero start nonzero)
      refine ⟨space, kept, by rw [thread]; rfl, fun page => ?_, ?_, ?_⟩
      · rw [built.ledger page, nothing distinct, memory, stack, mem_stackPages, FreeAt, FreeAt,
          free_takeAll]
        constructor
        · rintro (⟨still, isPage⟩ | inside | impossible)
          · by_cases taken : page / pageSize ∈ (List.range 4).map (start + ·)
            · exact .inr (.inr ⟨page / pageSize, taken, isPage.number.symm⟩)
            · exact .inl ⟨⟨still, taken⟩, isPage⟩
          · exact .inr (.inl inside)
          · exact impossible.elim
        · rintro (⟨⟨still, _⟩, isPage⟩ | inside | ⟨number, listed, rfl⟩)
          · exact .inl ⟨still, isPage⟩
          · exact .inr (.inl inside)
          · rw [Nat.mul_div_cancel number (by decide)]
            exact .inl ⟨free number listed, free_page built.owned number (free number listed)⟩
      · rw [memory]
        exact (takeAll_counters after.pmm _ (run_nodup start 4) free).2.trans built.counter
      · rw [memory, thread]
        refine ⟨(spawnPages image).reverse, domain, List.nodup_reverse.mpr distinct,
          fun va member => users va (List.mem_reverse.mp member), fun va member above => ?_⟩
        exact away va (List.mem_reverse.mp member) above

theorem Accounted.same_holdings {before : Pmm.State} {tid space : Nat} {k after : Kernel}
    (accounted : Accounted before tid space k) (mm : after.mm = k.mm)
    (same : ∀ slot, SameHolding (k.threads slot) (after.threads slot)) :
    Accounted before tid space after := by
  have thread := same tid
  refine ⟨accounted.own.same_holdings mm same, ?_, fun page => ?_, ?_, ?_⟩
  · rw [thread.ownSpace]
    exact accounted.mine
  · rw [mm, thread.ownStack]
    exact accounted.ledger page
  · rw [mm]
    exact accounted.counter
  · rw [mm, thread.brk]
    exact accounted.heap

theorem heapPages_nodup (old new : Nat) : (heapPages old new).Nodup := by
  apply List.nodup_range.map_on
  intro first _ second _ same
  simp only [pageSize] at same
  omega

theorem sysSbrk_accounted {before : Pmm.State} {tid space : Nat} {k : Kernel}
    (accounted : Accounted before tid space k) (rdi : Nat) (current : k.currentIdx = tid)
    (enough : (sysSbrk k rdi).1 ≠ toI64 (k.threads tid).brk - 1) :
    Accounted before tid space (sysSbrk k rdi).2 := by
  subst tid
  have user : (k.threads k.currentIdx).isUser = true := by
    by_contra kernel
    have mine := accounted.mine
    rw [ownSpace, if_neg kernel] at mine
    cases mine
  have root : (k.threads k.currentIdx).space = space := by
    have mine := accounted.mine
    rw [ownSpace, if_pos user, Option.some.injEq] at mine
    exact mine
  have kept := (sysSbrk_ownership accounted.own rdi user).1
  have outcome := sysSbrk_grown accounted.own rdi user
  obtain ⟨_, most⟩ := accounted.own.heap k.currentIdx user
  generalize sysSbrk k rdi = result at enough kept outcome
  cases outcome with
  | unchanged ret _ => exact accounted
  | exhausted after gone _ => exact absurd rfl enough
  | grown new after gone above below building account =>
      rw [root] at building account
      have bounds := fun va => heapPages_bounds (k.threads k.currentIdx).brk new va most below
      obtain ⟨placed, domain, distinct, users, beyond⟩ := accounted.heap
      obtain ⟨grown, nothing⟩ := account placed domain fun va member => by
        rcases List.mem_append.mp member with fresh | old
        · exact (bounds va fresh).1
        · exact users va old
      -- The pages below the new break were not mapped, so no frame is lost.
      have fresh : ((heapPages (k.threads k.currentIdx).brk new).reverse ++ placed).Nodup := by
        refine List.nodup_append.mpr ⟨List.nodup_reverse.mpr (heapPages_nodup _ _), distinct, ?_⟩
        rintro va first _ second rfl
        obtain ⟨_, low, high⟩ := bounds va (List.mem_reverse.mp first)
        have far := beyond va second low
        omega
      have gone_empty := nothing fresh
      subst gone
      refine ⟨kept, ?_, fun page => ?_, building.counter.trans accounted.counter, ?_⟩
      · rw [setThread_same]
        exact accounted.mine
      · have now := building.ledger page
        have then_ := accounted.ledger page
        rw [setThread_same]
        change _ ↔ FreeAt after.pmm page ∧ Page page ∨ InTree after.mem space page ∨
          page ∈ ownStack (k.threads k.currentIdx)
        rw [then_, ← or_assoc, now, ← or_assoc]
        simp only [Set.mem_empty_iff_false, or_false, or_assoc]
      · rw [setThread_same]
        refine ⟨_, grown, fresh, fun va member => ?_, fun va member high => ?_⟩
        · rcases List.mem_append.mp member with new | old
          · exact (bounds va (List.mem_reverse.mp new)).1
          · exact users va old
        · rcases List.mem_append.mp member with new | old
          · have low := (bounds va (List.mem_reverse.mp new)).2.2
            exact absurd high (by simpa using low)
          · exact beyond va old (above.trans high)

theorem life_step_accounted {before : Pmm.State} {tid space : Nat} (k : Kernel) (op : Op) (ret : Int)
    (after : Kernel) (accounted : Accounted before tid space k) (allowed : Life tid k op)
    (done : step k op = .ok (ret, after)) : Accounted before tid space after := by
  cases op with
  | sbrk rdi =>
      have kept := sysSbrk_accounted accounted rdi allowed.1 allowed.2
      rw [step, Except.ok.injEq] at done
      rw [done] at kept
      exact kept
  | threadExit _ | sysExit _ _ | tick _ =>
      obtain ⟨mm, same⟩ := idle_step (by trivial) done
      exact accounted.same_holdings mm same
  | spawnElf name image argv => exact allowed.elim
  | kthreadCreate name f arg => exact allowed.elim
  | reap tid => exact allowed.elim

theorem reaped_sameFree {before : Pmm.State} {tid space : Nat} {k after : Kernel}
    (pages : ∀ number, Free before number → Page (number * pageSize))
    (accounted : Accounted before tid space k)
    (zombie : (k.threads tid).state = .zombie) (done : schedReap k tid = .ok after) :
    SameFree before after.mm.pmm ∧ (after.threads tid).state = .unused := by
  rcases schedReap_cases k after tid done with ⟨_, alive, _⟩ | ⟨_, _, rfl⟩
  · exact absurd zombie alive
  · obtain ⟨freed, _, counted, _, owned⟩ := freeThread_spec accounted.own tid
    refine ⟨?_, by rw [setThread_same]; rfl⟩
    change SameFree before (freeThread k.mm (k.threads tid)).pmm
    rw [sameFree_of_drift (counted.trans accounted.counter)]
    intro number
    have ledger := accounted.ledger (number * pageSize)
    rw [FreeAt, FreeAt, Nat.mul_div_cancel number (by decide)] at ledger
    rw [freed number, accounted.mine]
    constructor
    · rintro (still | ⟨_, same, inside⟩ | stack)
      · exact (ledger.mpr (.inl ⟨still, free_page accounted.own.owned number still⟩)).1
      · rw [Option.some.injEq] at same
        exact (ledger.mpr (.inr (.inl (same ▸ inside)))).1
      · exact (ledger.mpr (.inr (.inr stack))).1
    · intro free
      rcases ledger.mp ⟨free, pages number free⟩ with ⟨still, _⟩ | inside | stack
      · exact .inl still
      · exact .inr (.inl ⟨space, rfl, inside⟩)
      · exact .inr (.inr stack)

/-- Spawned, grown without running out of memory, exited and reaped: the allocator
is as it was before, and the slot is free again. -/
theorem process_lifetime_conserves_memory (start k : Kernel) (booted : Sched.Booted start)
    (run : Run step Allowed start k) (name : List UInt8) (image : Image)
    (argv : List (List UInt8)) (tidy : Tidy image) (short : ShortArgs argv) (tid : Nat)
    (born : Kernel) (spawned : spawnElf k name image argv = .ok ((tid : Int), born))
    (dead : Kernel) (life : Run step (Life tid) born dead)
    (exited : (dead.threads tid).state = .zombie) (after : Kernel)
    (reaped : schedReap dead tid = .ok after) :
    SameBitmap k.mm.pmm after.mm.pmm ∧ after.mm.pmm.freePages = k.mm.pmm.freePages ∧
      (after.threads tid).state = .unused := by
  have own := (run_ownership start k booted run).1
  obtain ⟨result, equal, outcome⟩ := spawnElf_spawned k name image argv own.owned (kernel_live k)
    (fun va member => tableIndex_low va (tidy.low va member)) short
  rw [spawned, Except.ok.injEq] at equal
  subst result
  obtain ⟨space, accounted⟩ := spawned_accounted own name image tidy tid outcome
  have last := run_invariant step (Life tid) (Accounted k.mm.pmm tid space) life_step_accounted life
    accounted
  obtain ⟨same, unused⟩ := reaped_sameFree
    (fun number free => free_page own.owned number free) last exited reaped
  exact ⟨same.1, same.2, unused⟩

def ticked (k : Kernel) : Nat → Kernel
  | 0 => k
  | count + 1 => (schedTick (ticked k count) .zeroed).2

theorem ticked_life (tid : Nat) (k : Kernel) (count : Nat) :
    Run step (Life tid) k (ticked k count) := by
  induction count with
  | zero => exact .refl
  | succ count ih => exact ih.tail ⟨.tick .zeroed, 0, trivial, rfl⟩

theorem smallImage_tidy : Tidy (smallImage 0x400000) := by
  constructor <;> decide +kernel

theorem process_lifetime_conserves_memory_small :
    ∃ start born dead after, Sched.Booted start ∧
      spawnElf start [] (smallImage 0x400000) [] = .ok (1, born) ∧
      Run step (Life 1) born dead ∧ schedReap dead 1 = .ok after ∧
      SameBitmap start.mm.pmm after.mm.pmm ∧
      after.mm.pmm.freePages = start.mm.pmm.freePages ∧ (after.threads 1).state = .unused := by
  have limine := blankMachine_wide
  have booted := bootedKernel_booted _ _ limine
  have evaluated : ((spawnElf (bootedKernel (Vmm.init (blankMachine (-2)) (2 ^ 29))) []
      (smallImage 0x400000) []).map fun result => (result.1, (ticked result.2 5).currentIdx,
        decide ((sysSbrk (ticked result.2 5) 4096).1 ≠ toI64 ((ticked result.2 5).threads 1).brk - 1),
        ((sysExit (sysSbrk (ticked result.2 5) 4096).2 0 .zeroed).2.threads 1).state)) =
      .ok (1, 1, true, .zombie) := by decide +kernel
  generalize Vmm.init (blankMachine (-2)) (2 ^ 29) = mm at booted evaluated
  cases shape : spawnElf (bootedKernel mm) [] (smallImage 0x400000) [] with
  | error panic =>
      rw [shape] at evaluated
      cases evaluated
  | ok result =>
      obtain ⟨ret, born⟩ := result
      rw [shape] at evaluated
      simp only [Except.map, Except.ok.injEq, Prod.mk.injEq, decide_eq_true_eq] at evaluated
      obtain ⟨rfl, turn, enough, zombie⟩ := evaluated
      have waited := ticked_life 1 born 5
      generalize ticked born 5 = current at turn enough zombie waited
      have life : Run step (Life 1) born (sysExit (sysSbrk current 4096).2 0 .zeroed).2 :=
        (waited.tail ⟨.sbrk 4096, (sysSbrk current 4096).1, ⟨turn, enough⟩, rfl⟩).tail
          ⟨.sysExit 0 .zeroed, 0, trivial, rfl⟩
      generalize (sysExit (sysSbrk current 4096).2 0 .zeroed).2 = dead at zombie life
      have reaped : schedReap dead 1 =
          .ok ({ dead with mm := freeThread dead.mm (dead.threads 1) }.setThread 1 .zeroed) := by
        simp [schedReap, index, schedMaxThreads, zombie]
      exact ⟨_, born, dead, _, booted, shape, life, reaped,
        process_lifetime_conserves_memory _ _ booted .refl [] _ [] smallImage_tidy
          (fun bytes member => by cases member) 1 born shape dead life zombie _ reaped⟩

end Shizuku.Process
