import Shizuku.ElfReads
import Shizuku.Malloc

/-!
The calls of `vmm::map` that a process causes, by the ELF loader, by the stack loop of
`spawn_elf` and by `sys_sbrk`. `map` overwrites whatever entry it finds. Which calls
find the page unmapped is told from the number of free pages and the addresses alone.
-/

namespace Shizuku.Process

open ByteMemory WordMemory PointerForest Machine Pmm Vmm Elf Sched

def MapCall.Fresh (space : Nat) (call : MapCall) : Prop := leafEntry call.mm.mem space call.va = none

instance (space : Nat) (call : MapCall) : Decidable (call.Fresh space) :=
  inferInstanceAs (Decidable (leafEntry call.mm.mem space call.va = none))

def AllFresh (space : Nat) (calls : List MapCall) : Prop := ∀ call, call ∈ calls → call.Fresh space

instance (space : Nat) (calls : List MapCall) : Decidable (AllFresh space calls) :=
  inferInstanceAs (Decidable (∀ call, call ∈ calls → call.Fresh space))

def mapDataPageCalls (mm : Mm) (va : Nat) : List MapCall :=
  let (pa, pmm) := allocPage mm.pmm
  if pa = 0 then [] else [⟨{ mm with pmm := pmm }, va⟩]

def loadSegmentCalls (space : Nat) (image : Image) (mm : Mm) (ph : Phdr) : List MapCall :=
  if ph.pType ≠ ptLoad ∨ ph.pMemsz = 0 then []
  else traceOf (loadPage space image ph) mapSegmentPageCalls mm (segmentPages ph)

def elfLoadCalls (mm : Mm) (space : Nat) (image : Image) : List MapCall :=
  if headerOk image then
    traceOf (loadSegment space image) (loadSegmentCalls space image) mm
      ((List.range (ePhnum image)).map (phdr image))
  else []

def buildUserCalls (mm : Mm) (space : Nat) (image : Image) : List MapCall :=
  elfLoadCalls mm space image ++ match elfLoad mm space image with
    | (entry, mm) =>
        if entry = 0 then [] else traceOf (mapDataPage space) mapDataPageCalls mm stackVas

def sysSbrkCalls (k : Kernel) (rdi : Nat) : List MapCall :=
  traceOf (mapDataPage (k.threads k.currentIdx).space) mapDataPageCalls k.mm (newPages k rdi)

abbrev Traced : Type := Item × (Mm → List MapCall)

def tracedCalls (mm : Mm) (items : List Traced) : List MapCall :=
  traceOf (fun mm item => item.1.2 mm) (fun mm item => item.2 mm) mm items

theorem tracedCalls_append (mm : Mm) (first second : List Traced) :
    tracedCalls mm (first ++ second) = tracedCalls mm first ++
      match runItems mm (first.map Prod.fst) with
      | (false, _) => []
      | (true, after) => tracedCalls after second := by
  induction first generalizing mm with
  | nil => rfl
  | cons item rest ih =>
      simp only [tracedCalls, runItems, List.cons_append, List.map_cons, traceOf, forEach]
      cases item.1.2 mm with
      | mk ok after =>
          cases ok with
          | false => simp
          | true =>
              rw [List.append_assoc]
              exact congrArg _ (ih after)

theorem traceOf_flat {Outer : Type} (body : Mm → Outer → Bool × Mm) (calls : Mm → Outer → List MapCall)
    (items : Outer → List Traced) (same : ∀ mm outer, body mm outer = runItems mm ((items outer).map Prod.fst))
    (asked : ∀ mm outer, calls mm outer = tracedCalls mm (items outer)) (mm : Mm) (outers : List Outer) :
    traceOf body calls mm outers = tracedCalls mm (outers.flatMap items) := by
  induction outers generalizing mm with
  | nil => rfl
  | cons outer rest ih =>
      rw [List.flatMap_cons, tracedCalls_append, traceOf, same, asked]
      cases runItems mm ((items outer).map Prod.fst) with
      | mk ok after =>
          cases ok with
          | false => rfl
          | true => exact congrArg _ (ih after)

theorem traceOf_pages (body : Mm → Nat → Bool × Mm) (calls : Mm → Nat → List MapCall) (mm : Mm)
    (vas : List Nat) :
    traceOf body calls mm vas =
      tracedCalls mm (vas.map fun va => ((va, fun mm => body mm va), fun mm => calls mm va)) := by
  induction vas generalizing mm with
  | nil => rfl
  | cons va rest ih =>
      simp only [tracedCalls, List.map_cons, traceOf]
      cases body mm va with
      | mk ok after =>
          cases ok with
          | false => rfl
          | true => exact congrArg _ (ih after)

/-- With `free` pages and the pages in `placed` mapped, the loop over the rest meets no
mapped page until memory runs out: for want of a frame, or of a table. -/
def Apart : Nat → List Nat → List Nat → Prop
  | _, _, [] => True
  | free, placed, va :: rest =>
      -- Without a frame nothing is called; without a table the call fails and is the last one.
      free = 0 ∨ (va ∉ placed ∧ (free < 1 + tablesNeeded placed va ∨
        Apart (free - (1 + tablesNeeded placed va)) (va :: placed) rest))

theorem apart_of_distinct {placed vas : List Nat} (free : Nat) (distinct : vas.Nodup)
    (fresh : ∀ va, va ∈ vas → va ∉ placed) : Apart free placed vas := by
  induction vas generalizing free placed with
  | nil => trivial
  | cons va rest ih =>
      obtain ⟨once, others⟩ := List.nodup_cons.mp distinct
      refine .inr ⟨fresh va List.mem_cons_self, .inr (ih _ others fun other member => ?_)⟩
      rintro (_ | ⟨_, old⟩)
      · exact once member
      · exact fresh other (List.mem_cons_of_mem _ member) old

section Loops
variable {live held lost : Set Nat} {space : Nat} {base mm : Mm}

def Asks (live held : Set Nat) (space : Nat) (base : Mm) (item : Traced) : Prop :=
  ∀ mm lost, Building live held space base mm lost →
    freeCount mm.pmm = 0 ∧ item.2 mm = [] ∨
      0 < freeCount mm.pmm ∧ ∃ call, item.2 mm = [call] ∧
        (call.Fresh space ↔ view mm.mem space (full item.1.1) = none)

theorem leafEntry_none (mem : Nat → UInt8) (space va : Nat) :
    leafEntry mem space va = none ↔ view mem space (full va) = none := by
  rw [← leafEntry_view, Option.map_eq_none_iff]

theorem mapDataPage_asks (building : Building live held space base mm lost) (va : Nat) :
    freeCount mm.pmm = 0 ∧ mapDataPageCalls mm va = [] ∨
      0 < freeCount mm.pmm ∧ ∃ call, mapDataPageCalls mm va = [call] ∧
        (call.Fresh space ↔ view mm.mem space (full va) = none) := by
  rcases building.alloc with ⟨nothing, none_⟩ | ⟨pa, pmm, taken, page, fresh, count, flying⟩
  · exact .inl ⟨none_, by simp [mapDataPageCalls, nothing]⟩
  · refine .inr ⟨by omega, ⟨{ mm with pmm := pmm }, va⟩, ?_, leafEntry_none mm.mem space va⟩
    simp only [mapDataPageCalls, taken, page.nonzero, if_false]

theorem mapSegmentPage_asks (building : Building live held space base mm lost) (va : Nat)
    (half : tableIndex va 4 < 256) :
    freeCount mm.pmm = 0 ∧ mapSegmentPageCalls mm va = [] ∨
      0 < freeCount mm.pmm ∧ ∃ call, mapSegmentPageCalls mm va = [call] ∧
        (call.Fresh space ↔ view mm.mem space (full va) = none) := by
  -- The frame is cleared before it is mapped; it is no table yet.
  rcases building.alloc with ⟨nothing, none_⟩ | ⟨pa, pmm, taken, page, fresh, count, flying⟩
  · exact .inl ⟨none_, by simp [mapSegmentPageCalls, nothing]⟩
  · obtain ⟨_, views⟩ := flying.scribble pa (fill mm.mem pa pageSize 0)
      (.inl (Set.mem_insert _ _)) fun place outside => fill_outside mm.mem pa pageSize 0 place outside
    have same := views space (full va) ⟨building.alive, low_full va half⟩
    refine .inr ⟨by omega, ⟨zeroTable { mm with pmm := pmm } pa, va⟩, ?_, ?_⟩
    · simp only [mapSegmentPageCalls, taken, page.nonzero, if_false]
    · rw [MapCall.Fresh, leafEntry_none, ← same]
      rfl

theorem tracedCalls_fresh (items : List Traced)
    (places : ∀ item, item ∈ items → Places live held space base item.1)
    (asks : ∀ item, item ∈ items → Asks live held space base item)
    (building : Building live held space base mm lost) (placed : List Nat)
    (domain : Domain mm.mem space placed)
    (users : ∀ va, va ∈ items.map (fun item => item.1.1) ++ placed → UserPage va) :
    (AllFresh space (tracedCalls mm items) ↔
        Apart (freeCount mm.pmm) placed (items.map fun item => item.1.1)) ∧
      ((runItems mm (items.map Prod.fst)).1 = true →
        Apart (freeCount mm.pmm) placed (items.map fun item => item.1.1) →
        (items.map fun item => item.1.1).Nodup ∧ ∀ va, va ∈ items.map (fun item => item.1.1) → va ∉ placed) := by
  induction items generalizing mm lost placed with
  | nil => simp [tracedCalls, traceOf, AllFresh, Apart]
  | cons item rest ih =>
      have asked := asks item List.mem_cons_self mm lost building
      have round := places item List.mem_cons_self mm lost building
      have placedUsers := fun other (member : other ∈ placed) => users other (by simp [member])
      have user := users item.1.1 (by simp)
      have needed := domain.missing placedUsers user
      have unmapped := domain.unmapped placedUsers user
      simp only [tracedCalls, runItems, List.map_cons, traceOf, forEach, Apart]
      generalize item.1.2 mm = result at round
      cases round with
      | exhausted none_ =>
          -- No frame: the loop ends before the call.
          obtain ⟨_, no_calls⟩ | ⟨some_, _⟩ := asked
          · rw [no_calls]
            exact ⟨by simp [AllFresh, none_], fun impossible => by cases impossible⟩
          · omega
      | leaked pa after some_ short fresh flying =>
          -- No table: the call was made and failed, and the loop ends.
          obtain ⟨none_, _⟩ | ⟨_, call, one_call, free⟩ := asked
          · omega
          · rw [one_call]
            refine ⟨?_, fun impossible => by cases impossible⟩
            have little : freeCount mm.pmm < 1 + tablesNeeded placed item.1.1 := by omega
            have positive : freeCount mm.pmm ≠ 0 := by omega
            simp [AllFresh, free, unmapped, little, positive]
      | placed after spent flying grown =>
          obtain ⟨none_, _⟩ | ⟨_, call, one_call, free⟩ := asked
          · omega
          · obtain ⟨same, distinct⟩ := ih (fun item member => places item (List.mem_cons_of_mem _ member))
              (fun item member => asks item (List.mem_cons_of_mem _ member)) flying (item.1.1 :: placed)
              (domain.snoc item.1.1 grown) (by
                intro other member
                refine users other ?_
                rw [List.map_cons, List.cons_append, ← List.perm_middle.mem_iff]
                exact member)
            have enough : ¬ freeCount mm.pmm < 1 + tablesNeeded placed item.1.1 := by omega
            have positive : freeCount mm.pmm ≠ 0 := by omega
            have left : freeCount after.pmm = freeCount mm.pmm - (1 + tablesNeeded placed item.1.1) := by omega
            rw [left] at same distinct
            rw [one_call]
            refine ⟨?_, fun ok apart => ?_⟩
            · have split : AllFresh space ([call] ++ tracedCalls after rest) ↔
                  call.Fresh space ∧ AllFresh space (tracedCalls after rest) := by
                simp [AllFresh]
              change AllFresh space ([call] ++ tracedCalls after rest) ↔ _
              rw [split, same, free, unmapped]
              simp only [enough, positive, false_or]
            · rcases apart with none_ | ⟨fresh, little | later⟩
              · omega
              · omega
              · obtain ⟨once, others⟩ := distinct ok later
                refine ⟨List.nodup_cons.mpr ⟨fun again => others _ again List.mem_cons_self, once⟩, ?_⟩
                rintro va (_ | ⟨_, member⟩)
                · exact fresh
                · exact fun old => others va member (List.mem_cons_of_mem _ old)

end Loops

def headerTraced (space : Nat) (image : Image) (ph : Phdr) : List Traced :=
  (headerPages ph).map fun va => ((va, fun mm => loadPage space image ph mm va), fun mm => mapSegmentPageCalls mm va)

def imageTraced (space : Nat) (image : Image) : List Traced :=
  (phdrs image).flatMap (headerTraced space image)

def dataTraced (space : Nat) (vas : List Nat) : List Traced :=
  vas.map fun va => ((va, fun mm => mapDataPage space mm va), fun mm => mapDataPageCalls mm va)

theorem imageTraced_items (space : Nat) (image : Image) :
    (imageTraced space image).map Prod.fst = imageItems space image := by
  rw [imageTraced, List.map_flatMap, imageItems]
  congr 1
  funext ph
  simp [headerTraced, headerItems, Function.comp_def]

theorem dataTraced_items (space : Nat) (vas : List Nat) :
    (dataTraced space vas).map Prod.fst = vas.map fun va => (va, fun mm => mapDataPage space mm va) := by
  simp [dataTraced, Function.comp_def]

theorem imageTraced_pages (space : Nat) (image : Image) (valid : headerOk image = true) :
    (imageTraced space image).map (fun item => item.1.1) = loadVas image := by
  rw [← imageItems_pages space image valid, ← imageTraced_items, List.map_map]
  rfl

theorem dataTraced_pages (space : Nat) (vas : List Nat) :
    (dataTraced space vas).map (fun item => item.1.1) = vas := by
  simp [dataTraced, Function.comp_def]

theorem elfLoadCalls_traced (mm : Mm) (space : Nat) (image : Image) (valid : headerOk image = true) :
    elfLoadCalls mm space image = tracedCalls mm (imageTraced space image) := by
  rw [elfLoadCalls, if_pos valid]
  refine traceOf_flat _ _ (headerTraced space image) (fun mm ph => ?_) (fun mm ph => ?_) mm _
  · have items : (headerTraced space image ph).map Prod.fst = headerItems space image ph := by
      simp [headerTraced, headerItems, Function.comp_def]
    rw [items, loadSegment, headerItems, headerPages]
    split
    · rfl
    · exact forEach_pages _ _ _
  · rw [loadSegmentCalls, headerTraced, headerPages]
    split
    · rfl
    · exact traceOf_pages _ _ _ _

section Spawning
variable {live held lost : Set Nat} {space : Nat} {base mm : Mm}

theorem dataTraced_asks {vas : List Nat} (users : ∀ va, va ∈ vas → UserPage va) (item : Traced)
    (member : item ∈ dataTraced space vas) :
    Places live held space base item.1 ∧ Asks live held space base item := by
  obtain ⟨va, page, rfl⟩ := List.mem_map.mp member
  refine ⟨fun mm lost building => ?_, fun mm lost building => ?_⟩
  · dsimp only
    exact mapDataPage_placed building va (users va page).half
  · dsimp only
    exact mapDataPage_asks building va

theorem imageTraced_asks {image : Image} (valid : headerOk image = true) (low : LowImage image) (item : Traced)
    (member : item ∈ imageTraced space image) :
    Places live held space base item.1 ∧ Asks live held space base item := by
  refine ⟨imageItems_places image valid low item.1 ?_, fun mm lost building => ?_⟩
  · rw [← imageTraced_items]
    exact List.mem_map.mpr ⟨item, member, rfl⟩
  · have page : item.1.1 ∈ loadVas image := by
      rw [← imageTraced_pages space image valid]
      exact List.mem_map.mpr ⟨item, member, rfl⟩
    obtain ⟨ph, _, inside⟩ := List.mem_flatMap.mp member
    obtain ⟨va, _, rfl⟩ := List.mem_map.mp inside
    dsimp only at page ⊢
    exact mapSegmentPage_asks building va (low va page)

def spawnTraced (space : Nat) (image : Image) : List Traced :=
  if headerOk image then
    if eEntry image = 0 then imageTraced space image else imageTraced space image ++ dataTraced space stackVas
  else []

theorem spawnTraced_pages (space : Nat) (image : Image) :
    (spawnTraced space image).map (fun item => item.1.1) = spawnPages image := by
  rw [spawnTraced, spawnPages]
  by_cases valid : headerOk image = true
  · by_cases entry : eEntry image = 0
    · simp only [valid, entry, if_true, ne_eq, not_true_eq_false, and_false, if_false]
      exact imageTraced_pages space image valid
    · simp only [valid, entry, if_true, ne_eq, not_false_eq_true, and_true, if_false, List.map_append]
      rw [imageTraced_pages space image valid, dataTraced_pages]
  · simp [valid, loadVas]

theorem spawnTraced_asks {image : Image} (low : LowImage image) (item : Traced)
    (member : item ∈ spawnTraced space image) :
    Places live held space base item.1 ∧ Asks live held space base item := by
  rw [spawnTraced] at member
  split at member
  · rename_i valid
    split at member
    · exact imageTraced_asks valid low item member
    · rcases List.mem_append.mp member with loaded | stacked
      · exact imageTraced_asks valid low item loaded
      · exact dataTraced_asks stackVas_user item stacked
  · cases member

theorem buildUserCalls_traced (mm : Mm) (space : Nat) (image : Image) :
    buildUserCalls mm space image = tracedCalls mm (spawnTraced space image) := by
  rw [spawnTraced, buildUserCalls]
  by_cases valid : headerOk image = true
  · rw [if_pos valid, elfLoadCalls_traced mm space image valid, elfLoad_items mm space image valid]
    by_cases entry : eEntry image = 0
    · -- The loader reports the entry address 0, which counts as a failure.
      rw [if_pos entry]
      rcases runItems mm (imageItems space image) with ⟨_ | _, after⟩ <;> simp [entry]
    · rw [if_neg entry, tracedCalls_append, imageTraced_items]
      rcases runItems mm (imageItems space image) with ⟨_ | _, after⟩
      · rfl
      · simp only [entry, if_false]
        rw [traceOf_pages, dataTraced]
  · rw [if_neg valid, elfLoadCalls, if_neg valid, elfLoad, if_neg valid]
    rfl

theorem spawnTraced_done {image : Image} {argv : List (List UInt8)}
    (success : (buildUser mm space image argv).1 ≠ none) :
    (runItems mm ((spawnTraced space image).map Prod.fst)).1 = true := by
  cases shape : buildUser mm space image argv with
  | mk result after =>
      rw [shape] at success
      obtain ⟨⟨entry, rsp⟩, rfl⟩ := Option.ne_none_iff_exists'.mp success
      obtain ⟨valid, nonzero, loaded, stacked, loading, stacking, _⟩ := buildUser_some shape
      rw [forEach_pages] at stacking
      rw [spawnTraced, if_pos valid, if_neg nonzero, List.map_append, imageTraced_items, dataTraced_items,
        runItems_append, loading]
      dsimp only
      rw [stacking]

theorem buildUserCalls_fresh (image : Image) (argv : List (List UInt8))
    (building : Building live held space base mm lost) (placed : List Nat)
    (domain : Domain mm.mem space placed) (low : LowImage image)
    (users : ∀ va, va ∈ spawnPages image ++ placed → UserPage va) :
    (AllFresh space (buildUserCalls mm space image) ↔ Apart (freeCount mm.pmm) placed (spawnPages image)) ∧
      ((buildUser mm space image argv).1 ≠ none → Apart (freeCount mm.pmm) placed (spawnPages image) →
        (spawnPages image).Nodup) := by
  have asks := @spawnTraced_asks live held space base image low
  rw [← spawnTraced_pages space image] at users
  obtain ⟨same, distinct⟩ := tracedCalls_fresh (spawnTraced space image) (fun item member => (asks item member).1)
    (fun item member => (asks item member).2) building placed domain users
  rw [spawnTraced_pages] at same distinct
  rw [buildUserCalls_traced]
  exact ⟨same, fun success apart => (distinct (spawnTraced_done success) apart).1⟩

end Spawning

def mappedPages (image : Image) (brk : Nat) : List Nat := heapPages userHeapBase brk ++ spawnPages image

theorem Domain.same_pages {mem : Nat → UInt8} {space : Nat} {placed other : List Nat}
    (domain : Domain mem space placed) (same : ∀ va, va ∈ other ↔ va ∈ placed) : Domain mem space other := by
  intro path low
  rw [domain path low]
  simp only [same]

theorem pageUp_mono {first second : Nat} (order : first ≤ second) : pageUp first ≤ pageUp second := by
  simp only [pageUp, pageDown, pageSize]
  omega

theorem heapPages_split {old new : Nat} (window : HeapWindow old) (order : old ≤ new) (va : Nat) :
    va ∈ heapPages userHeapBase new ↔ va ∈ heapPages old new ∨ va ∈ heapPages userHeapBase old := by
  have start : HeapWindow userHeapBase := ⟨le_rfl, Nat.le_add_right _ _⟩
  have higher := pageUp_mono order
  have lower := pageUp_mono window.1
  rw [mem_heapPages start, mem_heapPages window, mem_heapPages start]
  omega

section Heap
variable {live held : Set Nat} {space : Nat} {mm after : Mm}

theorem mapDataPage_drained (owned : Owned mm live held) (alive : space ∈ live) {va : Nat}
    (half : tableIndex va 4 < 256) (failed : mapDataPage space mm va = (false, after)) :
    freeCount after.pmm = 0 := by
  -- A page loop that fails has used up the memory.
  rw [mapDataPage] at failed
  rcases (Building.refl owned alive).alloc with ⟨nothing, none_⟩ |
    ⟨pa, pmm, taken, page, fresh, count, flying⟩
  · rw [nothing] at failed
    simp only [if_true, Prod.mk.injEq, true_and] at failed
    rw [← failed]
    exact none_
  · simp only [taken, page.nonzero, if_false] at failed
    obtain ⟨walked, _, _, outcome⟩ := map_cases flying va pa dataFlags half (page.leafArgs (by decide) (by decide))
    rcases outcome with ⟨shape, _, drained⟩ | ⟨last, shape, _⟩
    · rw [shape] at failed
      simp only [Prod.mk.injEq, true_and] at failed
      rw [← failed]
      exact drained
    · rw [shape] at failed
      simp only [Prod.mk.injEq, Bool.true_eq_false, false_and] at failed

theorem dataLoop_drained {lost : Set Nat} {base : Mm} (vas : List Nat)
    (lows : ∀ va, va ∈ vas → tableIndex va 4 < 256) (building : Building live held space base mm lost)
    (failed : forEach (mapDataPage space) mm vas = (false, after)) : freeCount after.pmm = 0 := by
  induction vas generalizing mm lost with
  | nil => cases failed
  | cons va rest ih =>
      have round := mapDataPage_placed building va (lows va List.mem_cons_self)
      rw [forEach] at failed
      cases step : mapDataPage space mm va with
      | mk ok middle =>
          rw [step] at round failed
          cases ok with
          | false =>
              simp only [Prod.mk.injEq, true_and] at failed
              rw [← failed]
              exact mapDataPage_drained building.owned building.alive (lows va List.mem_cons_self) step
          | true =>
              cases round with
              | placed _ _ flying _ =>
                  exact ih (fun va member => lows va (List.mem_cons_of_mem _ member)) flying failed

theorem dataLoop_empty (owned : Owned mm live held) (alive : space ∈ live) (none_ : freeCount mm.pmm = 0)
    (vas : List Nat) :
    forEach (mapDataPage space) mm vas = (vas.isEmpty, mm) ∧
      traceOf (mapDataPage space) mapDataPageCalls mm vas = [] := by
  -- Without memory a loop stops at its first page, before `map` is called.
  rcases (Building.refl owned alive).alloc with ⟨nothing, _⟩ | ⟨pa, pmm, _, _, _, count, _⟩
  · cases vas with
    | nil => exact ⟨rfl, rfl⟩
    | cons va rest =>
        have stops : mapDataPage space mm va = (false, mm) := by
          simp only [mapDataPage, nothing, if_true]
        have silent : mapDataPageCalls mm va = [] := by
          simp only [mapDataPageCalls, nothing, if_true]
        constructor
        · rw [forEach, stops]
          rfl
        · rw [traceOf, stops, silent]
          rfl
  · omega

variable {old new : Nat} {image : Image}

theorem mappedPages_user (users : ∀ va, va ∈ spawnPages image → UserPage va) (window : HeapWindow old)
    (inside : HeapWindow new) (va : Nat) (member : va ∈ heapPages old new ++ mappedPages image old) :
    UserPage va := by
  have start : userHeapBase ≤ userHeapBase + userHeapMax := Nat.le_add_right _ _
  rcases List.mem_append.mp member with heap | before
  · exact (heapPages_bounds old new va window.2 inside.2 heap).1
  · rcases List.mem_append.mp before with heap | loaded
    · exact (heapPages_bounds _ old va start window.2 heap).1
    · exact users va loaded

theorem heapLoop_domain {ok : Bool} (owned : Owned mm live held) (alive : space ∈ live)
    (window : HeapWindow old) (inside : HeapWindow new) (order : old ≤ new)
    (users : ∀ va, va ∈ spawnPages image → UserPage va) (domain : Domain mm.mem space (mappedPages image old))
    (loop : forEach (mapDataPage space) mm (heapPages old new) = (ok, after)) :
    if ok then Domain after.mem space (mappedPages image new) else freeCount after.pmm = 0 := by
  have lows : ∀ va, va ∈ heapPages old new → tableIndex va 4 < 256 := fun va member =>
    (heapPages_bounds old new va window.2 inside.2 member).1.half
  have building := Building.refl owned alive
  cases ok with
  | false => exact dataLoop_drained (heapPages old new) lows building loop
  | true =>
      have pages : (heapItems space old new).map Prod.fst = heapPages old new := by
        simp [heapItems, Function.comp_def]
      obtain ⟨ok, final, gone, equal, _, _, account⟩ := runItems_building (heapItems space old new)
        (fun item member => by
          obtain ⟨va, listed, rfl⟩ := List.mem_map.mp member
          intro mm lost building
          dsimp only
          exact mapDataPage_placed building va (lows va listed)) building
      rw [forEach_pages] at loop
      obtain ⟨rfl, rfl⟩ := Prod.mk.inj (equal.symm.trans loop)
      rw [pages] at account
      refine ((account _ domain (mappedPages_user users window inside)).2 rfl).1.same_pages fun va => ?_
      rw [mappedPages, mappedPages, List.mem_append, List.mem_append, List.mem_append, List.mem_reverse,
        heapPages_split window order, or_assoc]

theorem heapCalls_fresh (owned : Owned mm live held) (alive : space ∈ live) (window : HeapWindow old)
    (inside : HeapWindow new) (users : ∀ va, va ∈ spawnPages image → UserPage va)
    (domain : Domain mm.mem space (mappedPages image old)) :
    AllFresh space (traceOf (mapDataPage space) mapDataPageCalls mm (heapPages old new)) ↔
      Apart (freeCount mm.pmm) (mappedPages image old) (heapPages old new) := by
  have asks := @dataTraced_asks live held space mm (heapPages old new) fun va member =>
    (heapPages_bounds old new va window.2 inside.2 member).1
  have same := (tracedCalls_fresh (dataTraced space (heapPages old new)) (fun item member => (asks item member).1)
    (fun item member => (asks item member).2) (Building.refl owned alive) (mappedPages image old) domain (by
      rw [dataTraced_pages]
      exact mappedPages_user users window inside)).1
  rw [dataTraced_pages] at same
  rw [traceOf_pages]
  exact same

end Heap

/-! ### Processes -/

/-- A process whose mapped low-half pages are exactly its image, stack and heap. -/
structure Intact (slot : Nat) (image : Image) (k : Kernel) : Prop where
  running : Running slot k
  domain : Domain k.mm.mem (k.threads slot).space (mappedPages image (k.threads slot).brk)

section Processes
variable {slot : Nat} {image : Image} {k after : Kernel}

theorem Running.alive (running : Running slot k) : (k.threads slot).space ∈ liveSpaces k :=
  .inr ⟨slot, by rw [ownSpace, if_pos running.user]⟩

/-- The memory that a heap call needs is there, or there is none at all. -/
def Served (k : Kernel) (rdi : Nat) : Prop :=
  freeCount k.mm.pmm = 0 ∨
    pagesNeeded k.mm.mem (k.threads k.currentIdx).space (newPages k rdi) ≤ freeCount k.mm.pmm

theorem sysSbrk_intact (intact : Intact slot image k) (users : ∀ va, va ∈ spawnPages image → UserPage va)
    (turn : k.currentIdx = slot) (rdi : Nat) :
    Intact slot image (sysSbrk k rdi).2 ∨ freeCount (sysSbrk k rdi).2.mm.pmm = 0 ∧ ¬ Served k rdi := by
  have still := (running_guards slot).call k rdi intact.running turn
  subst turn
  have window := intact.running.own.heap _ intact.running.user
  have owned := intact.running.own.owned
  have alive := intact.running.alive
  obtain ⟨_, ret, done⟩ | ⟨new, mm, _, order, inside, pages, ⟨loop, done⟩ | ⟨loop, done⟩⟩ :=
    sysSbrk_cases k rdi window
  · rw [done]
    exact .inl intact
  · -- The call failed. If it was served it had nothing to do, or no page to begin with.
    rw [done] at still ⊢
    have drained := heapLoop_domain owned alive window inside order users intact.domain loop
    by_cases served : Served k rdi
    · rcases served with none_ | enough
      · have same := (dataLoop_empty owned alive none_ (heapPages (k.threads k.currentIdx).brk new)).1
        rw [loop, Prod.mk.injEq] at same
        obtain ⟨_, rfl⟩ := same
        exact .inl intact
      · rw [pages, ← heapLoop_supplied owned alive window inside, loop] at enough
        cases enough
    · exact .inr ⟨drained, served⟩
  · rw [done] at still ⊢
    refine .inl ⟨still, ?_⟩
    rw [setThread_same]
    exact heapLoop_domain owned alive window inside order users intact.domain loop

theorem sysSbrk_drained (running : Running slot k) (turn : k.currentIdx = slot) (rdi : Nat)
    (none_ : freeCount k.mm.pmm = 0) : (sysSbrk k rdi).2.mm = k.mm := by
  subst turn
  have same := fun vas => (dataLoop_empty running.own.owned running.alive none_ vas).1
  obtain ⟨_, ret, done⟩ | ⟨new, mm, _, _, _, _, ⟨loop, done⟩ | ⟨loop, done⟩⟩ :=
    sysSbrk_cases k rdi (running.own.heap _ running.user)
  · rw [done]
  · rw [done]
    exact (Prod.mk.inj (loop.symm.trans (same _))).2
  · rw [done]
    exact (Prod.mk.inj (loop.symm.trans (same _))).2

theorem sysSbrkCalls_fresh (running : Running slot k) (turn : k.currentIdx = slot)
    (users : ∀ va, va ∈ spawnPages image → UserPage va) (rdi : Nat)
    (known : Intact slot image k ∨ freeCount k.mm.pmm = 0) :
    AllFresh (k.threads slot).space (sysSbrkCalls k rdi) ↔
      Apart (freeCount k.mm.pmm) (mappedPages image (k.threads slot).brk) (newPages k rdi) := by
  subst turn
  have owned := running.own.owned
  rcases known with intact | none_
  · have window := running.own.heap _ running.user
    rw [sysSbrkCalls]
    obtain ⟨pages, _⟩ | ⟨new, mm, _, _, inside, pages, _⟩ := sysSbrk_cases k rdi window
    · rw [pages]
      simp [AllFresh, traceOf, Apart]
    · rw [pages]
      exact heapCalls_fresh owned running.alive window inside users intact.domain
  · rw [sysSbrkCalls, (dataLoop_empty owned running.alive none_ _).2, none_]
    refine ⟨fun _ => ?_, fun _ call impossible => by cases impossible⟩
    cases newPages k rdi with
    | nil => trivial
    | cons va rest => exact .inl rfl

theorem elsewhere_view {op : Op} {ret : Int} (own : Ownership k) (user : (k.threads slot).isUser = true)
    (elsewhere : Elsewhere slot k op) (done : step k op = .ok (ret, after)) (path : List Nat) (low : Low path) :
    view after.mm.mem (k.threads slot).space path = view k.mm.mem (k.threads slot).space path := by
  have mine : ownSpace (k.threads slot) = some (k.threads slot).space := by rw [ownSpace, if_pos user]
  refine view_same k.mm.mem after.mm.mem {(k.threads slot).space} (fun root way tbl isNamed _ reached => ?_)
    _ path ⟨rfl, low⟩
  obtain ⟨rfl, wayLow⟩ := isNamed
  have named : Named (liveSpaces k) (k.threads slot).space way := ⟨.inr ⟨slot, mine⟩, wayLow⟩
  obtain ⟨page, used⟩ := own.owned.valid _ way tbl named reached
  refine step_pages own elsewhere.1 done tbl page.aligned used ?_
  -- A thread that grows its heap has a space of its own, and the two trees share no page.
  rintro rdi rfl ⟨otherWay, otherLow, otherReached⟩
  have caller : ownSpace (k.threads k.currentIdx) = some (k.threads k.currentIdx).space :=
    if_pos (show (k.threads k.currentIdx).isUser = true from elsewhere.1)
  obtain ⟨same, _⟩ := own.owned.unshared _ _ _ _ _ ⟨.inr ⟨k.currentIdx, caller⟩, otherLow⟩ named
    otherReached reached
  exact elsewhere.2 (own.spaceApart k.currentIdx slot _ caller (same ▸ mine))

theorem elsewhere_intact {op : Op} {ret : Int} (intact : Intact slot image k)
    (elsewhere : Elsewhere slot k op) (done : step k op = .ok (ret, after)) : Intact slot image after := by
  have still := ((running_guards slot).other k op ret after intact.running elsewhere done).1
  have same := elsewhere_step intact.running.own intact.running.user elsewhere done
  refine ⟨still, fun path low => ?_⟩
  rw [same.space, same.brk, elsewhere_view intact.running.own intact.running.user elsewhere done path low]
  exact intact.domain path low

def Sparing (slot : Nat) (k : Kernel) (op : Op) : Prop :=
  Allowed k op ∧ match op with
    | .sbrk rdi => k.currentIdx = slot → Served k rdi
    | .reap tid => tid ≠ slot
    | _ => True

theorem sparing_step (users : ∀ va, va ∈ spawnPages image → UserPage va) (k : Kernel) (op : Op) (ret : Int)
    (after : Kernel) (intact : Intact slot image k) (sparing : Sparing slot k op)
    (done : step k op = .ok (ret, after)) : Intact slot image after := by
  cases op with
  | sbrk rdi =>
      by_cases turn : k.currentIdx = slot
      · rw [step, Except.ok.injEq] at done
        have outcome := sysSbrk_intact intact users turn rdi
        rw [done] at outcome
        rcases outcome with kept | ⟨_, unserved⟩
        · exact kept
        · exact absurd (sparing.2 turn) unserved
      · exact elsewhere_intact intact ⟨sparing.1, turn⟩ done
  | spawnElf _ _ _ | kthreadCreate _ _ _ | threadExit _ | sysExit _ _ | reap _ | tick _ =>
      exact elsewhere_intact intact ⟨sparing.1, sparing.2⟩ done

/-- Left alone, a process that is not intact any more has no memory left to use. -/
def Settled (slot : Nat) (image : Image) (k : Kernel) : Prop :=
  Running slot k ∧ (Intact slot image k ∨ freeCount k.mm.pmm = 0)

theorem Settled.same_holding (settled : Settled slot image k) (own : Ownership after) (heaps : Heaps after)
    (mm : after.mm = k.mm) (same : SameHolding (k.threads slot) (after.threads slot)) :
    Settled slot image after := by
  have running : Running slot after := ⟨own, heaps, same.isUser.trans settled.1.user⟩
  refine ⟨running, settled.2.imp (fun intact => ⟨running, ?_⟩) fun none_ => by rw [mm]; exact none_⟩
  rw [mm, same.space, same.brk]
  exact intact.domain

theorem alone_settled (users : ∀ va, va ∈ spawnPages image → UserPage va) (k : Kernel) (op : Op) (ret : Int)
    (after : Kernel) (settled : Settled slot image k) (alone : Alone slot k op)
    (done : step k op = .ok (ret, after)) : Settled slot image after := by
  have running := settled.1
  rcases alone_cases alone with ⟨rdi, rfl, turn⟩ | idle
  · have still := (running_guards slot).call k rdi running turn
    have outcome : Intact slot image (sysSbrk k rdi).2 ∨ freeCount (sysSbrk k rdi).2.mm.pmm = 0 := by
      rcases settled.2 with intact | none_
      · exact (sysSbrk_intact intact users turn rdi).imp_right And.left
      · exact .inr (by rw [sysSbrk_drained running turn rdi none_]; exact none_)
    rw [step, Except.ok.injEq] at done
    rw [done] at still outcome
    exact ⟨still, outcome⟩
  · obtain ⟨mm, same⟩ := idle_step idle done
    have allowed := idle_allowed idle
    exact settled.same_holding (step_ownership k op ret after running.own allowed done).1
      (step_heaps op ret running.own running.heaps allowed done) mm (same slot)

theorem spawned_intact {name : List UInt8} {argv : List (List UInt8)} {tid : Int} (own : Ownership k)
    (heaps : Heaps k) (low : ∀ va, va ∈ loadVas image → va < 2 ^ 47) (short : ShortArgs argv)
    (done : spawnElf k name image argv = .ok (tid, after)) (success : 0 ≤ tid) :
    Intact tid.toNat image after := by
  have lowImage : LowImage image := fun va member => tableIndex_low va (low va member)
  have allowed : Allowed k (.spawnElf name image argv) := ⟨lowImage, short⟩
  have stepped : step k (.spawnElf name image argv) = .ok (tid, after) := done
  have kept := (step_ownership k _ tid after own allowed stepped).1
  have still := step_heaps _ tid own heaps allowed stepped
  obtain ⟨result, equal, outcome⟩ := spawnElf_spawned k name image argv own.owned (kernel_live k) lowImage short
  rw [done, Except.ok.injEq] at equal
  subst result
  cases outcome with
  | noSpace _ | failed _ _ _ _ _ _ | noStack _ _ _ _ _ _ _ _ _ => exact absurd success (by decide)
  | spawned space built gone slot first entry rsp _ isBuilt filled found nonzero run shape =>
      have thread : after.threads slot = processThread { k with mm := built } slot name entry rsp
          space (first * pageSize) := by rw [shape, growTable_threads, setThread_same]
      have memory : after.mm.mem = built.mem := by
        rw [shape, growTable_mm]
        rfl
      rw [Int.toNat_natCast]
      refine ⟨⟨kept, still, by rw [thread]; rfl⟩, ?_⟩
      rw [memory, thread]
      refine (filled (spawnPages_user image low)).1.same_pages fun va => ?_
      change va ∈ heapPages userHeapBase userHeapBase ++ spawnPages image ↔ va ∈ (spawnPages image).reverse
      rw [show heapPages userHeapBase userHeapBase = [] by decide, List.nil_append, List.mem_reverse]

end Processes

theorem newSpace_begun {k : Kernel} {space : Nat} {fresh : Mm} (own : Ownership k)
    (made : newSpace k.mm = (space, fresh)) (nonzero : space ≠ 0) :
    freeCount fresh.pmm = freeCount k.mm.pmm - 1 ∧ Domain fresh.mem space [] ∧
      Building (insert space (liveSpaces k)) (heldPages k) space fresh fresh ∅ := by
  rcases newSpace_built own.owned (kernel_live k) with ⟨nothing, _⟩ |
    ⟨root, first, equal, _, count, domain, begun, _⟩
  · rw [made, Prod.mk.injEq] at nothing
    exact absurd nothing.1 nonzero
  · rw [made, Prod.mk.injEq] at equal
    obtain ⟨rfl, rfl⟩ := equal
    exact ⟨by omega, domain, begun⟩

/-- Every call of `map` for a process in a booted system: the loader and the stack loop
find their pages unmapped exactly if the pages are distinct as far as memory lasts; and
after that so do the heap calls of the process, if they find no page of the image in the
way, while it is alone, and while the system goes on and its heap calls are served. -/
theorem map_calls_fresh_iff (start k : Kernel) (booted : Sched.Booted start) (run : Run step Allowed start k)
    (name : List UInt8) (image : Image) (argv : List (List UInt8))
    (low : ∀ va, va ∈ loadVas image → va < 2 ^ 47) (short : ShortArgs argv) :
    (∀ space fresh, newSpace k.mm = (space, fresh) → space ≠ 0 →
      (AllFresh space (buildUserCalls fresh space image) ↔
        Apart (freeCount k.mm.pmm - 1) [] (spawnPages image))) ∧
    ∀ tid spawned, spawnElf k name image argv = .ok (tid, spawned) → 0 ≤ tid →
      (Apart (freeCount k.mm.pmm - 1) [] (spawnPages image) ↔ (spawnPages image).Nodup) ∧
      ∀ after, Run step (Alone tid.toNat) spawned after ∨ Run step (Sparing tid.toNat) spawned after →
        after.currentIdx = tid.toNat → ∀ rdi,
        (AllFresh (after.threads tid.toNat).space (sysSbrkCalls after rdi) ↔
          Apart (freeCount after.mm.pmm) (mappedPages image (after.threads tid.toNat).brk)
            (newPages after rdi)) := by
  obtain ⟨own, heaps⟩ := run_heaps start k booted run
  have users := spawnPages_user image low
  have lowImage : LowImage image := fun va member => tableIndex_low va (low va member)
  have fromNothing : ∀ va, va ∈ spawnPages image ++ [] → UserPage va := by simpa using users
  constructor
  · intro space fresh made nonzero
    obtain ⟨count, domain, begun⟩ := newSpace_begun own made nonzero
    rw [← count]
    exact (buildUserCalls_fresh image argv begun [] domain lowImage fromNothing).1
  · intro tid spawned done success
    constructor
    · refine ⟨fun apart => ?_, fun distinct => apart_of_distinct _ distinct fun va _ => List.not_mem_nil⟩
      obtain ⟨space, fresh, entry, rsp, built, made, nonzero, building, _⟩ :=
        spawnElf_succeeded k spawned name image argv tid done success
      obtain ⟨count, domain, begun⟩ := newSpace_begun own made nonzero
      rw [← count] at apart
      refine (buildUserCalls_fresh image argv begun [] domain lowImage fromNothing).2 ?_ apart
      rw [building]
      simp
    · -- Both kinds of run carry an invariant from the spawn on, and it decides about the next call.
      intro after living turn rdi
      have intact := spawned_intact own heaps low short done success
      rcases living with alone | sparing
      · obtain ⟨running, known⟩ := run_invariant step _ (Settled tid.toNat image) (alone_settled users) alone
          ⟨intact.running, .inl intact⟩
        exact sysSbrkCalls_fresh running turn users rdi known
      · have still := run_invariant step _ (Intact tid.toNat image) (sparing_step users) sparing intact
        exact sysSbrkCalls_fresh still.running turn users rdi (.inl still)

theorem map_calls_fresh_small :
    ∃ start space fresh born current, Sched.Booted start ∧ newSpace start.mm = (space, fresh) ∧ space ≠ 0 ∧
      AllFresh space (buildUserCalls fresh space (smallImage 0x400000)) ∧
      spawnElf start [] (smallImage 0x400000) [] = .ok (1, born) ∧ Run step (Alone 1) born current ∧
      current.currentIdx = 1 ∧ (newPages current 12288).length = 3 ∧
      AllFresh (current.threads 1).space (sysSbrkCalls current 12288) := by
  have booted := bootedKernel_booted _ _ blankMachine_wide
  have evaluated : ((spawnElf (bootedKernel (Vmm.init (blankMachine (-2)) (2 ^ 29))) []
      (smallImage 0x400000) []).map fun result => (result.1, (ticked result.2 5).currentIdx,
        ((ticked result.2 5).threads 1).brk)) = .ok (1, 1, userHeapBase) := by decide +kernel
  generalize Vmm.init (blankMachine (-2)) (2 ^ 29) = mm at booted evaluated
  obtain ⟨⟨ret, born⟩, shape, values⟩ := (map_ok _ _ _).mp evaluated
  simp only [Prod.mk.injEq] at values
  obtain ⟨rfl, turn, brk⟩ := values
  obtain ⟨space, fresh, _, _, _, made, nonzero, _⟩ := spawnElf_succeeded _ born [] _ [] 1 shape (by decide)
  obtain ⟨distinct, away⟩ := spawnPages_tidy _ smallImage_tidy
  obtain ⟨loading, living⟩ := map_calls_fresh_iff _ _ booted .refl [] (smallImage 0x400000) [] smallImage_tidy.low
    (fun bytes member => by cases member)
  obtain ⟨same, calling⟩ := living 1 born shape (by decide)
  have waited := ticked_alone 1 born 5
  generalize ticked born 5 = current at turn brk waited
  have pages : newPages current 12288 = heapPages userHeapBase (userHeapBase + 12288) := by
    simp only [newPages, turn, brk]
    decide
  have heap : mappedPages (smallImage 0x400000) (current.threads 1).brk = spawnPages (smallImage 0x400000) := by
    rw [mappedPages, brk, show heapPages userHeapBase userHeapBase = [] by decide, List.nil_append]
  refine ⟨_, space, fresh, born, current, booted, made, nonzero, (loading space fresh made nonzero).mpr
    (same.mpr distinct), shape, waited, turn, by rw [pages]; decide, (calling current (.inl waited) turn 12288).mpr ?_⟩
  change Apart _ (mappedPages (smallImage 0x400000) (current.threads 1).brk) _
  rw [heap, pages]
  refine apart_of_distinct _ (heapPages_nodup _ _) fun va member listed => ?_
  obtain ⟨_, above, below⟩ := heapPages_bounds userHeapBase (userHeapBase + 12288) va (by decide) (by decide) member
  exact absurd ((away va listed above).trans_lt below) (by decide)

def neighbours : Image where
  len := 176
  byte := fun place =>
    let header := [0x7F, 69, 76, 70, 2, 1] ++ List.replicate 10 0 ++ toBytes 2 2 ++ toBytes 2 62 ++
      toBytes 4 1 ++ toBytes 8 0x400000 ++ toBytes 8 64 ++ toBytes 8 0 ++ toBytes 4 0 ++
      toBytes 2 64 ++ toBytes 2 56 ++ toBytes 2 2 ++ List.replicate 6 0
    let segment := fun off vaddr => toBytes 4 ptLoad ++ toBytes 4 5 ++ toBytes 8 off ++ toBytes 8 vaddr ++
      toBytes 8 0 ++ toBytes 8 16 ++ toBytes 8 16 ++ toBytes 8 pageSize
    (header ++ segment 0 0x400000 ++ segment 16 0x400010).getD place 0

/-- The process 1 asks for three pages while there is memory for two; a kernel thread
ends and gives its stack back, and it is the turn of process 1 again. -/
def shortage : List Op :=
  [.kthreadCreate [] 0 0] ++ List.replicate 5 (.tick .zeroed) ++ [.sbrk 12288] ++
    List.replicate 5 (.tick .zeroed) ++ [.threadExit .zeroed, .reap 2] ++ List.replicate 5 (.tick .zeroed)

/-- The second segment takes the page of the first, whose bytes are gone afterwards; and
a heap call after one that ran out of memory takes the pages which that one left. -/
theorem mapped_page_is_mapped_again :
    (∃ start space fresh, Sched.Booted start ∧ newSpace start.mm = (space, fresh) ∧ space ≠ 0 ∧
      (phdrs neighbours).Pairwise (fun left right => left.pVaddr + left.pMemsz ≤ right.pVaddr) ∧
      (elfLoad fresh space neighbours).1 ≠ 0 ∧ ¬ AllFresh space (elfLoadCalls fresh space neighbours) ∧
      (elfLoad fresh space neighbours).2.mem
        (translate (elfLoad fresh space neighbours).2 space 0x400000) ≠ neighbours.byte 0) ∧
    ∃ start born k, Sched.Booted start ∧ spawnElf start [] (smallImage 0x400000) [] = .ok (1, born) ∧
      Run step Allowed born k ∧ k.currentIdx = 1 ∧ ¬ AllFresh (k.threads 1).space (sysSbrkCalls k 4096) := by
  constructor
  · have booted := bootedKernel_booted _ _ blankMachine_wide
    have evaluated : (fun made : Nat × Mm => made.1 ≠ 0 ∧ (elfLoad made.2 made.1 neighbours).1 ≠ 0 ∧
        ¬ AllFresh made.1 (elfLoadCalls made.2 made.1 neighbours) ∧
        (elfLoad made.2 made.1 neighbours).2.mem
          (translate (elfLoad made.2 made.1 neighbours).2 made.1 0x400000) ≠ neighbours.byte 0)
        (newSpace (Vmm.init (blankMachine (-2)) (2 ^ 29))) := by decide +kernel
    generalize Vmm.init (blankMachine (-2)) (2 ^ 29) = mm at booted evaluated
    exact ⟨bootedKernel mm, (newSpace mm).1, (newSpace mm).2, booted, by rw [bootedKernel_mm], evaluated.1,
      by decide +kernel, evaluated.2⟩
  · have booted := bootedKernel_booted _ _ (blankMachine_limine (2 ^ 27 - 2) (by decide) 1 (by decide) (by decide))
    have evaluated : ((spawnElf (bootedKernel (Vmm.init (blankMachine (2 ^ 27 - 2)) (2 ^ 29))) []
        (smallImage 0x400000) []).bind fun spawned => (replay step spawned.2 shortage).map fun last =>
          (spawned.1, permits step Allowed spawned.2 shortage, last.2.currentIdx,
            decide (AllFresh (last.2.threads 1).space (sysSbrkCalls last.2 4096)))) =
        .ok (1, true, 1, false) := by decide +kernel
    generalize Vmm.init (blankMachine (2 ^ 27 - 2)) (2 ^ 29) = mm at booted evaluated
    obtain ⟨⟨ret, born⟩, shape, rest⟩ := (bind_ok _ _ _).mp evaluated
    obtain ⟨⟨rets, k⟩, replayed, values⟩ := (map_ok _ _ _).mp rest
    simp only [Prod.mk.injEq, decide_eq_false_iff_not] at values
    obtain ⟨rfl, permitted, turn, again⟩ := values
    exact ⟨_, born, k, booted, shape, permits_run step Allowed shortage born k rets permitted replayed, turn, again⟩

end Shizuku.Process
