import Shizuku.PagePlacing
import Shizuku.ThreadContexts

/-!
What `spawn_elf` can do. The pages it maps are known before it runs, from the
image alone; everything it does to memory up to the thread is one `Building` on
the new space, and a failure destroys that space.
-/

namespace Shizuku.Process

open ByteMemory WordMemory PointerForest Machine Pmm Vmm Elf Sched

def phdrs (image : Image) : List Phdr := (List.range (ePhnum image)).map (phdr image)

def headerPages (ph : Phdr) : List Nat :=
  if ph.pType ≠ ptLoad ∨ ph.pMemsz = 0 then [] else segmentPages ph

/-- The pages of all `PT_LOAD` segments, in the order in which the loader maps them. -/
def loadVas (image : Image) : List Nat :=
  if headerOk image then (phdrs image).flatMap headerPages else []

def spawnPages (image : Image) : List Nat :=
  if headerOk image ∧ eEntry image ≠ 0 then loadVas image ++ stackVas else loadVas image

/-- Every segment page belongs to the low half of the address space. -/
def LowImage (image : Image) : Prop := ∀ va, va ∈ loadVas image → tableIndex va 4 < 256

/-- The argument strings are shorter than 2^42 bytes, so that the user stack
pointer does not wrap; the callers pass at most 63 bytes each. -/
def ShortArgs (argv : List (List UInt8)) : Prop := ∀ bytes, bytes ∈ argv → bytes.length < 2 ^ 42

def headerItems (space : Nat) (image : Image) (ph : Phdr) : List Item :=
  (headerPages ph).map fun va => (va, fun mm => loadPage space image ph mm va)

def imageItems (space : Nat) (image : Image) : List Item :=
  (phdrs image).flatMap (headerItems space image)

def stackItems (space : Nat) : List Item :=
  stackVas.map fun va => (va, fun mm => mapDataPage space mm va)

theorem imageItems_pages (space : Nat) (image : Image) (valid : headerOk image = true) :
    (imageItems space image).map Prod.fst = loadVas image := by
  rw [imageItems, List.map_flatMap, loadVas, if_pos valid]
  congr 1
  funext ph
  simp [headerItems, Function.comp_def]

theorem stackItems_pages (space : Nat) : (stackItems space).map Prod.fst = stackVas := by
  simp [stackItems, Function.comp_def]

theorem elfLoad_items (mm : Mm) (space : Nat) (image : Image) (valid : headerOk image = true) :
    elfLoad mm space image =
      match runItems mm (imageItems space image) with
      | (false, after) => (0, after)
      | (true, after) => (eEntry image, after) := by
  have loop : forEach (loadSegment space image) mm ((List.range (ePhnum image)).map (phdr image)) =
      runItems mm (imageItems space image) := by
    refine forEach_runItems _ (headerItems space image) (fun mm ph => ?_) mm _
    rw [loadSegment, headerItems, headerPages]
    split
    · rfl
    · exact forEach_pages _ _ _
  rw [elfLoad, if_pos valid]
  rcases result : runItems mm (imageItems space image) with ⟨_ | _, after⟩ <;>
    simp only [loop, result]

theorem segmentPages_bounds (ph : Phdr) (va : Nat) (member : va ∈ segmentPages ph) :
    va % pageSize = 0 ∧ va + pageSize < 2 ^ 64 := by
  simp only [segmentPages, pageDown, List.mem_map, List.mem_range, pageSize] at member
  obtain ⟨i, bound, rfl⟩ := member
  have wrapped : (ph.pVaddr + ph.pMemsz + 4096 - 1) % 2 ^ 64 < 2 ^ 64 := Nat.mod_lt _ (by decide)
  simp only [pageSize]
  omega

theorem loadVas_bounds (image : Image) (va : Nat) (member : va ∈ loadVas image) :
    va % pageSize = 0 ∧ va + pageSize < 2 ^ 64 := by
  rw [loadVas] at member
  split at member
  · obtain ⟨ph, _, inside⟩ := List.mem_flatMap.mp member
    rw [headerPages] at inside
    split at inside
    · cases inside
    · exact segmentPages_bounds ph va inside
  · cases member

theorem stackVas_user (va : Nat) (member : va ∈ stackVas) : UserPage va := by
  have all : ∀ va ∈ stackVas, va % pageSize = 0 ∧ va < 2 ^ 47 := by decide
  exact all va member

section Building
variable {live held lost : Set Nat} {space : Nat} {base mm : Mm}

theorem imageItems_places (image : Image) (valid : headerOk image = true) (low : LowImage image)
    (item : Item) (member : item ∈ imageItems space image) : Places live held space base item := by
  obtain ⟨ph, listed, inside⟩ := List.mem_flatMap.mp member
  obtain ⟨va, page, rfl⟩ := List.mem_map.mp inside
  have loaded : va ∈ loadVas image := by
    rw [loadVas, if_pos valid]
    exact List.mem_flatMap.mpr ⟨ph, listed, page⟩
  obtain ⟨aligned, bound⟩ := loadVas_bounds image va loaded
  intro mm lost building
  dsimp only
  exact loadPage_placed building image ph va (low va loaded) aligned bound

theorem stackItems_places (item : Item) (member : item ∈ stackItems space) :
    Places live held space base item := by
  obtain ⟨va, page, rfl⟩ := List.mem_map.mp member
  intro mm lost building
  dsimp only
  exact mapDataPage_placed building va (stackVas_user va page).half

theorem ustackWrite_scribbled (building : Building live held space base mm lost) (dst : Nat)
    (src : List UInt8) (inside : dst + src.length ≤ 2 ^ 47) :
    Scribbled live held lost space base mm (ustackWrite mm space dst src).2 := by
  fun_induction ustackWrite mm space dst src with
  | case1 mm dst => exact .refl building
  | case2 mm dst src nonempty pa missing => exact .refl building
  | case3 mm dst src nonempty pa present chunk ih =>
      have positive := List.length_pos_iff.mpr nonempty
      have half := tableIndex_low dst (by omega)
      have target := translate_view building.owned.plain space dst building.alive half
      have offset : dst % pageSize < pageSize := Nat.mod_lt _ (by decide)
      have fits : chunk ≤ src.length ∧ dst % pageSize + chunk ≤ pageSize := by omega
      cases mapped : view mm.mem space (full dst) with
      | none =>
          rw [mapped] at target
          exact absurd target present
      | some frame =>
          rw [mapped] at target
          have written := Scribbled.blit building half mapped (dst % pageSize) (src.take chunk)
            (by rw [List.length_take]; omega)
          have place : pa = frame + dst % pageSize := target
          rw [← place] at written
          refine written.trans (ih written.building ?_)
          rw [List.length_drop, Nat.mod_eq_of_lt (by omega)]
          omega

theorem wrapping_sub (sp size : Nat) (room : size ≤ sp) (word : sp < 2 ^ 64) :
    (sp + 2 ^ 64 - size) % 2 ^ 64 = sp - size := by
  -- Moving the stack pointer down does not wrap as long as it stays above 0.
  omega

theorem pushArgs_scribbled (building : Building live held space base mm lost)
    (strings : List (List UInt8)) (sp : Nat) (pointers : List Nat) (below : sp ≤ userStackTop)
    (short : (strings.map fun bytes => bytes.length + 1).sum ≤ sp) :
    Scribbled live held lost space base mm (pushArgs space mm strings sp pointers).2 ∧
      ∀ last all, (pushArgs space mm strings sp pointers).1 = some (last, all) →
        last ≤ userStackTop ∧ sp ≤ last + (strings.map fun bytes => bytes.length + 1).sum ∧
          all.length = pointers.length + strings.length := by
  induction strings generalizing mm sp pointers with
  | nil =>
      refine ⟨.refl building, fun last all pushed => ?_⟩
      simp only [pushArgs, Option.some.injEq, Prod.mk.injEq] at pushed
      obtain ⟨rfl, rfl⟩ := pushed
      exact ⟨below, by simp, by simp⟩
  | cons bytes rest ih =>
      simp only [List.map_cons, List.sum_cons] at short ⊢
      have top : userStackTop < 2 ^ 47 := by decide
      have moved := wrapping_sub sp (bytes.length + 1) (by omega) (by omega)
      have nul : (sp - (bytes.length + 1) + bytes.length) % 2 ^ 64 = sp - 1 := by
        rw [Nat.mod_eq_of_lt (by omega)]
        omega
      have first := ustackWrite_scribbled building (sp - (bytes.length + 1)) bytes (by omega)
      simp only [pushArgs, moved, nul]
      cases written : ustackWrite mm space (sp - (bytes.length + 1)) bytes with
      | mk ok middle =>
          rw [written] at first
          cases ok with
          | false => exact ⟨first, fun last all impossible => by cases impossible⟩
          | true =>
              have second := ustackWrite_scribbled first.building (sp - 1) [0]
                (by rw [List.length_singleton]; omega)
              dsimp only
              cases ended : ustackWrite middle space (sp - 1) [0] with
              | mk ok after =>
                  rw [ended] at second
                  have both := first.trans second
                  cases ok with
                  | false => exact ⟨both, fun last all impossible => by cases impossible⟩
                  | true =>
                      obtain ⟨others, bounds⟩ := ih both.building (sp - (bytes.length + 1))
                        ((sp - (bytes.length + 1)) :: pointers) (by omega) (by omega)
                      refine ⟨both.trans others, fun last all pushed => ?_⟩
                      obtain ⟨low, moved, count⟩ := bounds last all pushed
                      rw [List.length_cons] at count ⊢
                      exact ⟨low, by omega, by omega⟩

theorem entryFrame_length (pointers : List Nat) :
    (entryFrame pointers).length = 8 * (pointers.length + 2) := by
  simp only [entryFrame, List.length_flatMap, toBytes_length, List.map_const', List.sum_replicate,
    List.length_append, List.length_cons, List.length_nil, smul_eq_mul]
  omega

theorem pushFrame_scribbled (building : Building live held space base mm lost) (sp : Nat)
    (pointers : List Nat) (below : sp ≤ userStackTop) (few : pointers.length ≤ argMax)
    (room : 256 ≤ sp) :
    Scribbled live held lost space base mm (pushFrame mm space sp pointers).2 := by
  have top : userStackTop < 2 ^ 47 := by decide
  have args : argMax = 16 := rfl
  have length := entryFrame_length pointers
  have moved := wrapping_sub (sp / 16 * 16) (((pointers.length + 2) * 8 + 15) / 16 * 16) (by omega)
    (by omega)
  have written := ustackWrite_scribbled building
    (sp / 16 * 16 - ((pointers.length + 2) * 8 + 15) / 16 * 16) (entryFrame pointers) (by omega)
  simp only [pushFrame, moved]
  cases shape : ustackWrite mm space (sp / 16 * 16 - ((pointers.length + 2) * 8 + 15) / 16 * 16)
      (entryFrame pointers) with
  | mk ok after =>
      rw [shape] at written
      cases ok <;> exact written

theorem argv_room (argv : List (List UInt8)) (short : ShortArgs argv) :
    ((argv.take argMax).reverse.map fun bytes => bytes.length + 1).sum ≤ 2 ^ 46 := by
  -- Sixteen strings of fewer than 2^42 bytes leave the stack pointer far above 0.
  have each : ∀ size, size ∈ (argv.take argMax).reverse.map (fun bytes => bytes.length + 1) →
      size ≤ 2 ^ 42 := by
    intro size member
    obtain ⟨bytes, listed, rfl⟩ := List.mem_map.mp member
    exact short bytes (List.mem_of_mem_take (List.mem_reverse.mp listed))
  have bound := List.sum_le_card_nsmul _ _ each
  have count : (argv.take argMax).length ≤ 16 := by
    rw [List.length_take]
    exact Nat.min_le_left _ _
  rw [List.length_map, List.length_reverse, smul_eq_mul] at bound
  omega

theorem pushArgv_scribbled (building : Building live held space base mm lost)
    (argv : List (List UInt8)) (short : ShortArgs argv) :
    Scribbled live held lost space base mm (pushArgv mm space argv).2 := by
  have room := argv_room argv short
  have top : userStackTop = 0x700000000000 := rfl
  obtain ⟨first, bounds⟩ := pushArgs_scribbled building (argv.take argMax).reverse userStackTop []
    le_rfl (by omega)
  unfold pushArgv
  cases shape : pushArgs space mm (argv.take argMax).reverse userStackTop [] with
  | mk pushed middle =>
      rw [shape] at first bounds
      cases pushed with
      | none => exact first
      | some pair =>
          obtain ⟨sp, pointers⟩ := pair
          obtain ⟨below, far, count⟩ := bounds sp pointers rfl
          have few : pointers.length ≤ argMax := by
            rw [count, List.length_reverse, List.length_nil, Nat.zero_add, List.length_take]
            exact Nat.min_le_left _ _
          exact first.trans (pushFrame_scribbled first.building sp pointers below few (by omega))

theorem buildUser_items (mm : Mm) (space : Nat) (image : Image) (argv : List (List UInt8)) (valid : headerOk image = true)
    (entry : eEntry image ≠ 0) :
    buildUser mm space image argv =
      match runItems mm (imageItems space image ++ stackItems space) with
      | (false, after) => (none, after)
      | (true, after) =>
          ((pushArgv after space argv).1.map fun sp => (eEntry image, sp),
            (pushArgv after space argv).2) := by
  rw [buildUser, elfLoad_items mm space image valid, runItems_append]
  cases runItems mm (imageItems space image) with
  | mk ok middle =>
      cases ok with
      | false => rfl
      | true =>
          simp only [entry, ↓reduceIte]
          rw [forEach_pages]
          rw [← stackItems]
          cases runItems middle (stackItems space) with
          | mk ok after =>
              cases ok with
              | false => rfl
              | true =>
                  simp only
                  cases pushArgv after space argv with
                  | mk sp final => cases sp <;> rfl

theorem buildUser_some {mm after : Mm} {space : Nat} {image : Image} {argv : List (List UInt8)} {entry rsp : Nat}
    (done : buildUser mm space image argv = (some (entry, rsp), after)) :
    headerOk image = true ∧ eEntry image ≠ 0 ∧ ∃ loaded stacked,
      runItems mm (imageItems space image) = (true, loaded) ∧
      forEach (mapDataPage space) loaded stackVas = (true, stacked) ∧
      pushArgv stacked space argv = (some rsp, after) := by
  by_cases valid : headerOk image = true
  · rw [buildUser, elfLoad_items mm space image valid] at done
    by_cases zero : eEntry image = 0
    · rcases loading : runItems mm (imageItems space image) with ⟨_ | _, loaded⟩ <;> simp [loading, zero] at done
    · rcases loading : runItems mm (imageItems space image) with ⟨_ | _, loaded⟩
      · simp [loading] at done
      · simp only [loading, zero, ↓reduceIte] at done
        rcases stacking : forEach (mapDataPage space) loaded stackVas with ⟨_ | _, stacked⟩
        · simp [stacking] at done
        · rcases pushed : pushArgv stacked space argv with ⟨_ | sp, final⟩
          · simp [stacking, pushed] at done
          · simp only [stacking, pushed, Prod.mk.injEq, Option.some.injEq] at done
            obtain ⟨⟨_, rfl⟩, rfl⟩ := done
            exact ⟨valid, zero, loaded, stacked, rfl, stacking, pushed⟩
  · rw [buildUser, elfLoad, if_neg valid] at done
    simp at done

/-- Building a process: what is in flight afterwards is lost, and that is nothing
new exactly when the pages fit. -/
theorem buildUser_building (image : Image) (argv : List (List UInt8)) (low : LowImage image)
    (short : ShortArgs argv) (building : Building live held space base mm lost) :
    ∃ result after gone, buildUser mm space image argv = (result, after) ∧
      Building live held space base after gone ∧ lost ⊆ gone ∧
      ∀ placed, Domain mm.mem space placed →
        (∀ va, va ∈ spawnPages image ++ placed → UserPage va) →
        (gone = lost ↔ Fits (freeCount mm.pmm) placed (spawnPages image)) ∧
        (result ≠ none → Domain after.mem space ((spawnPages image).reverse ++ placed) ∧
          (((spawnPages image).reverse ++ placed).Nodup → gone = lost)) := by
  by_cases valid : headerOk image = true
  · by_cases entry : eEntry image = 0
    · -- The segments are loaded, and the entry address says failure.
      have pages : spawnPages image = (imageItems space image).map Prod.fst := by
        rw [spawnPages, if_neg (by simp [entry]), imageItems_pages space image valid]
      obtain ⟨ok, after, gone, loop, done, more, account⟩ := runItems_building
        (imageItems space image) (fun item => imageItems_places image valid low item) building
      have failed : buildUser mm space image argv = (none, after) := by
        rw [buildUser, elfLoad_items mm space image valid, loop]
        cases ok <;> simp [entry]
      refine ⟨none, after, gone, failed, done, more, fun placed domain users => ?_⟩
      rw [pages] at users ⊢
      exact ⟨(account placed domain users).1, fun impossible => absurd rfl impossible⟩
    · have pages : spawnPages image = (imageItems space image ++ stackItems space).map Prod.fst := by
        rw [spawnPages, if_pos ⟨valid, entry⟩, List.map_append, imageItems_pages space image valid,
          stackItems_pages]
      obtain ⟨ok, after, gone, loop, done, more, account⟩ := runItems_building
        (imageItems space image ++ stackItems space) (fun item member => by
          rcases List.mem_append.mp member with loaded | stacked
          · exact imageItems_places image valid low item loaded
          · exact stackItems_places item stacked) building
      have shape := buildUser_items mm space image argv valid entry
      rw [loop] at shape
      rw [pages]
      cases ok with
      | false =>
          refine ⟨none, after, gone, shape, done, more, fun placed domain users => ?_⟩
          exact ⟨(account placed domain users).1, fun impossible => absurd rfl impossible⟩
      | true =>
          have pushed := pushArgv_scribbled done argv short
          refine ⟨_, _, gone, shape, pushed.building, more, fun placed domain users => ?_⟩
          obtain ⟨fits, success⟩ := account placed domain users
          refine ⟨fits, fun _ => ⟨fun path pathLow => ?_, (success rfl).2⟩⟩
          rw [pushed.views space path ⟨building.alive, pathLow⟩]
          exact (success rfl).1 path pathLow
  · have failed : buildUser mm space image argv = (none, mm) := by
      rw [buildUser, elfLoad, if_neg valid]
      rfl
    refine ⟨none, mm, lost, failed, building, subset_rfl, fun placed _ _ => ?_⟩
    rw [spawnPages, if_neg (by simp [valid]), loadVas, if_neg valid]
    exact ⟨by simp [Fits], fun impossible => absurd rfl impossible⟩

end Building

/-- Whatever has been done to memory since the space was made, with `gone` the
pages that are neither free nor part of the new space. -/
structure Built (live held : Set Nat) (mm : Mm) (space : Nat) (after : Mm) (gone : Set Nat) :
    Prop where
  root : (newSpace mm).1 = space
  start : Owned mm live held
  fresh : FreeAt mm.pmm space
  owned : Owned after (insert space live) (held ∪ gone)
  ledger : ∀ page, FreeAt mm.pmm page ∧ Page page ↔
    FreeAt after.pmm page ∧ Page page ∨ InTree after.mem space page ∨ page ∈ gone
  keeps : ∀ page, page % pageSize = 0 → ¬ FreeAt mm.pmm page → SamePage mm.mem after.mem page
  high : ∀ idx, 256 ≤ idx → idx < 512 →
    entry after.mem space idx = entry mm.mem mm.kernelSpace idx
  kernel : after.kernelSpace = mm.kernelSpace
  hhdm : after.hhdmOffset = mm.hhdmOffset
  badFrees : after.pmm.badFrees = mm.pmm.badFrees
  counter : drift after.pmm = drift mm.pmm

def FitsExactly (mm : Mm) (image : Image) (gone : Set Nat) : Prop :=
  (∀ va, va ∈ spawnPages image → UserPage va) →
    (gone = ∅ ↔ Fits (freeCount mm.pmm - 1) [] (spawnPages image))

section Built
variable {live held : Set Nat} {mm : Mm}

theorem fresh_tree (mem : Nat → UInt8) (space : Nat)
    (blank : ∀ index, index < 256 → entry mem space index = 0) (path : List Nat) (low : Low path)
    (nonempty : path ≠ []) : view mem space path = none := by
  cases path with
  | nil => exact absurd rfl nonempty
  | cons index rest =>
      apply view_cons_none
      rw [child, blank index (low.half index rfl)]
      rfl

theorem newSpace_built (owned : Owned mm live held) (kernel : mm.kernelSpace ∈ live) :
    (newSpace mm = (0, mm) ∧ freeCount mm.pmm = 0) ∨
      ∃ space fresh, newSpace mm = (space, fresh) ∧ space ≠ 0 ∧
        freeCount fresh.pmm + 1 = freeCount mm.pmm ∧ Domain fresh.mem space [] ∧
        Building (insert space live) held space fresh fresh ∅ ∧
        ∀ after gone, Building (insert space live) held space fresh after gone →
          Built live held mm space after gone := by
  rcases newSpace_cases owned kernel with ⟨nothing, full⟩ |
    ⟨page, mem, free, made, rooted, blank, shared, outside⟩
  · refine .inl ⟨nothing, ?_⟩
    by_contra positive
    obtain ⟨page, free⟩ := free_of_positive mm.pmm (by omega)
    exact full page free
  · have isPage := free_page owned page free
    have number : page * pageSize / pageSize = page := Nat.mul_div_cancel page (by decide)
    have tree := fresh_tree mem (page * pageSize) blank
    have domain : Domain mem (page * pageSize) [] := by
      intro path pathLow
      by_cases empty : path = []
      · simp [empty]
      · simp [tree path pathLow empty, empty]
    have onlyRoot : ∀ other, InTree mem (page * pageSize) other ↔ other = page * pageSize := by
      intro other
      constructor
      · rintro ⟨path, pathLow, reached⟩
        by_cases empty : path = []
        · rw [empty, view_nil, Option.some.injEq] at reached
          exact reached.symm
        · rw [tree path pathLow empty] at reached
          cases reached
      · rintro rfl
        exact ⟨[], low_nil, rfl⟩
    refine .inr ⟨_, _, made, isPage.nonzero, freeCount_take mm.pmm page free, domain,
      Building.refl rooted (Set.mem_insert _ _), fun after gone done => ?_⟩
    refine ⟨by rw [made], owned, by rw [FreeAt, number]; exact free, done.owned, fun other => ?_,
      fun other aligned used => ?_, fun idx above inside => ?_, done.kernel, done.hhdm,
      done.badFrees, ?_⟩
    · rw [← done.ledger other, onlyRoot other, FreeAt, FreeAt, free_take]
      constructor
      · rintro ⟨still, otherPage⟩
        by_cases same : other / pageSize = page
        · exact .inr (by rw [← same, otherPage.number])
        · exact .inl ⟨⟨still, same⟩, otherPage⟩
      · rintro (⟨⟨still, _⟩, otherPage⟩ | rfl)
        · exact ⟨still, otherPage⟩
        · exact ⟨by rwa [number], isPage⟩
    · have different : other ≠ page * pageSize := by
        rintro rfl
        rw [FreeAt, number] at used
        exact used free
      refine (samePage_of_outside mm.mem mem _ other isPage.aligned aligned different outside).trans
        (done.keeps other aligned (fun still => ?_) fun inside => ?_)
      · exact used ((free_take _ _ _).mp still).1
      · exact different ((onlyRoot other).mp inside)
    · exact (done.high idx above inside).trans (shared idx above inside)
    · exact done.counter.trans (drift_take mm.pmm page free)

theorem build_cases (owned : Owned mm live held) (kernel : mm.kernelSpace ∈ live) (image : Image)
    (argv : List (List UInt8)) (low : LowImage image) (short : ShortArgs argv) :
    (newSpace mm = (0, mm) ∧ freeCount mm.pmm = 0) ∨
      ∃ space fresh result after gone, newSpace mm = (space, fresh) ∧ space ≠ 0 ∧
        0 < freeCount mm.pmm ∧ buildUser fresh space image argv = (result, after) ∧
        Built live held mm space after gone ∧ FitsExactly mm image gone ∧
        (result ≠ none → (∀ va, va ∈ spawnPages image → UserPage va) →
          Domain after.mem space (spawnPages image).reverse ∧
            ((spawnPages image).Nodup → gone = ∅)) := by
  rcases newSpace_built owned kernel with nothing |
    ⟨space, fresh, made, nonzero, count, domain, begun, built⟩
  · exact .inl nothing
  · obtain ⟨result, after, gone, equal, done, _, account⟩ := buildUser_building image argv low short
      begun
    refine .inr ⟨space, fresh, result, after, gone, made, nonzero, by omega, equal,
      built after gone done, fun users => ?_, fun present users => ?_⟩
    · have same := (account [] domain (by simpa using users)).1
      rwa [show freeCount fresh.pmm = freeCount mm.pmm - 1 by omega] at same
    · have success := (account [] domain (by simpa using users)).2 present
      rw [List.append_nil, List.nodup_reverse] at success
      exact success

variable {space : Nat} {after : Mm} {gone : Set Nat}

theorem Built.outside (built : Built live held mm space after gone) : space ∉ live :=
  fun alive => (built.start.root_page space alive).2 built.fresh

theorem Built.destroyed (built : Built live held mm space after gone) :
    (∀ number, Free mm.pmm number ↔
        Free (destroySpace after space).pmm number ∨ number * pageSize ∈ gone) ∧
      (∀ page, page ∈ gone → ¬ FreeAt (destroySpace after space).pmm page) ∧
      (destroySpace after space).pmm.badFrees = mm.pmm.badFrees ∧
      drift (destroySpace after space).pmm = drift mm.pmm ∧
      Owned (destroySpace after space) live held := by
  obtain ⟨freed, accepted, counted, left⟩ := built.owned.destroy space (Set.mem_insert _ _)
  have remaining : insert space live \ {space} = live := by simp [built.outside]
  rw [remaining] at left
  refine ⟨fun number => ?_, fun page lost => (left.apart page (.inr lost)).2.1,
    accepted.trans built.badFrees, counted.trans built.counter,
    left.held_mono fun page member => .inl member⟩
  have ledger := built.ledger (number * pageSize)
  rw [FreeAt, FreeAt, Nat.mul_div_cancel number (by decide)] at ledger
  rw [freed number]
  constructor
  · intro free
    rcases ledger.mp ⟨free, free_page built.start number free⟩ with ⟨still, _⟩ | inside | lost
    · exact .inl (.inl still)
    · exact .inl (.inr inside)
    · exact .inr lost
  · rintro ((still | inside) | lost)
    · exact (ledger.mpr (.inl ⟨still, free_page built.owned number still⟩)).1
    · exact (ledger.mpr (.inr (.inl inside))).1
    · exact (ledger.mpr (.inr (.inr lost))).1

end Built

/-! ### All outcomes -/

def processThread (k : Kernel) (slot : Nat) (name : List UInt8) (entry userRsp space pa : Nat) :
    Thread :=
  { userThread k slot name entry userRsp space pa with brk := userHeapBase }

inductive Spawned (live held : Set Nat) (k : Kernel) (name : List UInt8) (image : Image) :
    Int × Kernel → Prop
  | noSpace : freeCount k.mm.pmm = 0 → Spawned live held k name image (-1, k)
  | failed (space : Nat) (after : Mm) (gone : Set Nat) : 0 < freeCount k.mm.pmm →
      Built live held k.mm space after gone → FitsExactly k.mm image gone →
      Spawned live held k name image (-1, { k with mm := destroySpace after space })
  | noStack (space : Nat) (after : Mm) (gone : Set Nat) (slot : Nat) : 0 < freeCount k.mm.pmm →
      Built live held k.mm space after gone → FitsExactly k.mm image gone →
      unusedSlot k = some slot →
      (∀ start, ¬ FreeRun after.pmm start 4) →
      Spawned live held k name image (-1,
        { published { k with mm := after } slot name with mm := destroySpace after space })
  | spawned (space : Nat) (after : Mm) (gone : Set Nat) (slot start entry userRsp : Nat)
      (final : Kernel) : Built live held k.mm space after gone →
      ((∀ va, va ∈ spawnPages image → UserPage va) →
        Domain after.mem space (spawnPages image).reverse ∧
          ((spawnPages image).Nodup → gone = ∅)) →
      unusedSlot k = some slot → start ≠ 0 → FreeRun after.pmm start 4 →
      final = ({ k with mm := { after with
          pmm := takeAll after.pmm ((List.range 4).map (start + ·)) } }.setThread slot
        (processThread { k with mm := after } slot name entry userRsp space
          (start * pageSize))).growTable slot →
      Spawned live held k name image (slot, final)

theorem setThread_twice (k : Kernel) (slot : Nat) (first second : Thread) :
    ((k.setThread slot first).growTable slot).setThread slot second =
      (k.setThread slot second).growTable slot := by
  rw [← setThread_setThread k slot first second]
  by_cases grows : k.nrThreads ≤ slot <;>
    simp only [Kernel.growTable, Kernel.setThread, grows, ↓reduceIte]

theorem spawnElf_spawned {live held : Set Nat} (k : Kernel) (name : List UInt8) (image : Image)
    (argv : List (List UInt8)) (owned : Owned k.mm live held) (kernel : k.mm.kernelSpace ∈ live)
    (low : LowImage image) (short : ShortArgs argv) :
    ∃ result, spawnElf k name image argv = .ok result ∧ Spawned live held k name image result := by
  rcases build_cases owned kernel image argv low short with ⟨nothing, none_⟩ |
    ⟨space, fresh, result, after, gone, made, nonzero, some_, equal, built, fits, success⟩
  · refine ⟨_, ?_, .noSpace none_⟩
    rw [spawnElf, nothing]
    rfl
  · rw [spawnElf, made]
    simp only [nonzero, ↓reduceIte, equal]
    cases result with
    | none => exact ⟨_, rfl, .failed space after gone some_ built fits⟩
    | some pair =>
        obtain ⟨entry, userRsp⟩ := pair
        obtain ⟨⟨tid, final⟩, done, created⟩ :=
          threadCreateUser_created { k with mm := after } name entry userRsp space
        simp only [done, ok_bind]
        cases created with
        | noSlot _ => exact ⟨_, rfl, .failed space after gone some_ built fits⟩
        | noStack slot pmm found failed =>
            -- Page 0 is never free, so the allocator has not taken anything.
            have noRun : ¬ FreeRun after.pmm 0 4 := fun run =>
              built.owned.zero ⟨by decide, run.2 0 (by decide)⟩
            obtain ⟨rfl, none_⟩ := failed.resolve_right noRun
            refine ⟨_, ?_, .noStack space after gone slot some_ built fits found none_⟩
            have same : ((published { k with mm := after } slot name).setPmm after.pmm).mm = after := by
              simp [Kernel.setPmm, published, Kernel.setThread]
            simp only [same, show ((-1 : Int) < 0) from by decide, ↓reduceIte, pure_ok]
            rfl
        | created slot start found positive _ run =>
            refine ⟨_, ?_, .spawned space after gone slot start entry userRsp _ built
              (success (by simp)) found positive run rfl⟩
            have proper : ¬ ((slot : Int) < 0) := by omega
            simp only [proper, ↓reduceIte, pure_ok, Int.toNat_natCast, growTable_threads,
              setThread_same, setThread_twice]
            rfl

end Shizuku.Process
