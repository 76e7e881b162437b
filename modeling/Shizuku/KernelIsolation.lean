import Shizuku.MapCalls

/-!
What loading a program means for the kernel half. The tables above index 255 are
shared by all spaces and nobody's to change; a spawn keeps them as long as the pages
that the loader reaches lie in the low half, which it does not check. How far it
gets before memory runs out is told from the free pages and the addresses.
-/

namespace Shizuku.Process

open ByteMemory WordMemory PointerForest Machine Pmm Vmm Elf Sched

/-- What a high address means to a space: its entry in the root, and its translation. -/
def SameHigh (before after : Mm) (root space va : Nat) : Prop :=
  translate after space va = translate before root va ∧
    entry after.mem space (tableIndex va 4) = entry before.mem root (tableIndex va 4)

theorem sameHigh_of_tables {before after : Mm} {root space : Nat}
    (entries : ∀ idx, 256 ≤ idx → idx < 512 → entry after.mem space idx = entry before.mem root idx)
    (tables : ∀ tbl, HighTable before.mem root tbl → SamePage before.mem after.mem tbl)
    (va : Nat) (above : 256 ≤ tableIndex va 4) : SameHigh before after root space va :=
  ⟨translate_high entries tables va above, entries _ above (tableIndex_lt va 4)⟩

theorem SameHigh.between {first second third : Mm} {root space other va : Nat}
    (left : SameHigh first second root space va) (right : SameHigh first third root other va) :
    SameHigh second third space other va :=
  ⟨right.1.trans left.1.symm, right.2.trans left.2.symm⟩

theorem SameHigh.mem_congr {before after final : Mm} {root space va : Nat}
    (same : SameHigh before after root space va) (memory : final.mem = after.mem) :
    SameHigh before final root space va := by
  refine ⟨?_, by rw [memory]; exact same.2⟩
  rw [← same.1, Vmm.translate, Vmm.translate, walk_reads, walk_reads, memory]

section Spawn
variable {k : Kernel} {space : Nat} {after : Mm} {gone : Set Nat}

theorem Ownership.sameTables (own : Ownership k) (other : Nat) (alive : other ∈ liveSpaces k)
    (tbl : Nat) (table : HighTable k.mm.mem other tbl) :
    HighTable k.mm.mem k.mm.kernelSpace tbl := by
  obtain ⟨path, nonempty, high, reached⟩ := table
  have walks : follow (plainChild k.mm.mem) other path =
      follow (plainChild k.mm.mem) k.mm.kernelSpace path :=
    high_follow (own.shared other alive) (fun _ _ _ _ _ => rfl) path nonempty high
  exact ⟨path, nonempty, high, walks.symm.trans reached⟩

theorem HighKept.live_same (own : Ownership k) (kept : HighKept k after) (other : Nat)
    (alive : other ∈ liveSpaces k) (va : Nat) (above : 256 ≤ tableIndex va 4) :
    SameHigh k.mm after other other va :=
  sameHigh_of_tables (kept.entries other alive)
    (fun tbl table => kept.tables tbl (own.sameTables other alive tbl table)) va above

theorem Built.new_same (own : Ownership k)
    (built : Built (liveSpaces k) (heldPages k) k.mm space after gone) (va : Nat)
    (above : 256 ≤ tableIndex va 4) : SameHigh k.mm after k.mm.kernelSpace space va :=
  sameHigh_of_tables built.high (built_highKept own built).tables va above

theorem spawned_memory {live held : Set Nat} {name : List UInt8} {image : Image} {ret : Int}
    {final : Kernel} (outcome : Spawned live held k name image (ret, final)) :
    (final = k ∧ freeCount k.mm.pmm = 0) ∨
      ∃ space after gone, Built live held k.mm space after gone ∧ final.mm.mem = after.mem := by
  cases outcome with
  | noSpace none_ => exact .inl ⟨rfl, none_⟩
  | failed space after gone _ built _ => exact .inr ⟨space, after, gone, built, rfl⟩
  | noStack space after gone slot _ built _ _ _ => exact .inr ⟨space, after, gone, built, rfl⟩
  | spawned space after gone slot start entry userRsp _ built _ _ _ _ shape =>
      refine .inr ⟨space, after, gone, built, ?_⟩
      rw [shape, growTable_mm]
      rfl

theorem newSpace_same (own : Ownership k) {fresh : Mm} (made : newSpace k.mm = (space, fresh))
    (nonzero : space ≠ 0) :
    0 < freeCount k.mm.pmm ∧ Building (insert space (liveSpaces k)) (heldPages k) space fresh fresh ∅ ∧
      ∀ after gone, Building (insert space (liveSpaces k)) (heldPages k) space fresh after gone →
        Built (liveSpaces k) (heldPages k) k.mm space after gone := by
  rcases newSpace_built own.owned (kernel_live k) with ⟨nothing, _⟩ |
    ⟨space', fresh', made', _, count, _, begun, builds⟩
  · rw [nothing, Prod.mk.injEq] at made
    exact absurd made.1.symm nonzero
  · rw [made, Prod.mk.injEq] at made'
    obtain ⟨rfl, rfl⟩ := made'
    exact ⟨by omega, begun, builds⟩

end Spawn

theorem SameHigh.trans {first second third : Mm} {root space other va : Nat}
    (left : SameHigh first second root space va) (right : SameHigh second third space other va) :
    SameHigh first third root other va :=
  ⟨right.1.trans left.1, right.2.trans left.2⟩

/-- With `free` pages and the pages in `placed` mapped, the loop over the rest meets only
pages of the low half until memory runs out: for want of a frame, or of a table. -/
def LowUntilFull : Nat → List Nat → List Nat → Prop
  | _, _, [] => True
  | free, placed, va :: rest =>
      free = 0 ∨ (tableIndex va 4 < 256 ∧ (free < 1 + tablesNeeded placed va ∨
        LowUntilFull (free - (1 + tablesNeeded placed va)) (va :: placed) rest))

/-- One page is for the root of the new space. A walk reads the low 48 bits of an address. -/
def LowReach (k : Kernel) (image : Image) : Prop :=
  LowUntilFull (freeCount k.mm.pmm - 1) [] ((loadVas image).map (· % 2 ^ 48))

theorem lowUntilFull_of_low {vas : List Nat} (free : Nat) (placed : List Nat)
    (low : ∀ va, va ∈ vas → tableIndex va 4 < 256) : LowUntilFull free placed vas := by
  induction vas generalizing free placed with
  | nil => trivial
  | cons va rest ih =>
      exact .inr ⟨low va List.mem_cons_self, .inr (ih _ _ fun other member =>
        low other (List.mem_cons_of_mem _ member))⟩

theorem tableIndex_walked (va lvl : Nat) (low : lvl ≤ 4) : tableIndex (va % 2 ^ 48) lvl = tableIndex va lvl := by
  rw [tableIndex_mod, tableIndex_mod]
  interval_cases lvl <;> omega

theorem front_walked (va : Nat) : front (va % 2 ^ 48) = front va := by
  simp only [front, indices, Nat.reduceAdd, tableIndex_walked, Nat.reduceLeDiff]

theorem full_walked (va : Nat) : full (va % 2 ^ 48) = full va := by
  rw [full, full, front_walked, tableIndex_walked va 1 (by decide)]

theorem userPage_walked {va : Nat} (aligned : va % pageSize = 0) (half : tableIndex va 4 < 256) :
    UserPage (va % 2 ^ 48) := by
  rw [tableIndex_mod] at half
  simp only [UserPage, pageSize] at *
  omega

def SegmentItem (space : Nat) (image : Image) (item : Traced) : Prop :=
  ∃ ph va, item = ((va, fun mm => loadPage space image ph mm va), fun mm => mapSegmentPageCalls mm va) ∧
    va % pageSize = 0 ∧ va + pageSize < 2 ^ 64

theorem imageTraced_segments {image : Image} (valid : headerOk image = true) (space : Nat) (item : Traced)
    (member : item ∈ imageTraced space image) : SegmentItem space image item := by
  obtain ⟨ph, listed, inside⟩ := List.mem_flatMap.mp member
  obtain ⟨va, page, rfl⟩ := List.mem_map.mp inside
  exact ⟨ph, va, rfl, headerPages_bounds valid listed page⟩

section Loader
variable {live held old lost : Set Nat} {level : Nat → Nat} {space : Nat} {base mm : Mm} {image : Image}
  {calls : List MapCall}

/-- The loader asks for the low half alone as long as `LowUntilFull` says so, and then
has built in the low half alone. -/
theorem tracedCalls_low (items : List Traced)
    (segments : ∀ item, item ∈ items → SegmentItem space image item)
    (building : Building live held space base mm lost) (placed : List Nat)
    (domain : Domain mm.mem space placed) (users : ∀ va, va ∈ placed → UserPage va) :
    ((∀ call, call ∈ tracedCalls mm items → tableIndex call.va 4 < 256) ↔
        LowUntilFull (freeCount mm.pmm) placed (items.map fun item => item.1.1 % 2 ^ 48)) ∧
      (LowUntilFull (freeCount mm.pmm) placed (items.map fun item => item.1.1 % 2 ^ 48) →
        ∃ gone, Building live held space base (runItems mm (items.map Prod.fst)).2 gone) := by
  induction items generalizing mm lost placed with
  | nil => exact ⟨by simp [tracedCalls, traceOf, LowUntilFull], fun _ => ⟨lost, building⟩⟩
  | cons item rest ih =>
      obtain ⟨ph, va, rfl, aligned, inside⟩ := segments item List.mem_cons_self
      simp only [tracedCalls, runItems, List.map_cons, traceOf, forEach, LowUntilFull,
        tableIndex_walked va 4 le_rfl]
      rcases building.alloc with ⟨nothing, none_⟩ | ⟨pa, pmm, taken, page, _, count, _⟩
      · -- No frame: nothing is called, and the loop ends.
        have stops : loadPage space image ph mm va = (false, mm) := by
          unfold loadPage mapSegmentPage
          rw [nothing]
          rfl
        have silent : mapSegmentPageCalls mm va = [] := by
          unfold mapSegmentPageCalls
          rw [nothing]
          rfl
        simp only [stops, silent, none_, true_or, List.append_nil, iff_true, forall_const]
        exact ⟨fun _ impossible => absurd impossible List.not_mem_nil, lost, building⟩
      · have positive : freeCount mm.pmm ≠ 0 := by omega
        obtain ⟨call, asked, rfl⟩ : ∃ call, mapSegmentPageCalls mm va = [call] ∧ call.va = va :=
          ⟨⟨zeroTable { mm with pmm := pmm } pa, va⟩,
            by simp only [mapSegmentPageCalls, taken, page.nonzero, if_false], rfl⟩
        rw [asked]
        by_cases half : tableIndex call.va 4 < 256
        · have user := userPage_walked aligned half
          have needed := domain.missing users user
          rw [front_walked] at needed
          have round := loadPage_placed building image ph call.va half aligned inside
          generalize loadPage space image ph mm call.va = result at round
          cases round with
          | exhausted none_ => exact absurd none_ positive
          | leaked _ after _ short _ flying =>
              have little : freeCount mm.pmm < 1 + tablesNeeded placed (call.va % 2 ^ 48) := by omega
              simp only [positive, half, little, true_or, or_true, and_self, List.append_nil,
                List.mem_singleton, forall_eq, forall_const, true_and]
              exact ⟨_, flying⟩
          | placed after spent flying grown =>
              have enough : ¬ freeCount mm.pmm < 1 + tablesNeeded placed (call.va % 2 ^ 48) := by omega
              obtain ⟨same, built⟩ := ih (fun item member => segments item (List.mem_cons_of_mem _ member))
                flying (call.va % 2 ^ 48 :: placed) (domain.snoc _ (by rw [full_walked]; exact grown)) (by
                  rintro other (_ | ⟨_, member⟩)
                  · exact user
                  · exact users other member)
              rw [show freeCount after.pmm = freeCount mm.pmm - (1 + tablesNeeded placed (call.va % 2 ^ 48)) by
                omega] at same built
              simp only [positive, half, enough, false_or, true_and, List.singleton_append, List.mem_cons,
                forall_eq_or_imp]
              exact ⟨same, built⟩
        · simp only [positive, half, false_and, or_false, iff_false, false_implies, and_true]
          exact fun low => half (low call (by simp))

theorem tracedCalls_follows (items : List Traced)
    (segments : ∀ item, item ∈ items → SegmentItem space image item) (alive : space ∈ live)
    (guarded : Guarded mm live held level) (more : old ⊆ held)
    (following : Following live old space base mm calls) :
    (∃ held level, Guarded (runItems mm (items.map Prod.fst)).2 live held level ∧ old ⊆ held) ∧
      Following live old space base (runItems mm (items.map Prod.fst)).2 (calls ++ tracedCalls mm items) := by
  induction items generalizing mm held level calls with
  | nil =>
      rw [show tracedCalls mm [] = [] from rfl, List.append_nil]
      exact ⟨⟨held, level, guarded, more⟩, following⟩
  | cons item rest ih =>
      obtain ⟨ph, va, rfl, aligned, inside⟩ := segments item List.mem_cons_self
      have step := loadPage_follows image ph guarded more following alive aligned inside
      simp only [tracedCalls, runItems, List.map_cons, traceOf, forEach]
      cases shape : loadPage space image ph mm va with
      | mk ok after =>
          rw [shape] at step
          obtain ⟨⟨wide, later, kept, wider⟩, follows⟩ := step
          cases ok with
          | false =>
              rw [List.append_nil]
              exact ⟨⟨wide, later, kept, wider⟩, follows⟩
          | true =>
              rw [← List.append_assoc]
              exact ih (fun item member => segments item (List.mem_cons_of_mem _ member)) kept wider follows

theorem elfLoad_memory (mm : Mm) (space : Nat) (valid : headerOk image = true) :
    (elfLoad mm space image).2 = (runItems mm ((imageTraced space image).map Prod.fst)).2 := by
  rw [elfLoad_items mm space image valid, imageTraced_items]
  rcases runItems mm (imageItems space image) with ⟨_ | _, after⟩ <;> rfl

theorem elfLoad_low (building : Building live held space base mm lost) (domain : Domain mm.mem space []) :
    ((∀ call, call ∈ elfLoadCalls mm space image → tableIndex call.va 4 < 256) ↔
        LowUntilFull (freeCount mm.pmm) [] ((loadVas image).map (· % 2 ^ 48))) ∧
      (LowUntilFull (freeCount mm.pmm) [] ((loadVas image).map (· % 2 ^ 48)) →
        ∃ gone, Building live held space base (elfLoad mm space image).2 gone) := by
  by_cases valid : headerOk image = true
  · rw [elfLoadCalls_traced mm space image valid, elfLoad_memory mm space valid,
      ← imageTraced_pages space image valid, List.map_map]
    exact tracedCalls_low _ (imageTraced_segments valid space) building [] domain (by simp)
  · rw [elfLoadCalls, if_neg valid, loadVas, if_neg valid, elfLoad, if_neg valid]
    exact ⟨by simp [LowUntilFull], fun _ => ⟨lost, building⟩⟩

theorem elfLoad_follows (image : Image) (alive : space ∈ live) (guarded : Guarded mm live held level) :
    (∃ more later, Guarded (elfLoad mm space image).2 live more later ∧ held ⊆ more) ∧
      Following live held space mm (elfLoad mm space image).2 (elfLoadCalls mm space image) := by
  by_cases valid : headerOk image = true
  · rw [elfLoadCalls_traced mm space image valid, elfLoad_memory mm space valid]
    exact tracedCalls_follows _ (imageTraced_segments valid space) alive guarded subset_rfl .refl
  · rw [elfLoadCalls, if_neg valid, elfLoad, if_neg valid]
    exact ⟨⟨held, level, guarded, subset_rfl⟩, .refl⟩

theorem buildUser_loaded (argv : List (List UInt8)) (short : ShortArgs argv)
    (building : Building live held space base (elfLoad mm space image).2 lost) :
    ∃ gone, Building live held space base (buildUser mm space image argv).2 gone := by
  rw [buildUser]
  cases shape : elfLoad mm space image with
  | mk entry loaded =>
      rw [shape] at building
      by_cases zero : entry = 0
      · simp only [zero, ↓reduceIte]
        exact ⟨lost, building⟩
      · obtain ⟨ok, stacked, gone, loop, done, _⟩ := runItems_building (stackItems space)
          stackItems_places building
        simp only [zero, ↓reduceIte]
        rw [forEach_pages, ← stackItems, loop]
        cases ok with
        | false => exact ⟨gone, done⟩
        | true =>
            have pushed := (pushArgv_scribbled done argv short).building
            cases shape : pushArgv stacked space argv with
            | mk sp final =>
                rw [shape] at pushed
                simp only [shape]
                cases sp <;> exact ⟨gone, pushed⟩

end Loader

theorem spawnElf_memory {k after : Kernel} {name : List UInt8} {image : Image} {argv : List (List UInt8)} {ret : Int}
    (done : spawnElf k name image argv = .ok (ret, after)) {space : Nat} {fresh : Mm}
    (made : newSpace k.mm = (space, fresh)) :
    after.mm.mem = if space = 0 then fresh.mem else (buildUser fresh space image argv).2.mem := by
  rw [spawnElf, made] at done
  by_cases zero : space = 0
  · simp only [zero, ↓reduceIte, Except.ok.injEq, Prod.mk.injEq] at done ⊢
    rw [← done.2]
  · simp only [zero, ↓reduceIte] at done ⊢
    cases building : buildUser fresh space image argv with
    | mk result built =>
        rw [building] at done
        cases result with
        | none =>
            simp only [Except.ok.injEq, Prod.mk.injEq] at done
            rw [← done.2]
            rfl
        | some pair =>
            obtain ⟨entry, sp⟩ := pair
            obtain ⟨⟨given, final⟩, created, outcome⟩ :=
              threadCreateUser_created { k with mm := built } name entry sp space
            simp only [created, ok_bind] at done
            -- Neither the thread table nor the bitmap is part of the memory.
            cases outcome with
            | noSlot =>
                simp only [show ((-1 : Int) < 0) from by decide, ↓reduceIte, pure_ok,
                  Except.ok.injEq, Prod.mk.injEq] at done
                rw [← done.2]
                rfl
            | noStack slot pmm =>
                simp only [show ((-1 : Int) < 0) from by decide, ↓reduceIte, pure_ok,
                  Except.ok.injEq, Prod.mk.injEq] at done
                rw [← done.2]
                simp [destroySpace, Kernel.setPmm, published, Kernel.setThread]
            | created slot first _ _ _ run =>
                have proper : ¬ ((slot : Int) < 0) := by omega
                simp only [proper, ↓reduceIte, pure_ok, Except.ok.injEq, Prod.mk.injEq] at done
                rw [← done.2]
                simp [Kernel.setThread, Kernel.setPmm]

/-- The memory before and after a call that loads `image`. -/
inductive LoadCall (k : Kernel) (image : Image) : Mm → Mm → Prop
  | elf (space : Nat) (fresh : Mm) (made : newSpace k.mm = (space, fresh)) (nonzero : space ≠ 0) :
      LoadCall k image fresh (elfLoad fresh space image).2
  | spawn (name : List UInt8) (argv : List (List UInt8)) (ret : Int) (after : Kernel) (short : ShortArgs argv)
      (done : spawnElf k name image argv = .ok (ret, after)) : LoadCall k image k.mm after.mm

/-- Every high address means the same: to each live space, and to the new one since
`newSpace` made it. -/
def KeepsHigh (k : Kernel) (before after : Mm) : Prop :=
  ∀ va, 256 ≤ tableIndex va 4 →
    (∀ other, LiveSpace k other → SameHigh before after other other va) ∧
      ∀ space fresh, newSpace k.mm = (space, fresh) → space ≠ 0 → SameHigh fresh after space space va

/-- A call that leaves no trace at its own page: no table is linked below the root for it,
and the page means what it meant. -/
structure Traceless (space : Nat) (base after : Mm) (call : MapCall) : Prop where
  linked : entry base.mem space (tableIndex call.va 4) &&& pteP ≠ 0 ∨ freeCount call.mm.pmm = 0
  unmoved : translate after space call.va = translate base space call.va

def TracelessLoad (k : Kernel) (image : Image) (after : Mm) : Prop :=
  ∀ space fresh, newSpace k.mm = (space, fresh) → space ≠ 0 → ∀ call, call ∈ elfLoadCalls fresh space image →
    256 ≤ tableIndex call.va 4 → Traceless space fresh after call

section Traces
variable {live held old : Set Nat} {level : Nat → Nat} {space : Nat} {base after : Mm} {calls : List MapCall}

theorem Stores.unmoved {root va : Nat} {call : MapCall} (guarded : Guarded base live old level)
    (following : Following live old space base after calls) (alive : space ∈ live) (rootAlive : root ∈ live)
    (above : 256 ≤ tableIndex va 4) (stores : Stores space after root va call)
    (same : translate after space call.va = translate base space call.va) :
    translate after root va = translate base root va := by
  -- The page was mapped before, so its table is an old one, and `root` led to it as well.
  have mapped := stores.mapped
  rw [same, translate_slot] at mapped
  cases found : slotOf base space call.va with
  | none => simp [found] at mapped
  | some pt =>
      have bottom := guarded.slot_level alive stores.high found
      have there : slotOf after space call.va = some pt := by
        rcases following.slots space call.va alive stores.high with kept | ⟨none_, _⟩
        · exact kept.trans found
        · cases none_.symm.trans found
      have here : slotOf base root va = some pt := by
        rcases following.slots root va rootAlive above with kept | ⟨_, new⟩
        · exact kept.symm.trans (stores.slot.trans there)
        · exact absurd (guarded.tables pt (by omega)) (new pt (stores.slot.trans there))
      have now := stores.mapped
      rw [translate_slot, there] at now
      rw [translate_slot, translate_slot, there, found] at same
      rw [found] at mapped
      rw [translate_slot, translate_slot, stores.slot, there, here, stores.index]
      dsimp only at now same mapped ⊢
      split at now
      · exact absurd rfl now
      · split at mapped
        · exact absurd rfl mapped
        · rename_i present before
          simp only [present, before, ↓reduceIte, stores.aligned, Nat.add_zero] at same ⊢
          rw [same]

theorem Following.unchanged (guarded : Guarded base live old level)
    (following : Following live old space base after calls) (alive : space ∈ live)
    (traceless : ∀ call, call ∈ calls → 256 ≤ tableIndex call.va 4 → Traceless space base after call)
    (root : Nat) (rootAlive : root ∈ live) (va : Nat) (above : 256 ≤ tableIndex va 4) :
    SameHigh base after root root va := by
  constructor
  · rcases following.means root va rootAlive above with same | ⟨call, member, stores⟩
    · exact same
    · exact stores.unmoved guarded following alive rootAlive above (traceless call member stores.high).unmoved
  · rcases following.roots root _ rootAlive above (tableIndex_lt va 4) with same |
      ⟨_, absent, call, member, index, positive⟩
    · exact same
    · rw [← index] at absent above
      rcases (traceless call member above).linked with present | none_
      · exact absurd absent present
      · omega

theorem Following.traceless (following : Following live old space base after calls)
    (same : ∀ va, 256 ≤ tableIndex va 4 → SameHigh base after space space va) (call : MapCall)
    (member : call ∈ calls) (above : 256 ≤ tableIndex call.va 4) : Traceless space base after call := by
  refine ⟨?_, (same call.va above).1⟩
  by_cases none_ : freeCount call.mm.pmm = 0
  · exact .inr none_
  · refine .inl ?_
    rw [← (same call.va above).2]
    exact following.linked call member above (by omega)

end Traces

section Calls
variable {k : Kernel} {image : Image} {before after : Mm} {space : Nat} {fresh : Mm}

theorem LoadCall.nothing (loads : LoadCall k image before after) (made : newSpace k.mm = (0, k.mm)) :
    before = k.mm ∧ after.mem = k.mm.mem := by
  cases loads with
  | elf space fresh other nonzero => exact absurd (Prod.mk.inj (other.symm.trans made)).1 nonzero
  | spawn name argv ret final short done => exact ⟨rfl, spawnElf_memory done made⟩

theorem LoadCall.built (loads : LoadCall k image before after) (made : newSpace k.mm = (space, fresh)) (nonzero : space ≠ 0)
    {live held lost : Set Nat} {base : Mm} (building : Building live held space base (elfLoad fresh space image).2 lost) :
    (before = fresh ∨ before = k.mm) ∧ ∃ built gone, Building live held space base built gone ∧ after.mem = built.mem := by
  cases loads with
  | elf _ _ other _ =>
      obtain ⟨rfl, rfl⟩ := Prod.mk.inj (other.symm.trans made)
      exact ⟨.inl rfl, _, lost, building, rfl⟩
  | spawn name argv ret final short done =>
      obtain ⟨gone, built⟩ := buildUser_loaded argv short building
      have memory := spawnElf_memory done made
      rw [if_neg nonzero] at memory
      exact ⟨.inr rfl, _, gone, built, memory⟩

/-- `newSpace` itself changes no high address of a live space. -/
theorem keepsHigh_of_new (own : Ownership k) (made : newSpace k.mm = (space, fresh)) (nonzero : space ≠ 0)
    (start : before = fresh ∨ before = k.mm)
    (same : ∀ root, root ∈ insert space (liveSpaces k) → ∀ va, 256 ≤ tableIndex va 4 →
      SameHigh fresh after root root va) : KeepsHigh k before after := by
  obtain ⟨_, begun, builds⟩ := newSpace_same own made nonzero
  intro va above
  refine ⟨fun other alive => ?_, fun root memory again _ => ?_⟩
  · have kept := same other (.inr alive.live) va above
    rcases start with rfl | rfl
    · exact kept
    · exact ((built_highKept own (builds fresh ∅ begun)).live_same own other alive.live va above).trans kept
  · obtain ⟨rfl, rfl⟩ := Prod.mk.inj (again.symm.trans made)
    exact same root (Set.mem_insert _ _) va above

theorem newSpace_cleared (own : Ownership k) :
    newSpace k.mm = (0, k.mm) ∧ freeCount k.mm.pmm = 0 ∨ ∃ space fresh, newSpace k.mm = (space, fresh) ∧ space ≠ 0 ∧
      freeCount fresh.pmm = freeCount k.mm.pmm - 1 ∧ Domain fresh.mem space [] ∧
      Building (insert space (liveSpaces k)) (heldPages k) space fresh fresh ∅ := by
  refine (newSpace_built own.owned (kernel_live k)).imp id ?_
  rintro ⟨space, fresh, made, nonzero, count, domain, begun, _⟩
  exact ⟨space, fresh, made, nonzero, by omega, domain, begun⟩

theorem lowReach_iff (own : Ownership k) (image : Image) :
    LowReach k image ↔ ∀ space fresh, newSpace k.mm = (space, fresh) → space ≠ 0 →
      ∀ call, call ∈ elfLoadCalls fresh space image → tableIndex call.va 4 < 256 := by
  rcases newSpace_cleared own with ⟨nothing, none_⟩ | ⟨space, fresh, made, nonzero, count, domain, begun⟩
  · refine ⟨fun _ space fresh made nonzero => absurd (Prod.mk.inj (made.symm.trans nothing)).1 nonzero, fun _ => ?_⟩
    rw [LowReach, none_]
    cases (loadVas image).map (· % 2 ^ 48) with
    | nil => trivial
    | cons va rest => exact .inl rfl
  · rw [LowReach, ← count, ← (elfLoad_low begun domain).1]
    refine ⟨fun low root memory again _ => ?_, fun low => low space fresh made nonzero⟩
    obtain ⟨rfl, rfl⟩ := Prod.mk.inj (again.symm.trans made)
    exact low

theorem keepsHigh_nothing (nothing : newSpace k.mm = (0, k.mm)) (loads : LoadCall k image before after) :
    KeepsHigh k before after := by
  obtain ⟨rfl, memory⟩ := loads.nothing nothing
  refine fun va above => ⟨fun other _ => SameHigh.mem_congr ⟨rfl, rfl⟩ memory, fun space fresh made nonzero => ?_⟩
  exact absurd (Prod.mk.inj (made.symm.trans nothing)).1 nonzero

theorem keepsHigh_of_low (own : Ownership k) (low : LowReach k image) (loads : LoadCall k image before after) :
    KeepsHigh k before after := by
  rcases newSpace_cleared own with ⟨nothing, _⟩ | ⟨space, fresh, made, nonzero, count, domain, begun⟩
  · exact keepsHigh_nothing nothing loads
  · rw [LowReach, ← count] at low
    obtain ⟨_, _, builds⟩ := newSpace_same own made nonzero
    obtain ⟨_, loaded⟩ := (elfLoad_low begun domain).2 low
    obtain ⟨start, built, gone, done, memory⟩ := loads.built made nonzero loaded
    have first := builds fresh ∅ begun
    have last := builds built gone done
    refine keepsHigh_of_new own made nonzero start fun root alive va above => SameHigh.mem_congr ?_ memory
    rcases alive with rfl | alive
    · exact (first.new_same own va above).between (last.new_same own va above)
    · exact ((built_highKept own first).live_same own root alive va above).between
        ((built_highKept own last).live_same own root alive va above)

theorem fresh_guarded (own : Ownership k) (tables : KernelTables k.mm) (made : newSpace k.mm = (space, fresh))
    (nonzero : space ≠ 0) :
    Guarded fresh (insert space (liveSpaces k)) { tbl | highLevel k.mm.mem k.mm.kernelSpace tbl ≠ 0 }
      (highLevel k.mm.mem k.mm.kernelSpace) := by
  obtain ⟨_, begun, builds⟩ := newSpace_same own made nonzero
  have built := builds fresh ∅ begun
  refine newSpace_guarded tables made nonzero (begun.owned.held_mono fun tbl table => ?_) ?_
  · exact .inl (.inr (highLevel_table table))
  · rintro root (rfl | alive) idx above inside
    · exact built.high idx above inside
    · rw [(built_highKept own built).entries root alive idx above inside]
      exact own.shared root alive idx above inside

theorem keepsHigh_iff (own : Ownership k) (tables : KernelTables k.mm) (loads : LoadCall k image before after) :
    KeepsHigh k before after ↔ TracelessLoad k image after := by
  rcases newSpace_cleared own with ⟨nothing, _⟩ | ⟨space, fresh, made, nonzero, _⟩
  · refine ⟨fun _ space fresh made nonzero => ?_, fun _ => keepsHigh_nothing nothing loads⟩
    exact absurd (Prod.mk.inj (made.symm.trans nothing)).1 nonzero
  · have alive : space ∈ insert space (liveSpaces k) := Set.mem_insert _ _
    have guarded := fresh_guarded own tables made nonzero
    obtain ⟨⟨more, later, kept, wider⟩, following⟩ := elfLoad_follows image alive guarded
    obtain ⟨start, built, gone, done, memory⟩ := loads.built made nonzero (Building.refl kept.owned alive)
    have follows := following.same alive kept wider (kept.building_same done)
    have same : ∀ root va, SameHigh fresh after root root va ↔ SameHigh fresh built root root va :=
      fun root va => ⟨fun high => high.mem_congr memory.symm, fun high => high.mem_congr memory⟩
    have reads : ∀ va, translate after space va = translate built space va := fun va => by
      rw [Vmm.translate, Vmm.translate, walk_reads, walk_reads, memory]
    constructor
    · intro keeps root mem again _ call member above
      obtain ⟨rfl, rfl⟩ := Prod.mk.inj (again.symm.trans made)
      have trace := follows.traceless (fun va high => (same root va).mp ((keeps va high).2 root mem made nonzero))
        call member above
      exact ⟨trace.linked, (reads call.va).trans trace.unmoved⟩
    · intro traceless
      refine keepsHigh_of_new own made nonzero start fun root rootAlive va above => (same root va).mpr ?_
      refine follows.unchanged guarded alive (fun call member high => ?_) root rootAlive va above
      have trace := traceless space fresh made nonzero call member high
      exact ⟨trace.linked, (reads call.va).symm.trans trace.unmoved⟩

end Calls

/-- When loading a program keeps the kernel half, after any run whose images keep to the
low half. The loader asks `vmm::map` for pages of the low half alone exactly if it
meets no other page before memory runs out, and then nothing changes. If it does ask
for high pages, nothing changes exactly if none of these calls leaves a trace at its
own page; this needs boot tables that serve one level each. -/
theorem kernel_half_kept_iff (start k : Kernel) (booted : Sched.Booted start)
    (run : Run step Allowed start k) (image : Image) :
    (LowReach k image ↔ ∀ space fresh, newSpace k.mm = (space, fresh) → space ≠ 0 →
      ∀ call, call ∈ elfLoadCalls fresh space image → tableIndex call.va 4 < 256) ∧
    ∀ before after, LoadCall k image before after →
      (LowReach k image → KeepsHigh k before after) ∧
      (OneLevel start.mm.mem start.mm.kernelSpace →
        (KeepsHigh k before after ↔ TracelessLoad k image after)) := by
  have own := (run_ownership start k booted run).1
  refine ⟨lowReach_iff own image, fun before after loads => ⟨fun low => keepsHigh_of_low own low loads,
    fun levels => keepsHigh_iff own (run_kernelTables start k booted levels run) loads⟩⟩

/-- A low image that is loaded, and a high one on a machine without a free page. -/
theorem kernel_half_kept_small :
    (∃ start after, Sched.Booted start ∧ LowReach start (smallImage 0x400000) ∧
      spawnElf start [] (smallImage 0x400000) [] = .ok (1, after) ∧ KeepsHigh start start.mm after.mm) ∧
    ∃ start after, Sched.Booted start ∧ LowReach start (smallImage 0xFFFF800000000000) ∧
      spawnElf start [] (smallImage 0xFFFF800000000000) [] = .ok (-1, after) ∧
      KeepsHigh start start.mm after.mm := by
  have short : ShortArgs [] := fun bytes member => by cases member
  constructor
  · have booted := bootedKernel_booted _ _ blankMachine_wide
    have returned := smallImage_spawns
    generalize Vmm.init (blankMachine (-2)) (2 ^ 29) = mm at booted returned
    obtain ⟨after, done⟩ := ok_of_returned _ _ returned
    have low : LowReach (bootedKernel mm) (smallImage 0x400000) := lowUntilFull_of_low _ _ (by decide +kernel)
    exact ⟨_, after, booted, low, done, ((kernel_half_kept_iff _ _ booted Relation.ReflTransGen.refl _).2 _ _
      (.spawn [] [] 1 after short done)).1 low⟩
  · have booted := bootedKernel_booted _ _ (blankMachine_limine 2 (by decide) 1 (by decide) (by decide))
    have count := blank_freeCount 2 [] (by decide) (by simp) (by decide +kernel)
    have returned : (spawnElf (bootedKernel (Vmm.init (blankMachine 2) (2 ^ 29))) []
        (smallImage 0xFFFF800000000000) []).map Prod.fst = .ok (-1) := by decide +kernel
    generalize Vmm.init (blankMachine 2) (2 ^ 29) = mm at booted count returned
    obtain ⟨after, done⟩ := ok_of_returned _ _ returned
    have low : LowReach (bootedKernel mm) (smallImage 0xFFFF800000000000) := by
      rw [LowReach, bootedKernel_mm, count]
      exact .inl rfl
    exact ⟨_, after, booted, low, done, ((kernel_half_kept_iff _ _ booted Relation.ReflTransGen.refl _).2 _ _
      (.spawn [] [] (-1) after short done)).1 low⟩

/-! ### An image that does not keep to the low half -/

/-- Boot tables for the first 2 MiB of the kernel half, with nothing mapped there. -/
def linkedTables : Nat → UInt8 :=
  write64 (write64 (write64 (fun _ => 0)
    (2 ^ 29 + 8 * 256) (2 ^ 29 + pageSize + 3))
    (2 ^ 29 + pageSize) (2 ^ 29 + 2 * pageSize + 3))
    (2 ^ 29 + 2 * pageSize) (2 ^ 29 + 3 * pageSize + 3)

def linkedMachine : Mm := { blankMachine (-2) with mem := linkedTables }

theorem read64_write64_aligned (mem : Nat → UInt8) (addr other value : Nat)
    (aligned : addr % 8 = 0) (otherAligned : other % 8 = 0) :
    read64 (write64 mem addr value) other =
      if other = addr then value % 2 ^ 64 else read64 mem other := by
  split
  · rename_i same
    rw [same, read64_write64]
  · rename_i different
    exact read64_write64_apart mem addr other value (by omega)

theorem linkedTables_child (tbl idx next : Nat) (aligned : tbl % pageSize = 0)
    (linked : plainChild linkedTables tbl idx = some next) : 2 ^ 29 ≤ next := by
  simp only [pageSize] at aligned
  have word : (tbl + 8 * idx) % 8 = 0 := by omega
  have blank : read64 (fun _ => 0) (tbl + 8 * idx) = 0 := read64_zeroed _ _ fun _ _ _ => rfl
  have value : ∀ e, (e = 0 ∨ e = 2 ^ 29 + pageSize + 3 ∨ e = 2 ^ 29 + 2 * pageSize + 3 ∨
      e = 2 ^ 29 + 3 * pageSize + 3) → (if e &&& pteP = 0 ∨ e &&& ptePs ≠ 0 then none
        else some (e &&& pteAddrMask)) = some next → 2 ^ 29 ≤ next := by
    rintro e (rfl | rfl | rfl | rfl) shape
    · cases shape
    all_goals
      rw [if_neg (by decide), Option.some.injEq] at shape
      rw [← shape]
      decide
  refine value (entry linkedTables tbl idx) ?_ linked
  rw [entry, linkedTables, read64_write64_aligned _ _ _ _ (by decide) word,
    read64_write64_aligned _ _ _ _ (by decide) word,
    read64_write64_aligned _ _ _ _ (by decide) word, blank]
  split
  · exact .inr (.inr (.inr (by decide)))
  · split
    · exact .inr (.inr (.inl (by decide)))
    · split
      · exact .inr (.inl (by decide))
      · exact .inl rfl

theorem linkedMachine_limine : Limine linkedMachine (2 ^ 29) := by
  have blank := blankMachine_wide
  refine ⟨blank.zero, blank.memory, blank.direct, fun path tbl _ reached free => ?_⟩
  -- Every table the boot loader left lies above the memory that the allocator manages.
  have beyond : 2 ^ 29 ≤ tbl := by
    rcases List.eq_nil_or_concat' path with rfl | ⟨first, index, rfl⟩
    · rw [PointerForest.follow_nil, Option.some.injEq] at reached
      rw [← reached]
      decide
    · rw [follow_snoc] at reached
      obtain ⟨middle, before, linked⟩ := Option.bind_eq_some_iff.mp reached
      refine linkedTables_child middle index tbl ?_ linked
      rcases List.eq_nil_or_concat' first with rfl | ⟨start, place, rfl⟩
      · rw [PointerForest.follow_nil, Option.some.injEq] at before
        rw [← before]
        decide
      · rw [follow_snoc] at before
        obtain ⟨previous, _, link⟩ := Option.bind_eq_some_iff.mp before
        exact plainChild_aligned _ previous place middle link
  have inside := free.1
  simp only [pageSize, bitmapPages, pmmMaxPhys] at inside
  omega

/-- The loader maps a segment into the shared tables: the spawn succeeds, and an
address of the kernel half means something else in `KERNEL_SPACE`. -/
theorem high_segment_remaps_kernel :
    ∃ start after, Sched.Booted start ∧
      spawnElf start [] (smallImage 0xFFFF800000000000) [] = .ok (1, after) ∧
      256 ≤ tableIndex 0xFFFF800000000000 4 ∧
      translate start.mm start.mm.kernelSpace 0xFFFF800000000000 = 0 ∧
      translate after.mm start.mm.kernelSpace 0xFFFF800000000000 ≠ 0 := by
  have booted := bootedKernel_booted _ _ linkedMachine_limine
  have before : translate (Vmm.init linkedMachine (2 ^ 29))
      (Vmm.init linkedMachine (2 ^ 29)).kernelSpace 0xFFFF800000000000 = 0 := by decide +kernel
  have evaluated : ((spawnElf (bootedKernel (Vmm.init linkedMachine (2 ^ 29))) []
      (smallImage 0xFFFF800000000000) []).map fun result => (result.1, decide (translate result.2.mm
        (Vmm.init linkedMachine (2 ^ 29)).kernelSpace 0xFFFF800000000000 ≠ 0))) =
      .ok (1, true) := by decide +kernel
  generalize Vmm.init linkedMachine (2 ^ 29) = mm at booted before evaluated
  cases shape : spawnElf (bootedKernel mm) [] (smallImage 0xFFFF800000000000) [] with
  | error panic =>
      rw [shape] at evaluated
      cases evaluated
  | ok result =>
      obtain ⟨ret, after⟩ := result
      rw [shape] at evaluated
      simp only [Except.map, Except.ok.injEq, Prod.mk.injEq, decide_eq_true_eq] at evaluated
      obtain ⟨rfl, changed⟩ := evaluated
      exact ⟨_, after, booted, shape, by decide, before, changed⟩

end Shizuku.Process
