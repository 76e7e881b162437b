import Shizuku.ContextSwitches
import Shizuku.KernelIsolation
import Shizuku.PageContents

/-!
Processes do not write to each other's memory. Beside the kernel's own steps there are
the stores of the running program, and the kernel's copies into its buffers: both go
through CR3. That they end in the pages of the running process rests on the scheduler,
which loads CR3 only when the space changes, and on the ownership of pages.
-/

namespace Shizuku.Process

open ByteMemory WordMemory PointerForest Machine Pmm Vmm Elf Sched

/-- A byte stored at a user address; a store to an unmapped page faults and is not made. -/
def store (k : Kernel) (va : Nat) (byte : UInt8) : Kernel :=
  let pa := translate k.mm k.cr3 va
  if pa = 0 then k else { k with mm := { k.mm with mem := blit k.mm.mem pa [byte] } }

inductive Act where
  | call (op : Op)
  | store (va : Nat) (byte : UInt8)

def act (k : Kernel) : Act → Outcome (Int × Kernel)
  | .call op => step k op
  | .store va byte => .ok (0, store k va byte)

/-- Stores come from user threads, and a thread is not reaped while it runs. -/
def Admitted (k : Kernel) : Act → Prop
  | .call op => Allowed k op ∧ op ≠ .reap k.currentIdx
  | .store va _ => (k.threads k.currentIdx).isUser = true ∧ va < 2 ^ 47

/-- The steps that thread `slot` makes on its own memory, and its end. -/
def Concerns (slot : Nat) (k : Kernel) : Act → Prop
  | .call (.sbrk _) => k.currentIdx = slot
  | .call (.reap tid) => tid = slot
  | .store _ _ => k.currentIdx = slot
  | .call _ => False

structure Dispatched (k : Kernel) : Prop where
  occupied : (k.threads k.currentIdx).state ≠ .unused
  active : (k.threads k.currentIdx).space ≠ 0 → k.cr3 = (k.threads k.currentIdx).space

theorem Dispatched.congr {k after : Kernel} (running : Dispatched k)
    (current : after.currentIdx = k.currentIdx) (cr3 : after.cr3 = k.cr3)
    (state : (after.threads k.currentIdx).state = .unused → (k.threads k.currentIdx).state = .unused)
    (space : (after.threads k.currentIdx).space = (k.threads k.currentIdx).space) :
    Dispatched after := by
  refine ⟨fun unused => running.occupied (state (current ▸ unused)), fun some_ => ?_⟩
  rw [current, space] at some_ ⊢
  rw [cr3, running.active some_]

theorem tick_running {k : Kernel} (running : Dispatched k) (f : IrqFrame) :
    Dispatched (schedTick k f).2 := by
  rcases schedTick_cases k f with ⟨slice, same⟩ | ⟨target, switched⟩
  · rw [same]
    exact running.congr rfl rfl id rfl
  · have there : (schedTick k f).2.threads target = k.threads target := by
      rw [switched.threads]
      exact setThread_other k k.currentIdx target _ switched.different
    refine ⟨?_, fun some_ => ?_⟩
    · rw [switched.current, there, switched.runnable]
      decide
    · rw [switched.current, there] at some_ ⊢
      rw [switched.cr3]
      by_cases same : (k.threads target).space = (k.threads k.currentIdx).space
      · rw [if_neg fun both => both.2 same, same]
        exact running.active (same ▸ some_)
      · rw [if_pos ⟨some_, same⟩]

theorem exit_running {k : Kernel} (running : Dispatched k) (t : Thread) (f : IrqFrame)
    (space : t.space = (k.threads k.currentIdx).space) (state : t.state ≠ .unused) :
    Dispatched (schedYield (k.setThread k.currentIdx t) f).2 := by
  have here := setThread_same k k.currentIdx t
  have left : Dispatched { k.setThread k.currentIdx t with lastSlice := timesliceTicks } :=
    running.congr rfl rfl
      (fun unused => absurd ((congrArg Thread.state here).symm.trans unused) state)
      ((congrArg Thread.space here).trans space)
  exact tick_running left f

structure Beside (k after : Kernel) : Prop where
  current : after.currentIdx = k.currentIdx
  cr3 : after.cr3 = k.cr3
  threads : ∀ slot, (k.threads slot).state ≠ .unused → after.threads slot = k.threads slot

theorem Beside.running {k after : Kernel} (beside : Beside k after) (running : Dispatched k) :
    Dispatched after := by
  have same := beside.threads k.currentIdx running.occupied
  exact running.congr beside.current beside.cr3 (fun unused => same ▸ unused) (by rw [same])

theorem beside_setThread {k : Kernel} {slot : Nat} (t : Thread) (mm : Mm)
    (found : unusedSlot k = some slot) :
    Beside k (({ k with mm := mm }.setThread slot t).growTable slot) where
  current := by simp [Kernel.setThread]
  cr3 := by
    unfold Kernel.growTable
    split <;> rfl
  threads other busy := by
    have different : other ≠ slot := by
      rintro rfl
      exact busy (unusedSlot_some k other found).2
    rw [growTable_threads]
    exact setThread_other { k with mm := mm } slot other t different

theorem Beside.remade {k after : Kernel} (beside : Beside k after) (mm : Mm) :
    Beside k { after with mm := mm } :=
  ⟨beside.current, beside.cr3, beside.threads⟩

theorem spawned_beside {k final : Kernel} {live held : Set Nat} {name : List UInt8} {image : Image}
    {ret : Int} (outcome : Spawned live held k name image (ret, final)) : Beside k final := by
  have idle : ∀ mm, Beside k { k with mm := mm } := fun mm => ⟨rfl, rfl, fun _ _ => rfl⟩
  cases outcome with
  | noSpace => exact idle k.mm
  | failed space after => exact idle _
  | noStack space after gone slot _ _ _ found =>
      exact (beside_setThread _ after found).remade _
  | spawned space after gone slot start entry userRsp final _ _ found _ _ made =>
      rw [made]
      exact beside_setThread _ _ found

theorem kthreadCreated_beside {k final : Kernel} {name : List UInt8} {f arg : Nat} {ret : Int}
    (created : KthreadCreated k name f arg (ret, final)) :
    Beside k final ∧ final.mm.mem = k.mm.mem := by
  cases created with
  | noSlot => exact ⟨⟨rfl, rfl, fun _ _ => rfl⟩, rfl⟩
  | noStack => exact ⟨⟨rfl, rfl, fun _ _ => rfl⟩, rfl⟩
  | created slot start found => exact ⟨beside_setThread _ _ found, by simp [Kernel.setThread, Kernel.setPmm]⟩

section Stores
variable {k : Kernel} {va : Nat}

theorem mapped_frame (own : Ownership k) {space : Nat} (alive : space ∈ liveSpaces k)
    (below : va < 2 ^ 47) (mapped : translate k.mm space va ≠ 0) :
    ∃ frame flags, pageMap k.mm space (va / pageSize) = some (frame, flags) ∧
      translate k.mm space va = frame + va % pageSize := by
  have reads := translate_readMap own.owned.plain space va alive below
  unfold readMap at reads
  cases found : pageMap k.mm space (va / pageSize) with
  | none => exact absurd (by rw [reads, found]) mapped
  | some both => exact ⟨both.1, both.2, rfl, by rw [reads, found]⟩

theorem store_frame (own : Ownership k) (running : Dispatched k)
    (user : (k.threads k.currentIdx).isUser = true) (below : va < 2 ^ 47)
    (mapped : translate k.mm k.cr3 va ≠ 0) :
    ∃ frame flags, k.cr3 ∈ liveSpaces k ∧ ownSpace (k.threads k.currentIdx) = some k.cr3 ∧
      pageMap k.mm k.cr3 (va / pageSize) = some (frame, flags) ∧
      translate k.mm k.cr3 va = frame + va % pageSize := by
  -- The address that the running process stores to lies in a frame of its space.
  have mine : ownSpace (k.threads k.currentIdx) = some (k.threads k.currentIdx).space := by
    rw [ownSpace, if_pos user]
  have alive : (k.threads k.currentIdx).space ∈ liveSpaces k := .inr ⟨_, mine⟩
  have root := running.active (own.owned.root_page _ alive).1.nonzero
  rw [← root] at mine alive
  obtain ⟨frame, flags, found, place⟩ := mapped_frame own alive below mapped
  exact ⟨frame, flags, alive, mine, found, place⟩

theorem pageMap_view {mm : Mm} {space number frame flags : Nat}
    (mapped : pageMap mm space number = some (frame, flags)) :
    view mm.mem space (full (number * pageSize)) = some frame := by
  rw [pageMap] at mapped
  obtain ⟨e, found, pair⟩ := Option.map_eq_some_iff.mp mapped
  rw [← leafEntry_view, found, Option.map_some, (Prod.mk.inj pair).1]

theorem store_outside {pa frame : Nat} (byte : UInt8) (mem : Nat → UInt8)
    (inside : pa = frame + va % pageSize) (place : Nat)
    (outside : place < frame ∨ frame + pageSize ≤ place) : blit mem pa [byte] place = mem place := by
  have offset : va % pageSize < pageSize := Nat.mod_lt _ (by decide)
  apply blit_outside
  simp only [List.length_singleton]
  omega

theorem store_ownership (own : Ownership k) (running : Dispatched k)
    (user : (k.threads k.currentIdx).isUser = true) (below : va < 2 ^ 47) (byte : UInt8) :
    Ownership (store k va byte) ∧ ∀ page, page % pageSize = 0 → ¬ InTree k.mm.mem k.cr3 page →
      SamePage k.mm.mem (store k va byte).mm.mem page := by
  unfold store
  by_cases mapped : translate k.mm k.cr3 va = 0
  · simp only [mapped, ↓reduceIte]
    exact ⟨own, fun _ _ _ _ _ _ => rfl⟩
  obtain ⟨frame, flags, alive, mine, found, place⟩ := store_frame own running user below mapped
  have small := page_number_below va below
  obtain ⟨isPage, used, noTable⟩ := own.owned.frame alive small found
  have outside : ∀ place, place < frame ∨ frame + pageSize ≤ place → _ :=
    store_outside byte k.mm.mem place
  obtain ⟨owned, _, _, others⟩ := own.owned.scribble frame _ isPage.aligned noTable outside
  have named : Named (liveSpaces k) k.cr3 (full (va / pageSize * pageSize)) :=
    ⟨alive, low_full _ (tableIndex_low _ (page_below _ small))⟩
  have reached := pageMap_view found
  simp only [mapped, ↓reduceIte]
  refine ⟨own.remake ⟨rfl, fun tbl table => ?_, fun space live idx low high => ?_⟩ owned, ?_⟩
  · obtain ⟨aligned, _, unseen⟩ := own.owned.apart tbl (.inr table)
    exact others tbl aligned fun same => unseen _ _ named (same ▸ reached)
  · have aligned := (own.owned.root_page space live).1.aligned
    have apart : space ≠ frame := fun same =>
      noTable space [] ⟨live, low_nil⟩ (by decide) (by rw [view_nil, same])
    exact (others space aligned apart).entry idx high
  · intro page aligned foreign
    exact others page aligned fun same => foreign ⟨_, named.2, same ▸ reached⟩

end Stores

structure Steady (k : Kernel) : Prop where
  own : Ownership k
  running : Dispatched k

structure Spared (slot space : Nat) (k after : Kernel) : Prop where
  mine : ownSpace (after.threads slot) = some space
  pages : ∀ path page, Low path → view k.mm.mem space path = some page →
    SamePage k.mm.mem after.mm.mem page

theorem store_threads (k : Kernel) (va : Nat) (byte : UInt8) :
    (store k va byte).threads = k.threads ∧ (store k va byte).currentIdx = k.currentIdx ∧
      (store k va byte).cr3 = k.cr3 := by
  by_cases mapped : translate k.mm k.cr3 va = 0
  · simp [store, mapped]
  · simp [store, mapped]

theorem reap_cases {k after : Kernel} (own : Ownership k) {tid : Nat}
    (done : schedReap k tid = .ok after) :
    after = k ∨ ∃ mm, mm.mem = k.mm.mem ∧ after = { k with mm := mm }.setThread tid .zeroed := by
  unfold schedReap at done
  obtain ⟨_, _, rest⟩ := (bind_ok _ _ _).mp done
  split at rest
  · exact .inl (Except.ok.inj rest).symm
  · exact .inr ⟨_, (freeThread_spec own tid).2.2.2.1, (Except.ok.inj rest).symm⟩

section Steps
variable {k after : Kernel} {ret : Int} (steady : Steady k)
include steady

section Memory
variable {slot space : Nat} (mine : ownSpace (k.threads slot) = some space)
include mine

theorem tree_apart {path : List Nat} {page : Nat} (low : Low path)
    (reached : view k.mm.mem space path = some page) :
    page % pageSize = 0 ∧ ¬ FreeAt k.mm.pmm page ∧ ∀ other room, other ≠ slot →
      ownSpace (k.threads other) = some room → ¬ InTree k.mm.mem room page := by
  -- The pages of a space are in use, and no other thread's.
  have own := steady.own
  have named : Named (liveSpaces k) space path := ⟨.inr ⟨slot, mine⟩, low⟩
  obtain ⟨isPage, used⟩ := own.owned.valid space path page named reached
  refine ⟨isPage.aligned, used, fun other room different theirs => ?_⟩
  rintro ⟨way, lowWay, there⟩
  have same := (own.owned.unshared _ _ _ _ _ named ⟨.inr ⟨other, theirs⟩, lowWay⟩ reached there).1
  exact different (own.spaceApart other slot room theirs (same ▸ mine))

theorem occupied : (k.threads slot).state ≠ .unused := by
  intro unused
  rw [(steady.own.idle slot unused).1] at mine
  cases mine

theorem Beside.spared (beside : Beside k after)
    (keeps : ∀ page, page % pageSize = 0 → ¬ FreeAt k.mm.pmm page →
      SamePage k.mm.mem after.mm.mem page) : Spared slot space k after where
  mine := by rw [beside.threads slot (occupied steady mine), mine]
  pages path page low reached :=
    let apart := tree_apart steady mine low reached
    keeps page apart.1 apart.2.1

omit steady in
theorem quiet_spared (quiet : after.mm = k.mm ∧
      ∀ slot, SameHolding (k.threads slot) (after.threads slot)) : Spared slot space k after where
  mine := by rw [(quiet.2 slot).toSameOwner.ownSpace, mine]
  pages _ _ _ _ := by rw [quiet.1]; exact fun _ _ _ => rfl

end Memory

theorem sbrk_spares (rdi : Nat) (user : (k.threads k.currentIdx).isUser = true)
    (done : sysSbrk k rdi = (ret, after)) :
    Dispatched after ∧ ∀ slot space, ownSpace (k.threads slot) = some space → k.currentIdx ≠ slot →
      Spared slot space k after := by
  have running := steady.running
  have theirs : ownSpace (k.threads k.currentIdx) = some (k.threads k.currentIdx).space := by
    rw [ownSpace, if_pos user]
  have grown := sysSbrk_grown steady.own rdi user
  rw [done] at grown
  have kept {slot space : Nat} (mine : ownSpace (k.threads slot) = some space)
      (away : k.currentIdx ≠ slot) {mm : Mm} {gone : Set Nat} (building : Building (liveSpaces k)
        (heldPages k) (k.threads k.currentIdx).space k.mm mm gone) (path : List Nat) (page : Nat)
      (low : Low path) (reached : view k.mm.mem space path = some page) :
      SamePage k.mm.mem mm.mem page := by
    obtain ⟨aligned, used, apart⟩ := tree_apart steady mine low reached
    exact building.keeps page aligned used (apart _ _ away theirs)
  cases grown with
  | unchanged => exact ⟨running, fun _ _ mine _ => ⟨mine, fun _ _ _ _ _ _ _ => rfl⟩⟩
  | exhausted mm gone building =>
      exact ⟨running.congr rfl rfl id rfl, fun _ _ mine away => ⟨mine, kept mine away building⟩⟩
  | grown new mm gone _ _ building =>
      refine ⟨running.congr rfl rfl (fun unused => ?_) ?_, fun slot _ mine away =>
        ⟨?_, kept mine away building⟩⟩
      · rwa [setThread_same] at unused
      · rw [setThread_same]
      · rw [setThread_other { k with mm := mm } k.currentIdx slot _ (Ne.symm away)]
        exact mine

theorem call_spares {op : Op} (allowed : Allowed k op) (elsewhere : op ≠ .reap k.currentIdx)
    (done : step k op = .ok (ret, after)) :
    Dispatched after ∧ ∀ slot space, ownSpace (k.threads slot) = some space →
      ¬ Concerns slot k (.call op) → Spared slot space k after := by
  have own := steady.own
  have running := steady.running
  cases op with
  | spawnElf name image argv =>
      obtain ⟨result, taken, outcome⟩ := spawnElf_spawned k name image argv own.owned
        (kernel_live k) allowed.1 allowed.2
      obtain rfl : result = (ret, after) := Except.ok.inj (taken.symm.trans done)
      have beside := spawned_beside outcome
      refine ⟨beside.running running, fun slot space mine _ =>
        beside.spared steady mine fun page aligned used => ?_⟩
      rcases spawned_memory outcome with ⟨rfl, _⟩ | ⟨_, built, _, made, memory⟩
      · exact fun _ _ _ => rfl
      · rw [memory]
        exact made.keeps page aligned used
  | sbrk rdi => exact sbrk_spares steady rdi allowed (Except.ok.inj done)
  | kthreadCreate name f arg =>
      obtain ⟨result, taken, created⟩ := kthreadCreate_created k name f arg
      obtain rfl : result = (ret, after) := Except.ok.inj (taken.symm.trans done)
      obtain ⟨beside, memory⟩ := kthreadCreated_beside created
      exact ⟨beside.running running, fun _ _ mine _ => beside.spared steady mine fun _ _ _ => by
        rw [memory]; exact fun _ _ _ => rfl⟩
  | threadExit f =>
      cases done
      exact ⟨exit_running running _ f rfl (by simp), fun _ _ mine _ =>
        quiet_spared mine (schedThreadExit_holdings k f)⟩
  | sysExit status f =>
      cases done
      refine ⟨?_, fun _ _ mine _ => quiet_spared mine (sysExit_holdings k status f)⟩
      rw [sysExit_yields]
      exact exit_running running _ f rfl (by simp)
  | reap tid =>
      obtain ⟨reaped, taken, rest⟩ := (bind_ok _ _ _).mp done
      cases rest
      rcases reap_cases own taken with rfl | ⟨mm, memory, rfl⟩
      · exact ⟨running, fun _ _ mine _ => ⟨mine, fun _ _ _ _ _ _ _ => rfl⟩⟩
      have others (slot : Nat) (away : slot ≠ tid) :=
        setThread_other { k with mm := mm } tid slot .zeroed away
      have same := others k.currentIdx fun same => elsewhere (by rw [same])
      refine ⟨running.congr rfl rfl (fun unused => (congrArg Thread.state same).symm.trans unused)
        (congrArg Thread.space same), fun slot _ mine foreign => ⟨?_, ?_⟩⟩
      · rw [others slot fun same => foreign same.symm]
        exact mine
      · exact fun _ _ _ _ place _ _ => congrFun memory place
  | tick f =>
      cases done
      exact ⟨tick_running running f, fun _ _ mine _ => quiet_spared mine (schedTick_holdings k f)⟩

theorem act_spares {a : Act} (admitted : Admitted k a) (done : act k a = .ok (ret, after)) :
    Steady after ∧ ∀ slot space, ownSpace (k.threads slot) = some space → ¬ Concerns slot k a →
      Spared slot space k after := by
  cases a with
  | call op =>
      obtain ⟨running, spares⟩ := call_spares steady admitted.1 admitted.2 done
      exact ⟨⟨(step_ownership k op ret after steady.own admitted.1 done).1, running⟩, spares⟩
  | store va byte =>
      cases done
      obtain ⟨threads, current, cr3⟩ := store_threads k va byte
      obtain ⟨own, kept⟩ := store_ownership steady.own steady.running admitted.1 admitted.2 byte
      refine ⟨⟨own, steady.running.congr current cr3 (fun unused => threads ▸ unused)
        (by rw [threads])⟩, fun slot space mine away => ⟨by rw [threads, mine], ?_⟩⟩
      -- the store goes through CR3, which holds the space of the running thread
      intro path page low reached
      obtain ⟨aligned, _, apart⟩ := tree_apart steady mine low reached
      have theirs : ownSpace (k.threads k.currentIdx) = some (k.threads k.currentIdx).space := by
        rw [ownSpace, if_pos admitted.1]
      have nonzero := (steady.own.owned.root_page _ (.inr ⟨_, theirs⟩)).1.nonzero
      rw [← steady.running.active nonzero] at theirs
      exact kept page aligned (apart _ _ away theirs)

end Steps

/-! ### Runs -/

theorem Spared.view {slot space : Nat} {k after : Kernel} (spared : Spared slot space k after)
    (path : List Nat) (low : Low path) :
    Vmm.view after.mm.mem space path = Vmm.view k.mm.mem space path := by
  refine view_same k.mm.mem after.mm.mem {space} (fun root way tbl named _ reached => ?_) space path
    ⟨rfl, low⟩
  obtain rfl : root = space := named.1
  exact spared.pages way tbl named.2 reached

theorem Spared.pageMap {slot space : Nat} {k after : Kernel} (spared : Spared slot space k after)
    {number : Nat} (small : number < 2 ^ 35) :
    Vmm.pageMap after.mm space number = Vmm.pageMap k.mm space number := by
  have live : space ∈ ({space} : Set Nat) := rfl
  have same : ∀ root path tbl, Named {space} root path → path.length < 4 →
      Vmm.view k.mm.mem root path = some tbl → SamePage k.mm.mem after.mm.mem tbl := by
    intro root path tbl named _ reached
    obtain rfl : root = space := named.1
    exact spared.pages path tbl named.2 reached
  have map := pageMap_congr same space number live small
  unfold Vmm.pageMap at map ⊢
  exact map

theorem Spared.trans {slot space : Nat} {k between after : Kernel}
    (first : Spared slot space k between) (second : Spared slot space between after) :
    Spared slot space k after where
  mine := second.mine
  pages path page low reached := by
    have kept := first.pages path page low reached
    have further := second.pages path page low ((first.view path low).trans reached)
    exact fun place above below => (further place above below).trans (kept place above below)

theorem init_steady (start : Kernel) (booted : Sched.Booted start)
    (register : start.cr3 = start.mm.kernelSpace) : Steady start := by
  refine ⟨init_ownership start booted, ?_⟩
  obtain ⟨pre, cr3, before, _, _, _, rfl⟩ := booted
  exact ⟨by simp [Sched.init, Kernel.setThread, Thread.setCwd], fun _ => register⟩

theorem run_steady {start k : Kernel} (steady : Steady start) (run : Run act Admitted start k) :
    Steady k :=
  run_invariant act Admitted Steady
    (fun _ _ _ _ before admitted done => (act_spares before admitted done).1) run steady

theorem run_spared {slot space : Nat} {k after : Kernel} (steady : Steady k)
    (mine : ownSpace (k.threads slot) = some space)
    (run : Run act (fun k a => Admitted k a ∧ ¬ Concerns slot k a) k after) :
    Steady after ∧ Spared slot space k after := by
  refine run_invariant act _ (fun now => Steady now ∧ Spared slot space k now) ?_ run
    ⟨steady, mine, fun _ _ _ _ _ _ _ => rfl⟩
  rintro before a ret next ⟨now, spared⟩ ⟨admitted, foreign⟩ done
  obtain ⟨next, spares⟩ := act_spares now admitted done
  exact ⟨next, spared.trans (spares slot space spared.mine foreign)⟩

/-- A mapped address of a process means the same frame and holds the same byte, whatever
others spawn, allocate, store and end meanwhile. -/
theorem processes_are_isolated (start k after : Kernel) (booted : Sched.Booted start)
    (register : start.cr3 = start.mm.kernelSpace) (run : Run act Admitted start k) (slot space : Nat)
    (mine : ownSpace (k.threads slot) = some space)
    (others : Run act (fun k a => Admitted k a ∧ ¬ Concerns slot k a) k after) :
    ownSpace (after.threads slot) = some space ∧ ∀ va, va < 2 ^ 47 →
      pageMap after.mm space (va / pageSize) = pageMap k.mm space (va / pageSize) ∧
      translate after.mm space va = translate k.mm space va ∧
      (translate k.mm space va ≠ 0 →
        after.mm.mem (translate k.mm space va) = k.mm.mem (translate k.mm space va)) := by
  have steady := run_steady (init_steady start booted register) run
  obtain ⟨final, spared⟩ := run_spared steady mine others
  have alive : space ∈ liveSpaces k := .inr ⟨slot, mine⟩
  have aliveAfter : space ∈ liveSpaces after := .inr ⟨slot, spared.mine⟩
  refine ⟨spared.mine, fun va below => ?_⟩
  have map := spared.pageMap (page_number_below va below)
  have reads := translate_readMap steady.own.owned.plain space va alive below
  have readsAfter := translate_readMap final.own.owned.plain space va aliveAfter below
  have same : translate after.mm space va = translate k.mm space va := by
    rw [reads, readsAfter, readMap, readMap, map]
  refine ⟨map, same, fun mapped => ?_⟩
  obtain ⟨frame, flags, found, place⟩ := mapped_frame steady.own alive below mapped
  have low := low_full _ (tableIndex_low _ (page_below _ (page_number_below va below)))
  have offset : va % pageSize < pageSize := Nat.mod_lt _ (by decide)
  exact spared.pages _ frame low (pageMap_view found) _ (by omega) (by omega)

instance (k : Kernel) : (a : Act) → Decidable (Admitted k a)
  | .call (.reap tid) => decidable_of_iff (tid ≠ k.currentIdx) (by simp [Admitted, Allowed])
  | .call (.spawnElf name image argv) =>
      decidable_of_iff (Allowed k (.spawnElf name image argv)) (by simp [Admitted])
  | .call (.sbrk rdi) => decidable_of_iff (Allowed k (.sbrk rdi)) (by simp [Admitted])
  | .call (.kthreadCreate _ _ _) | .call (.threadExit _) | .call (.sysExit _ _) | .call (.tick _) =>
      isTrue ⟨trivial, by simp⟩
  | .store _ _ => inferInstanceAs (Decidable (_ ∧ _))

instance (slot : Nat) (k : Kernel) : (a : Act) → Decidable (Concerns slot k a)
  | .call (.sbrk _) | .store _ _ => inferInstanceAs (Decidable (k.currentIdx = slot))
  | .call (.reap tid) => inferInstanceAs (Decidable (tid = slot))
  | .call (.spawnElf _ _ _) | .call (.kthreadCreate _ _ _) | .call (.threadExit _)
  | .call (.sysExit _ _) | .call (.tick _) => isFalse id

def spawnStart : Kernel := bootedKernel (Vmm.init (blankMachine (-2)) (2 ^ 29))

def twoSpawned : List Act := List.replicate 2 (.call (.spawnElf [] (smallImage 0x400000) []))

def secondStores : List Act :=
  List.replicate 10 (.call (.tick .zeroed)) ++ [.store (userStackTop - 8) 7]

/-- Two processes of one image; the second stores to its stack, and the first does not see it. -/
theorem processes_are_isolated_two : ∃ start k after space, Sched.Booted start ∧
    Run act Admitted start k ∧ ownSpace (k.threads 1) = some space ∧
    Run act (fun k a => Admitted k a ∧ ¬ Concerns 1 k a) k after ∧ after.currentIdx = 2 ∧
    after.mm.mem (translate after.mm after.cr3 (userStackTop - 8)) = 7 ∧
    translate k.mm space (userStackTop - 8) ≠ 0 ∧
    after.mm.mem (translate k.mm space (userStackTop - 8)) =
      k.mm.mem (translate k.mm space (userStackTop - 8)) := by
  have booted : Sched.Booted spawnStart := bootedKernel_booted _ _ blankMachine_wide
  have register : spawnStart.cr3 = spawnStart.mm.kernelSpace := by
    rw [spawnStart]
    generalize Vmm.init (blankMachine (-2)) (2 ^ 29) = mm
    rfl
  have permitted : permits act Admitted spawnStart twoSpawned = true := by decide +kernel
  have spaces : (replay act spawnStart twoSpawned).map
      (fun done => (ownSpace (done.2.threads 1), translate done.2.mm 8192 (userStackTop - 8))) =
      .ok (some 8192, 57336) := by decide +kernel
  have stores : (replay act spawnStart twoSpawned).map
      (fun done => (permits act (fun k a => Admitted k a ∧ ¬ Concerns 1 k a) done.2 secondStores,
        (replay act done.2 secondStores).map fun last => (last.2.currentIdx,
          last.2.mm.mem (translate last.2.mm last.2.cr3 (userStackTop - 8))))) =
      .ok (true, .ok (2, 7)) := by decide +kernel
  generalize spawnStart = start at booted permitted spaces stores register
  obtain ⟨⟨rets, k⟩, replayed, values⟩ := (map_ok _ _ _).mp spaces
  obtain ⟨mine, mapped⟩ := Prod.mk.inj values
  have run := permits_run act Admitted twoSpawned start k rets permitted replayed
  have second := value_of_ok replayed _ stores
  simp only [Prod.mk.injEq] at second
  obtain ⟨allowed, returned⟩ := second
  obtain ⟨⟨more, after⟩, again, last⟩ := (map_ok _ _ _).mp returned
  simp only [Prod.mk.injEq] at last
  obtain ⟨current, stored⟩ := last
  have others := permits_run act _ secondStores k after more allowed again
  have nonzero : translate k.mm 8192 (userStackTop - 8) ≠ 0 := by
    rw [show translate k.mm 8192 (userStackTop - 8) = 57336 from mapped]
    decide
  have isolated := processes_are_isolated start k after booted register run 1 8192 mine others
  exact ⟨start, k, after, 8192, booted, run, mine, others, current, stored, nonzero,
    (isolated.2 (userStackTop - 8) (by decide)).2.2 nonzero⟩

end Shizuku.Process
