import Shizuku.Spawning

/-!
Who owns a physical page. Ownership is implicit in the bitmap, in the page tables
of the live spaces and in the thread table; `Ownership` makes it explicit and
holds after every spawn, heap call, thread creation, exit, reap and tick, whether
they succeed or fail.
-/

namespace Shizuku.Process

open ByteMemory WordMemory PointerForest Machine Pmm Vmm Elf Sched

def ownSpace (t : Thread) : Option Nat := if t.isUser then some t.space else none

def ownStack (t : Thread) : List Nat := if t.kstackPa = 0 then [] else stackPages t.kstackPa

def liveSpaces (k : Kernel) : Set Nat :=
  { space | space = k.mm.kernelSpace ∨ ∃ slot, ownSpace (k.threads slot) = some space }

/-- Used pages outside the low halves: kernel stacks, and the tables of the high half. -/
def heldPages (k : Kernel) : Set Nat :=
  { page | (∃ slot, page ∈ ownStack (k.threads slot)) ∨
    HighTable k.mm.mem k.mm.kernelSpace page }

def HeapWindow (brk : Nat) : Prop := userHeapBase ≤ brk ∧ brk ≤ userHeapBase + userHeapMax

structure Ownership (k : Kernel) : Prop where
  owned : Owned k.mm (liveSpaces k) (heldPages k)
  stack : ∀ slot page, page ∈ ownStack (k.threads slot) →
    Page page ∧ ¬ HighTable k.mm.mem k.mm.kernelSpace page
  stackApart : ∀ slot other page, page ∈ ownStack (k.threads slot) →
    page ∈ ownStack (k.threads other) → slot = other
  notKernel : ∀ slot, ownSpace (k.threads slot) ≠ some k.mm.kernelSpace
  spaceApart : ∀ slot other space, ownSpace (k.threads slot) = some space →
    ownSpace (k.threads other) = some space → slot = other
  idle : ∀ slot, (k.threads slot).state = .unused →
    ownSpace (k.threads slot) = none ∧ ownStack (k.threads slot) = []
  shared : ∀ space, space ∈ liveSpaces k → ∀ idx, 256 ≤ idx → idx < 512 →
    entry k.mm.mem space idx = entry k.mm.mem k.mm.kernelSpace idx
  heap : ∀ slot, (k.threads slot).isUser = true → HeapWindow (k.threads slot).brk

theorem kernel_live (k : Kernel) : k.mm.kernelSpace ∈ liveSpaces k := .inl rfl

structure SameOwner (before after : Thread) : Prop where
  isUser : after.isUser = before.isUser
  space : after.space = before.space
  kstackPa : after.kstackPa = before.kstackPa
  unused : after.state = .unused → before.state = .unused

structure SameHolding (before after : Thread) : Prop extends SameOwner before after where
  brk : after.brk = before.brk

theorem SameHolding.refl (t : Thread) : SameHolding t t := ⟨⟨rfl, rfl, rfl, id⟩, rfl⟩

theorem SameHolding.trans {first second third : Thread} (left : SameHolding first second)
    (right : SameHolding second third) : SameHolding first third :=
  ⟨⟨right.isUser.trans left.isUser, right.space.trans left.space,
    right.kstackPa.trans left.kstackPa, fun unused => left.unused (right.unused unused)⟩,
    right.brk.trans left.brk⟩

theorem SameOwner.ownSpace {before after : Thread} (same : SameOwner before after) :
    ownSpace after = ownSpace before := by
  rw [Process.ownSpace, Process.ownSpace, same.isUser, same.space]

theorem SameOwner.ownStack {before after : Thread} (same : SameOwner before after) :
    ownStack after = ownStack before := by
  rw [Process.ownStack, Process.ownStack, same.kstackPa]

theorem Ownership.same_owners {k after : Kernel} (own : Ownership k) (mm : after.mm = k.mm)
    (same : ∀ slot, SameOwner (k.threads slot) (after.threads slot))
    (heap : ∀ slot, HeapWindow (k.threads slot).brk → HeapWindow (after.threads slot).brk) :
    Ownership after := by
  have live : liveSpaces after = liveSpaces k := by
    ext space
    simp only [liveSpaces, Set.mem_ofPred_eq, (same _).ownSpace, mm]
  have held : heldPages after = heldPages k := by
    ext page
    simp only [heldPages, Set.mem_ofPred_eq, (same _).ownStack, mm]
  constructor
  · rw [live, held, mm]
    exact own.owned
  · intro slot page
    rw [(same slot).ownStack, mm]
    exact own.stack slot page
  · intro slot other page
    rw [(same slot).ownStack, (same other).ownStack]
    exact own.stackApart slot other page
  · intro slot
    rw [(same slot).ownSpace, mm]
    exact own.notKernel slot
  · intro slot other space
    rw [(same slot).ownSpace, (same other).ownSpace]
    exact own.spaceApart slot other space
  · intro slot unused
    rw [(same slot).ownSpace, (same slot).ownStack]
    exact own.idle slot ((same slot).unused unused)
  · rw [live, mm]
    exact own.shared
  · intro slot user
    exact heap slot (own.heap slot ((same slot).isUser.symm.trans user))

theorem Ownership.same_holdings {k after : Kernel} (own : Ownership k) (mm : after.mm = k.mm)
    (same : ∀ slot, SameHolding (k.threads slot) (after.threads slot)) : Ownership after :=
  own.same_owners mm (fun slot => (same slot).toSameOwner) fun slot window => by
    rw [(same slot).brk]
    exact window

/-! Ticks and exits. -/

theorem switchTo_holdings (k : Kernel) (f : IrqFrame) (target : Nat) :
    (switchTo k f target).2.mm = k.mm ∧
      ∀ slot, SameHolding (k.threads slot) ((switchTo k f target).2.threads slot) := by
  have shape : (switchTo k f target).2.mm = k.mm ∧ (switchTo k f target).2.threads =
      (k.setThread k.currentIdx { k.threads k.currentIdx with frame := f }).threads := by
    unfold switchTo
    simp only
    split <;> split <;> exact ⟨rfl, rfl⟩
  refine ⟨shape.1, fun slot => ?_⟩
  rw [shape.2]
  by_cases same : slot = k.currentIdx
  · subst slot
    rw [setThread_same]
    exact ⟨⟨rfl, rfl, rfl, id⟩, rfl⟩
  · rw [setThread_other _ _ _ _ same]
    exact .refl _

theorem schedTick_holdings (k : Kernel) (f : IrqFrame) :
    (schedTick k f).2.mm = k.mm ∧
      ∀ slot, SameHolding (k.threads slot) ((schedTick k f).2.threads slot) := by
  unfold schedTick
  split
  · exact ⟨rfl, fun _ => .refl _⟩
  · simp only
    split
    · exact ⟨rfl, fun _ => .refl _⟩
    · exact switchTo_holdings { k with lastSlice := 0 } f _

theorem setThread_holdings (k : Kernel) (slot : Nat) (t : Thread)
    (same : SameHolding (k.threads slot) t) (other : Nat) :
    SameHolding (k.threads other) ((k.setThread slot t).threads other) := by
  by_cases here : other = slot
  · subst other
    rw [setThread_same]
    exact same
  · rw [setThread_other _ _ _ _ here]
    exact .refl _

theorem schedThreadExit_holdings (k : Kernel) (f : IrqFrame) :
    (schedThreadExit k f).2.mm = k.mm ∧
      ∀ slot, SameHolding (k.threads slot) ((schedThreadExit k f).2.threads slot) := by
  have ended := setThread_holdings k k.currentIdx
    { k.threads k.currentIdx with state := .zombie } ⟨⟨rfl, rfl, rfl, fun impossible => by cases impossible⟩, rfl⟩
  have ticked := schedTick_holdings
    { k.setThread k.currentIdx { k.threads k.currentIdx with state := .zombie } with
      lastSlice := timesliceTicks } f
  exact ⟨ticked.1, fun slot => (ended slot).trans (ticked.2 slot)⟩

theorem sysExit_holdings (k : Kernel) (status : Int) (f : IrqFrame) :
    (sysExit k status f).2.mm = k.mm ∧
      ∀ slot, SameHolding (k.threads slot) ((sysExit k status f).2.threads slot) := by
  have noted := setThread_holdings k k.currentIdx
    { k.threads k.currentIdx with exitStatus := status } ⟨⟨rfl, rfl, rfl, id⟩, rfl⟩
  have ended := schedThreadExit_holdings
    (k.setThread k.currentIdx { k.threads k.currentIdx with exitStatus := status }) f
  exact ⟨ended.1, fun slot => (noted slot).trans (ended.2 slot)⟩

theorem highTable_same {before after : Nat → UInt8} {root : Nat}
    (entries : ∀ idx, 256 ≤ idx → idx < 512 → entry after root idx = entry before root idx)
    (tables : ∀ tbl, HighTable before root tbl → SamePage before after tbl) (tbl : Nat) :
    HighTable after root tbl ↔ HighTable before root tbl := by
  have walks := high_follow entries tables
  constructor
  · rintro ⟨path, nonempty, high, reached⟩
    exact ⟨path, nonempty, high, (walks path nonempty high).symm.trans reached⟩
  · rintro ⟨path, nonempty, high, reached⟩
    exact ⟨path, nonempty, high, (walks path nonempty high).trans reached⟩

structure HighKept (k : Kernel) (after : Mm) : Prop where
  kernel : after.kernelSpace = k.mm.kernelSpace
  tables : ∀ tbl, HighTable k.mm.mem k.mm.kernelSpace tbl → SamePage k.mm.mem after.mem tbl
  entries : ∀ space, space ∈ liveSpaces k → ∀ idx, 256 ≤ idx → idx < 512 →
    entry after.mem space idx = entry k.mm.mem space idx

theorem HighKept.same {k : Kernel} {after : Mm} (kept : HighKept k after) (tbl : Nat) :
    HighTable after.mem after.kernelSpace tbl ↔ HighTable k.mm.mem k.mm.kernelSpace tbl := by
  rw [kept.kernel]
  exact highTable_same (kept.entries _ (kernel_live k)) kept.tables tbl

theorem HighKept.live {k : Kernel} {after : Mm} (kept : HighKept k after) :
    liveSpaces { k with mm := after } = liveSpaces k := by
  ext space
  simp only [liveSpaces, Set.mem_ofPred_eq, kept.kernel]

theorem HighKept.held {k : Kernel} {after : Mm} (kept : HighKept k after) :
    heldPages { k with mm := after } = heldPages k := by
  ext page
  simp only [heldPages, Set.mem_ofPred_eq, kept.same]

theorem Ownership.remake {k : Kernel} (own : Ownership k) {after : Mm} (kept : HighKept k after)
    (owned : Owned after (liveSpaces k) (heldPages k)) : Ownership { k with mm := after } := by
  refine ⟨?_, fun slot page member => ?_, own.stackApart, fun slot => ?_, own.spaceApart, own.idle,
    fun space alive idx above inside => ?_, own.heap⟩
  · rw [kept.live, kept.held]
    exact owned
  · rw [kept.same]
    exact own.stack slot page member
  · rw [kept.kernel]
    exact own.notKernel slot
  · rw [kept.live] at alive
    rw [kept.kernel, kept.entries space alive idx above inside,
      kept.entries _ (kernel_live k) idx above inside]
    exact own.shared space alive idx above inside

theorem run_free (pmm : Pmm.State) (start count : Nat) (run : FreeRun pmm start count) (page : Nat)
    (member : page ∈ (List.range count).map (start + ·)) : Free pmm page := by
  obtain ⟨offset, listed, rfl⟩ := List.mem_map.mp member
  have bound := List.mem_range.mp listed
  have inside := run.1
  exact ⟨by omega, run.2 offset bound⟩

theorem run_nodup (start count : Nat) : ((List.range count).map (start + ·)).Nodup := by
  apply List.nodup_range.map_on
  intro first _ second _ same
  simpa using same

theorem mem_stackPages (start page : Nat) : page ∈ stackPages (start * pageSize) ↔
    ∃ number, number ∈ (List.range 4).map (start + ·) ∧ page = number * pageSize := by
  simp only [stackPages, show threadKstackSize / pageSize = 4 from by decide, List.mem_map]
  constructor
  · rintro ⟨offset, bound, rfl⟩
    exact ⟨start + offset, ⟨offset, bound, rfl⟩, by rw [Nat.add_mul]⟩
  · rintro ⟨number, ⟨offset, bound, rfl⟩, rfl⟩
    exact ⟨offset, bound, by rw [Nat.add_mul]⟩

theorem stackPages_nodup (pa : Nat) : (stackPages pa).Nodup := by
  apply List.nodup_range.map_on
  intro first _ second _ same
  simp only [pageSize] at same
  omega

theorem Ownership.growTable {k : Kernel} (own : Ownership k) (slot : Nat) :
    Ownership (k.growTable slot) :=
  own.same_holdings (growTable_mm k slot) fun other => by
    rw [growTable_threads]
    exact .refl _

theorem setThread_has {k : Kernel} {slot : Nat} {t : Thread} (has : Thread → Prop) {other : Nat}
    (mine : has ((k.setThread slot t).threads other)) :
    (other = slot ∧ has t) ∨ (other ≠ slot ∧ has (k.threads other)) := by
  by_cases same : other = slot
  · rw [same, setThread_same] at mine
    exact .inl ⟨same, mine⟩
  · rw [setThread_other _ _ _ _ same] at mine
    exact .inr ⟨same, mine⟩

theorem setThread_apart {k : Kernel} {slot : Nat} {t : Thread} {Item : Type}
    (has : Thread → Item → Prop)
    (apart : ∀ other third item, has (k.threads other) item → has (k.threads third) item → other = third)
    (fresh : ∀ item, has t item → ∀ other, ¬ has (k.threads other) item) (other third : Nat) (item : Item)
    (first : has ((k.setThread slot t).threads other) item)
    (second : has ((k.setThread slot t).threads third) item) : other = third := by
  rcases setThread_has (has · item) first with ⟨rfl, new⟩ | ⟨_, old⟩
  · rcases setThread_has (has · item) second with ⟨rfl, _⟩ | ⟨_, old⟩
    · rfl
    · exact absurd old (fresh item new third)
  · rcases setThread_has (has · item) second with ⟨rfl, new⟩ | ⟨_, older⟩
    · exact absurd old (fresh item new other)
    · exact apart other third item old older

theorem Ownership.publish {k : Kernel} (own : Ownership k) (slot : Nat) (t : Thread)
    (unused : (k.threads slot).state = .unused) (isUser : t.isUser = false)
    (noStack : t.kstackPa = 0) : Ownership (k.setThread slot t) := by
  obtain ⟨noSpace, empty⟩ := own.idle slot unused
  have sameSpace : ∀ other, ownSpace ((k.setThread slot t).threads other) =
      ownSpace (k.threads other) := by
    intro other
    by_cases here : other = slot
    · subst other
      rw [setThread_same, noSpace, ownSpace, isUser]
      rfl
    · rw [setThread_other _ _ _ _ here]
  have sameStack : ∀ other, ownStack ((k.setThread slot t).threads other) =
      ownStack (k.threads other) := by
    intro other
    by_cases here : other = slot
    · subst other
      rw [setThread_same, empty, ownStack, if_pos noStack]
    · rw [setThread_other _ _ _ _ here]
  have live : liveSpaces (k.setThread slot t) = liveSpaces k := by
    ext space
    simp only [liveSpaces, Set.mem_ofPred_eq, sameSpace]
    rfl
  have held : heldPages (k.setThread slot t) = heldPages k := by
    ext page
    simp only [heldPages, Set.mem_ofPred_eq, sameStack]
    rfl
  constructor
  · rw [live, held]
    exact own.owned
  · intro other page
    rw [sameStack]
    exact own.stack other page
  · intro other third page
    rw [sameStack, sameStack]
    exact own.stackApart other third page
  · intro other
    rw [sameSpace]
    exact own.notKernel other
  · intro other third space
    rw [sameSpace, sameSpace]
    exact own.spaceApart other third space
  · intro other still
    rw [sameSpace, sameStack]
    by_cases here : other = slot
    · exact here ▸ ⟨noSpace, empty⟩
    · rw [setThread_other _ _ _ _ here] at still
      exact own.idle other still
  · rw [live]
    exact own.shared
  · intro other
    by_cases here : other = slot
    · subst other
      rw [setThread_same, isUser]
      intro impossible
      cases impossible
    · rw [setThread_other _ _ _ _ here]
      exact own.heap other

theorem Ownership.install {k : Kernel} (own : Ownership k) (slot : Nat) (t : Thread) (start : Nat)
    (busy : t.state ≠ .unused)
    (run : FreeRun k.mm.pmm start 4) (nonzero : start ≠ 0) (stack : t.kstackPa = start * pageSize)
    (owned : Owned k.mm (liveSpaces k ∪ { space | ownSpace t = some space }) (heldPages k))
    (fresh : ∀ space, ownSpace t = some space → space ∉ liveSpaces k)
    (shared : ∀ space, ownSpace t = some space → ∀ idx, 256 ≤ idx → idx < 512 →
      entry k.mm.mem space idx = entry k.mm.mem k.mm.kernelSpace idx)
    (heap : t.isUser = true → HeapWindow t.brk) :
    Ownership ({ k with mm := { k.mm with
      pmm := takeAll k.mm.pmm ((List.range 4).map (start + ·)) } }.setThread slot t) := by
  have stackOf : ownStack t = stackPages (start * pageSize) := by
    rw [ownStack, stack, if_neg (run_nonzero start nonzero)]
  have free := run_free k.mm.pmm start 4 run
  have taken := owned.takeAll _ (run_nodup start 4) free
  -- A page of the new stack is free, hence nobody's.
  have unowned : ∀ page, page ∈ ownStack t → Page page ∧ page ∉ heldPages k := by
    intro page member
    rw [stackOf, mem_stackPages] at member
    obtain ⟨number, listed, rfl⟩ := member
    refine ⟨free_page owned number (free number listed), fun held => ?_⟩
    have used := (own.owned.apart _ held).2.1
    rw [FreeAt, Nat.mul_div_cancel number (by decide)] at used
    exact used (free number listed)
  have live : ∀ space, space ∈ liveSpaces ({ k with mm := { k.mm with
      pmm := takeAll k.mm.pmm ((List.range 4).map (start + ·)) } }.setThread slot t) →
      space ∈ liveSpaces k ∨ ownSpace t = some space := by
    rintro space (root | ⟨other, mine⟩)
    · exact .inl (.inl root)
    · rcases setThread_has (ownSpace · = some space) mine with ⟨_, new⟩ | ⟨_, old⟩
      · exact .inr new
      · exact .inl (.inr ⟨other, old⟩)
  constructor
  · refine (taken.live_mono live).held_mono fun page member => ?_
    rcases member with ⟨other, mine⟩ | table
    · rcases setThread_has (page ∈ ownStack ·) mine with ⟨_, new⟩ | ⟨_, old⟩
      · rw [stackOf, mem_stackPages] at new
        exact .inr new
      · exact .inl (.inl ⟨other, old⟩)
    · exact .inl (.inr table)
  · intro other page mine
    rcases setThread_has (page ∈ ownStack ·) mine with ⟨_, new⟩ | ⟨_, old⟩
    · exact ⟨(unowned page new).1, fun table => (unowned page new).2 (.inr table)⟩
    · exact own.stack other page old
  · exact setThread_apart (fun t page => page ∈ ownStack t) own.stackApart
      fun page new other old => (unowned page new).2 (.inl ⟨other, old⟩)
  · intro other mine
    rcases setThread_has (ownSpace · = some k.mm.kernelSpace) mine with ⟨_, new⟩ | ⟨_, old⟩
    · exact fresh _ new (.inl rfl)
    · exact own.notKernel other old
  · exact setThread_apart (fun t space => ownSpace t = some space) own.spaceApart
      fun space new other old => fresh space new (.inr ⟨other, old⟩)
  · intro other still
    rcases setThread_has (·.state = .unused) still with ⟨_, new⟩ | ⟨different, old⟩
    · exact absurd new busy
    · rw [setThread_other _ _ _ _ different]
      exact own.idle other old
  · intro space alive idx above inside
    rcases live space alive with old | new
    · exact own.shared space old idx above inside
    · exact shared space new idx above inside
  · intro other user
    rcases setThread_has (·.isUser = true) user with ⟨same, new⟩ | ⟨different, old⟩
    · rw [same, setThread_same]
      exact heap new
    · rw [setThread_other _ _ _ _ different]
      exact own.heap other old

/-! ### Reaping -/

/-- What `freeThread` gives back: the tree of the thread's space and its stack,
each page accepted. -/
theorem freeThread_spec {k : Kernel} (own : Ownership k) (slot : Nat) :
    (∀ number, Free (freeThread k.mm (k.threads slot)).pmm number ↔ Free k.mm.pmm number ∨
        (∃ space, ownSpace (k.threads slot) = some space ∧
          InTree k.mm.mem space (number * pageSize)) ∨
        number * pageSize ∈ ownStack (k.threads slot)) ∧
      (freeThread k.mm (k.threads slot)).pmm.badFrees = k.mm.pmm.badFrees ∧
      drift (freeThread k.mm (k.threads slot)).pmm = drift k.mm.pmm ∧
      (freeThread k.mm (k.threads slot)).mem = k.mm.mem ∧
      Owned (freeThread k.mm (k.threads slot))
        { space | space ∈ liveSpaces k ∧ ownSpace (k.threads slot) ≠ some space }
        { page | page ∈ heldPages k ∧ page ∉ ownStack (k.threads slot) } := by
  generalize thread : k.threads slot = t
  -- The space first.
  have spaceGone : ∃ left, (if t.isUser ∧ t.space ≠ 0 ∧ t.space ≠ k.mm.kernelSpace then
        destroySpace k.mm t.space else k.mm) = left ∧
      (∀ number, Free left.pmm number ↔ Free k.mm.pmm number ∨
        ∃ space, ownSpace t = some space ∧ InTree k.mm.mem space (number * pageSize)) ∧
      left.pmm.badFrees = k.mm.pmm.badFrees ∧ drift left.pmm = drift k.mm.pmm ∧
      left.mem = k.mm.mem ∧
      Owned left { space | space ∈ liveSpaces k ∧ ownSpace t ≠ some space } (heldPages k) := by
    refine ⟨_, rfl, ?_⟩
    by_cases user : t.isUser = true
    · have mine : ownSpace t = some t.space := by rw [ownSpace, if_pos user]
      have alive : t.space ∈ liveSpaces k := .inr ⟨slot, by rw [thread, mine]⟩
      have nonzero := (own.owned.root_page t.space alive).1.nonzero
      have notKernel : t.space ≠ k.mm.kernelSpace := fun same =>
        own.notKernel slot (by rw [thread, mine, same])
      rw [if_pos ⟨user, nonzero, notKernel⟩]
      obtain ⟨freed, bad, counted, left⟩ := own.owned.destroy t.space alive
      refine ⟨fun number => ?_, bad, counted, rfl, left.live_mono fun space member => ?_⟩
      · rw [freed number, mine]
        simp
      · refine ⟨member.1, fun same => member.2 ?_⟩
        rw [mine, Set.mem_singleton_iff.mp same]
    · have none_ : ownSpace t = none := by rw [ownSpace, if_neg user]
      rw [if_neg fun both => user both.1]
      refine ⟨fun number => by simp [none_], rfl, rfl, rfl,
        own.owned.live_mono fun space member => member.1⟩
  obtain ⟨left, leftShape, freed, bad, counted, mem, owned⟩ := spaceGone
  have shape : freeThread k.mm t = { left with pmm := (ownStack t).foldl freePage left.pmm } := by
    rw [freeThread, leftShape, ownStack]
    by_cases stack : t.kstackPa = 0 <;> simp [stack]
  have distinct : (ownStack t).Nodup := by
    rw [ownStack]
    split
    · exact List.nodup_nil
    · exact stackPages_nodup _
  have held : ∀ page, page ∈ ownStack t → page ∈ heldPages k ∧ Page page := fun page member =>
    ⟨.inl ⟨slot, thread ▸ member⟩, (own.stack slot page (thread ▸ member)).1⟩
  obtain ⟨stackFreed, stackBad, stackCounted⟩ := freeAll_spec left.pmm (ownStack t) distinct
    fun page member => ⟨(held page member).2, (owned.apart page (held page member).1).2.1⟩
  rw [shape]
  refine ⟨fun number => ?_, stackBad.trans bad, stackCounted.trans counted, mem,
    owned.freeAll (ownStack t) distinct held⟩
  rw [stackFreed number, freed number, or_assoc]

theorem schedReap_ownership {k after : Kernel} (own : Ownership k) (tid : Nat)
    (done : schedReap k tid = .ok after) :
    Ownership after ∧ after.mm.pmm.badFrees = k.mm.pmm.badFrees := by
  rcases schedReap_cases k after tid done with ⟨_, _, rfl⟩ | ⟨_, _, rfl⟩
  · exact ⟨own, rfl⟩
  · obtain ⟨_, bad, _, mem, owned⟩ := freeThread_spec own tid
    refine ⟨?_, bad⟩
    have kernel := (freeThread_same k.mm (k.threads tid)).1
    generalize freeThread k.mm (k.threads tid) = left at bad mem owned kernel ⊢
    -- The other threads keep what they had, and the reaped slot owns nothing.
    have spaceOf : ∀ other space, ownSpace (({ k with mm := left }.setThread tid
        .zeroed).threads other) = some space →
        other ≠ tid ∧ ownSpace (k.threads other) = some space := fun other space mine =>
      (setThread_has (ownSpace · = some space) mine).resolve_left fun new => by cases new.2
    have stackPage : ∀ other page, page ∈ ownStack (({ k with mm := left }.setThread tid
        .zeroed).threads other) → other ≠ tid ∧ page ∈ ownStack (k.threads other) :=
      fun other page mine =>
        (setThread_has (page ∈ ownStack ·) mine).resolve_left fun new => by cases new.2
    have live : ∀ space, space ∈ liveSpaces ({ k with mm := left }.setThread tid .zeroed) →
        space ∈ liveSpaces k ∧ ownSpace (k.threads tid) ≠ some space := by
      rintro space (root | ⟨other, mine⟩)
      · refine ⟨.inl (root.trans kernel), fun same => own.notKernel tid ?_⟩
        rw [same, root]
        exact congrArg some kernel
      · obtain ⟨different, old⟩ := spaceOf other space mine
        exact ⟨.inr ⟨other, old⟩, fun same => different (own.spaceApart other tid space old same)⟩
    have table : ∀ page, HighTable left.mem left.kernelSpace page ↔
        HighTable k.mm.mem k.mm.kernelSpace page := by
      intro page
      rw [mem, kernel]
    constructor
    · refine (owned.live_mono live).held_mono fun page member => ?_
      rcases member with ⟨other, mine⟩ | high
      · obtain ⟨different, old⟩ := stackPage other page mine
        exact ⟨.inl ⟨other, old⟩, fun same => different (own.stackApart other tid page old same)⟩
      · have old := (table page).mp high
        exact ⟨.inr old, fun same => (own.stack tid page same).2 old⟩
    · intro other page mine
      have old := own.stack other page (stackPage other page mine).2
      exact ⟨old.1, fun high => old.2 ((table page).mp high)⟩
    · intro other third page first second
      exact own.stackApart other third page (stackPage other page first).2
        (stackPage third page second).2
    · intro other mine
      exact own.notKernel other ((spaceOf other _ mine).2.trans (congrArg some kernel))
    · intro other third space first second
      exact own.spaceApart other third space (spaceOf other space first).2
        (spaceOf third space second).2
    · intro other still
      by_cases same : other = tid
      · rw [same, setThread_same]
        exact ⟨rfl, rfl⟩
      · rw [setThread_other _ _ _ _ same] at still ⊢
        exact own.idle other still
    · intro space alive idx above inside
      change entry left.mem space idx = entry left.mem left.kernelSpace idx
      rw [mem, kernel]
      exact own.shared space (live space alive).1 idx above inside
    · intro other user
      rcases setThread_has (·.isUser = true) user with ⟨_, new⟩ | ⟨different, old⟩
      · cases new
      · rw [setThread_other _ _ _ _ different]
        exact own.heap other old

theorem building_highKept {k : Kernel} (own : Ownership k) {space : Nat} {after : Mm}
    {gone : Set Nat} (building : Building (liveSpaces k) (heldPages k) space k.mm after gone) :
    HighKept k after := by
  refine ⟨building.kernel, fun tbl table => ?_, fun other alive idx above inside => ?_⟩
  · obtain ⟨aligned, used, unnamed⟩ := own.owned.apart tbl (.inr table)
    exact building.keeps tbl aligned used fun ⟨path, low, reached⟩ =>
      unnamed space path ⟨building.alive, low⟩ reached
  · by_cases same : other = space
    · subst other
      exact building.high idx above inside
    · -- The root of another space belongs to no tree but its own.
      obtain ⟨page, used⟩ := own.owned.root_page other alive
      refine (building.keeps other page.aligned used ?_).entry idx inside
      rintro ⟨path, low, reached⟩
      exact same (own.owned.unshared _ _ _ _ _ ⟨alive, low_nil⟩ ⟨building.alive, low⟩ rfl reached).1

theorem heapPages_bounds (old new va : Nat) (small : old ≤ userHeapBase + userHeapMax)
    (bound : new ≤ userHeapBase + userHeapMax) (member : va ∈ heapPages old new) :
    UserPage va ∧ old ≤ va ∧ va < new := by
  have base : userHeapBase = 0x600000000000 := rfl
  have most : userHeapMax = 67108864 := rfl
  simp only [heapPages, pageDown, List.mem_map, List.mem_range] at member
  obtain ⟨i, inside, rfl⟩ := member
  simp only [UserPage, pageSize] at *
  omega

def heapItems (space old new : Nat) : List Item :=
  (heapPages old new).map fun va => (va, fun mm => mapDataPage space mm va)

inductive Grown (k : Kernel) (t : Thread) : Int × Kernel → Prop
  | unchanged (ret : Int) : ret = toI64 t.brk ∨ ret = -1 → Grown k t (ret, k)
  | exhausted (after : Mm) (gone : Set Nat) :
      Building (liveSpaces k) (heldPages k) t.space k.mm after gone →
      Grown k t (toI64 t.brk - 1, { k with mm := after })
  | grown (new : Nat) (after : Mm) (gone : Set Nat) : t.brk ≤ new →
      new ≤ userHeapBase + userHeapMax →
      Building (liveSpaces k) (heldPages k) t.space k.mm after gone →
      (∀ placed, Domain k.mm.mem t.space placed →
        (∀ va, va ∈ heapPages t.brk new ++ placed → UserPage va) →
        Domain after.mem t.space ((heapPages t.brk new).reverse ++ placed) ∧
          (((heapPages t.brk new).reverse ++ placed).Nodup → gone = ∅)) →
      Grown k t (toI64 t.brk, { k with mm := after }.setThread k.currentIdx { t with brk := new })

theorem sysSbrk_grown {k : Kernel} (own : Ownership k) (rdi : Nat)
    (user : (k.threads k.currentIdx).isUser = true) :
    Grown k (k.threads k.currentIdx) (sysSbrk k rdi) := by
  generalize thread : k.threads k.currentIdx = t at user
  obtain ⟨low, high⟩ := own.heap k.currentIdx (thread ▸ user)
  rw [thread] at low high
  have alive : t.space ∈ liveSpaces k := .inr ⟨k.currentIdx, by rw [thread, ownSpace, if_pos user]⟩
  simp only [sysSbrk, thread]
  split
  · exact .unchanged _ (.inl rfl)
  · split
    · exact .unchanged _ (.inr rfl)
    · rename_i nonzero accepted
      have word : (t.brk + rdi) % 2 ^ 64 < 2 ^ 64 := Nat.mod_lt _ (by decide)
      generalize (t.brk + rdi) % 2 ^ 64 = new at accepted word
      have bounds : t.brk ≤ new ∧ new ≤ userHeapBase + userHeapMax := by
        have base : userHeapBase = 0x600000000000 := rfl
        have most : userHeapMax = 67108864 := rfl
        omega
      obtain ⟨ok, after, gone, loop, building, _, account⟩ := runItems_building
        (heapItems t.space t.brk new) (fun item member => by
          obtain ⟨va, listed, rfl⟩ := List.mem_map.mp member
          intro mm lost building
          dsimp only
          exact mapDataPage_placed building va
            (heapPages_bounds t.brk new va high bounds.2 listed).1.half)
        (Building.refl own.owned alive)
      rw [forEach_pages, ← heapItems, loop]
      have pages : (heapItems t.space t.brk new).map Prod.fst = heapPages t.brk new := by
        simp [heapItems, Function.comp_def]
      rw [pages] at account
      cases ok with
      | false => exact .exhausted after gone building
      | true =>
          exact .grown new after gone bounds.1 bounds.2 building fun placed domain users =>
            (account placed domain users).2 rfl

theorem sysSbrk_ownership {k : Kernel} (own : Ownership k) (rdi : Nat)
    (user : (k.threads k.currentIdx).isUser = true) :
    Ownership (sysSbrk k rdi).2 ∧ (sysSbrk k rdi).2.mm.pmm.badFrees = k.mm.pmm.badFrees := by
  have outcome := sysSbrk_grown own rdi user
  have remade : ∀ after gone, Building (liveSpaces k) (heldPages k) (k.threads k.currentIdx).space
      k.mm after gone → Ownership { k with mm := after } := fun after gone building =>
    own.remake (building_highKept own building)
      (building.owned.held_mono fun page member => .inl member)
  generalize sysSbrk k rdi = result at outcome
  cases outcome with
  | unchanged ret _ => exact ⟨own, rfl⟩
  | exhausted after gone building => exact ⟨remade after gone building, building.badFrees⟩
  | grown new after gone above below building _ =>
      have low := (own.heap k.currentIdx user).1
      refine ⟨(remade after gone building).same_owners rfl (fun slot => ?_) fun slot window => ?_,
        building.badFrees⟩
      · by_cases here : slot = k.currentIdx
        · subst slot
          rw [setThread_same]
          exact ⟨rfl, rfl, rfl, id⟩
        · rw [setThread_other _ _ _ _ here]
          exact (SameHolding.refl _).toSameOwner
      · by_cases here : slot = k.currentIdx
        · subst slot
          rw [setThread_same]
          exact ⟨low.trans above, below⟩
        · rw [setThread_other _ _ _ _ here]
          exact window

theorem built_highKept {k : Kernel} (own : Ownership k) {space : Nat} {after : Mm}
    {gone : Set Nat} (built : Built (liveSpaces k) (heldPages k) k.mm space after gone) :
    HighKept k after := by
  refine ⟨built.kernel, fun tbl table => ?_, fun other alive idx _ inside => ?_⟩
  · obtain ⟨aligned, used, _⟩ := own.owned.apart tbl (.inr table)
    exact built.keeps tbl aligned used
  · obtain ⟨page, used⟩ := own.owned.root_page other alive
    exact (built.keeps other page.aligned used).entry idx inside

theorem published_mm (k : Kernel) (slot : Nat) (name : List UInt8) (mm : Mm) :
    { published k slot name with mm := mm } = published { k with mm := mm } slot name := by
  by_cases grows : k.nrThreads ≤ slot <;>
    simp only [published, Kernel.growTable, Kernel.setThread, grows, ↓reduceIte]

theorem spawned_ownership {k : Kernel} (own : Ownership k) (name : List UInt8) (image : Image)
    (ret : Int) (final : Kernel)
    (outcome : Spawned (liveSpaces k) (heldPages k) k name image (ret, final)) :
    Ownership final ∧ final.mm.pmm.badFrees = k.mm.pmm.badFrees := by
  have abandoned : ∀ space after gone, Built (liveSpaces k) (heldPages k) k.mm space after gone →
      Ownership { k with mm := destroySpace after space } ∧
        (destroySpace after space).pmm.badFrees = k.mm.pmm.badFrees := by
    intro space after gone built
    obtain ⟨_, _, bad, _, left⟩ := built.destroyed
    have kept := built_highKept own built
    exact ⟨own.remake ⟨kept.kernel, kept.tables, kept.entries⟩ left, bad⟩
  cases outcome with
  | noSpace _ => exact ⟨own, rfl⟩
  | failed space after gone _ built _ => exact abandoned space after gone built
  | noStack space after gone slot _ built _ found _ =>
      -- The slot stays taken by a thread without stack or space.
      obtain ⟨left, bad⟩ := abandoned space after gone built
      refine ⟨?_, bad⟩
      rw [published_mm]
      exact (left.publish slot _ (unusedSlot_some k slot found).2 rfl rfl).growTable slot
  | spawned space after gone slot start entry userRsp _ built _ found nonzero run shape =>
      have kept := built_highKept own built
      have owned := built.owned.held_mono
        (fun page (member : page ∈ heldPages k) => Or.inl member)
      have base := own.remake kept (owned.live_mono fun other alive => .inr alive)
      have mine : ∀ other, ownSpace (processThread { k with mm := after } slot name entry userRsp space
          (start * pageSize)) = some other ↔ other = space := by
        intro other
        rw [show ownSpace (processThread { k with mm := after } slot name entry userRsp space
          (start * pageSize)) = some space from rfl, Option.some.injEq, eq_comm]
      have placed := base.install slot (processThread { k with mm := after } slot name entry userRsp
          space (start * pageSize)) start (by intro impossible; cases impossible) run nonzero rfl
        (by
          rw [kept.live, kept.held]
          refine owned.live_mono fun other member => ?_
          rcases member with old | new
          · exact .inr old
          · exact .inl ((mine other).mp new))
        (fun other new alive => by
          rw [kept.live, (mine other).mp new] at alive
          exact built.outside alive)
        (fun other new idx above inside => by
          rw [(mine other).mp new]
          change Vmm.entry after.mem space idx = Vmm.entry after.mem after.kernelSpace idx
          rw [kept.kernel, kept.entries _ (kernel_live k) idx above inside]
          exact built.high idx above inside)
        (fun _ => ⟨le_rfl, Nat.le_add_right _ _⟩)
      rw [shape]
      refine ⟨placed.growTable slot, ?_⟩
      rw [growTable_mm]
      exact (takeAll_counters after.pmm _ (run_nodup start 4)
        (run_free after.pmm start 4 run)).1.trans built.badFrees

theorem kthreadCreated_ownership {k : Kernel} (own : Ownership k) (name : List UInt8) (f arg : Nat)
    (ret : Int) (final : Kernel) (created : KthreadCreated k name f arg (ret, final)) :
    Ownership final ∧ final.mm.pmm.badFrees = k.mm.pmm.badFrees := by
  cases created with
  | noSlot _ => exact ⟨own, rfl⟩
  | noStack slot pmm _ failed =>
      have noRun : ¬ FreeRun k.mm.pmm 0 4 := fun run =>
        own.owned.zero ⟨by decide, run.2 0 (by decide)⟩
      obtain ⟨rfl, _⟩ := failed.resolve_right noRun
      exact ⟨own, rfl⟩
  | created slot start _ nonzero _ run =>
      have none_ : ownSpace (kernelThread k slot name f arg (start * pageSize)) = none := rfl
      have placed := own.install slot (kernelThread k slot name f arg (start * pageSize)) start
        (by intro impossible; cases impossible) run nonzero rfl
        (own.owned.live_mono fun space member => by
          rcases member with old | new
          · exact old
          · rw [Set.mem_ofPred_eq, none_] at new
            cases new)
        (fun space new => by rw [none_] at new; cases new)
        (fun space new => by rw [none_] at new; cases new)
        (fun impossible => by cases impossible)
      refine ⟨placed.growTable slot, ?_⟩
      rw [growTable_mm]
      exact (takeAll_counters k.mm.pmm _ (run_nodup start 4) (run_free k.mm.pmm start 4 run)).1

end Shizuku.Process
