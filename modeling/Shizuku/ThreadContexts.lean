import Shizuku.KernelHalf
import Shizuku.Sched

/-!
Which threads the scheduler may pick. Creation, exit, reaping and ticks are the
steps; the live frames that a tick saves come from ring 0 or ring 3 code. The
property needs stack pages for every user thread that finds a slot, since
`threadCreateUser` publishes the slot before it asks for them.
-/

namespace Shizuku.Sched

open Machine Pmm Vmm

@[simp] theorem setThread_same (k : Kernel) (slot : Nat) (thread : Thread) :
    (k.setThread slot thread).threads slot = thread := by
  simp [Kernel.setThread]

theorem setThread_setThread (k : Kernel) (slot : Nat) (first second : Thread) :
    (k.setThread slot first).setThread slot second = k.setThread slot second := by
  unfold Kernel.setThread
  congr 1
  funext key
  by_cases same : key = slot <;> simp [same]

theorem setThread_other (k : Kernel) (slot other : Nat) (thread : Thread) (different : other ≠ slot) :
    (k.setThread slot thread).threads other = k.threads other := by
  simp [Kernel.setThread, different]

@[simp] theorem growTable_threads (k : Kernel) (slot : Nat) :
    (k.growTable slot).threads = k.threads := by
  unfold Kernel.growTable
  split <;> rfl

@[simp] theorem growTable_mm (k : Kernel) (slot : Nat) : (k.growTable slot).mm = k.mm := by
  unfold Kernel.growTable
  split <;> rfl

@[simp] theorem growTable_currentIdx (k : Kernel) (slot : Nat) :
    (k.growTable slot).currentIdx = k.currentIdx := by
  unfold Kernel.growTable
  split <;> rfl

theorem unusedSlot_some (k : Kernel) (slot : Nat) (found : unusedSlot k = some slot) :
    slot < schedMaxThreads ∧ (k.threads slot).state = .unused := by
  have hit := List.find?_some found
  have member := List.mem_of_find?_eq_some found
  exact ⟨List.mem_range.mp member, by simpa using hit⟩

/-- The stack pages of a new thread: none left, the unusable run at page 0, or a proper run. -/
theorem stack_cases (pmm : Pmm.State) :
    (allocPages pmm (threadKstackSize / pageSize) pageSize = .ok (0, pmm) ∧
        ∀ start, ¬ FreeRun pmm start 4) ∨
      (∃ taken, FreeRun pmm 0 4 ∧
        allocPages pmm (threadKstackSize / pageSize) pageSize = .ok (0, taken)) ∨
      ∃ start, start ≠ 0 ∧ ¬ FreeRun pmm 0 4 ∧ FreeRun pmm start 4 ∧
        allocPages pmm (threadKstackSize / pageSize) pageSize =
          .ok (start * pageSize, takeAll pmm ((List.range 4).map (start + ·))) := by
  have four : threadKstackSize / pageSize = 4 := by decide
  rw [four]
  rcases allocPages_cases pmm 4 with full | ⟨start, run, lowest, taken⟩
  · exact .inl full
  · by_cases zero : start = 0
    · subst start
      exact .inr (.inl ⟨_, run, by rw [taken, Nat.zero_mul]⟩)
    · exact .inr (.inr ⟨start, zero, lowest 0 (by omega), run, taken⟩)

theorem run_nonzero (start : Nat) (nonzero : start ≠ 0) : ¬ start * pageSize = 0 := by
  simp [pageSize, nonzero]

def kernelThread (k : Kernel) (slot : Nat) (name : List UInt8) (f arg pa : Nat) : Thread :=
  { Thread.zeroed with
    tid := slot
    state := .runnable
    space := k.mm.kernelSpace
    kstackTop := stackTop k pa
    kstackPa := pa
    frame := kthreadFrame k (stackTop k pa) f arg }.setName name

inductive KthreadCreated (k : Kernel) (name : List UInt8) (f arg : Nat) : Int × Kernel → Prop
  | noSlot : unusedSlot k = none → KthreadCreated k name f arg (-1, k)
  | noStack (slot : Nat) (pmm : Pmm.State) : unusedSlot k = some slot →
      (pmm = k.mm.pmm ∧ (∀ start, ¬ FreeRun k.mm.pmm start 4) ∨ FreeRun k.mm.pmm 0 4) →
      KthreadCreated k name f arg (-1, k.setPmm pmm)
  | created (slot start : Nat) : unusedSlot k = some slot → start ≠ 0 →
      ¬ FreeRun k.mm.pmm 0 4 → FreeRun k.mm.pmm start 4 →
      KthreadCreated k name f arg (slot,
        ((k.setPmm (takeAll k.mm.pmm ((List.range 4).map (start + ·)))).setThread slot
          (kernelThread k slot name f arg (start * pageSize))).growTable slot)

theorem kthreadCreate_created (k : Kernel) (name : List UInt8) (f arg : Nat) :
    ∃ result, kthreadCreate k name f arg = .ok result ∧ KthreadCreated k name f arg result := by
  unfold kthreadCreate
  cases found : unusedSlot k with
  | none => exact ⟨_, rfl, .noSlot found⟩
  | some slot =>
      rcases stack_cases k.mm.pmm with ⟨full, none_⟩ | ⟨taken, zero, got⟩ | ⟨start, nonzero, notZero, run, got⟩
      · exact ⟨_, by simp [full], .noStack slot k.mm.pmm found (.inl ⟨rfl, none_⟩)⟩
      · exact ⟨_, by simp [got], .noStack slot taken found (.inr zero)⟩
      · refine ⟨_, ?_, .created slot start found nonzero notZero run⟩
        simp only [got, ok_bind, run_nonzero start nonzero, ↓reduceIte, pure_ok]
        rfl

def published (k : Kernel) (slot : Nat) (name : List UInt8) : Kernel :=
  (k.setThread slot
    ({ Thread.zeroed.setCwd rootPath with tid := slot, state := .runnable }.setName name)).growTable
      slot

theorem published_overwritten (k : Kernel) (slot : Nat) (name : List UInt8) (pmm : Pmm.State)
    (thread : Thread) :
    ((published k slot name).setPmm pmm).setThread slot thread =
      ((k.setPmm pmm).setThread slot thread).growTable slot := by
  have twice : ∀ first : Thread, (fun key => if key = slot then thread
      else if key = slot then first else k.threads key) =
      fun key => if key = slot then thread else k.threads key := by
    intro first
    funext key
    by_cases same : key = slot <;> simp [same]
  by_cases grows : k.nrThreads ≤ slot <;>
    simp only [published, Kernel.growTable, Kernel.setThread, Kernel.setPmm, grows, ↓reduceIte, twice]

def userThread (k : Kernel) (slot : Nat) (name : List UInt8) (entry userRsp space pa : Nat) : Thread :=
  { { Thread.zeroed.setCwd rootPath with tid := slot, state := .runnable }.setName name with
    space := space
    isUser := true
    kstackTop := stackTop k pa
    kstackPa := pa
    frame := userFrame entry userRsp }

inductive UserCreated (k : Kernel) (name : List UInt8) (entry userRsp space : Nat) :
    Int × Kernel → Prop
  | noSlot : unusedSlot k = none → UserCreated k name entry userRsp space (-1, k)
  | noStack (slot : Nat) (pmm : Pmm.State) : unusedSlot k = some slot →
      (pmm = k.mm.pmm ∧ (∀ start, ¬ FreeRun k.mm.pmm start 4) ∨ FreeRun k.mm.pmm 0 4) →
      UserCreated k name entry userRsp space (-1, (published k slot name).setPmm pmm)
  | created (slot start : Nat) : unusedSlot k = some slot → start ≠ 0 →
      ¬ FreeRun k.mm.pmm 0 4 → FreeRun k.mm.pmm start 4 →
      UserCreated k name entry userRsp space (slot,
        ((k.setPmm (takeAll k.mm.pmm ((List.range 4).map (start + ·)))).setThread slot
          (userThread k slot name entry userRsp space (start * pageSize))).growTable slot)

theorem threadCreateUser_created (k : Kernel) (name : List UInt8) (entry userRsp space : Nat) :
    ∃ result, threadCreateUser k name entry userRsp space = .ok result ∧
      UserCreated k name entry userRsp space result := by
  unfold threadCreateUser allocThreadSlot
  cases found : unusedSlot k with
  | none => exact ⟨_, rfl, .noSlot found⟩
  | some slot =>
      have same : (published k slot name).mm = k.mm := by simp [published, Kernel.setThread]
      have thread : (published k slot name).threads slot =
          { Thread.zeroed.setCwd rootPath with tid := slot, state := .runnable }.setName name := by
        simp [published]
      change ∃ result, (do
        let stack ← allocPages (published k slot name).mm.pmm (threadKstackSize / pageSize) pageSize
        if stack.1 = 0 then return (-1, (published k slot name).setPmm stack.2)
        return ((slot : Int), ((published k slot name).setPmm stack.2).setThread slot
          { (published k slot name).threads slot with
            space := space
            isUser := true
            kstackTop := stackTop (published k slot name) stack.1
            kstackPa := stack.1
            frame := userFrame entry userRsp })) = .ok result ∧ _
      have top : ∀ pa, stackTop (published k slot name) pa = stackTop k pa := by
        intro pa
        rw [stackTop, stackTop, same]
      simp only [same, thread, top]
      rcases stack_cases k.mm.pmm with ⟨full, none_⟩ | ⟨taken, zero, got⟩ | ⟨start, nonzero, notZero, run, got⟩
      · exact ⟨_, by simp [full], .noStack slot k.mm.pmm found (.inl ⟨rfl, none_⟩)⟩
      · exact ⟨_, by simp [got], .noStack slot taken found (.inr zero)⟩
      · refine ⟨_, ?_, .created slot start found nonzero notZero run⟩
        simp only [got, ok_bind, run_nonzero start nonzero, ↓reduceIte, pure_ok,
          published_overwritten]
        rfl

theorem freeThread_same (mm : Mm) (t : Thread) :
    (freeThread mm t).kernelSpace = mm.kernelSpace ∧
      (freeThread mm t).hhdmOffset = mm.hhdmOffset := by
  simp only [freeThread]
  split <;> split <;> exact ⟨rfl, rfl⟩

theorem schedReap_cases (k after : Kernel) (tid : Nat) (done : schedReap k tid = .ok after) :
    (tid < schedMaxThreads ∧ (k.threads tid).state ≠ .zombie ∧ after = k) ∨
      (tid < schedMaxThreads ∧ (k.threads tid).state = .zombie ∧
        after = { k with mm := freeThread k.mm (k.threads tid) }.setThread tid .zeroed) := by
  obtain ⟨_, inside, rest⟩ := (bind_ok _ _ _).mp done
  have bound := (index_ok _ _ _).mp inside
  by_cases zombie : (k.threads tid).state = .zombie
  · simp only [zombie, ne_eq, not_true_eq_false, ↓reduceIte, pure_ok, Except.ok.injEq] at rest
    exact .inr ⟨bound, zombie, rest.symm⟩
  · simp only [zombie, ne_eq, not_false_eq_true, ↓reduceIte, pure_ok, Except.ok.injEq] at rest
    exact .inl ⟨bound, zombie, rest.symm⟩

/-! ### Runs -/

inductive Op where
  | kthreadCreate (name : List UInt8) (f arg : Nat)
  | threadCreateUser (name : List UInt8) (entry userRsp space : Nat)
  | threadExit (f : IrqFrame)
  | sysExit (status : Int) (f : IrqFrame)
  | reap (tid : Nat)
  | tick (f : IrqFrame)

def step (k : Kernel) : Op → Outcome (Int × Kernel)
  | .kthreadCreate name f arg => kthreadCreate k name f arg
  | .threadCreateUser name entry userRsp space => threadCreateUser k name entry userRsp space
  | .threadExit f => .ok (0, (schedThreadExit k f).2)
  | .sysExit status f => .ok (0, (sysExit k status f).2)
  | .reap tid => do return (0, ← schedReap k tid)
  | .tick f => .ok (0, (schedTick k f).2)

/-- The selectors a saved frame can return to: kernel code, and user code at ring 3. -/
def CodeSelector (f : IrqFrame) : Prop := f.cs = 0x08 ∨ f.cs = 0x23

def Proper : Op → Prop
  | .threadCreateUser _ _ _ space => space ≠ 0
  | .threadExit f => CodeSelector f
  | .sysExit _ f => CodeSelector f
  | .tick f => CodeSelector f
  | _ => True

/-- A user thread is only asked for when the table is full or four pages in a row
are free, not at page 0. -/
def StackAvailable (k : Kernel) : Op → Prop
  | .threadCreateUser _ _ _ _ =>
      unusedSlot k = none ∨ (∃ start, FreeRun k.mm.pmm start 4) ∧ ¬ FreeRun k.mm.pmm 0 4
  | _ => True

def Booted (k : Kernel) : Prop :=
  ∃ pre cr3 before, Limine pre cr3 ∧ Started pre cr3 before.mm ∧
    (∀ slot, before.threads slot = .zeroed) ∧ k = init before

def Equipped (thread : Thread) : Prop := thread.kstackTop ≠ 0 ∧ thread.space ≠ 0

structure Contexts (k : Kernel) : Prop where
  kernel : k.mm.kernelSpace ≠ 0
  direct : k.mm.hhdmOffset + pmmMaxPhys + 4 * pageSize < 2 ^ 64
  equipped : ∀ slot, slot ≠ 0 → (k.threads slot).state = .runnable → Equipped (k.threads slot)
  saved : ∀ slot, slot ≠ 0 → slot ≠ k.currentIdx → (k.threads slot).state = .runnable →
    CodeSelector (k.threads slot).frame

theorem init_contexts (k : Kernel) (booted : Booted k) : Contexts k := by
  obtain ⟨pre, cr3, before, limine, started, fresh, rfl⟩ := booted
  obtain ⟨owned, offset⟩ := started_owned limine started
  have others : ∀ slot, slot ≠ 0 → (init before).threads slot = .zeroed := by
    intro slot different
    exact (setThread_other before 0 slot _ different).trans (fresh slot)
  constructor
  · exact (owned.root_page _ (Set.mem_singleton _)).1.nonzero
  · change before.mm.hhdmOffset + pmmMaxPhys + 4 * pageSize < 2 ^ 64
    rw [offset]
    exact limine.direct
  · intro slot different runnable
    rw [others slot different] at runnable
    cases runnable
  · intro slot different _ runnable
    rw [others slot different] at runnable
    cases runnable

theorem stackTop_nonzero (k : Kernel)
    (direct : k.mm.hhdmOffset + pmmMaxPhys + 4 * pageSize < 2 ^ 64) (start : Nat)
    (run : FreeRun k.mm.pmm start 4) : stackTop k (start * pageSize) ≠ 0 := by
  have inside := run.1
  simp only [stackTop, threadKstackSize, pageSize, pmmMaxPhys, bitmapPages] at *
  omega

theorem Contexts.setThread {k : Kernel} (contexts : Contexts k) (slot : Nat) (thread : Thread)
    (equipped : thread.state = .runnable → slot ≠ 0 → Equipped thread)
    (saved : slot ≠ k.currentIdx → thread.state = .runnable → slot ≠ 0 →
      CodeSelector thread.frame) :
    Contexts (k.setThread slot thread) where
  kernel := contexts.kernel
  direct := contexts.direct
  equipped other different runnable := by
    by_cases same : other = slot
    · subst other
      rw [setThread_same] at runnable ⊢
      exact equipped runnable different
    · rw [setThread_other _ _ _ _ same] at runnable ⊢
      exact contexts.equipped other different runnable
  saved other different away runnable := by
    have elsewhere : other ≠ k.currentIdx := away
    by_cases same : other = slot
    · subst other
      rw [setThread_same] at runnable ⊢
      exact saved elsewhere runnable different
    · rw [setThread_other _ _ _ _ same] at runnable ⊢
      exact contexts.saved other different elsewhere runnable

theorem Contexts.growTable {k : Kernel} (contexts : Contexts k) (slot : Nat) :
    Contexts (k.growTable slot) := by
  unfold Kernel.growTable
  split
  · exact ⟨contexts.kernel, contexts.direct, contexts.equipped, contexts.saved⟩
  · exact contexts

theorem Contexts.setPmm {k : Kernel} (contexts : Contexts k) (pmm : Pmm.State) :
    Contexts (k.setPmm pmm) :=
  ⟨contexts.kernel, contexts.direct, contexts.equipped, contexts.saved⟩

theorem kthreadCreate_contexts (k after : Kernel) (name : List UInt8) (f arg : Nat) (ret : Int)
    (contexts : Contexts k) (created : KthreadCreated k name f arg (ret, after)) :
    Contexts after := by
  cases created with
  | noSlot _ => exact contexts
  | noStack slot pmm _ _ => exact contexts.setPmm pmm
  | created slot start found nonzero _ run =>
      apply Contexts.growTable
      apply (contexts.setPmm _).setThread
      · intro _ _
        exact ⟨stackTop_nonzero k contexts.direct start run, contexts.kernel⟩
      · intro _ _ _
        exact .inl rfl

theorem threadCreateUser_contexts (k after : Kernel) (name : List UInt8)
    (entry userRsp space : Nat) (ret : Int) (contexts : Contexts k) (given : space ≠ 0)
    (available : unusedSlot k = none ∨
      (∃ start, FreeRun k.mm.pmm start 4) ∧ ¬ FreeRun k.mm.pmm 0 4)
    (created : UserCreated k name entry userRsp space (ret, after)) : Contexts after := by
  cases created with
  | noSlot _ => exact contexts
  | noStack slot pmm found failed =>
      -- The guard leaves no way to run out of stack pages once there is a slot.
      rcases available with full | ⟨⟨start, run⟩, notZero⟩
      · rw [found] at full
        cases full
      · rcases failed with ⟨_, none_⟩ | zero
        · exact absurd run (none_ start)
        · exact absurd zero notZero
  | created slot start found nonzero _ run =>
      apply Contexts.growTable
      apply (contexts.setPmm _).setThread
      · intro _ _
        exact ⟨stackTop_nonzero k contexts.direct start run, given⟩
      · intro _ _ _
        exact .inr rfl

theorem switchTo_contexts (k : Kernel) (f : IrqFrame) (target : Nat) (contexts : Contexts k)
    (proper : CodeSelector f) : Contexts (switchTo k f target).2 := by
  have shape : ∃ cr3 rsp0, (switchTo k f target).2 =
      { k.setThread k.currentIdx { k.threads k.currentIdx with frame := f } with
        currentIdx := target
        cr3 := cr3
        rsp0 := rsp0 } := by
    unfold switchTo
    simp only
    split <;> split <;> exact ⟨_, _, rfl⟩
  obtain ⟨cr3, rsp0, shape⟩ := shape
  rw [shape]
  have state : ∀ slot, ((k.setThread k.currentIdx
      { k.threads k.currentIdx with frame := f }).threads slot).state = (k.threads slot).state ∧
      (Equipped ((k.setThread k.currentIdx
        { k.threads k.currentIdx with frame := f }).threads slot) ↔ Equipped (k.threads slot)) := by
    intro slot
    by_cases same : slot = k.currentIdx
    · subst slot
      rw [setThread_same]
      exact ⟨rfl, Iff.rfl⟩
    · rw [setThread_other _ _ _ _ same]
      exact ⟨rfl, Iff.rfl⟩
  refine ⟨contexts.kernel, contexts.direct, ?_, ?_⟩
  · intro slot different runnable
    exact (state slot).2.mpr (contexts.equipped slot different ((state slot).1.symm.trans runnable))
  · intro slot different away runnable
    change CodeSelector ((k.setThread k.currentIdx
      { k.threads k.currentIdx with frame := f }).threads slot).frame
    by_cases same : slot = k.currentIdx
    · subst slot
      rw [setThread_same]
      exact proper
    · rw [setThread_other _ _ _ _ same]
      exact contexts.saved slot different same ((state slot).1.symm.trans runnable)

theorem Contexts.slice {k : Kernel} (contexts : Contexts k) (lastSlice : Nat) :
    Contexts { k with lastSlice := lastSlice } :=
  ⟨contexts.kernel, contexts.direct, contexts.equipped, contexts.saved⟩

theorem schedTick_contexts (k : Kernel) (f : IrqFrame) (contexts : Contexts k)
    (proper : CodeSelector f) : Contexts (schedTick k f).2 := by
  unfold schedTick
  split
  · exact contexts.slice _
  · simp only
    split
    · exact contexts.slice 0
    · exact switchTo_contexts _ f _ (contexts.slice 0) proper

theorem schedThreadExit_contexts (k : Kernel) (f : IrqFrame) (contexts : Contexts k)
    (proper : CodeSelector f) : Contexts (schedThreadExit k f).2 := by
  have left : Contexts
      (k.setThread k.currentIdx { k.threads k.currentIdx with state := .zombie }) := by
    apply contexts.setThread
    · intro runnable
      cases runnable
    · intro _ runnable
      cases runnable
  exact schedTick_contexts _ f (left.slice timesliceTicks) proper

theorem sysExit_contexts (k : Kernel) (status : Int) (f : IrqFrame) (contexts : Contexts k)
    (proper : CodeSelector f) : Contexts (sysExit k status f).2 := by
  -- The exit status is written first; the thread is then as equipped as before.
  have noted : Contexts
      (k.setThread k.currentIdx { k.threads k.currentIdx with exitStatus := status }) := by
    apply contexts.setThread
    · intro runnable different
      exact contexts.equipped k.currentIdx different runnable
    · intro away
      exact absurd rfl away
  exact schedThreadExit_contexts _ f noted proper

theorem schedReap_contexts (k after : Kernel) (tid : Nat) (contexts : Contexts k)
    (done : schedReap k tid = .ok after) : Contexts after := by
  rcases schedReap_cases k after tid done with ⟨_, _, rfl⟩ | ⟨_, _, rfl⟩
  · exact contexts
  · have freed : Contexts { k with mm := freeThread k.mm (k.threads tid) } := by
      obtain ⟨kernel, hhdm⟩ := freeThread_same k.mm (k.threads tid)
      refine ⟨?_, ?_, contexts.equipped, contexts.saved⟩
      · exact kernel ▸ contexts.kernel
      · exact hhdm ▸ contexts.direct
    apply freed.setThread
    · intro runnable
      cases runnable
    · intro _ runnable
      cases runnable

theorem step_contexts (k : Kernel) (op : Op) (ret : Int) (after : Kernel) (contexts : Contexts k)
    (allowed : Proper op ∧ StackAvailable k op) (done : step k op = .ok (ret, after)) :
    Contexts after := by
  obtain ⟨proper, available⟩ := allowed
  cases op with
  | kthreadCreate name f arg =>
      obtain ⟨result, equal, created⟩ := kthreadCreate_created k name f arg
      rw [step, equal, Except.ok.injEq] at done
      subst result
      exact kthreadCreate_contexts k after name f arg ret contexts created
  | threadCreateUser name entry userRsp space =>
      obtain ⟨result, equal, created⟩ := threadCreateUser_created k name entry userRsp space
      rw [step, equal, Except.ok.injEq] at done
      subst result
      exact threadCreateUser_contexts k after name entry userRsp space ret contexts proper available
        created
  | threadExit f =>
      simp only [step, Except.ok.injEq, Prod.mk.injEq] at done
      exact done.2 ▸ schedThreadExit_contexts k f contexts proper
  | sysExit status f =>
      simp only [step, Except.ok.injEq, Prod.mk.injEq] at done
      exact done.2 ▸ sysExit_contexts k status f contexts proper
  | reap tid =>
      obtain ⟨reaped, taken, rest⟩ := (bind_ok _ _ _).mp done
      simp only [pure_ok, Except.ok.injEq, Prod.mk.injEq] at rest
      exact rest.2 ▸ schedReap_contexts k reaped tid contexts taken
  | tick f =>
      simp only [step, Except.ok.injEq, Prod.mk.injEq] at done
      exact done.2 ▸ schedTick_contexts k f contexts proper

def Creates : Op → Prop
  | .kthreadCreate _ _ _ => True
  | .threadCreateUser _ _ _ _ => True
  | _ => False

theorem creation_fails_cleanly (k : Kernel) (op : Op) (after : Kernel) (creates : Creates op)
    (available : StackAvailable k op) (done : step k op = .ok (-1, after)) :
    after.threads = k.threads ∧ after.nrThreads = k.nrThreads := by
  cases op with
  | kthreadCreate name f arg =>
      obtain ⟨result, equal, created⟩ := kthreadCreate_created k name f arg
      rw [step, equal, Except.ok.injEq] at done
      subst result
      cases created with
      | noSlot _ => exact ⟨rfl, rfl⟩
      | noStack _ _ _ _ => exact ⟨rfl, rfl⟩
  | threadCreateUser name entry userRsp space =>
      obtain ⟨result, equal, created⟩ := threadCreateUser_created k name entry userRsp space
      rw [step, equal, Except.ok.injEq] at done
      subst result
      cases created with
      | noSlot _ => exact ⟨rfl, rfl⟩
      | noStack slot pmm found failed =>
          rcases available with full | ⟨⟨start, run⟩, notZero⟩
          · rw [found] at full
            cases full
          · rcases failed with ⟨_, none_⟩ | zero
            · exact absurd run (none_ start)
            · exact absurd zero notZero
  | _ => exact creates.elim

/-- In every run whose user threads find stack pages, a thread the scheduler may
switch to has a stack, a space and a frame to return to, and a failed creation
leaves the table alone. -/
theorem runnable_threads_have_contexts (start k : Kernel) (booted : Booted start)
    (run : Run step (fun k op => Proper op ∧ StackAvailable k op) start k) :
    (∀ slot, slot < schedMaxThreads → slot ≠ k.currentIdx → slot ≠ 0 →
      (k.threads slot).state = .runnable →
      (k.threads slot).kstackTop ≠ 0 ∧ (k.threads slot).space ≠ 0 ∧
        ((k.threads slot).frame.cs = 0x08 ∨ (k.threads slot).frame.cs = 0x23)) ∧
    (∀ op after, Creates op → StackAvailable k op → step k op = .ok (-1, after) →
      after.threads = k.threads ∧ after.nrThreads = k.nrThreads) := by
  have contexts := run_invariant step _ Contexts step_contexts run (init_contexts start booted)
  constructor
  · intro slot _ away different runnable
    obtain ⟨stack, space⟩ := contexts.equipped slot different runnable
    exact ⟨stack, space, contexts.saved slot different away runnable⟩
  · intro op after creates available done
    exact creation_fails_cleanly k op after creates available done

def bootedKernel (mm : Mm) : Kernel :=
  init
    { mm := mm
      threads := fun _ => .zeroed
      nrThreads := 0
      currentIdx := 0
      lastSlice := 0
      cr3 := mm.kernelSpace
      rsp0 := 0
      kthreadTrampoline := 0 }

@[simp] theorem bootedKernel_mm (mm : Mm) : (bootedKernel mm).mm = mm := rfl

@[simp] theorem bootedKernel_currentIdx (mm : Mm) : (bootedKernel mm).currentIdx = 0 := rfl

theorem bootedKernel_slot (mm : Mm) (slot : Nat) (different : slot ≠ 0) :
    (bootedKernel mm).threads slot = .zeroed := by
  simp [bootedKernel, init, Kernel.setThread, different]

theorem bootedKernel_booted (pre : Mm) (cr3 : Nat) (limine : Limine pre cr3) :
    Booted (bootedKernel (Vmm.init pre cr3)) := by
  generalize loaded : Vmm.init pre cr3 = mm
  exact ⟨pre, cr3, _, limine, .inl loaded.symm, fun _ => rfl, rfl⟩

theorem bootedKernel_unused (mm : Mm) : unusedSlot (bootedKernel mm) = some 1 := rfl

instance (pmm : Pmm.State) (start count : Nat) : Decidable (FreeRun pmm start count) :=
  inferInstanceAs (Decidable (_ ∧ ∀ offset, offset < count → _))

theorem runnable_threads_have_contexts_first_user :
    ∃ start k, Booted start ∧
      Run step (fun k op => Proper op ∧ StackAvailable k op) start k ∧
      (k.threads 1).state = .runnable ∧ (k.threads 1).kstackTop ≠ 0 ∧ (k.threads 1).space ≠ 0 ∧
      ((k.threads 1).frame.cs = 0x08 ∨ (k.threads 1).frame.cs = 0x23) := by
  have limine := blankMachine_wide
  have booted := bootedKernel_booted _ _ limine
  have enough : FreeRun (Vmm.init (blankMachine (-2)) (2 ^ 29)).pmm 2 4 := by decide +kernel
  have notZero : ¬ FreeRun (Vmm.init (blankMachine (-2)) (2 ^ 29)).pmm 0 4 := by decide +kernel
  generalize Vmm.init (blankMachine (-2)) (2 ^ 29) = mm at booted enough notZero
  have available : StackAvailable (bootedKernel mm)
      (.threadCreateUser [] 0x400000 0x700000000000 8192) := .inr ⟨⟨2, enough⟩, notZero⟩
  obtain ⟨⟨ret, k⟩, taken, created⟩ :=
    threadCreateUser_created (bootedKernel mm) [] 0x400000 0x700000000000 8192
  have run : Run step (fun k op => Proper op ∧ StackAvailable k op) (bootedKernel mm) k :=
    Relation.ReflTransGen.single ⟨.threadCreateUser [] 0x400000 0x700000000000 8192, ret,
      ⟨(by decide : 8192 ≠ 0), available⟩, taken⟩
  have table : (k.threads 1).state = .runnable ∧ k.currentIdx = 0 := by
    cases created with
    | noSlot full =>
        rw [bootedKernel_unused] at full
        cases full
    | noStack slot pmm _ failed =>
        rcases failed with ⟨_, none_⟩ | zero
        · exact absurd enough (none_ 2)
        · exact absurd zero notZero
    | created slot start found _ _ _ =>
        rw [bootedKernel_unused, Option.some.injEq] at found
        subst slot
        rw [growTable_threads, growTable_currentIdx, setThread_same]
        exact ⟨rfl, rfl⟩
  have valid := (runnable_threads_have_contexts _ k booted run).1 1 (by decide)
    (by rw [table.2]; decide) (by decide) table.1
  exact ⟨_, k, booted, run, table.1, valid⟩

/-- Every call that finds a slot but no stack pages fails and breaks the property. -/
theorem unavailable_stack_breaks (k : Kernel) (name : List UInt8) (entry userRsp space slot : Nat)
    (found : unusedSlot k = some slot)
    (unavailable : ¬ StackAvailable k (.threadCreateUser name entry userRsp space)) :
    ∃ after, step k (.threadCreateUser name entry userRsp space) = .ok (-1, after) ∧
      (after.threads slot).state = .runnable ∧ after.currentIdx = k.currentIdx ∧
      (after.threads slot).kstackTop = 0 ∧ (after.threads slot).space = 0 ∧
      (after.threads slot).frame.cs = 0 := by
  obtain ⟨⟨ret, after⟩, equal, created⟩ := threadCreateUser_created k name entry userRsp space
  cases created with
  | noSlot full => exact absurd (.inl full) unavailable
  | noStack other pmm again _ =>
      rw [found, Option.some.injEq] at again
      subst other
      have thread : (published k slot name).threads slot =
          { Thread.zeroed.setCwd rootPath with tid := slot, state := .runnable }.setName name :=
        (congrFun (growTable_threads _ slot) slot).trans (setThread_same _ slot _)
      refine ⟨_, equal, ?_⟩
      simp only [Kernel.setPmm, thread]
      exact ⟨rfl, growTable_currentIdx _ slot, rfl, rfl, rfl⟩
  | created _ start _ _ notZero run => exact absurd (.inr ⟨⟨start, run⟩, notZero⟩) unavailable

/-- With two free pages the kernel boots, but a user thread gets no stack: the call
returns -1 and leaves a runnable thread without stack, space and selector. -/
theorem starved_thread_stays_runnable :
    ∃ start after, Booted start ∧ Proper (.threadCreateUser [] 0x400000 0x700000000000 8192) ∧
      step start (.threadCreateUser [] 0x400000 0x700000000000 8192) = .ok (-1, after) ∧
      (start.threads 1).state = .unused ∧ (after.threads 1).state = .runnable ∧
      1 ≠ after.currentIdx ∧ (after.threads 1).kstackTop = 0 ∧ (after.threads 1).space = 0 ∧
      (after.threads 1).frame.cs = 0 := by
  have limine := blankMachine_limine 6 (by decide) 1 (by decide) (by decide)
  have booted := bootedKernel_booted _ _ limine
  have starved : ∀ start, ¬ FreeRun (Vmm.init (blankMachine 6) (2 ^ 29)).pmm start 4 := by
    -- A run of four would need two free pages three apart; only pages 1 and 2 were free.
    intro start run
    have bits : ∀ page, page < 64 → (6 : BitVec 64).getLsbD page = true → page = 1 ∨ page = 2 := by
      decide
    have free : ∀ offset, offset < 4 → start + offset = 1 ∨ start + offset = 2 := by
      intro offset small
      have inside := run.1
      have page := init_free (blankMachine 6) (2 ^ 29) (start + offset)
        ⟨by omega, run.2 offset small⟩
      obtain ⟨low, set⟩ := blankMachine_free 6 _ page
      exact bits _ low set
    have left := free 0 (by decide)
    have right := free 3 (by decide)
    omega
  generalize Vmm.init (blankMachine 6) (2 ^ 29) = mm at booted starved
  have unavailable : ¬ StackAvailable (bootedKernel mm)
      (.threadCreateUser [] 0x400000 0x700000000000 8192) := by
    rintro (full | ⟨⟨start, run⟩, _⟩)
    · rw [bootedKernel_unused] at full
      cases full
    · exact starved start run
  obtain ⟨after, equal, runnable, current, broken⟩ :=
    unavailable_stack_breaks _ _ _ _ _ 1 (bootedKernel_unused mm) unavailable
  refine ⟨bootedKernel mm, after, booted, (by decide : 8192 ≠ 0), equal, rfl, runnable, ?_, broken⟩
  rw [current, bootedKernel_currentIdx]
  decide

end Shizuku.Sched
