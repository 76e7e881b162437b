import Shizuku.ThreadContexts

/-!
What the scheduler resumes. `Live` keeps beside the kernel the frame that each
thread is owed: the one that was live when it was last switched out, or the frame
fabricated for it. A zombie is only reaped while another thread runs, as the
source demands of `sched_reap`.
-/

namespace Shizuku.Sched

open Machine Pmm Vmm

structure Switched (k : Kernel) (f : IrqFrame) (target : Nat) (loaded : IrqFrame)
    (after : Kernel) : Prop where
  different : target ≠ k.currentIdx
  runnable : (k.threads target).state = .runnable
  loaded : loaded = (k.threads target).frame
  current : after.currentIdx = target
  threads : after.threads =
    (k.setThread k.currentIdx { k.threads k.currentIdx with frame := f }).threads
  mm : after.mm = k.mm
  cr3 : after.cr3 = if (k.threads target).space ≠ 0 ∧
      (k.threads target).space ≠ (k.threads k.currentIdx).space then (k.threads target).space
    else k.cr3
  rsp0 : after.rsp0 = if (k.threads target).kstackTop ≠ 0 then (k.threads target).kstackTop
    else k.rsp0

theorem pickNext_runnable (k : Kernel) :
    pickNext k = k.currentIdx ∨ (k.threads (pickNext k)).state = .runnable := by
  unfold pickNext
  split
  · rename_i found
    exact .inr (by simpa using List.find?_some found)
  · exact .inl rfl

theorem switchTo_switched (k : Kernel) (f : IrqFrame) (target : Nat)
    (different : target ≠ k.currentIdx) (runnable : (k.threads target).state = .runnable) :
    Switched k f target (switchTo k f target).1 (switchTo k f target).2 := by
  have other : (k.setThread k.currentIdx { k.threads k.currentIdx with frame := f }).threads target =
      k.threads target := setThread_other _ _ _ _ different
  have own : ((k.setThread k.currentIdx { k.threads k.currentIdx with frame := f }).threads
      k.currentIdx).space = (k.threads k.currentIdx).space := by rw [setThread_same]
  unfold switchTo
  simp only [other, own]
  split <;> split <;> constructor <;> simp_all [Kernel.setThread]

theorem schedTick_cases (k : Kernel) (f : IrqFrame) :
    (∃ slice, schedTick k f = (f, { k with lastSlice := slice })) ∨
      ∃ target, Switched k f target (schedTick k f).1 (schedTick k f).2 := by
  unfold schedTick
  split
  · exact .inl ⟨_, rfl⟩
  · simp only
    split
    · exact .inl ⟨_, rfl⟩
    · rename_i different
      have runnable := (pickNext_runnable { k with lastSlice := 0 }).resolve_left different
      have switched := switchTo_switched { k with lastSlice := 0 } f _ different runnable
      exact .inr ⟨_, switched.different, switched.runnable, switched.loaded, switched.current,
        switched.threads, switched.mm, switched.cr3, switched.rsp0⟩

/-! ### The frames that are owed -/

structure Live where
  k : Kernel
  due : Nat → IrqFrame

def liveFrame : Op → Option IrqFrame
  | .threadExit f => some f
  | .sysExit _ f => some f
  | .tick f => some f
  | _ => none

def loadedFrame (k : Kernel) : Op → Option IrqFrame
  | .threadExit f => some (schedThreadExit k f).1
  | .sysExit status f => some (sysExit k status f).1
  | .tick f => some (schedTick k f).1
  | _ => none

def firstFrame (k after : Kernel) (slot : Nat) : Op → Option IrqFrame
  | .kthreadCreate _ f arg => some (kthreadFrame k (after.threads slot).kstackTop f arg)
  | .threadCreateUser _ entry userRsp _ => some (userFrame entry userRsp)
  | _ => none

def dueSwitched (w : Live) (f : IrqFrame) (after : Kernel) (slot : Nat) : IrqFrame :=
  if slot = w.k.currentIdx ∧ after.currentIdx ≠ w.k.currentIdx then f else w.due slot

def dueAfter (w : Live) (op : Op) (ret : Int) (after : Kernel) (slot : Nat) : IrqFrame :=
  match liveFrame op, firstFrame w.k after slot op with
  | some f, _ => dueSwitched w f after slot
  | none, some first => if (slot : Int) = ret then first else w.due slot
  | none, none => w.due slot

def resume (w : Live) (op : Op) : Outcome (Option IrqFrame × Live) := do
  let (ret, after) ← step w.k op
  return (loadedFrame w.k op, ⟨after, dueAfter w op ret after⟩)

def Succeeds (k : Kernel) (op : Op) : Prop := ∀ ret after, step k op = .ok (ret, after) → 0 ≤ ret

/-- Creations succeed, user threads get a space, and a running thread is not reaped. -/
def Undisturbed (w : Live) (op : Op) : Prop :=
  match op with
  | .kthreadCreate _ _ _ => Succeeds w.k op
  | .threadCreateUser _ _ _ space => space ≠ 0 ∧ Succeeds w.k op
  | .reap tid => tid ≠ w.k.currentIdx
  | _ => True

/-- What a runnable thread needs to be switched to. -/
structure Ready (t : Thread) : Prop where
  space : t.space ≠ 0
  stack : t.isUser = true → t.kstackTop ≠ 0

structure Kept (w : Live) : Prop where
  kernel : w.k.mm.kernelSpace ≠ 0
  direct : w.k.mm.hhdmOffset + pmmMaxPhys + 4 * pageSize < 2 ^ 64
  ready : ∀ slot, (w.k.threads slot).state = .runnable → Ready (w.k.threads slot)
  occupied : (w.k.threads w.k.currentIdx).state ≠ .unused
  saved : ∀ slot, slot ≠ w.k.currentIdx → (w.k.threads slot).state = .runnable →
    (w.k.threads slot).frame = w.due slot
  cr3 : w.k.cr3 = (w.k.threads w.k.currentIdx).space
  rsp0 : (w.k.threads w.k.currentIdx).isUser = true →
    w.k.rsp0 = (w.k.threads w.k.currentIdx).kstackTop

structure SameRegisters (before after : Kernel) : Prop where
  kernelSpace : after.mm.kernelSpace = before.mm.kernelSpace
  hhdm : after.mm.hhdmOffset = before.mm.hhdmOffset
  current : after.currentIdx = before.currentIdx
  cr3 : after.cr3 = before.cr3
  rsp0 : after.rsp0 = before.rsp0

theorem created_registers (k : Kernel) (pmm : Pmm.State) (slot : Nat) (t : Thread) :
    SameRegisters k (((k.setPmm pmm).setThread slot t).growTable slot) := by
  unfold Kernel.growTable
  split <;> exact ⟨rfl, rfl, rfl, rfl, rfl⟩

theorem Kept.replace {w : Live} (kept : Kept w) (after : Kernel) (due : Nat → IrqFrame)
    (slot : Nat) (t : Thread) (away : w.k.currentIdx ≠ slot) (same : SameRegisters w.k after)
    (threads : after.threads = (w.k.setThread slot t).threads)
    (fresh : t.state = .runnable → Ready t ∧ t.frame = due slot)
    (others : ∀ other, other ≠ slot → due other = w.due other) : Kept ⟨after, due⟩ := by
  have current : after.threads after.currentIdx = w.k.threads w.k.currentIdx := by
    rw [threads, same.current, setThread_other _ _ _ _ away]
  constructor
  · exact same.kernelSpace ▸ kept.kernel
  · exact same.hhdm ▸ kept.direct
  · intro other runnable
    change (after.threads other).state = .runnable at runnable
    change Ready (after.threads other)
    rw [threads] at runnable ⊢
    by_cases here : other = slot
    · subst other
      rw [setThread_same] at runnable ⊢
      exact (fresh runnable).1
    · rw [setThread_other _ _ _ _ here] at runnable ⊢
      exact kept.ready other runnable
  · exact current ▸ kept.occupied
  · intro other elsewhere runnable
    change (after.threads other).state = .runnable at runnable
    change (after.threads other).frame = due other
    rw [threads] at runnable ⊢
    by_cases here : other = slot
    · subst other
      rw [setThread_same] at runnable ⊢
      exact (fresh runnable).2
    · rw [setThread_other _ _ _ _ here] at runnable ⊢
      rw [others other here]
      exact kept.saved other (same.current ▸ elsewhere) runnable
  · change after.cr3 = (after.threads after.currentIdx).space
    rw [current, same.cr3, kept.cr3]
  · change (after.threads after.currentIdx).isUser = true →
      after.rsp0 = (after.threads after.currentIdx).kstackTop
    rw [current, same.rsp0]
    exact kept.rsp0

theorem Kept.current {w : Live} (kept : Kept w) (t : Thread) (slice : Nat)
    (space : t.space = (w.k.threads w.k.currentIdx).space)
    (stack : t.kstackTop = (w.k.threads w.k.currentIdx).kstackTop)
    (user : t.isUser = (w.k.threads w.k.currentIdx).isUser)
    (state : t.state = (w.k.threads w.k.currentIdx).state ∨ t.state = .zombie) :
    Kept ⟨{ w.k.setThread w.k.currentIdx t with lastSlice := slice }, w.due⟩ := by
  have here : (w.k.setThread w.k.currentIdx t).threads w.k.currentIdx = t := setThread_same _ _ _
  have there : ∀ slot, slot ≠ w.k.currentIdx →
      (w.k.setThread w.k.currentIdx t).threads slot = w.k.threads slot :=
    fun slot away => setThread_other _ _ _ _ away
  refine ⟨kept.kernel, kept.direct, ?_, ?_, ?_, ?_, ?_⟩
  · intro slot runnable
    change ((w.k.setThread w.k.currentIdx t).threads slot).state = .runnable at runnable
    change Ready ((w.k.setThread w.k.currentIdx t).threads slot)
    by_cases same : slot = w.k.currentIdx
    · subst slot
      rw [here] at runnable ⊢
      rcases state with kept_ | zombie
      · have ready := kept.ready _ (kept_ ▸ runnable)
        exact ⟨space ▸ ready.space, fun ring3 => stack ▸ ready.stack (user ▸ ring3)⟩
      · rw [zombie] at runnable
        cases runnable
    · rw [there slot same] at runnable ⊢
      exact kept.ready slot runnable
  · change ((w.k.setThread w.k.currentIdx t).threads w.k.currentIdx).state ≠ .unused
    rw [here]
    rcases state with kept_ | zombie
    · exact kept_ ▸ kept.occupied
    · rw [zombie]
      decide
  · intro slot away runnable
    change ((w.k.setThread w.k.currentIdx t).threads slot).state = .runnable at runnable
    change ((w.k.setThread w.k.currentIdx t).threads slot).frame = w.due slot
    rw [there slot away] at runnable ⊢
    exact kept.saved slot away runnable
  · change w.k.cr3 = ((w.k.setThread w.k.currentIdx t).threads w.k.currentIdx).space
    rw [here, space, kept.cr3]
  · change ((w.k.setThread w.k.currentIdx t).threads w.k.currentIdx).isUser = true →
      w.k.rsp0 = ((w.k.setThread w.k.currentIdx t).threads w.k.currentIdx).kstackTop
    rw [here, stack, user]
    exact kept.rsp0

theorem switched_kept {w : Live} (kept : Kept w) (f : IrqFrame) (target : Nat) (loaded : IrqFrame)
    (after : Kernel) (switched : Switched w.k f target loaded after) :
    Kept ⟨after, dueSwitched w f after⟩ := by
  have ready := kept.ready target switched.runnable
  have current := switched.current
  have left : after.currentIdx ≠ w.k.currentIdx := current ▸ switched.different
  have there : ∀ slot, slot ≠ w.k.currentIdx → after.threads slot = w.k.threads slot := by
    intro slot away
    rw [switched.threads, setThread_other _ _ _ _ away]
  have here : after.threads w.k.currentIdx = { w.k.threads w.k.currentIdx with frame := f } := by
    rw [switched.threads, setThread_same]
  have arrived : after.threads after.currentIdx = w.k.threads target := by
    rw [current, there target switched.different]
  constructor
  · exact switched.mm ▸ kept.kernel
  · exact switched.mm ▸ kept.direct
  · intro slot runnable
    change (after.threads slot).state = .runnable at runnable
    change Ready (after.threads slot)
    by_cases same : slot = w.k.currentIdx
    · subst slot
      rw [here] at runnable ⊢
      have before := kept.ready _ runnable
      exact ⟨before.space, before.stack⟩
    · rw [there slot same] at runnable ⊢
      exact kept.ready slot runnable
  · change (after.threads after.currentIdx).state ≠ .unused
    rw [arrived, switched.runnable]
    decide
  · intro slot away runnable
    change (after.threads slot).state = .runnable at runnable
    change (after.threads slot).frame = dueSwitched w f after slot
    by_cases same : slot = w.k.currentIdx
    · subst slot
      rw [here, dueSwitched, if_pos ⟨rfl, left⟩]
    · rw [there slot same] at runnable ⊢
      rw [dueSwitched, if_neg fun both => same both.1]
      exact kept.saved slot same runnable
  · -- The register is only left alone where it already holds the space.
    change after.cr3 = (after.threads after.currentIdx).space
    rw [arrived, switched.cr3]
    split
    · rfl
    · rename_i skipped
      rw [kept.cr3]
      by_contra different
      exact skipped ⟨ready.space, fun same => different same.symm⟩
  · intro user
    change (after.threads after.currentIdx).isUser = true at user
    change after.rsp0 = (after.threads after.currentIdx).kstackTop
    rw [arrived] at user ⊢
    rw [switched.rsp0, if_pos (ready.stack user)]

theorem tick_kept {w : Live} (kept : Kept w) (f : IrqFrame) :
    Kept ⟨(schedTick w.k f).2, dueSwitched w f (schedTick w.k f).2⟩ ∧
      ((schedTick w.k f).2.currentIdx ≠ w.k.currentIdx →
        (schedTick w.k f).1 = w.due (schedTick w.k f).2.currentIdx) := by
  rcases schedTick_cases w.k f with ⟨slice, same⟩ | ⟨target, switched⟩
  · have due : dueSwitched w f { w.k with lastSlice := slice } = w.due := by
      funext slot
      exact if_neg fun both => both.2 rfl
    rw [same, due]
    exact ⟨⟨kept.kernel, kept.direct, kept.ready, kept.occupied, kept.saved, kept.cr3, kept.rsp0⟩,
      fun moved => absurd rfl moved⟩
  · refine ⟨switched_kept kept f target _ _ switched, fun _ => ?_⟩
    rw [switched.loaded, switched.current]
    exact kept.saved target switched.different switched.runnable

theorem created_kept {w : Live} (kept : Kept w) (op : Op) (slot : Nat) (t : Thread)
    (pmm : Pmm.State) (found : unusedSlot w.k = some slot) (ready : Ready t)
    (quiet : liveFrame op = none) (first : firstFrame w.k
      (((w.k.setPmm pmm).setThread slot t).growTable slot) slot op = some t.frame) :
    Kept ⟨((w.k.setPmm pmm).setThread slot t).growTable slot,
      dueAfter w op slot (((w.k.setPmm pmm).setThread slot t).growTable slot)⟩ := by
  have unused := (unusedSlot_some w.k slot found).2
  refine kept.replace _ _ slot t (fun same => kept.occupied (same ▸ unused))
    (created_registers _ _ _ _) (by rw [growTable_threads]; rfl) (fun _ => ⟨ready, ?_⟩) ?_
  · rw [dueAfter, quiet, first]
    exact (if_pos rfl).symm
  · intro other different
    rw [dueAfter, quiet]
    split
    · rename_i live
      cases live
    · exact if_neg fun same => different (Int.ofNat_inj.mp same)
    · rfl

theorem sysExit_yields (k : Kernel) (status : Int) (f : IrqFrame) :
    sysExit k status f = schedYield (k.setThread k.currentIdx
      { k.threads k.currentIdx with exitStatus := status, state := .zombie }) f := by
  let noted : Thread := { k.threads k.currentIdx with exitStatus := status }
  change schedYield ((k.setThread k.currentIdx noted).setThread k.currentIdx
    { (k.setThread k.currentIdx noted).threads k.currentIdx with state := .zombie }) f = _
  rw [setThread_same, setThread_setThread]

theorem exit_kept {w : Live} (kept : Kept w) (t : Thread) (f : IrqFrame)
    (space : t.space = (w.k.threads w.k.currentIdx).space)
    (stack : t.kstackTop = (w.k.threads w.k.currentIdx).kstackTop)
    (user : t.isUser = (w.k.threads w.k.currentIdx).isUser) (zombie : t.state = .zombie) :
    Kept ⟨(schedYield (w.k.setThread w.k.currentIdx t) f).2,
        dueSwitched w f (schedYield (w.k.setThread w.k.currentIdx t) f).2⟩ ∧
      ((schedYield (w.k.setThread w.k.currentIdx t) f).2.currentIdx ≠ w.k.currentIdx →
        (schedYield (w.k.setThread w.k.currentIdx t) f).1 =
          w.due (schedYield (w.k.setThread w.k.currentIdx t) f).2.currentIdx) :=
  tick_kept (kept.current t timesliceTicks space stack user (.inr zombie)) f

theorem resume_kept (w : Live) (op : Op) (loaded : Option IrqFrame) (after : Live) (kept : Kept w)
    (allowed : Undisturbed w op) (done : resume w op = .ok (loaded, after)) :
    Kept after ∧ ∀ frame, loaded = some frame → after.k.currentIdx ≠ w.k.currentIdx →
      frame = w.due after.k.currentIdx := by
  obtain ⟨⟨ret, k⟩, taken, rest⟩ := (bind_ok _ _ _).mp done
  cases rest
  cases op with
  | kthreadCreate name f arg =>
      refine ⟨?_, fun frame none_ => by cases none_⟩
      have succeeded := allowed ret k taken
      obtain ⟨result, equal, created⟩ := kthreadCreate_created w.k name f arg
      rw [step, equal, Except.ok.injEq] at taken
      subst result
      cases created with
      | noSlot _ => exact absurd succeeded (by decide)
      | noStack _ _ _ _ => exact absurd succeeded (by decide)
      | created slot start found nonzero _ run =>
          refine created_kept kept _ slot _ _ found ⟨kept.kernel, fun user => by cases user⟩ rfl ?_
          rw [firstFrame, growTable_threads, setThread_same]
          rfl
  | threadCreateUser name entry userRsp space =>
      refine ⟨?_, fun frame none_ => by cases none_⟩
      have succeeded := allowed.2 ret k taken
      obtain ⟨result, equal, created⟩ := threadCreateUser_created w.k name entry userRsp space
      rw [step, equal, Except.ok.injEq] at taken
      subst result
      cases created with
      | noSlot _ => exact absurd succeeded (by decide)
      | noStack _ _ _ _ => exact absurd succeeded (by decide)
      | created slot start found nonzero _ run =>
          exact created_kept kept _ slot _ _ found
            ⟨allowed.1, fun _ => stackTop_nonzero w.k kept.direct start run⟩ rfl rfl
  | threadExit f =>
      obtain ⟨kept, resumed⟩ := exit_kept kept
        { w.k.threads w.k.currentIdx with state := .zombie } f rfl rfl rfl rfl
      simp only [step, Except.ok.injEq, Prod.mk.injEq] at taken
      obtain ⟨_, rfl⟩ := taken
      exact ⟨kept, fun frame same moved => by cases same; exact resumed moved⟩
  | sysExit status f =>
      obtain ⟨kept, resumed⟩ := exit_kept kept
        { w.k.threads w.k.currentIdx with exitStatus := status, state := .zombie } f rfl rfl rfl rfl
      rw [← sysExit_yields] at kept resumed
      simp only [step, Except.ok.injEq, Prod.mk.injEq] at taken
      obtain ⟨_, rfl⟩ := taken
      exact ⟨kept, fun frame same moved => by cases same; exact resumed moved⟩
  | reap tid =>
      refine ⟨?_, fun frame none_ => by cases none_⟩
      obtain ⟨reaped, freed, same⟩ := (bind_ok _ _ _).mp taken
      cases same
      rcases schedReap_cases w.k k tid freed with ⟨_, _, rfl⟩ | ⟨_, _, rfl⟩
      · exact kept
      · obtain ⟨kernel, hhdm⟩ := freeThread_same w.k.mm (w.k.threads tid)
        exact kept.replace _ _ tid .zeroed (fun same => allowed same.symm)
          ⟨kernel, hhdm, rfl, rfl, rfl⟩ rfl (fun runnable => by cases runnable) fun _ _ => rfl
  | tick f =>
      obtain ⟨kept, resumed⟩ := tick_kept kept f
      simp only [step, Except.ok.injEq, Prod.mk.injEq] at taken
      obtain ⟨_, rfl⟩ := taken
      exact ⟨kept, fun frame same moved => by cases same; exact resumed moved⟩

theorem init_kept (start : Live) (booted : Booted start.k)
    (register : start.k.cr3 = start.k.mm.kernelSpace) : Kept start := by
  have contexts := init_contexts start.k booted
  obtain ⟨pre, cr3, before, _, _, fresh, made⟩ := booted
  have idle : start.k.threads 0 = (init before).threads 0 := by rw [made]
  have others : ∀ slot, slot ≠ 0 → start.k.threads slot = .zeroed := by
    intro slot different
    rw [made]
    exact (setThread_other before 0 slot _ different).trans (fresh slot)
  have current : start.k.currentIdx = 0 := by rw [made]; rfl
  have space : (start.k.threads 0).space = start.k.mm.kernelSpace := by rw [made]; rfl
  constructor
  · exact contexts.kernel
  · exact contexts.direct
  · intro slot runnable
    by_cases same : slot = 0
    · subst slot
      exact ⟨space ▸ contexts.kernel, fun user => by rw [idle] at user; cases user⟩
    · rw [others slot same] at runnable
      cases runnable
  · rw [current, idle]
    exact ThreadState.noConfusion
  · intro slot away runnable
    rw [others slot (current ▸ away)] at runnable
    cases runnable
  · rw [current, space, register]
  · intro user
    rw [current, idle] at user
    cases user

/-- A switch loads the frame that was live when the thread left, or its first frame,
and afterwards the register and the task segment are those of the current thread. -/
theorem switches_keep_contexts (start w : Live) (booted : Booted start.k)
    (register : start.k.cr3 = start.k.mm.kernelSpace) (run : Run resume Undisturbed start w) :
    (∀ op frame after, Undisturbed w op → resume w op = .ok (some frame, after) →
      after.k.currentIdx ≠ w.k.currentIdx → frame = w.due after.k.currentIdx) ∧
    ((w.k.threads w.k.currentIdx).isUser = true →
      w.k.cr3 = (w.k.threads w.k.currentIdx).space ∧
        w.k.rsp0 = (w.k.threads w.k.currentIdx).kstackTop) := by
  have kept := run_invariant resume Undisturbed Kept
    (fun w op loaded after kept allowed done => (resume_kept w op loaded after kept allowed done).1)
    run (init_kept start booted register)
  constructor
  · intro op frame after allowed done moved
    exact (resume_kept w op (some frame) after kept allowed done).2 frame rfl moved
  · intro user
    exact ⟨kept.cr3, kept.rsp0 user⟩

/-- A new user thread; the idle thread leaves at `rip` 7, and the new thread has had its turn
but for the last tick. -/
def twoTurns : List Op :=
  .threadCreateUser [] 0x400000 0x700000000000 8192 ::
    (List.replicate 5 (.tick { IrqFrame.zeroed with rip := 7 }) ++ List.replicate 4 (.tick .zeroed))

theorem switches_keep_contexts_two_turns : ∃ start w frame after, Booted start.k ∧
    start.k.cr3 = start.k.mm.kernelSpace ∧ Run resume Undisturbed start w ∧
    w.k.currentIdx = 1 ∧ (w.k.threads 1).isUser = true ∧ w.k.cr3 = (w.k.threads 1).space ∧
    w.k.rsp0 = (w.k.threads 1).kstackTop ∧
    resume w (.tick .zeroed) = .ok (some frame, after) ∧ after.k.currentIdx = 0 ∧
    frame.rip = 7 ∧ frame = w.due 0 := by
  have limine := blankMachine_wide
  have booted := bootedKernel_booted _ _ limine
  have evaluated : (do
      let (ret, _) ← step (bootedKernel (Vmm.init (blankMachine (-2)) (2 ^ 29)))
        (.threadCreateUser [] 0x400000 0x700000000000 8192)
      let (_, w) ← replay resume
        ⟨bootedKernel (Vmm.init (blankMachine (-2)) (2 ^ 29)), fun _ => .zeroed⟩ twoTurns
      let (frame, after) ← resume w (.tick .zeroed)
      return (ret, w.k.currentIdx, (w.k.threads 1).isUser, frame.map (·.rip), after.k.currentIdx)) =
      Except.ok ((1 : Int), 1, true, some 7, 0) := by decide +kernel
  generalize Vmm.init (blankMachine (-2)) (2 ^ 29) = mm at booted evaluated
  obtain ⟨⟨ret, born⟩, created, evaluated⟩ := (bind_ok _ _ _).mp evaluated
  obtain ⟨⟨frames, w⟩, replayed, evaluated⟩ := (bind_ok _ _ _).mp evaluated
  obtain ⟨⟨loaded, after⟩, resumed, last⟩ := (bind_ok _ _ _).mp evaluated
  simp only [pure_ok, Except.ok.injEq, Prod.mk.injEq, Option.map_eq_some_iff] at last
  obtain ⟨rfl, turn, user, ⟨frame, rfl, rip⟩, back⟩ := last
  obtain ⟨⟨first, next⟩, stepped, rest⟩ := (bind_ok _ _ _).mp replayed
  obtain ⟨⟨others, final⟩, ticked, same⟩ := (bind_ok _ _ _).mp rest
  cases same
  have succeeds : Undisturbed ⟨bootedKernel mm, fun _ => .zeroed⟩
      (.threadCreateUser [] 0x400000 0x700000000000 8192) := by
    refine ⟨by decide, fun ret after done => ?_⟩
    rw [created, Except.ok.injEq, Prod.mk.injEq] at done
    exact done.1 ▸ Int.one_nonneg
  have undisturbed : ∀ op ∈ List.replicate 5 (Op.tick { IrqFrame.zeroed with rip := 7 }) ++
      List.replicate 4 (.tick .zeroed), ∀ w, Undisturbed w op := by
    simp [Undisturbed]
  have run : Run resume Undisturbed ⟨bootedKernel mm, fun _ => .zeroed⟩ w :=
    .head ⟨_, first, succeeds, stepped⟩ (replay_run _ _ _ undisturbed _ _ _ ticked)
  have kept := switches_keep_contexts _ w booted rfl run
  have registers := turn ▸ kept.2 (by rw [turn]; exact user)
  exact ⟨_, w, frame, after, booted, rfl, run, turn, user, registers.1, registers.2, resumed, back,
    rip, back ▸ kept.1 (.tick .zeroed) frame after trivial resumed (by rw [turn, back]; decide)⟩

end Shizuku.Sched
