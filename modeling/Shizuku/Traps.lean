import Shizuku.Interrupts
import Shizuku.Isolation

/-!
Threads under interrupts and system calls. Frames are pushed to the kernel stack of the
current thread; a switch puts another thread's frame out of the thread table there, and a
system call that waits leaves its frame on its stack while others run. Every thread has a
stack of its own here, and writes below the frame of the call it is in. What `left` and
`inside` record is not known to the kernel: the registers a thread had when it stopped
running, and when it entered the call it is in.
-/

namespace Shizuku.Interrupts

open StackWords Machine Vmm Sched

/-- For a thread in a call, `inside` has the address of the frame beside the registers. -/
structure World where
  k : Kernel
  cpu : Cpu
  kstack : Nat → Nat → UInt8
  inside : Nat → Option (Nat × Cpu)
  left : Nat → Cpu

inductive Cause where
  | irq (vector err : BitVec 64)
  | schedYield
  | threadExit
  | sysExit (status : Int)

def Cause.vector : Cause → BitVec 64
  | .irq vector _ => vector
  | _ => 32

def Cause.err : Cause → BitVec 64
  | .irq _ err => err
  | _ => 0

/-- `isr_handler` where it returns, and what the thread does before its own `int 32`. Ticks
are counted and devices served outside the model. -/
def isrHandler (k : Kernel) (f : IrqFrame) : Cause → IrqFrame × Kernel
  | .irq vector _ => if vector = 32 then schedTick k f else (f, k)
  | .schedYield => Sched.schedYield k f
  | .threadExit => schedThreadExit k f
  | .sysExit status => Sched.sysExit k status f

structure Prepared (k ready : Kernel) : Prop where
  current : ready.currentIdx = k.currentIdx
  others : ∀ slot, slot ≠ k.currentIdx → ready.threads slot = k.threads slot
  mine : (ready.threads k.currentIdx).state = .unused → (k.threads k.currentIdx).state = .unused

structure Handled (k : Kernel) (f loaded : IrqFrame) (after : Kernel) : Prop where
  others : ∀ slot, slot ≠ k.currentIdx → after.threads slot = k.threads slot
  occupied : (after.threads after.currentIdx).state = .unused →
    (k.threads k.currentIdx).state = .unused
  outcome : after.currentIdx = k.currentIdx ∧ loaded = f ∨
    after.currentIdx ≠ k.currentIdx ∧ (k.threads after.currentIdx).state = .runnable ∧
      loaded = (k.threads after.currentIdx).frame ∧ (after.threads k.currentIdx).frame = f

theorem prepared_tick {k ready : Kernel} (prepared : Prepared k ready) (f : IrqFrame) :
    Handled k f (schedTick ready f).1 (schedTick ready f).2 := by
  rcases schedTick_cases ready f with ⟨slice, equal⟩ | ⟨target, switched⟩
  · rw [equal]
    exact ⟨prepared.others, prepared.current ▸ prepared.mine, .inl ⟨prepared.current, rfl⟩⟩
  · have away : target ≠ k.currentIdx := prepared.current ▸ switched.different
    have there : ready.threads target = k.threads target := prepared.others target away
    have others : ∀ slot, slot ≠ k.currentIdx →
        (schedTick ready f).2.threads slot = k.threads slot := by
      intro slot other
      rw [switched.threads, prepared.current, setThread_other _ _ _ _ other]
      exact prepared.others slot other
    refine ⟨others, fun unused => ?_, .inr ⟨?_, ?_, ?_, ?_⟩⟩
    · rw [switched.current, others target away, ← there, switched.runnable] at unused
      cases unused
    · rw [switched.current]
      exact away
    · rw [switched.current, ← there]
      exact switched.runnable
    · rw [switched.current, ← there]
      exact switched.loaded
    · rw [switched.threads, prepared.current, setThread_same]

theorem prepared_exit (k : Kernel) (status : Int) (slice : Nat) :
    Prepared k { k.setThread k.currentIdx
      { k.threads k.currentIdx with exitStatus := status, state := .zombie } with
        lastSlice := slice } := by
  -- The current thread ends, and the next tick is due at once.
  refine ⟨rfl, fun slot away => setThread_other _ _ _ _ away, fun unused => ?_⟩
  rw [setThread_same] at unused
  cases unused

theorem isrHandler_handled (k : Kernel) (f : IrqFrame) (cause : Cause) :
    Handled k f (isrHandler k f cause).1 (isrHandler k f cause).2 := by
  have slice (ticks : Nat) : Prepared k { k with lastSlice := ticks } := ⟨rfl, fun _ _ => rfl, id⟩
  cases cause with
  | irq vector err =>
      by_cases timer : vector = 32
      · simp only [isrHandler, timer, if_true]
        exact prepared_tick (slice k.lastSlice) f
      · simp only [isrHandler, timer, if_false]
        exact ⟨fun _ _ => rfl, id, .inl ⟨rfl, rfl⟩⟩
  | schedYield => exact prepared_tick (slice timesliceTicks) f
  | threadExit =>
      exact prepared_tick (prepared_exit k (k.threads k.currentIdx).exitStatus timesliceTicks) f
  | sysExit status =>
      simp only [isrHandler, sysExit_yields]
      exact prepared_tick (prepared_exit k status timesliceTicks) f

def leftBy (w : World) (current : Nat) : Nat → Cpu :=
  if current = w.k.currentIdx then w.left else Function.update w.left w.k.currentIdx w.cpu

def entered (w : World) (vector err : BitVec 64) : Processor :=
  enter (BitVec.ofNat 64 w.k.rsp0) vector err ⟨w.cpu, w.kstack w.k.currentIdx⟩

def trap (w : World) (cause : Cause) : World :=
  let p := entered w cause.vector cause.err
  match isrHandler w.k (frameAt p.mem p.cpu.rsp.toNat) cause with
  | (f, k) =>
      let q := leave { p with mem := storeFrame p.mem p.cpu.rsp.toNat f }
      { w with
        k := k
        cpu := q.cpu
        kstack := Function.update w.kstack w.k.currentIdx q.mem
        left := leftBy w k.currentIdx }

def enterCall (w : World) : World :=
  let p := entered w 0x80 0
  { w with
    cpu := p.cpu
    kstack := Function.update w.kstack w.k.currentIdx p.mem
    inside := Function.update w.inside w.k.currentIdx (some (p.cpu.rsp.toNat, w.cpu)) }

def returnCall (w : World) (value : BitVec 64) : World :=
  let addr := w.cpu.rsp.toNat
  let mem := w.kstack w.k.currentIdx
  let q := leave ⟨w.cpu, storeFrame mem addr { frameAt mem addr with rax := value.toNat }⟩
  { w with
    cpu := q.cpu
    kstack := Function.update w.kstack w.k.currentIdx q.mem
    inside := Function.update w.inside w.k.currentIdx none }

/-- A new thread is in no call, and starts with the frame that was made for it. -/
def managedBy (w : World) (after : Kernel) : World :=
  { w with
    k := after
    inside := fun slot => if (w.k.threads slot).state = .unused then none else w.inside slot
    left := fun slot => if (w.k.threads slot).state = .unused
      then contextOf (after.threads slot).frame else w.left slot }

inductive Act where
  | compute (cpu : Cpu) (mem : Nat → UInt8)
  | manage (op : Sched.Op)
  | trap (cause : Cause)
  | enterCall
  | returnCall (value : BitVec 64)

def step (w : World) : Act → Outcome (Int × World)
  | .compute cpu mem => .ok (0, { w with
      cpu := cpu
      kstack := Function.update w.kstack w.k.currentIdx mem })
  | .manage op => do
      let done ← Sched.step w.k op
      return (done.1, managedBy w done.2)
  | .trap cause => .ok (0, trap w cause)
  | .enterCall => .ok (0, enterCall w)
  | .returnCall value => .ok (0, returnCall w value)

def Returns : Cause → Prop
  | .irq vector _ => vector = 3 ∨ 32 ≤ vector ∧ vector < 48
  | _ => True

/-- Space for one more frame, below that of the call which the thread is in. -/
def Room (w : World) : Prop :=
  176 ≤ (entryTop w.cpu (BitVec.ofNat 64 w.k.rsp0)).toNat ∧
    ∀ call ∈ w.inside w.k.currentIdx, (entryTop w.cpu (BitVec.ofNat 64 w.k.rsp0)).toNat ≤ call.1

def Spares (w : World) (mem : Nat → UInt8) : Prop :=
  ∀ call ∈ w.inside w.k.currentIdx, ∀ i < 176,
    mem (call.1 + i) = w.kstack w.k.currentIdx (call.1 + i)

def Manages (k : Kernel) : Sched.Op → Prop
  | .kthreadCreate _ _ _ | .threadCreateUser _ _ _ _ => True
  | .reap tid => tid ≠ k.currentIdx
  | _ => False

def Allowed (w : World) : Act → Prop
  | .compute cpu mem => cpu.cs = w.cpu.cs ∧ Spares w mem
  | .manage op => Manages w.k op
  | .trap cause => Returns cause ∧ Room w
  | .enterCall => Ring3 w.cpu ∧ w.inside w.k.currentIdx = none ∧ Room w
  | .returnCall _ => (w.inside w.k.currentIdx).map Prod.fst = some w.cpu.rsp.toNat

structure Sound (w : World) : Prop where
  occupied : (w.k.threads w.k.currentIdx).state ≠ .unused
  waiting : ∀ slot, slot ≠ w.k.currentIdx → (w.k.threads slot).state = .runnable →
    contextOf (w.k.threads slot).frame = w.left slot
  calls : ∀ slot call, w.inside slot = some call → call.1 + 176 < 2 ^ 64 ∧
    contextOf (frameAt (w.kstack slot) call.1) = call.2

theorem frameAt_congr {before after : Nat → UInt8} {addr : Nat}
    (same : ∀ i < 176, after (addr + i) = before (addr + i)) :
    frameAt after addr = frameAt before addr := by
  refine congrArg frameOf (words_congr _ _ _ _ fun va low high => ?_)
  obtain ⟨i, rfl⟩ := Nat.exists_eq_add_of_le low
  exact same i (by omega)

structure Entered (w : World) (p : Processor) : Prop where
  word : p.cpu.rsp.toNat + 176 < 2 ^ 64
  frame : contextOf (frameAt p.mem p.cpu.rsp.toNat) = w.cpu
  outside : ∀ mem, (∀ va, va < p.cpu.rsp.toNat ∨ p.cpu.rsp.toNat + 176 ≤ va → mem va = p.mem va) →
    Spares w mem

theorem entered_spec (w : World) (vector err : BitVec 64) (room : Room w) :
    Entered w (entered w vector err) := by
  obtain ⟨large, below⟩ := room
  have word := (entryTop w.cpu (BitVec.ofNat 64 w.k.rsp0)).isLt
  have rsp := enter_rsp (BitVec.ofNat 64 w.k.rsp0) vector err ⟨w.cpu, w.kstack w.k.currentIdx⟩ large
  have frame := enter_frame (BitVec.ofNat 64 w.k.rsp0) vector err ⟨w.cpu, w.kstack w.k.currentIdx⟩ large
  have outside := enter_outside (BitVec.ofNat 64 w.k.rsp0) vector err ⟨w.cpu, w.kstack w.k.currentIdx⟩ large
  rw [← rsp] at frame outside
  unfold entered
  generalize enter (BitVec.ofNat 64 w.k.rsp0) vector err ⟨w.cpu, w.kstack w.k.currentIdx⟩ = p
    at rsp frame outside ⊢
  simp only at rsp outside
  refine ⟨by omega, by rw [frame, contextOf_frame], fun mem same call member i small => ?_⟩
  have above := below call member
  rw [same _ (.inr (by omega)), outside _ (.inr (by omega))]

section Steps
variable {w : World} (sound : Sound w)
include sound

theorem Sound.compute (cpu : Cpu) {mem : Nat → UInt8} (spares : Spares w mem) :
    Sound { w with cpu := cpu, kstack := Function.update w.kstack w.k.currentIdx mem } := by
  refine ⟨sound.occupied, sound.waiting, fun slot call busy => ?_⟩
  obtain ⟨word, frame⟩ := sound.calls slot call busy
  refine ⟨word, ?_⟩
  change contextOf (frameAt (Function.update w.kstack w.k.currentIdx mem slot) call.1) = call.2
  by_cases same : slot = w.k.currentIdx
  · subst same
    rw [Function.update_self, frameAt_congr fun i small => spares call busy i small, frame]
  · rw [Function.update_of_ne same, frame]

theorem Sound.handled {f loaded : IrqFrame} {after : Kernel} (handled : Handled w.k f loaded after)
    (live : contextOf f = w.cpu) :
    Sound { w with k := after, cpu := contextOf loaded, left := leftBy w after.currentIdx } := by
  refine ⟨fun unused => sound.occupied (handled.occupied unused), fun slot away runnable => ?_,
    sound.calls⟩
  change contextOf (after.threads slot).frame = leftBy w after.currentIdx slot
  change slot ≠ after.currentIdx at away
  unfold leftBy
  by_cases same : slot = w.k.currentIdx
  · subst same
    rcases handled.outcome with ⟨stays, _⟩ | ⟨moved, _, _, frame⟩
    · exact absurd stays.symm away
    · rw [if_neg moved, Function.update_self, frame, live]
  · rw [handled.others slot same] at runnable ⊢
    rw [sound.waiting slot same runnable]
    split
    · rfl
    · exact (Function.update_of_ne same _ _).symm

theorem handled_context {f loaded : IrqFrame} {after : Kernel} (handled : Handled w.k f loaded after)
    (live : contextOf f = w.cpu) :
    contextOf loaded =
      if after.currentIdx = w.k.currentIdx then w.cpu else w.left after.currentIdx := by
  rcases handled.outcome with ⟨same, rfl⟩ | ⟨away, runnable, rfl, _⟩
  · rw [if_pos same, live]
  · rw [if_neg away, sound.waiting _ away runnable]

omit sound in
theorem trap_eq (w : World) (cause : Cause) (room : Room w) :
    ∃ f loaded after mem, contextOf f = w.cpu ∧ Spares w mem ∧ Handled w.k f loaded after ∧
      trap w cause = { w with
        k := after
        cpu := contextOf loaded
        kstack := Function.update w.kstack w.k.currentIdx mem
        left := leftBy w after.currentIdx } := by
  have entry := entered_spec w cause.vector cause.err room
  simp only [trap]
  generalize entered w cause.vector cause.err = p at entry ⊢
  have handled := isrHandler_handled w.k (frameAt p.mem p.cpu.rsp.toNat) cause
  generalize isrHandler w.k (frameAt p.mem p.cpu.rsp.toNat) cause = answer at handled ⊢
  obtain ⟨loaded, after⟩ := answer
  refine ⟨_, loaded, after, storeFrame p.mem p.cpu.rsp.toNat loaded, entry.frame, ?_, handled, ?_⟩
  · exact entry.outside _ (storeFrame_outside _ _ _)
  · have returned := leave_eq ⟨p.cpu, storeFrame p.mem p.cpu.rsp.toNat loaded⟩ entry.word
    simp only [frameAt_storeFrame] at returned
    simp only [returned]

theorem trap_sound {cause : Cause} (room : Room w) :
    Sound (trap w cause) ∧ (trap w cause).cpu =
      if (trap w cause).k.currentIdx = w.k.currentIdx then w.cpu
      else w.left (trap w cause).k.currentIdx := by
  obtain ⟨f, loaded, after, mem, live, spares, handled, equal⟩ := trap_eq w cause room
  rw [equal]
  exact ⟨(sound.compute w.cpu spares).handled handled live, handled_context sound handled live⟩

theorem Sound.calling {call : Option (Nat × Cpu)} (framed : ∀ busy ∈ call, busy.1 + 176 < 2 ^ 64 ∧
      contextOf (frameAt (w.kstack w.k.currentIdx) busy.1) = busy.2) :
    Sound { w with inside := Function.update w.inside w.k.currentIdx call } := by
  refine ⟨sound.occupied, sound.waiting, fun slot busy here => ?_⟩
  change Function.update w.inside w.k.currentIdx call slot = some busy at here
  by_cases same : slot = w.k.currentIdx
  · subst same
    rw [Function.update_self] at here
    exact framed busy here
  · rw [Function.update_of_ne same] at here
    exact sound.calls slot busy here

theorem enterCall_sound (room : Room w) : Sound (enterCall w) := by
  have entry := entered_spec w 0x80 0 room
  simp only [enterCall]
  generalize entered w 0x80 0 = p at entry ⊢
  have pushed := sound.compute p.cpu (entry.outside p.mem fun _ _ => rfl)
  refine pushed.calling fun busy here => ?_
  cases here
  simp only [Function.update_self]
  exact ⟨entry.word, entry.frame⟩

theorem returnCall_sound {value : BitVec 64} (allowed : Allowed w (.returnCall value)) :
    Sound (returnCall w value) ∧ ∃ addr c, w.inside w.k.currentIdx = some (addr, c) ∧
      (returnCall w value).cpu = { c with reg := Function.update c.reg .rax value } := by
  obtain ⟨⟨addr, c⟩, call, rfl⟩ := Option.map_eq_some_iff.mp allowed
  obtain ⟨word, frame⟩ := sound.calls _ _ call
  have result := contextOf_rax (frameAt (w.kstack w.k.currentIdx) w.cpu.rsp.toNat) value
  rw [frame] at result
  simp only [returnCall]
  generalize { frameAt (w.kstack w.k.currentIdx) w.cpu.rsp.toNat with rax := value.toNat } = f
    at result ⊢
  have returned := leave_eq ⟨w.cpu, storeFrame (w.kstack w.k.currentIdx) w.cpu.rsp.toNat f⟩ word
  simp only [frameAt_storeFrame, result] at returned
  simp only [returned]
  have finished : Sound { w with inside := Function.update w.inside w.k.currentIdx none } :=
    sound.calling fun _ none_ => by cases none_
  refine ⟨finished.compute _ fun busy here => ?_, _, c, call, rfl⟩
  change Function.update w.inside w.k.currentIdx none w.k.currentIdx = some busy at here
  rw [Function.update_self] at here
  cases here

omit sound in
theorem managed_threads {k after : Kernel} {op : Sched.Op} {ret : Int} (manages : Manages k op)
    (done : Sched.step k op = .ok (ret, after)) :
    after.currentIdx = k.currentIdx ∧ ∀ slot, (k.threads slot).state ≠ .unused →
      after.threads slot = k.threads slot ∨ slot ≠ k.currentIdx ∧ after.threads slot = .zeroed := by
  have aside (beside : Process.Beside k after) : after.currentIdx = k.currentIdx ∧ ∀ slot,
      (k.threads slot).state ≠ .unused →
      after.threads slot = k.threads slot ∨ slot ≠ k.currentIdx ∧ after.threads slot = .zeroed :=
    ⟨beside.current, fun slot used => .inl (beside.threads slot used)⟩
  cases op with
  | kthreadCreate name f arg =>
      obtain ⟨result, taken, created⟩ := kthreadCreate_created k name f arg
      obtain rfl : result = (ret, after) := Except.ok.inj (taken.symm.trans done)
      exact aside (Process.kthreadCreated_beside created).1
  | threadCreateUser name entry userRsp space =>
      obtain ⟨result, taken, created⟩ := threadCreateUser_created k name entry userRsp space
      obtain rfl : result = (ret, after) := Except.ok.inj (taken.symm.trans done)
      cases created with
      | noSlot => exact ⟨rfl, fun _ _ => .inl rfl⟩
      | noStack new pmm found => exact aside ((Process.beside_setThread _ k.mm found).remade _)
      | created new start found => exact aside (Process.beside_setThread _ _ found)
  | reap tid =>
      obtain ⟨reaped, taken, rest⟩ := (bind_ok _ _ _).mp done
      cases rest
      rcases schedReap_cases k _ tid taken with ⟨_, _, rfl⟩ | ⟨_, _, rfl⟩
      · exact ⟨rfl, fun _ _ => .inl rfl⟩
      · refine ⟨rfl, fun slot _ => ?_⟩
        by_cases same : slot = tid
        · subst same
          exact .inr ⟨manages, setThread_same _ _ _⟩
        · exact .inl (setThread_other _ _ _ _ same)
  | threadExit f | sysExit status f | tick f => cases manages

theorem manage_sound {op : Sched.Op} {ret : Int} {after : World} (manages : Manages w.k op)
    (done : step w (.manage op) = .ok (ret, after)) : Sound after := by
  obtain ⟨⟨value, k⟩, taken, rest⟩ := (bind_ok _ _ _).mp done
  cases rest
  obtain ⟨current, fate⟩ := managed_threads manages taken
  refine ⟨?_, fun slot away runnable => ?_, fun slot call busy => ?_⟩
  · change (k.threads k.currentIdx).state ≠ .unused
    rw [current]
    rcases fate w.k.currentIdx sound.occupied with same | ⟨elsewhere, _⟩
    · rw [same]
      exact sound.occupied
    · exact absurd rfl elsewhere
  · change (k.threads slot).state = .runnable at runnable
    change contextOf (k.threads slot).frame =
      if (w.k.threads slot).state = .unused then contextOf (k.threads slot).frame else w.left slot
    split
    · rfl
    · next used =>
        rcases fate slot used with same | ⟨_, zeroed⟩
        · rw [same] at runnable ⊢
          exact sound.waiting slot (current ▸ away) runnable
        · rw [zeroed] at runnable
          cases runnable
  · change (if (w.k.threads slot).state = .unused then none else w.inside slot) = some call at busy
    split at busy
    · cases busy
    · exact sound.calls slot call busy

theorem step_sound {a : Act} {ret : Int} {after : World} (allowed : Allowed w a)
    (done : step w a = .ok (ret, after)) : Sound after := by
  cases a with
  | compute cpu mem =>
      cases done
      exact sound.compute cpu allowed.2
  | manage op => exact manage_sound sound allowed done
  | trap cause =>
      cases done
      exact (trap_sound sound allowed.2).1
  | enterCall =>
      cases done
      exact enterCall_sound sound allowed.2.2
  | returnCall value =>
      cases done
      exact (returnCall_sound sound allowed).1

end Steps

/-! ### Runs -/

structure Started (w : World) : Prop where
  booted : Booted w.k
  outside : ∀ slot, w.inside slot = none

theorem init_sound (start : World) (started : Started start) : Sound start := by
  obtain ⟨⟨pre, cr3, before, _, _, fresh, made⟩, outside⟩ := started
  have current : start.k.currentIdx = 0 := by rw [made]; rfl
  refine ⟨?_, fun slot away runnable => ?_, fun slot call busy => ?_⟩
  · rw [current, made]
    exact ThreadState.noConfusion
  · have empty : start.k.threads slot = .zeroed := by
      rw [made]
      exact (setThread_other before 0 slot _ (current ▸ away)).trans (fresh slot)
    rw [empty] at runnable
    cases runnable
  · rw [outside slot] at busy
    cases busy

/-- A thread that another one has replaced goes on with the registers it had, and one that
is only interrupted does so at once; a system call changes `rax` alone, however often its
thread waits meanwhile, and whatever the others do. -/
theorem registers_are_restored (start w : World) (started : Started start)
    (run : Run step Allowed start w) :
    (∀ cause ret after, Allowed w (.trap cause) → step w (.trap cause) = .ok (ret, after) →
      after.cpu = if after.k.currentIdx = w.k.currentIdx then w.cpu
        else w.left after.k.currentIdx) ∧
    ∀ value ret after, Allowed w (.returnCall value) →
      step w (.returnCall value) = .ok (ret, after) →
      ∃ addr c, w.inside w.k.currentIdx = some (addr, c) ∧
        after.cpu = { c with reg := Function.update c.reg .rax value } := by
  have sound : Sound w := run_invariant step Allowed Sound
    (fun _ _ _ _ before allowed done => step_sound before allowed done) run (init_sound start started)
  constructor
  · intro cause ret after allowed done
    cases done
    exact (trap_sound sound allowed.2).2
  · intro value ret after allowed done
    cases done
    exact (returnCall_sound sound allowed).2

instance (cause : Cause) : Decidable (Returns cause) := by
  cases cause <;> unfold Returns <;> infer_instance

instance (w : World) : Decidable (Room w) := inferInstanceAs (Decidable (_ ∧ _))

instance (w : World) (mem : Nat → UInt8) : Decidable (Spares w mem) :=
  inferInstanceAs (Decidable (∀ call ∈ w.inside w.k.currentIdx, _))

instance (k : Kernel) (op : Sched.Op) : Decidable (Manages k op) := by
  cases op <;> unfold Manages <;> infer_instance

instance (w : World) (a : Act) : Decidable (Allowed w a) := by
  cases a <;> unfold Allowed <;> infer_instance

def bootWorld (mm : Mm) : World :=
  let cpu : Cpu := ⟨fun _ => 0, 0, kernelCs, 0x202, 0xFFFF810000000000, 0x10⟩
  ⟨bootedKernel mm, cpu, fun _ _ => 0, fun _ => none, fun _ => cpu⟩

/-- A user thread is created, gets its turn and enters a call, in which it waits for one turn of
the boot thread. -/
def waitsInCall : List Act :=
  [.manage (.threadCreateUser [] 0x400000 0x700000000000 8192), .trap .schedYield, .enterCall,
    .trap .schedYield, .trap .schedYield]

theorem registers_are_restored_waited : ∃ start w after addr c, Started start ∧
    Run step Allowed start w ∧ w.k.currentIdx = 1 ∧ w.inside 1 = some (addr, c) ∧ c.rip = 0x400000 ∧
    step w (.returnCall 7) = .ok (0, after) ∧
    after.cpu = { c with reg := Function.update c.reg .rax 7 } := by
  have booted := bootedKernel_booted _ _ blankMachine_wide
  have permitted : permits step Allowed (bootWorld (Vmm.init (blankMachine (-2)) (2 ^ 29)))
      waitsInCall = true := by decide +kernel
  have evaluated : (replay step (bootWorld (Vmm.init (blankMachine (-2)) (2 ^ 29))) waitsInCall).map
      (fun done => (done.2.k.currentIdx, (done.2.inside 1).map fun call => call.2.rip,
        decide (Allowed done.2 (.returnCall 7)))) = .ok (1, some 0x400000, true) := by decide +kernel
  generalize Vmm.init (blankMachine (-2)) (2 ^ 29) = mm at booted permitted evaluated
  have started : Started (bootWorld mm) := ⟨booted, fun _ => rfl⟩
  obtain ⟨⟨rets, w⟩, replayed, values⟩ := (map_ok _ _ _).mp evaluated
  simp only [Prod.mk.injEq, decide_eq_true_eq] at values
  obtain ⟨current, rip, allowed⟩ := values
  have run := permits_run step Allowed waitsInCall _ w rets permitted replayed
  obtain ⟨addr, c, call, restored⟩ := (registers_are_restored _ w started run).2 7 0 _ allowed rfl
  rw [current] at call
  rw [call, Option.map_some, Option.some.injEq] at rip
  exact ⟨_, w, _, addr, c, started, run, current, call, rip, rfl, restored⟩

end Shizuku.Interrupts
