import Shizuku.ContextSwitches
import Shizuku.Spawning
import Shizuku.Syscalls

/-!
The calls that poll, `sys_waitpid` and `sys_sleep_ms`, among the timer interrupts,
yields, spawns and exits of the other threads. Both calls enable interrupts, so the
timer can take the processor away between any two of their steps; where a thread
stands in its call is what its kernel stack keeps. Spawning and exiting run with
interrupts off and are one step each. The scheduler is enabled before the first
interrupt.
-/

namespace Shizuku.Blocking

open Machine Vmm Sched Elf Process Syscalls

/-- Before a look at the state, behind the loop, and with the status stored. -/
inductive Phase where
  | polling
  | found
  | stored
  deriving DecidableEq, Repr

inductive Pending where
  | waitpid (tid rsi : Nat) (phase : Phase)
  | sleepMs (deadline : Nat)
  deriving DecidableEq, Repr

structure Cpu where
  kernel : Kernel
  timerTicks : Nat
  pending : Nat → Option Pending

structure Shown where
  value : Option Int
  status : Option Int
  deriving DecidableEq, Repr

def Shown.nothing : Shown := ⟨none, none⟩

def tickMs : Nat := 10

def Cpu.setPending (c : Cpu) (call : Option Pending) : Cpu :=
  { c with pending := fun slot => if slot = c.kernel.currentIdx then call else c.pending slot }

def Cpu.running (c : Cpu) : Bool :=
  (c.kernel.threads c.kernel.currentIdx).state == .runnable &&
    (c.pending c.kernel.currentIdx).isNone

def onTimer (c : Cpu) (f : IrqFrame) : Cpu :=
  { c with
    timerTicks := (c.timerTicks + 1) % 2 ^ 64
    kernel := (schedTick c.kernel f).2 }

/-- `int 32` goes through `on_timer`. -/
def schedYield (c : Cpu) (f : IrqFrame) : Cpu :=
  onTimer { c with kernel := { c.kernel with lastSlice := timesliceTicks } } f

def sysExit (c : Cpu) (status : Int) (f : IrqFrame) : Cpu :=
  let cur := c.kernel.currentIdx
  let t : Thread := { c.kernel.threads cur with exitStatus := status, state := .zombie }
  schedYield { c with kernel := c.kernel.setThread cur t } f

def sysWaitpid (c : Cpu) (rdi rsi : BitVec 64) : Shown × Cpu :=
  let tid := fdIndex rdi
  if schedMaxThreads ≤ tid then (⟨some (-1), none⟩, c)
  else if (c.kernel.threads tid).state = .unused then (⟨some (-1), none⟩, c)
  else (.nothing, c.setPending (some (.waitpid tid rsi.toNat .polling)))

def sysSleepMs (c : Cpu) (rdi : BitVec 64) : Cpu :=
  let deadline := (c.timerTicks + (rdi.toNat + tickMs - 1) % 2 ^ 64 / tickMs) % 2 ^ 64
  c.setPending (some (.sleepMs deadline))

/-- The next step of the call in which the current thread is. `sched_reap` runs with interrupts on as
well; its step here is the last store, which empties the slot. -/
def goOn (c : Cpu) (f : IrqFrame) : Outcome (Shown × Cpu) :=
  match c.pending c.kernel.currentIdx with
  | none => .ok (.nothing, c)
  | some (.waitpid tid rsi .polling) =>
      if (c.kernel.threads tid).state ≠ .zombie then .ok (.nothing, schedYield c f)
      else .ok (.nothing, c.setPending (some (.waitpid tid rsi .found)))
  | some (.waitpid tid rsi .found) =>
      let status := if badUaddr rsi then none else some (c.kernel.threads tid).exitStatus
      .ok (⟨none, status⟩, c.setPending (some (.waitpid tid rsi .stored)))
  | some (.waitpid tid _ .stored) => do
      let kernel ← schedReap c.kernel tid
      return (⟨some tid, none⟩, { c with kernel := kernel }.setPending none)
  | some (.sleepMs deadline) =>
      if c.timerTicks < deadline then .ok (.nothing, schedYield c f)
      else .ok (⟨some 0, none⟩, c.setPending none)

inductive Op where
  | timer (f : IrqFrame)
  | yield (f : IrqFrame)
  | spawn (name : List UInt8) (image : Image) (argv : List (List UInt8))
  | exit (status : Int) (f : IrqFrame)
  | waitpid (rdi rsi : BitVec 64)
  | sleepMs (rdi : BitVec 64)
  | goOn (f : IrqFrame)

def step (c : Cpu) : Op → Outcome (Shown × Cpu)
  | .timer f => .ok (.nothing, onTimer c f)
  | .yield f => .ok (.nothing, if c.running then schedYield c f else c)
  | .spawn name image argv =>
      if c.running then do
        let (tid, kernel) ← spawnElf c.kernel name image argv
        return (⟨some tid, none⟩, { c with kernel := kernel })
      else .ok (.nothing, c)
  | .exit status f => .ok (.nothing, if c.running then sysExit c status f else c)
  | .waitpid rdi rsi => .ok (if c.running then sysWaitpid c rdi rsi else (.nothing, c))
  | .sleepMs rdi => .ok (.nothing, if c.running then sysSleepMs c rdi else c)
  | .goOn f => goOn c f

@[simp] theorem setPending_kernel (c : Cpu) (call : Option Pending) :
    (c.setPending call).kernel = c.kernel := rfl

@[simp] theorem setPending_current (c : Cpu) (call : Option Pending) :
    (c.setPending call).pending c.kernel.currentIdx = call := if_pos rfl

theorem setPending_other (c : Cpu) (call : Option Pending) (slot : Nat)
    (other : slot ≠ c.kernel.currentIdx) : (c.setPending call).pending slot = c.pending slot :=
  if_neg other

def SameFate (before after : Thread) : Prop :=
  after.state = before.state ∧ after.exitStatus = before.exitStatus

theorem SameFate.refl (t : Thread) : SameFate t t := ⟨rfl, rfl⟩

theorem schedTick_fates (k : Kernel) (f : IrqFrame) (slot : Nat) :
    SameFate (k.threads slot) ((schedTick k f).2.threads slot) := by
  rcases schedTick_cases k f with ⟨slice, ticked⟩ | ⟨target, switched⟩
  · rw [ticked]
    exact .refl _
  · rw [switched.threads]
    by_cases current : slot = k.currentIdx
    · rw [current, setThread_same]
      exact .refl _
    · rw [setThread_other _ _ _ _ current]
      exact .refl _

theorem spawnElf_threads (k : Kernel) (name : List UInt8) (image : Image)
    (argv : List (List UInt8)) (ret : Int) (after : Kernel)
    (done : spawnElf k name image argv = .ok (ret, after)) :
    after.threads = k.threads ∨ ∃ slot t, unusedSlot k = some slot ∧ t.state = .runnable ∧
      after.threads = (k.setThread slot t).threads := by
  unfold spawnElf at done
  simp only at done
  split at done
  · cases done
    exact .inl rfl
  · split at done
    · cases done
      exact .inl rfl
    · rename_i entry sp mm _
      obtain ⟨⟨tid, made⟩, equal, created⟩ :=
        threadCreateUser_created { k with mm := mm } name entry sp (newSpace k.mm).1
      rw [equal, ok_bind] at done
      cases created with
      | noSlot full =>
          cases done
          exact .inl rfl
      | noStack slot pmm found _ =>
          have shape : after.threads = (published { k with mm := mm } slot name).threads := by
            cases done
            rfl
          exact .inr ⟨slot, _, found, rfl, shape.trans (growTable_threads _ slot)⟩
      | created slot start found _ _ _ =>
          have positive : ¬ ((slot : Int) < 0) := by omega
          simp only [positive, ↓reduceIte, pure_ok, Except.ok.injEq, Prod.mk.injEq,
            Int.toNat_natCast, growTable_threads, setThread_same] at done
          rw [← done.2, setThread_twice]
          refine .inr ⟨slot, _, found, ?_, growTable_threads _ _⟩
          rfl

inductive Effect (c : Cpu) : Op → Shown → Cpu → Prop
  | quiet (op : Op) (shown : Shown) (after : Cpu) :
      (∀ slot, SameFate (c.kernel.threads slot) (after.kernel.threads slot)) →
      after.pending = c.pending → Effect c op shown after
  | spawned (name : List UInt8) (image : Image) (argv : List (List UInt8)) (shown : Shown)
      (kernel : Kernel) (slot : Nat) (t : Thread) : c.running = true →
      unusedSlot c.kernel = some slot → t.state = .runnable →
      kernel.threads = (c.kernel.setThread slot t).threads →
      Effect c (.spawn name image argv) shown { c with kernel := kernel }
  | exited (op : Op) (shown : Shown) (after : Cpu) : c.running = true →
      (after.kernel.threads c.kernel.currentIdx).state = .zombie →
      (∀ slot, slot ≠ c.kernel.currentIdx →
        SameFate (c.kernel.threads slot) (after.kernel.threads slot)) →
      after.pending = c.pending → Effect c op shown after
  | waiting (op : Op) (shown : Shown) (tid rsi : Nat) : c.running = true →
      (c.kernel.threads tid).state ≠ .unused →
      Effect c op shown (c.setPending (some (.waitpid tid rsi .polling)))
  | found (op : Op) (shown : Shown) (tid rsi : Nat) :
      c.pending c.kernel.currentIdx = some (.waitpid tid rsi .polling) →
      (c.kernel.threads tid).state = .zombie →
      Effect c op shown (c.setPending (some (.waitpid tid rsi .found)))
  | stored (op : Op) (tid rsi : Nat) :
      c.pending c.kernel.currentIdx = some (.waitpid tid rsi .found) →
      Effect c op ⟨none, if badUaddr rsi then none else some (c.kernel.threads tid).exitStatus⟩
        (c.setPending (some (.waitpid tid rsi .stored)))
  | reaped (f : IrqFrame) (shown : Shown) (tid rsi : Nat) (kernel : Kernel) :
      c.pending c.kernel.currentIdx = some (.waitpid tid rsi .stored) →
      schedReap c.kernel tid = .ok kernel →
      Effect c (.goOn f) shown ({ c with kernel := kernel }.setPending none)
  | slept (rdi : BitVec 64) (shown : Shown) : c.running = true →
      Effect c (.sleepMs rdi) shown (sysSleepMs c rdi)
  | woke (op : Op) (shown : Shown) (deadline : Nat) :
      c.pending c.kernel.currentIdx = some (.sleepMs deadline) → deadline ≤ c.timerTicks →
      Effect c op shown (c.setPending none)

theorem Effect.unchanged (c : Cpu) (op : Op) (shown : Shown) : Effect c op shown c :=
  .quiet op shown c (fun _ => .refl _) rfl

theorem Effect.ticked (c : Cpu) (op : Op) (shown : Shown) (f : IrqFrame) :
    Effect c op shown (onTimer c f) :=
  .quiet op shown _ (fun slot => schedTick_fates _ _ slot) rfl

theorem Effect.yielded (c : Cpu) (op : Op) (shown : Shown) (f : IrqFrame) :
    Effect c op shown (schedYield c f) :=
  .quiet op shown _ (fun slot => schedTick_fates _ _ slot) rfl

theorem goOn_effect (c after : Cpu) (f : IrqFrame) (shown : Shown)
    (done : goOn c f = .ok (shown, after)) : Effect c (.goOn f) shown after := by
  unfold goOn at done
  split at done
  · cases done
    exact .unchanged _ _ _
  · rename_i tid rsi pending
    split at done
    · cases done
      exact .yielded _ _ _ _
    · rename_i zombie
      cases done
      exact .found _ _ tid rsi pending (not_not.mp zombie)
  · rename_i tid rsi pending
    cases done
    exact .stored _ tid rsi pending
  · rename_i tid rsi pending
    obtain ⟨kernel, reaped, rest⟩ := (bind_ok _ _ _).mp done
    cases rest
    exact .reaped f _ tid rsi kernel pending reaped
  · rename_i deadline pending
    split at done
    · cases done
      exact .yielded _ _ _ _
    · rename_i late
      cases done
      exact .woke _ _ deadline pending (Nat.le_of_not_lt late)

theorem step_effect (c after : Cpu) (op : Op) (shown : Shown)
    (done : step c op = .ok (shown, after)) : Effect c op shown after := by
  by_cases running : c.running = true
  · cases op with
    | timer f =>
        cases done
        exact .ticked _ _ _ _
    | yield f =>
        simp only [step, running, ↓reduceIte] at done
        cases done
        exact .yielded _ _ _ _
    | spawn name image argv =>
        simp only [step, running, ↓reduceIte] at done
        obtain ⟨⟨tid, kernel⟩, spawned, rest⟩ := (bind_ok _ _ _).mp done
        cases rest
        rcases spawnElf_threads _ _ _ _ _ _ spawned with same | ⟨slot, t, unused, runnable, threads⟩
        · exact .quiet _ _ _ (fun slot => by rw [same]; exact .refl _) rfl
        · exact .spawned name image argv _ kernel slot t running unused runnable threads
    | exit status f =>
        simp only [step, running, ↓reduceIte] at done
        cases done
        have fates := fun t => schedTick_fates { c.kernel.setThread c.kernel.currentIdx t with
          lastSlice := timesliceTicks } f
        refine .exited _ _ _ running ((fates _ _).1.trans ?_) (fun slot other => ?_) rfl
        · exact congrArg Thread.state (setThread_same _ _ _)
        · exact setThread_other c.kernel _ slot _ other ▸ fates _ slot
    | waitpid rdi rsi =>
        simp only [step, running, ↓reduceIte, sysWaitpid] at done
        split at done
        · cases done
          exact .unchanged _ _ _
        · split at done
          · cases done
            exact .unchanged _ _ _
          · rename_i occupied
            cases done
            exact .waiting _ _ _ _ running occupied
    | sleepMs rdi =>
        simp only [step, running, ↓reduceIte] at done
        cases done
        exact .slept rdi _ running
    | goOn f => exact goOn_effect c after f shown done
  · cases op with
    | timer f =>
        cases done
        exact .ticked _ _ _ _
    | goOn f => exact goOn_effect c after f shown done
    | _ =>
        simp only [step, running, Bool.false_eq_true, ↓reduceIte] at done
        cases done
        exact .unchanged _ _ _

end Shizuku.Blocking
