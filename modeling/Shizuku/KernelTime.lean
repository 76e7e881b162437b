import Shizuku.Blocking
import Shizuku.PageOwnership

/-!
What `TIMER_TICKS` counts. A yield raises the timer vector in software, so `on_timer`
counts it like an interrupt of the hardware. `Timed` keeps beside the processor how
many of each there were, and for every call of `sys_sleep_ms` the number of hardware
interrupts when it was made and when it returned.
-/

namespace Shizuku.Blocking

open Machine Vmm Sched Process

/-- The step goes through `sched_yield`. -/
def yields (c : Cpu) : Op → Bool
  | .yield _ => c.running
  | .exit _ _ => c.running
  | .goOn _ =>
      match c.pending c.kernel.currentIdx with
      | some (.waitpid tid _ .polling) => (c.kernel.threads tid).state != .zombie
      | some (.sleepMs deadline) => decide (c.timerTicks < deadline)
      | _ => false
  | _ => false

def isTimer : Op → Bool
  | .timer _ => true
  | _ => false

structure Nap where
  ms : Nat
  since : Nat
  deriving DecidableEq, Repr

structure Timed where
  cpu : Cpu
  hardware : Nat
  yields : Nat
  naps : Nat → Nap
  woken : List (Nap × Nat)

def Timed.caller (w : Timed) : Nat := w.cpu.kernel.currentIdx

def Timed.started (w : Timed) (op : Op) (slot : Nat) : Nap :=
  match op with
  | .sleepMs rdi =>
      if w.cpu.running ∧ slot = w.caller then ⟨rdi.toNat, w.hardware⟩ else w.naps slot
  | _ => w.naps slot

def Timed.ended (w : Timed) (now : Option Pending) : List (Nap × Nat) :=
  match w.cpu.pending w.caller, now with
  | some (.sleepMs _), none => (w.naps w.caller, w.hardware) :: w.woken
  | _, _ => w.woken

def clocked (w : Timed) (op : Op) : Outcome (Shown × Timed) := do
  let (shown, after) ← step w.cpu op
  return (shown,
    { cpu := after
      hardware := w.hardware + (isTimer op).toNat
      yields := w.yields + (Blocking.yields w.cpu op).toNat
      naps := w.started op
      woken := w.ended (after.pending w.caller) })

theorem goOn_ticks (c after : Cpu) (f : IrqFrame) (shown : Shown) (small : c.timerTicks < 2 ^ 64)
    (done : goOn c f = .ok (shown, after)) :
    after.timerTicks = (c.timerTicks + (yields c (.goOn f)).toNat) % 2 ^ 64 := by
  have still : c.timerTicks = c.timerTicks % 2 ^ 64 := (Nat.mod_eq_of_lt small).symm
  unfold goOn at done
  split at done
  · rename_i pending
    cases done
    simpa [yields, pending] using still
  · rename_i tid rsi pending
    split at done
    · rename_i alive
      cases done
      have polls : ((c.kernel.threads tid).state != .zombie) = true := by simpa using alive
      simp only [yields, pending, polls]
      rfl
    · rename_i zombie
      cases done
      have found : ((c.kernel.threads tid).state != .zombie) = false := by simpa using zombie
      simp only [yields, pending, found]
      exact still
  · rename_i pending
    cases done
    simpa [yields, pending, Cpu.setPending] using still
  · rename_i pending
    obtain ⟨kernel, _, rest⟩ := (bind_ok _ _ _).mp done
    cases rest
    simpa [yields, pending, Cpu.setPending] using still
  · rename_i deadline pending
    split at done
    · rename_i early
      cases done
      simp [yields, pending, early, schedYield, onTimer]
    · rename_i late
      cases done
      simpa [yields, pending, late, Cpu.setPending] using still

theorem step_ticks (c after : Cpu) (op : Op) (shown : Shown) (small : c.timerTicks < 2 ^ 64)
    (done : step c op = .ok (shown, after)) :
    after.timerTicks = (c.timerTicks + (isTimer op).toNat + (yields c op).toNat) % 2 ^ 64 := by
  have still : c.timerTicks = c.timerTicks % 2 ^ 64 := (Nat.mod_eq_of_lt small).symm
  cases op with
  | timer f =>
      cases done
      rfl
  | yield f =>
      cases done
      cases running : c.running with
      | false => simpa [isTimer, yields, running] using still
      | true => simp [isTimer, yields, running, schedYield, onTimer]
  | spawn name image argv =>
      simp only [step] at done
      split at done
      · obtain ⟨⟨tid, kernel⟩, _, rest⟩ := (bind_ok _ _ _).mp done
        cases rest
        exact still
      · cases done
        exact still
  | exit status f =>
      cases done
      cases running : c.running with
      | false => simpa [isTimer, yields, running] using still
      | true => simp [isTimer, yields, running, sysExit, schedYield, onTimer]
  | waitpid rdi rsi =>
      simp only [step, sysWaitpid] at done
      split at done
      · split at done
        · cases done
          exact still
        · split at done <;> cases done <;> exact still
      · cases done
        exact still
  | sleepMs rdi =>
      cases done
      split <;> exact still
  | goOn f => exact goOn_ticks c after f shown small done

structure AtBoot (w : Timed) : Prop where
  ticks : w.cpu.timerTicks = 0
  hardware : w.hardware = 0
  yields : w.yields = 0
  awake : ∀ slot deadline, w.cpu.pending slot ≠ some (.sleepMs deadline)
  woken : w.woken = []

theorem clocked_counts (w : Timed) (op : Op) (shown : Shown) (after : Timed)
    (counted : w.cpu.timerTicks = (w.hardware + w.yields) % 2 ^ 64)
    (done : clocked w op = .ok (shown, after)) :
    after.cpu.timerTicks = (after.hardware + after.yields) % 2 ^ 64 := by
  obtain ⟨⟨seen, cpu⟩, stepped, rest⟩ := (bind_ok _ _ _).mp done
  cases rest
  have small : w.cpu.timerTicks < 2 ^ 64 := by
    rw [counted]
    exact Nat.mod_lt _ (by decide)
  simp only
  rw [step_ticks w.cpu cpu op shown small stepped, counted]
  omega

theorem ticks_count_yields (allowed : Timed → Op → Prop) (start w : Timed) (boot : AtBoot start)
    (run : Run clocked allowed start w) :
    w.cpu.timerTicks = (w.hardware + w.yields) % 2 ^ 64 := by
  refine run_invariant clocked allowed
    (fun w => w.cpu.timerTicks = (w.hardware + w.yields) % 2 ^ 64) ?_ run ?_
  · intro before op shown after counted _ done
    exact clocked_counts before op shown after counted done
  · rw [boot.ticks, boot.hardware, boot.yields]
    rfl

/-! ### The sleepers -/

theorem effect_sleeps {c after : Cpu} {op : Op} {shown : Shown} (effect : Effect c op shown after)
    {slot deadline : Nat} (asleep : after.pending slot = some (.sleepMs deadline)) :
    c.pending slot = some (.sleepMs deadline) ∨
      ∃ rdi, op = .sleepMs rdi ∧ c.running = true ∧ slot = c.kernel.currentIdx ∧
        (sysSleepMs c rdi).pending slot = some (.sleepMs deadline) := by
  have moved : ∀ (c : Cpu) call, (c.setPending call).pending slot = some (.sleepMs deadline) →
      call ≠ some (.sleepMs deadline) → c.pending slot = some (.sleepMs deadline) := by
    intro c call asleep different
    by_cases current : slot = c.kernel.currentIdx
    · rw [current, setPending_current] at asleep
      exact absurd asleep different
    · rwa [setPending_other _ _ _ current] at asleep
  cases effect with
  | quiet _ _ _ _ pending => exact .inl (congrFun pending slot ▸ asleep)
  | spawned _ _ _ _ _ _ _ _ _ _ _ => exact .inl asleep
  | exited _ _ _ _ _ _ pending => exact .inl (congrFun pending slot ▸ asleep)
  | waiting _ _ _ _ _ _ => exact .inl (moved c _ asleep (by simp))
  | found _ _ _ _ _ _ => exact .inl (moved c _ asleep (by simp))
  | stored _ _ _ _ => exact .inl (moved c _ asleep (by simp))
  | reaped _ _ _ _ kernel _ _ => exact .inl (moved { c with kernel := kernel } _ asleep (by simp))
  | slept rdi _ running =>
      by_cases current : slot = c.kernel.currentIdx
      · exact .inr ⟨rdi, rfl, running, current, asleep⟩
      · exact .inl ((setPending_other c _ slot current).symm.trans asleep)
  | woke _ _ _ _ _ => exact .inl (moved c _ asleep (by simp))

theorem effect_wakes {c after : Cpu} {op : Op} {shown : Shown} (effect : Effect c op shown after)
    {deadline : Nat} (asleep : c.pending c.kernel.currentIdx = some (.sleepMs deadline))
    (awake : after.pending c.kernel.currentIdx = none) : deadline ≤ c.timerTicks := by
  have busy : c.running ≠ true := by simp [Cpu.running, asleep]
  cases effect with
  | quiet _ _ _ _ pending =>
      rw [pending, asleep] at awake
      cases awake
  | spawned _ _ _ _ _ _ _ running _ _ _ => exact absurd running busy
  | exited _ _ _ running _ _ _ => exact absurd running busy
  | waiting _ _ _ _ running _ => exact absurd running busy
  | found _ _ _ _ pending _ => cases asleep.symm.trans pending
  | stored _ _ _ pending => cases asleep.symm.trans pending
  | reaped _ _ _ _ _ pending _ => cases asleep.symm.trans pending
  | slept _ _ running => exact absurd running busy
  | woke _ _ _ pending late =>
      cases asleep.symm.trans pending
      exact late

def DeadlineFits (w : Timed) : Op → Prop
  | .sleepMs rdi => rdi.toNat + tickMs - 1 < 2 ^ 64 ∧
      w.cpu.timerTicks + (rdi.toNat + tickMs - 1) / tickMs < 2 ^ 64
  | _ => True

/-- No step yields, and neither the counter nor a deadline leaves 64 bits. -/
def Punctual (w : Timed) (op : Op) : Prop :=
  Blocking.yields w.cpu op = false ∧ w.hardware + (isTimer op).toNat < 2 ^ 64 ∧ DeadlineFits w op

def Nap.ticks (nap : Nap) : Nat := (nap.ms + 9) / 10

structure OnTime (w : Timed) : Prop where
  counted : w.cpu.timerTicks = w.hardware
  quiet : w.yields = 0
  small : w.hardware < 2 ^ 64
  asleep : ∀ slot deadline, w.cpu.pending slot = some (.sleepMs deadline) →
    deadline = (w.naps slot).since + (w.naps slot).ticks
  woken : ∀ nap returned, (nap, returned) ∈ w.woken → nap.since + nap.ticks ≤ returned

theorem started_same (w : Timed) (op : Op) (slot : Nat) (busy : w.cpu.pending slot ≠ none) :
    w.started op slot = w.naps slot := by
  -- Who is asleep makes no call.
  cases op with
  | sleepMs rdi =>
      refine if_neg fun ⟨running, current⟩ => busy ?_
      have free : w.cpu.pending w.caller = none := by
        simpa [Timed.caller] using (Bool.and_eq_true_iff.mp running).2
      rw [current, free]
  | _ => rfl

theorem clocked_onTime (w : Timed) (op : Op) (shown : Shown) (after : Timed) (onTime : OnTime w)
    (punctual : Punctual w op) (done : clocked w op = .ok (shown, after)) : OnTime after := by
  obtain ⟨still, small, fits⟩ := punctual
  have counted := clocked_counts w op shown after
    (by rw [onTime.counted, onTime.quiet, Nat.add_zero, Nat.mod_eq_of_lt onTime.small]) done
  obtain ⟨⟨seen, cpu⟩, stepped, rest⟩ := (bind_ok _ _ _).mp done
  cases rest
  have effect := step_effect _ _ _ _ stepped
  have quiet : w.yields + (Blocking.yields w.cpu op).toNat = 0 := by rw [onTime.quiet, still]; rfl
  constructor
  · simp only [quiet, Nat.add_zero] at counted
    rw [counted, Nat.mod_eq_of_lt small]
  · exact quiet
  · exact small
  · intro slot deadline asleep
    change deadline = (w.started op slot).since + (w.started op slot).ticks
    rcases effect_sleeps effect asleep with before | ⟨rdi, rfl, running, current, made⟩
    · rw [started_same w op slot (by rw [before]; exact Option.some_ne_none _)]
      exact onTime.asleep slot deadline before
    · obtain ⟨short, near⟩ := fits
      have nap : w.started (.sleepMs rdi) slot = ⟨rdi.toNat, w.hardware⟩ := if_pos ⟨running, current⟩
      rw [sysSleepMs, current, setPending_current] at made
      rw [Option.some.injEq, Pending.sleepMs.injEq, Nat.mod_eq_of_lt short,
        Nat.mod_eq_of_lt near, onTime.counted] at made
      rw [nap, ← made]
      rfl
  · intro nap returned member
    change (nap, returned) ∈ w.ended (cpu.pending w.caller) at member
    unfold Timed.ended at member
    split at member
    · rename_i deadline before awake
      rcases List.mem_cons.mp member with same | old
      · cases same
        rw [← onTime.asleep _ _ before, ← onTime.counted]
        exact effect_wakes effect before awake
      · exact onTime.woken nap returned old
    · exact onTime.woken nap returned member

/-- Without yields the counter is the number of hardware interrupts, and no call returns
before its ticks have passed. -/
theorem kernel_time_counts_hardware (start w : Timed) (boot : AtBoot start)
    (run : Run clocked Punctual start w) :
    w.cpu.timerTicks = w.hardware ∧
      ∀ nap returned, (nap, returned) ∈ w.woken → nap.since + (nap.ms + 9) / 10 ≤ returned := by
  have began : OnTime start := by
    refine ⟨by rw [boot.ticks, boot.hardware], boot.yields, by rw [boot.hardware]; decide,
      fun slot deadline asleep => absurd asleep (boot.awake slot deadline), ?_⟩
    rw [boot.woken]
    exact fun _ _ member => by cases member
  have onTime := run_invariant clocked Punctual OnTime clocked_onTime run began
  exact ⟨onTime.counted, onTime.woken⟩

instance (w : Timed) (op : Op) : Decidable (DeadlineFits w op) :=
  match op with
  | .sleepMs _ => inferInstanceAs (Decidable (_ ∧ _))
  | .timer _ | .yield _ | .spawn _ _ _ | .exit _ _ | .waitpid _ _ | .goOn _ =>
      inferInstanceAs (Decidable True)

instance (w : Timed) (op : Op) : Decidable (Punctual w op) :=
  inferInstanceAs (Decidable (_ ∧ _ ∧ _))

def bootTimed (mm : Mm) : Timed where
  cpu := { kernel := bootedKernel mm, timerTicks := 0, pending := fun _ => none }
  hardware := 0
  yields := 0
  naps := fun _ => ⟨0, 0⟩
  woken := []

theorem bootTimed_atBoot (mm : Mm) : AtBoot (bootTimed mm) where
  ticks := rfl
  hardware := rfl
  yields := rfl
  awake := fun _ _ asleep => by cases asleep
  woken := rfl

def firstTurn : List Op :=
  .spawn [] (smallImage 0x400000) [] :: List.replicate 5 (.timer .zeroed)

theorem kernel_time_counts_hardware_nap : ∃ start w, Sched.Booted start.cpu.kernel ∧
    AtBoot start ∧ Run clocked Punctual start w ∧ w.woken = [(⟨15, 5⟩, 7)] ∧
    w.cpu.timerTicks = w.hardware := by
  have limine := blankMachine_wide
  have booted := bootedKernel_booted _ _ limine
  let ops := firstTurn ++ [.sleepMs 15, .timer .zeroed, .timer .zeroed, .goOn .zeroed]
  have permitted : permits clocked Punctual (bootTimed (Vmm.init (blankMachine (-2)) (2 ^ 29))) ops =
      true := by decide +kernel
  have evaluated : ((replay clocked (bootTimed (Vmm.init (blankMachine (-2)) (2 ^ 29))) ops).map
      fun result => result.2.woken) = .ok [(⟨15, 5⟩, 7)] := by decide +kernel
  generalize Vmm.init (blankMachine (-2)) (2 ^ 29) = mm at booted permitted evaluated
  obtain ⟨⟨shown, w⟩, replayed, last⟩ := (map_ok _ _ _).mp evaluated
  have run := permits_run clocked Punctual ops _ w shown permitted replayed
  exact ⟨_, w, booted, bootTimed_atBoot mm, run, last,
    (kernel_time_counts_hardware _ w (bootTimed_atBoot mm) run).1⟩

/-- It asks for 20 ms; its own yield and the one of the boot context are the two ticks
that it waits for, and the hardware has sent none. -/
theorem yields_shorten_sleep : ∃ start w, Sched.Booted start.cpu.kernel ∧ AtBoot start ∧
    Run clocked (fun _ _ => True) start w ∧ w.cpu.timerTicks = 7 ∧ w.hardware = 5 ∧
    w.woken = [(⟨20, 5⟩, 5)] := by
  have limine := blankMachine_wide
  have booted := bootedKernel_booted _ _ limine
  let ops := firstTurn ++ [.sleepMs 20, .goOn .zeroed, .yield .zeroed, .goOn .zeroed]
  have evaluated : ((replay clocked (bootTimed (Vmm.init (blankMachine (-2)) (2 ^ 29))) ops).map
      fun result => (result.2.cpu.timerTicks, result.2.hardware, result.2.woken)) =
      .ok (7, 5, [(⟨20, 5⟩, 5)]) := by decide +kernel
  generalize Vmm.init (blankMachine (-2)) (2 ^ 29) = mm at booted evaluated
  obtain ⟨⟨shown, w⟩, replayed, last⟩ := (map_ok _ _ _).mp evaluated
  simp only [Prod.mk.injEq] at last
  exact ⟨_, w, booted, bootTimed_atBoot mm, replay_run _ _ _ (fun _ _ _ => trivial) _ _ _ replayed,
    last⟩

end Shizuku.Blocking
