import Shizuku.Blocking
import Shizuku.PageOwnership

/-!
Whose exit status `sys_waitpid` delivers. A slot number names whatever process is
in the slot at the time, so `Traced` keeps beside the processor an identity for each
occupant, what each process exited with, what each caller was waiting for when its
call began, and what the returned calls have read and reaped.
-/

namespace Shizuku.Blocking

open Machine Pmm Vmm Sched Elf Process Syscalls

/-- The process in the slot when the call began, and what the call has read from whom. -/
structure Watch where
  target : Nat
  read : Option (Nat × Int)
  deriving DecidableEq, Repr

/-- A call that has returned: its arguments, the process it was made for, and the process
that it reaped. -/
structure Delivery where
  tid : Nat
  rsi : Nat
  watch : Watch
  reaped : Option Nat
  deriving DecidableEq, Repr

structure Traced where
  cpu : Cpu
  occupant : Nat → Nat
  clock : Nat
  exits : Nat → Option Int
  watch : Nat → Watch
  delivered : List Delivery

def Traced.state (w : Traced) (slot : Nat) : ThreadState := (w.cpu.kernel.threads slot).state

def Traced.caller (w : Traced) : Nat := w.cpu.kernel.currentIdx

def Traced.occupants (w : Traced) (after : Cpu) (slot : Nat) : Nat :=
  if w.state slot = .unused ∧ (after.kernel.threads slot).state ≠ .unused then w.clock
  else w.occupant slot

def Traced.exited (w : Traced) (after : Cpu) (process : Nat) : Option Int :=
  let last := after.kernel.threads w.caller
  if w.state w.caller ≠ .zombie ∧ last.state = .zombie ∧ process = w.occupant w.caller then
    some last.exitStatus
  else w.exits process

def Traced.watched (w : Traced) (shown : Shown) (now : Option Pending) : Watch :=
  match w.cpu.pending w.caller, now with
  | none, some (.waitpid tid _ .polling) => ⟨w.occupant tid, none⟩
  | some (.waitpid tid _ .found), some (.waitpid _ _ .stored) =>
      { w.watch w.caller with read := shown.status.map fun status => (w.occupant tid, status) }
  | _, _ => w.watch w.caller

def Traced.returned (w : Traced) (now : Option Pending) : List Delivery :=
  match w.cpu.pending w.caller, now with
  | some (.waitpid tid rsi .stored), none =>
      ⟨tid, rsi, w.watch w.caller,
        if w.state tid = .zombie then some (w.occupant tid) else none⟩ :: w.delivered
  | _, _ => w.delivered

def observe (w : Traced) (shown : Shown) (after : Cpu) : Traced where
  cpu := after
  occupant := w.occupants after
  clock := w.clock + 1
  exits := w.exited after
  watch := fun slot =>
    if slot = w.caller then w.watched shown (after.pending w.caller) else w.watch slot
  delivered := w.returned (after.pending w.caller)

def trace (w : Traced) (op : Op) : Outcome (Shown × Traced) := do
  let (shown, after) ← step w.cpu op
  return (shown, observe w shown after)

/-- No new process gets a slot that some caller still waits for, and no slot is reaped
while another caller is past its polling loop for it. -/
def Settled (w : Traced) : Op → Prop
  | .spawn _ _ _ => ∀ slot tid rsi phase, w.cpu.pending slot = some (.waitpid tid rsi phase) →
      unusedSlot w.cpu.kernel ≠ some tid
  | .goOn _ => ∀ tid rsi, w.cpu.pending w.caller = some (.waitpid tid rsi .stored) →
      ∀ slot other phase, slot ≠ w.caller →
        w.cpu.pending slot = some (.waitpid tid other phase) → phase = .polling
  | _ => True

def Reported (exits : Nat → Option Int) (rsi : Nat) (watch : Watch) : Prop :=
  (badUaddr rsi = true ∧ watch.read = none) ∨
    ∃ status, watch.read = some (watch.target, status) ∧ exits watch.target = some status

def Watching (w : Traced) (watch : Watch) (tid rsi : Nat) : Phase → Prop
  | .polling => w.state tid ≠ .unused → w.occupant tid = watch.target
  | .found => w.state tid = .zombie ∧ w.occupant tid = watch.target
  | .stored => (w.state tid = .zombie ∧ w.occupant tid = watch.target) ∧
      Reported w.exits rsi watch

structure Right (w : Traced) (d : Delivery) : Prop where
  reaped : d.reaped = some d.watch.target
  reported : Reported w.exits d.rsi d.watch
  past : d.watch.target < w.clock
  gone : ∀ slot, w.state slot ≠ .unused → w.occupant slot ≠ d.watch.target

structure Tracked (w : Traced) : Prop where
  dated : ∀ slot, w.state slot ≠ .unused → w.occupant slot < w.clock
  apart : ∀ one two, w.state one ≠ .unused → w.state two ≠ .unused →
    w.occupant one = w.occupant two → one = two
  recorded : ∀ slot, w.state slot = .zombie →
    w.exits (w.occupant slot) = some (w.cpu.kernel.threads slot).exitStatus
  waits : ∀ slot tid rsi phase, w.cpu.pending slot = some (.waitpid tid rsi phase) →
    Watching w (w.watch slot) tid rsi phase
  delivered : ∀ d ∈ w.delivered, Right w d
  once : (w.delivered.map fun d => d.watch.target).Nodup

theorem running_runnable (w : Traced) (running : w.cpu.running = true) :
    w.state w.caller = .runnable ∧ w.cpu.pending w.caller = none := by
  simpa [Cpu.running, Traced.state, Traced.caller] using running

theorem occupants_same (w : Traced) (after : Cpu)
    (settled : ∀ slot, w.state slot = .unused → (after.kernel.threads slot).state = .unused) :
    w.occupants after = w.occupant := by
  funext slot
  exact if_neg fun ⟨unused, used⟩ => used (settled slot unused)

theorem exited_same (w : Traced) (after : Cpu)
    (alive : (after.kernel.threads w.caller).state = .zombie → w.state w.caller = .zombie) :
    w.exited after = w.exits := by
  funext process
  exact if_neg fun ⟨before, now, _⟩ => before (alive now)

theorem watched_same (w : Traced) (shown : Shown) :
    w.watched shown (w.cpu.pending w.caller) = w.watch w.caller := by
  unfold Traced.watched
  split <;> simp_all

theorem returned_same (w : Traced) : w.returned (w.cpu.pending w.caller) = w.delivered := by
  unfold Traced.returned
  split <;> simp_all

structure Carried (w after : Traced) : Prop where
  fates : ∀ slot, SameFate (w.cpu.kernel.threads slot) (after.cpu.kernel.threads slot)
  occupant : after.occupant = w.occupant
  exits : after.exits = w.exits
  clock : after.clock = w.clock + 1
  delivered : after.delivered = w.delivered

theorem observe_carried (w : Traced) (shown : Shown) (after : Cpu)
    (fates : ∀ slot, SameFate (w.cpu.kernel.threads slot) (after.kernel.threads slot))
    (returned : w.returned (after.pending w.caller) = w.delivered) :
    Carried w (observe w shown after) where
  fates := fates
  occupant := occupants_same w after fun slot unused => (fates slot).1.trans unused
  exits := exited_same w after fun zombie => (fates w.caller).1.symm.trans zombie
  clock := rfl
  delivered := returned

theorem Carried.watching {w after : Traced} (carried : Carried w after) {watch : Watch}
    {tid rsi : Nat} {phase : Phase} (watching : Watching w watch tid rsi phase) :
    Watching after watch tid rsi phase := by
  have state : after.state tid = w.state tid := (carried.fates tid).1
  cases phase <;> simpa only [Watching, state, carried.occupant, carried.exits] using watching

theorem Carried.right {w after : Traced} (carried : Carried w after) {d : Delivery}
    (right : Right w d) : Right after d where
  reaped := right.reaped
  reported := carried.exits ▸ right.reported
  past := carried.clock ▸ Nat.lt_succ_of_lt right.past
  gone := fun slot used => carried.occupant ▸
    right.gone slot fun unused => used ((carried.fates slot).1.trans unused)

theorem Tracked.carry {w after : Traced} (tracked : Tracked w) (carried : Carried w after)
    (waits : ∀ slot tid rsi phase, after.cpu.pending slot = some (.waitpid tid rsi phase) →
      Watching w (after.watch slot) tid rsi phase) : Tracked after := by
  have states : ∀ slot, after.state slot = w.state slot := fun slot => (carried.fates slot).1
  constructor
  · intro slot used
    rw [carried.occupant, carried.clock]
    exact Nat.lt_succ_of_lt (tracked.dated slot (states slot ▸ used))
  · intro one two first second
    rw [carried.occupant]
    exact tracked.apart one two (states one ▸ first) (states two ▸ second)
  · intro slot zombie
    rw [carried.occupant, carried.exits, (carried.fates slot).2]
    exact tracked.recorded slot (states slot ▸ zombie)
  · intro slot tid rsi phase pending
    exact carried.watching (waits slot tid rsi phase pending)
  · intro d member
    exact carried.right (tracked.delivered d (carried.delivered ▸ member))
  · rw [carried.delivered]
    exact tracked.once

theorem moved_tracked {w : Traced} (tracked : Tracked w) (shown : Shown) (call : Option Pending)
    (returned : w.returned call = w.delivered)
    (own : ∀ tid rsi phase, call = some (.waitpid tid rsi phase) →
      Watching w (w.watched shown call) tid rsi phase) :
    Tracked (observe w shown (w.cpu.setPending call)) := by
  have current : (w.cpu.setPending call).pending w.caller = call := setPending_current _ _
  have carried := observe_carried w shown (w.cpu.setPending call) (fun _ => .refl _)
    (current.symm ▸ returned)
  refine tracked.carry carried fun slot tid rsi phase pending => ?_
  by_cases same : slot = w.caller
  · subst slot
    have watch : (observe w shown (w.cpu.setPending call)).watch w.caller = w.watched shown call :=
      (if_pos rfl).trans (congrArg (w.watched shown) current)
    rw [watch]
    exact own tid rsi phase (current.symm.trans pending)
  · have watch : (observe w shown (w.cpu.setPending call)).watch slot = w.watch slot := if_neg same
    rw [watch]
    exact tracked.waits slot tid rsi phase
      ((setPending_other w.cpu call slot same).symm.trans pending)

theorem watch_same (w : Traced) (shown : Shown) (after : Cpu) (pending : after.pending = w.cpu.pending) :
    (observe w shown after).watch = w.watch := by
  funext slot
  by_cases current : slot = w.caller
  · subst slot
    exact (if_pos rfl).trans (pending ▸ watched_same w shown)
  · exact if_neg current

structure Joined (w after : Traced) (slot : Nat) : Prop where
  runnable : after.state slot = .runnable
  others : ∀ other, other ≠ slot →
    after.cpu.kernel.threads other = w.cpu.kernel.threads other
  newcomer : after.occupant slot = w.clock
  kept : ∀ other, other ≠ slot → after.occupant other = w.occupant other
  exits : after.exits = w.exits
  clock : after.clock = w.clock + 1
  delivered : after.delivered = w.delivered
  watch : after.watch = w.watch
  pending : after.cpu.pending = w.cpu.pending

theorem observe_joined {w : Traced} (shown : Shown) (kernel : Kernel) (slot : Nat) (t : Thread)
    (running : w.cpu.running = true) (found : unusedSlot w.cpu.kernel = some slot)
    (runnable : t.state = .runnable)
    (threads : kernel.threads = (w.cpu.kernel.setThread slot t).threads) :
    Joined w (observe w shown { w.cpu with kernel := kernel }) slot := by
  have unused : w.state slot = .unused := (unusedSlot_some _ slot found).2
  have fresh : kernel.threads slot = t := by rw [threads, setThread_same]
  have others : ∀ other, other ≠ slot → kernel.threads other = w.cpu.kernel.threads other := by
    intro other different
    rw [threads, setThread_other _ _ _ _ different]
  have away : w.caller ≠ slot := by
    rintro rfl
    rw [(running_runnable w running).1] at unused
    cases unused
  constructor
  · exact (congrArg Thread.state fresh).trans runnable
  · exact others
  · exact if_pos ⟨unused, by simp [fresh, runnable]⟩
  · intro other different
    refine if_neg fun ⟨before, now⟩ => now ?_
    rw [others other different]
    exact before
  · refine exited_same w _ fun zombie => ?_
    rw [others _ away] at zombie
    exact zombie
  · rfl
  · exact returned_same w
  · exact watch_same w shown _ rfl
  · rfl

theorem Joined.tracked {w after : Traced} {slot : Nat} (joined : Joined w after slot)
    (tracked : Tracked w)
    (settled : ∀ caller tid rsi phase, w.cpu.pending caller = some (.waitpid tid rsi phase) →
      tid ≠ slot) : Tracked after := by
  have states : ∀ other, other ≠ slot → after.state other = w.state other :=
    fun other different => congrArg Thread.state (joined.others other different)
  have older : ∀ other, other ≠ slot → after.state other ≠ .unused →
      after.occupant other < w.clock := by
    intro other different used
    rw [joined.kept other different]
    exact tracked.dated other (states other different ▸ used)
  constructor
  · intro other used
    rw [joined.clock]
    by_cases same : other = slot
    · rw [same, joined.newcomer]
      exact Nat.lt_succ_self _
    · exact Nat.lt_succ_of_lt (older other same used)
  · intro one two first second equal
    by_cases left : one = slot <;> by_cases right : two = slot
    · rw [left, right]
    · rw [left, joined.newcomer] at equal
      exact absurd equal (Nat.ne_of_gt (older two right second))
    · rw [right, joined.newcomer] at equal
      exact absurd equal (Nat.ne_of_lt (older one left first))
    · rw [joined.kept one left, joined.kept two right] at equal
      exact tracked.apart one two (states one left ▸ first) (states two right ▸ second) equal
  · intro other zombie
    by_cases same : other = slot
    · rw [same, joined.runnable] at zombie
      cases zombie
    · rw [joined.exits, joined.kept other same, joined.others other same]
      exact tracked.recorded other (states other same ▸ zombie)
  · intro caller tid rsi phase pending
    rw [joined.pending] at pending
    have away := settled caller tid rsi phase pending
    have watching := tracked.waits caller tid rsi phase pending
    cases phase <;>
      simpa only [Watching, states tid away, joined.kept tid away, joined.exits, joined.watch]
        using watching
  · intro d member
    have right := tracked.delivered d (joined.delivered ▸ member)
    refine ⟨right.reaped, joined.exits ▸ right.reported, ?_, fun other used => ?_⟩
    · rw [joined.clock]
      exact Nat.lt_succ_of_lt right.past
    · by_cases same : other = slot
      · rw [same, joined.newcomer]
        exact Nat.ne_of_gt right.past
      · rw [joined.kept other same]
        exact right.gone other (states other same ▸ used)
  · rw [joined.delivered]
    exact tracked.once

structure Left (w after : Traced) (slot : Nat) : Prop where
  alive : w.state slot = .runnable
  zombie : after.state slot = .zombie
  others : ∀ other, other ≠ slot →
    SameFate (w.cpu.kernel.threads other) (after.cpu.kernel.threads other)
  occupant : after.occupant = w.occupant
  status : after.exits (w.occupant slot) = some (after.cpu.kernel.threads slot).exitStatus
  exits : ∀ process, process ≠ w.occupant slot → after.exits process = w.exits process
  clock : after.clock = w.clock + 1
  delivered : after.delivered = w.delivered
  watch : after.watch = w.watch
  pending : after.cpu.pending = w.cpu.pending

theorem observe_left {w : Traced} (shown : Shown) (after : Cpu) (running : w.cpu.running = true)
    (zombie : (after.kernel.threads w.caller).state = .zombie)
    (others : ∀ slot, slot ≠ w.caller →
      SameFate (w.cpu.kernel.threads slot) (after.kernel.threads slot))
    (pending : after.pending = w.cpu.pending) : Left w (observe w shown after) w.caller := by
  have alive := (running_runnable w running).1
  constructor
  · exact alive
  · exact zombie
  · exact others
  · refine occupants_same w after fun slot unused => ?_
    have away : slot ≠ w.caller := by
      rintro rfl
      rw [alive] at unused
      cases unused
    exact (others slot away).1.trans unused
  · exact if_pos ⟨by rw [alive]; decide, zombie, rfl⟩
  · intro process different
    exact if_neg fun ⟨_, _, same⟩ => different same
  · rfl
  · exact (congrArg w.returned (congrFun pending w.caller)).trans (returned_same w)
  · exact watch_same w shown after pending
  · exact pending

theorem Left.tracked {w after : Traced} {slot : Nat} (left : Left w after slot)
    (tracked : Tracked w) : Tracked after := by
  have occupied : w.state slot ≠ .unused := by rw [left.alive]; decide
  have used : ∀ other, after.state other ≠ .unused → w.state other ≠ .unused := by
    intro other now
    by_cases same : other = slot
    · exact same ▸ occupied
    · exact fun unused => now ((left.others other same).1.trans unused)
  -- A zombie is not the process that has just exited.
  have dead : ∀ other, w.state other = .zombie → other ≠ slot ∧ after.state other = .zombie ∧
      after.exits (w.occupant other) = w.exits (w.occupant other) := by
    intro other zombie
    have away : other ≠ slot := by
      rintro rfl
      rw [left.alive] at zombie
      cases zombie
    refine ⟨away, (left.others other away).1.trans zombie, left.exits _ fun same => away ?_⟩
    exact tracked.apart other slot (by rw [zombie]; decide) occupied same
  constructor
  · intro other now
    rw [left.occupant, left.clock]
    exact Nat.lt_succ_of_lt (tracked.dated other (used other now))
  · intro one two first second
    rw [left.occupant]
    exact tracked.apart one two (used one first) (used two second)
  · intro other zombie
    rw [left.occupant]
    by_cases same : other = slot
    · rw [same]
      exact left.status
    · have before : w.state other = .zombie := (left.others other same).1.symm.trans zombie
      rw [(dead other before).2.2, (left.others other same).2]
      exact tracked.recorded other before
  · intro caller tid rsi phase pending
    have watching := tracked.waits caller tid rsi phase (left.pending ▸ pending)
    cases phase with
    | polling =>
        intro now
        rw [left.occupant, left.watch]
        exact watching (used tid now)
    | found =>
        exact ⟨(dead tid watching.1).2.1, by rw [left.occupant, left.watch]; exact watching.2⟩
    | stored =>
        obtain ⟨⟨zombie, own⟩, reported⟩ := watching
        refine ⟨⟨(dead tid zombie).2.1, by rw [left.occupant, left.watch]; exact own⟩, ?_⟩
        rw [left.watch]
        have same := (dead tid zombie).2.2
        rw [own] at same
        unfold Reported
        rw [same]
        exact reported
  · intro d member
    have right := tracked.delivered d (left.delivered ▸ member)
    refine ⟨right.reaped, ?_, ?_, fun other now => ?_⟩
    · unfold Reported
      rw [left.exits _ (right.gone slot occupied).symm]
      exact right.reported
    · rw [left.clock]
      exact Nat.lt_succ_of_lt right.past
    · rw [left.occupant]
      exact right.gone other (used other now)
  · rw [left.delivered]
    exact tracked.once

structure Removed (w after : Traced) (tid rsi : Nat) : Prop where
  unused : after.state tid = .unused
  others : ∀ other, other ≠ tid → after.cpu.kernel.threads other = w.cpu.kernel.threads other
  occupant : after.occupant = w.occupant
  exits : after.exits = w.exits
  clock : after.clock = w.clock + 1
  delivered : after.delivered =
    ⟨tid, rsi, w.watch w.caller, some (w.occupant tid)⟩ :: w.delivered
  watch : after.watch = w.watch
  pending : ∀ slot call, after.cpu.pending slot = some call →
    slot ≠ w.caller ∧ w.cpu.pending slot = some call

theorem observe_removed {w : Traced} (shown : Shown) (tid rsi : Nat) (kernel : Kernel)
    (pending : w.cpu.pending w.caller = some (.waitpid tid rsi .stored))
    (zombie : w.state tid = .zombie) (reaped : schedReap w.cpu.kernel tid = .ok kernel)
    (current : kernel.currentIdx = w.caller) :
    Removed w (observe w shown ({ w.cpu with kernel := kernel }.setPending none)) tid rsi := by
  have free : ({ w.cpu with kernel := kernel }.setPending none).pending w.caller = none :=
    if_pos current.symm
  have threads : kernel.threads = (w.cpu.kernel.setThread tid .zeroed).threads := by
    rcases schedReap_cases _ _ _ reaped with ⟨_, alive, _⟩ | ⟨_, _, rfl⟩
    · exact absurd zombie alive
    · rfl
  have gone : kernel.threads tid = .zeroed := by rw [threads, setThread_same]
  have others : ∀ other, other ≠ tid → kernel.threads other = w.cpu.kernel.threads other := by
    intro other different
    rw [threads, setThread_other _ _ _ _ different]
  constructor
  · exact congrArg Thread.state gone
  · exact others
  · refine occupants_same w _ fun slot unused => ?_
    by_cases same : slot = tid
    · exact same ▸ congrArg Thread.state gone
    · exact (congrArg Thread.state (others slot same)).trans unused
  · refine exited_same w _ fun now => ?_
    by_cases same : w.caller = tid
    · exact same ▸ zombie
    · exact (congrArg Thread.state (others _ same)).symm.trans now
  · rfl
  · simp only [observe, free, Traced.returned, pending, zombie, ↓reduceIte]
  · funext slot
    by_cases same : slot = w.caller
    · subst slot
      simp only [observe, ↓reduceIte, free, Traced.watched, pending]
    · exact if_neg same
  · intro slot call waits
    by_cases same : slot = w.caller
    · rw [same] at waits
      cases free.symm.trans waits
    · exact ⟨same, (if_neg fun equal => same (equal.trans current)).symm.trans waits⟩

theorem Removed.tracked {w after : Traced} {tid rsi : Nat} (removed : Removed w after tid rsi)
    (tracked : Tracked w) (zombie : w.state tid = .zombie)
    (own : w.occupant tid = (w.watch w.caller).target)
    (reported : Reported w.exits rsi (w.watch w.caller))
    (settled : ∀ slot other phase, slot ≠ w.caller →
      w.cpu.pending slot = some (.waitpid tid other phase) → phase = .polling) :
    Tracked after := by
  have occupied : w.state tid ≠ .unused := by rw [zombie]; decide
  have used : ∀ other, after.state other ≠ .unused → other ≠ tid ∧ w.state other ≠ .unused := by
    intro other now
    have away : other ≠ tid := fun same => now (same ▸ removed.unused)
    exact ⟨away, fun unused =>
      now ((congrArg Thread.state (removed.others other away)).trans unused)⟩
  have older : ∀ d ∈ w.delivered, Right after d := by
    intro d member
    have right := tracked.delivered d member
    refine ⟨right.reaped, removed.exits ▸ right.reported, ?_, fun other now => ?_⟩
    · rw [removed.clock]
      exact Nat.lt_succ_of_lt right.past
    · rw [removed.occupant]
      exact right.gone other (used other now).2
  constructor
  · intro other now
    rw [removed.occupant, removed.clock]
    exact Nat.lt_succ_of_lt (tracked.dated other (used other now).2)
  · intro one two first second
    rw [removed.occupant]
    exact tracked.apart one two (used one first).2 (used two second).2
  · intro other dead
    have away := (used other (by rw [dead]; decide)).1
    rw [removed.occupant, removed.exits, removed.others other away]
    exact tracked.recorded other ((congrArg Thread.state (removed.others other away)).symm.trans dead)
  · intro slot place addr phase pending
    obtain ⟨elsewhere, pending⟩ := removed.pending _ _ pending
    have watching := tracked.waits slot place addr phase pending
    rw [removed.watch]
    by_cases same : place = tid
    · -- Whoever else waits for this slot is still polling, and the slot is empty now.
      subst place
      cases settled slot addr phase elsewhere pending
      exact fun now => absurd removed.unused now
    · have state : after.state place = w.state place :=
        congrArg Thread.state (removed.others place same)
      cases phase <;> simpa only [Watching, state, removed.occupant, removed.exits] using watching
  · intro d member
    rw [removed.delivered] at member
    rcases List.mem_cons.mp member with rfl | old
    · refine ⟨congrArg some own, removed.exits ▸ reported, ?_, fun other now => ?_⟩
      · rw [removed.clock, ← own]
        exact Nat.lt_succ_of_lt (tracked.dated tid occupied)
      · rw [removed.occupant, ← own]
        exact fun same => (used other now).1
          (tracked.apart other tid (used other now).2 occupied same)
    · exact older d old
  · rw [removed.delivered, List.map_cons, List.nodup_cons]
    refine ⟨fun member => ?_, tracked.once⟩
    obtain ⟨d, old, same⟩ := List.mem_map.mp member
    exact (tracked.delivered d old).gone tid occupied (own.trans same.symm)

theorem trace_tracked (w : Traced) (op : Op) (shown : Shown) (after : Traced) (tracked : Tracked w)
    (settled : Settled w op) (done : trace w op = .ok (shown, after)) : Tracked after := by
  obtain ⟨⟨seen, cpu⟩, stepped, rest⟩ := (bind_ok _ _ _).mp done
  cases rest
  cases step_effect _ _ _ _ stepped with
  | quiet _ _ _ fates pending =>
      have returned := (congrArg w.returned (congrFun pending w.caller)).trans (returned_same w)
      have carried := observe_carried w shown cpu fates returned
      refine tracked.carry carried fun slot tid rsi phase waits => ?_
      rw [watch_same w shown cpu pending]
      exact tracked.waits slot tid rsi phase ((congrFun pending slot).symm.trans waits)
  | spawned name image argv _ kernel slot t running found runnable threads =>
      refine (observe_joined shown kernel slot t running found runnable threads).tracked tracked ?_
      intro caller tid rsi phase pending same
      exact settled caller tid rsi phase pending (same ▸ found)
  | exited _ _ _ running zombie others pending =>
      exact (observe_left shown cpu running zombie others pending).tracked tracked
  | waiting _ _ tid rsi running occupied =>
      have free := (running_runnable w running).2
      refine moved_tracked tracked shown _ (by simp only [Traced.returned, free]) ?_
      rintro _ _ _ same
      cases same
      intro _
      simp only [Traced.watched, free]
  | found _ _ tid rsi pending zombie =>
      have pending : w.cpu.pending w.caller = _ := pending
      refine moved_tracked tracked shown _ (by simp only [Traced.returned, pending]) ?_
      rintro _ _ _ same
      cases same
      have own := tracked.waits _ _ _ _ pending (by rw [Traced.state, zombie]; decide)
      refine ⟨zombie, ?_⟩
      simp only [Traced.watched, pending]
      exact own
  | stored _ tid rsi pending =>
      have pending : w.cpu.pending w.caller = _ := pending
      obtain ⟨zombie, own⟩ := tracked.waits _ _ _ _ pending
      refine moved_tracked tracked _ _ (by simp only [Traced.returned, pending]) ?_
      rintro _ _ _ same
      cases same
      simp only [Traced.watched, pending]
      refine ⟨⟨zombie, own⟩, ?_⟩
      by_cases bad : badUaddr rsi = true
      · exact .inl ⟨bad, by rw [if_pos bad]; rfl⟩
      · have status := tracked.recorded tid zombie
        rw [own] at status
        exact .inr ⟨_, by rw [if_neg bad, own]; rfl, status⟩
  | reaped f _ tid rsi kernel pending reaped =>
      have pending : w.cpu.pending w.caller = _ := pending
      obtain ⟨⟨zombie, own⟩, reported⟩ := tracked.waits _ _ _ _ pending
      have current : kernel.currentIdx = w.caller := by
        rcases schedReap_cases _ _ _ reaped with ⟨_, _, rfl⟩ | ⟨_, _, rfl⟩ <;> rfl
      exact (observe_removed shown tid rsi kernel pending zombie reaped current).tracked tracked
        zombie own reported (settled tid rsi pending)
  | slept rdi _ running =>
      have free := (running_runnable w running).2
      exact moved_tracked tracked shown _ (by simp only [Traced.returned, free])
        fun _ _ _ same => by cases same
  | woke _ _ deadline pending _ =>
      have pending : w.cpu.pending w.caller = _ := pending
      exact moved_tracked tracked shown _ (by simp only [Traced.returned, pending])
        fun _ _ _ same => by cases same

/-! ### Runs -/

structure Fresh (w : Traced) : Prop where
  idle : ∀ slot, w.cpu.pending slot = none
  nothing : w.delivered = []
  dated : ∀ slot, w.state slot ≠ .unused → w.occupant slot < w.clock
  apart : ∀ one two, w.state one ≠ .unused → w.state two ≠ .unused →
    w.occupant one = w.occupant two → one = two
  recorded : ∀ slot, w.state slot = .zombie →
    w.exits (w.occupant slot) = some (w.cpu.kernel.threads slot).exitStatus

theorem Fresh.tracked {w : Traced} (fresh : Fresh w) : Tracked w where
  dated := fresh.dated
  apart := fresh.apart
  recorded := fresh.recorded
  waits := fun slot _ _ _ pending => by
    rw [fresh.idle slot] at pending
    cases pending
  delivered := fun d member => by
    rw [fresh.nothing] at member
    cases member
  once := by
    rw [fresh.nothing]
    exact .nil

/-- Every call that returns has reaped the process that was in the slot when the call
began, and reported its status; no process is delivered twice. -/
theorem waitpid_delivers_own_status (start w : Traced) (fresh : Fresh start)
    (run : Run trace Settled start w) :
    (∀ d ∈ w.delivered, d.reaped = some d.watch.target ∧
      ((badUaddr d.rsi = true ∧ d.watch.read = none) ∨
        ∃ status, d.watch.read = some (d.watch.target, status) ∧
          w.exits d.watch.target = some status)) ∧
    (w.delivered.map fun d => d.watch.target).Nodup := by
  have tracked := run_invariant trace Settled Tracked trace_tracked run fresh.tracked
  exact ⟨fun d member => ⟨(tracked.delivered d member).reaped, (tracked.delivered d member).reported⟩,
    tracked.once⟩

/-- The condition on the slots below `count` alone, for runs that use no others. -/
def settledBelow (count : Nat) (w : Traced) (op : Op) : Bool :=
  w.caller < count && match op with
    | .spawn _ _ _ => (List.range count).all fun slot => (w.cpu.pending slot).isNone
    | .goOn _ => (List.range count).all fun slot => slot == w.caller || match w.cpu.pending slot with
        | some (.waitpid _ _ phase) => phase == .polling
        | _ => true
    | _ => true

def IdleFrom (count : Nat) (w : Traced) : Prop := ∀ slot, count ≤ slot → w.cpu.pending slot = none

section Below
variable {count : Nat} {w after : Traced} {op : Op}

theorem settled_of_below (idle : IdleFrom count w) (below : settledBelow count w op = true) : Settled w op := by
  have used : ∀ slot call, w.cpu.pending slot = some call → slot < count := fun slot call pending => by
    by_contra outside
    rw [idle slot (Nat.le_of_not_lt outside)] at pending
    cases pending
  obtain ⟨_, calls⟩ := (Bool.and_eq_true_iff).mp below
  cases op with
  | spawn name image argv =>
      intro slot tid rsi phase pending
      have free := List.all_eq_true.mp calls slot (List.mem_range.mpr (used slot _ pending))
      simp [pending] at free
  | goOn f =>
      intro tid rsi _ slot other phase away pending
      have polls := List.all_eq_true.mp calls slot (List.mem_range.mpr (used slot _ pending))
      simpa [pending, away] using polls
  | _ => trivial

theorem idleFrom_step {shown : Shown} (idle : IdleFrom count w) (below : settledBelow count w op = true)
    (done : trace w op = .ok (shown, after)) : IdleFrom count after := by
  obtain ⟨⟨said, cpu⟩, stepped, rest⟩ := (bind_ok _ _ _).mp done
  cases rest
  obtain ⟨caller, _⟩ := (Bool.and_eq_true_iff).mp below
  have inside : w.cpu.kernel.currentIdx < count := of_decide_eq_true caller
  intro slot outside
  have away : slot ≠ w.cpu.kernel.currentIdx := by omega
  have before := idle slot outside
  change cpu.pending slot = none
  cases step_effect _ _ _ _ stepped with
  | quiet _ _ _ _ same | exited _ _ _ _ _ _ same => exact (congrFun same slot).trans before
  | spawned => exact before
  | reaped f _ tid rsi kernel _ reaped =>
      have current : kernel.currentIdx = w.cpu.kernel.currentIdx := by
        rcases schedReap_cases _ _ _ reaped with ⟨_, _, rfl⟩ | ⟨_, _, rfl⟩ <;> rfl
      exact (setPending_other _ _ slot (current ▸ away)).trans before
  | waiting | found | stored | slept | woke => exact (setPending_other _ _ slot away).trans before

theorem settled_run (idle : IdleFrom count w) (run : Run trace (fun w op => settledBelow count w op = true) w after) :
    Run trace Settled w after ∧ IdleFrom count after := by
  induction run with
  | refl => exact ⟨.refl, idle⟩
  | tail _ last ih =>
      obtain ⟨op, shown, below, done⟩ := last
      exact ⟨ih.1.tail ⟨op, shown, settled_of_below ih.2 below, done⟩, idleFrom_step ih.2 below done⟩

end Below

def bootTraced (mm : Mm) : Traced where
  cpu := { kernel := bootedKernel mm, timerTicks := 0, pending := fun _ => none }
  occupant := fun _ => 0
  clock := 1
  exits := fun _ => none
  watch := fun _ => ⟨0, none⟩
  delivered := []

theorem bootTraced_used (mm : Mm) (slot : Nat) (used : (bootTraced mm).state slot ≠ .unused) :
    slot = 0 ∧ (bootTraced mm).state slot = .runnable := by
  by_cases boot : slot = 0
  · exact ⟨boot, boot ▸ rfl⟩
  · exact absurd (congrArg Thread.state (bootedKernel_slot mm slot boot)) used

theorem bootTraced_fresh (mm : Mm) : Fresh (bootTraced mm) where
  idle := fun _ => rfl
  nothing := rfl
  dated := fun _ _ => Nat.zero_lt_one
  apart := fun one two first second _ =>
    (bootTraced_used mm one first).1.trans (bootTraced_used mm two second).1.symm
  recorded := fun slot zombie => by
    have used := (bootTraced_used mm slot (by rw [zombie]; decide)).2
    rw [zombie] at used
    cases used

def spawnThree : List Op :=
  List.replicate 3 (.spawn [] (smallImage 0x400000) []) ++ List.replicate 5 (.timer .zeroed)

/-- Processes 1 and 2 poll for the process in slot 3, which exits with status 7. Process 1 finds it,
stores the status and reaps it; process 2 still polls. -/
def onePolls : List Op :=
  let goOn : Op := .goOn .zeroed
  spawnThree ++ [.waitpid 3 4096, goOn, .waitpid 3 4096, goOn, .exit 7 .zeroed, .yield .zeroed, goOn, goOn, goOn]

theorem waitpid_delivers_own_status_polled : ∃ start w d, Sched.Booted start.cpu.kernel ∧ Fresh start ∧
    Run trace Settled start w ∧ w.cpu.pending 2 = some (.waitpid 3 4096 .polling) ∧ w.delivered = [d] ∧
    d = ⟨3, 4096, ⟨3, some (3, 7)⟩, some 3⟩ ∧ d.reaped = some d.watch.target ∧
    w.exits d.watch.target = some 7 := by
  have booted := bootedKernel_booted _ _ blankMachine_wide
  have permitted : permits trace (fun w op => settledBelow 4 w op = true)
      (bootTraced (Vmm.init (blankMachine (-2)) (2 ^ 29))) onePolls = true := by decide +kernel
  have evaluated : ((replay trace (bootTraced (Vmm.init (blankMachine (-2)) (2 ^ 29)))
      onePolls).map fun result => (result.2.delivered, result.2.cpu.pending 2)) =
      .ok ([⟨3, 4096, ⟨3, some (3, 7)⟩, some 3⟩], some (.waitpid 3 4096 .polling)) := by decide +kernel
  generalize Vmm.init (blankMachine (-2)) (2 ^ 29) = mm at booted permitted evaluated
  obtain ⟨⟨shown, w⟩, replayed, last⟩ := (map_ok _ _ _).mp evaluated
  obtain ⟨delivered, polling⟩ := Prod.mk.inj last
  have run := (settled_run (fun _ _ => rfl) (permits_run _ _ _ _ _ _ permitted replayed)).1
  have right := (waitpid_delivers_own_status (bootTraced mm) w (bootTraced_fresh mm) run).1 _
    (delivered ▸ List.mem_cons_self)
  obtain ⟨reaped, ⟨bad, _⟩ | ⟨status, read, exits⟩⟩ := right
  · cases bad
  · cases read
    exact ⟨_, w, _, booted, bootTraced_fresh mm, run, polling, delivered, rfl, reaped, exits⟩

/-- Processes 1 and 2 wait for the process in slot 3, which exits with status 7. The timer
interrupts both behind their loops; then one of them reaps, and the other one goes on. -/
def twoCallers : List Op :=
  let slice : List Op := List.replicate 5 (.timer .zeroed)
  let goOn : Op := .goOn .zeroed
  let yield : Op := .yield .zeroed
  spawnThree ++
    [.waitpid 3 4096, goOn, .waitpid 3 4096, goOn, .exit 7 .zeroed, yield, goOn] ++ slice ++
    [goOn] ++ slice ++ [yield, goOn, goOn, yield, goOn, goOn]

/-- The second caller returns 3 as well: it reports the status of the emptied slot, and
has reaped nothing. -/
theorem second_caller_gets_wrong_status : ∃ start w, Sched.Booted start.cpu.kernel ∧
    Fresh start ∧ Run trace (fun _ _ => True) start w ∧
    ⟨3, 4096, ⟨3, some (3, 0)⟩, none⟩ ∈ w.delivered ∧ w.exits 3 = some 7 := by
  have limine := blankMachine_wide
  have booted := bootedKernel_booted _ _ limine
  have evaluated : ((replay trace (bootTraced (Vmm.init (blankMachine (-2)) (2 ^ 29)))
      twoCallers).map fun result => (result.2.delivered, result.2.exits 3)) =
      .ok ([⟨3, 4096, ⟨3, some (3, 0)⟩, none⟩, ⟨3, 4096, ⟨3, some (3, 7)⟩, some 3⟩], some 7) := by
    decide +kernel
  generalize Vmm.init (blankMachine (-2)) (2 ^ 29) = mm at booted evaluated
  obtain ⟨⟨shown, w⟩, replayed, last⟩ := (map_ok _ _ _).mp evaluated
  rw [Prod.mk.injEq] at last
  exact ⟨_, w, booted, bootTraced_fresh mm, replay_run _ _ _ (fun _ _ _ => trivial) _ _ _ replayed,
    last.1 ▸ List.mem_cons_self, last.2⟩

end Shizuku.Blocking
