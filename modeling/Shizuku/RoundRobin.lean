import Shizuku.ContextSwitches

/-!
Turns of the round-robin scheduler. A run keeps the list of the slots that
`pick_next` selected, the latest first, whether the slice ran out, the thread
yielded or the thread exited. While slot `t` is runnable, every selection of
another slot brings the current index closer to `t`, going round the table.
-/

namespace Shizuku.Sched

open Machine Pmm Vmm

inductive Event where
  | call (op : Op)
  | yield (f : IrqFrame)

def picking (k : Kernel) : Event → Option Kernel
  | .call (.tick _) =>
      if k.lastSlice + 1 < timesliceTicks then none else some { k with lastSlice := 0 }
  | .call (.threadExit _) =>
      some { k.setThread k.currentIdx { k.threads k.currentIdx with state := .zombie } with
        lastSlice := 0 }
  | .call (.sysExit status _) =>
      some { k.setThread k.currentIdx { k.threads k.currentIdx with
        exitStatus := status
        state := .zombie } with lastSlice := 0 }
  | .call _ => none
  | .yield _ => some { k with lastSlice := 0 }

structure Turns where
  k : Kernel
  picks : List Nat

def happen (k : Kernel) : Event → Outcome (Int × Kernel)
  | .call op => step k op
  | .yield f => .ok (0, (schedYield k f).2)

def turn (w : Turns) (event : Event) : Outcome (Int × Turns) := do
  let (ret, after) ← happen w.k event
  return (ret, ⟨after, ((picking w.k event).map pickNext).toList ++ w.picks⟩)

theorem pickNext_first (k : Kernel) (t : Nat) (inside : t < schedMaxThreads)
    (runnable : (k.threads t).state = .runnable) :
    ∃ gap, pickNext k = (k.currentIdx + (gap + 1)) % schedMaxThreads ∧
      (k.threads (pickNext k)).state = .runnable ∧
      ∀ lower, lower < gap →
        (k.threads ((k.currentIdx + (lower + 1)) % schedMaxThreads)).state ≠ .runnable := by
  unfold pickNext
  rw [List.find?_map]
  cases found : (List.range schedMaxThreads).find?
      ((fun idx => (k.threads idx).state == .runnable) ∘
        fun i => (k.currentIdx + (i + 1)) % schedMaxThreads) with
  | none =>
      -- The scan goes once round the whole table, so it meets `t`.
      have missed := List.find?_eq_none.mp found ((t + 63 - k.currentIdx % 32) % 32)
        (List.mem_range.mpr (Nat.mod_lt _ (by decide)))
      have back : (k.currentIdx + ((t + 63 - k.currentIdx % 32) % 32 + 1)) % schedMaxThreads = t := by
        simp only [schedMaxThreads] at inside ⊢
        omega
      rw [Function.comp_apply, back, runnable] at missed
      exact absurd rfl missed
  | some gap =>
      obtain ⟨hit, _, earlier⟩ := List.find?_range_eq_some.mp found
      refine ⟨gap, rfl, by simpa using hit, fun lower less => ?_⟩
      simpa using earlier lower less

def ahead (t slot : Nat) : Nat := (t + schedMaxThreads - slot % schedMaxThreads) % schedMaxThreads

theorem ahead_spec (t slot : Nat) (inside : t < schedMaxThreads) (other : slot % schedMaxThreads ≠ t) :
    0 < ahead t slot ∧ (slot + ahead t slot) % schedMaxThreads = t := by
  simp only [ahead, schedMaxThreads] at inside other ⊢
  omega

theorem ahead_step (t slot gap : Nat) (inside : t < schedMaxThreads) (short : gap < ahead t slot) :
    ahead t ((slot + gap) % schedMaxThreads) = ahead t slot - gap := by
  simp only [ahead, schedMaxThreads] at inside short ⊢
  omega

theorem pickNext_closer (k : Kernel) (t : Nat) (inside : t < schedMaxThreads)
    (runnable : (k.threads t).state = .runnable) (passed : pickNext k ≠ t)
    (elsewhere : k.currentIdx % schedMaxThreads ≠ t) :
    ahead t (pickNext k) < ahead t k.currentIdx := by
  -- A selection never goes past a runnable slot.
  obtain ⟨gap, first, _, earlier⟩ := pickNext_first k t inside runnable
  obtain ⟨positive, reach⟩ := ahead_spec t k.currentIdx inside elsewhere
  have short : gap + 1 < ahead t k.currentIdx := by
    rcases Nat.lt_trichotomy (gap + 1) (ahead t k.currentIdx) with less | same | more
    · exact less
    · rw [← same, ← first] at reach
      exact absurd reach passed
    · have blocked := earlier (ahead t k.currentIdx - 1) (by omega)
      rw [Nat.sub_add_cancel positive, reach] at blocked
      exact absurd runnable blocked
  rw [first, ahead_step t k.currentIdx (gap + 1) inside short]
  omega

/-- Between two selections of another slot there is one of `t`. -/
def TakesTurns (t : Nat) (picks : List Nat) : Prop :=
  ∀ other, other ≠ t → ∀ later between earlier,
    picks = later ++ other :: (between ++ other :: earlier) → t ∈ between

def since (t : Nat) (picks : List Nat) : List Nat := picks.takeWhile fun slot => slot != t

theorem mem_since {t slot : Nat} {recent earlier : List Nat} (without : t ∉ recent)
    (other : slot ≠ t) : slot ∈ since t (recent ++ slot :: earlier) := by
  induction recent with
  | nil => simp [since, other]
  | cons first rest ih =>
      have different : first ≠ t := fun same => without (same ▸ List.mem_cons_self)
      have onward := ih fun member => without (List.mem_cons_of_mem first member)
      simp only [since, List.cons_append, List.takeWhile_cons, bne_iff_ne, ne_eq, different,
        not_false_eq_true, ↓reduceIte]
      exact List.mem_cons_of_mem first onward

theorem TakesTurns.cons {t slot : Nat} {picks : List Nat} (turns : TakesTurns t picks)
    (fresh : slot ≠ t → slot ∉ since t picks) : TakesTurns t (slot :: picks) := by
  intro other different later between earlier split
  cases later with
  | nil =>
      obtain ⟨rfl, rest⟩ := List.cons.inj split
      by_contra without
      apply fresh different
      rw [rest]
      exact mem_since without different
  | cons first later =>
      exact turns other different later between earlier (List.cons.inj split).2

theorem schedTick_picks (k : Kernel) (f : IrqFrame) (expired : ¬ k.lastSlice + 1 < timesliceTicks) :
    (schedTick k f).2.currentIdx = pickNext { k with lastSlice := 0 } ∧
      ∀ slot, ((schedTick k f).2.threads slot).state = (k.threads slot).state := by
  unfold schedTick
  rw [if_neg expired]
  dsimp only
  split
  · rename_i stays
    exact ⟨stays.symm, fun _ => rfl⟩
  · rename_i different
    have runnable := (pickNext_runnable { k with lastSlice := 0 }).resolve_left different
    have switched := switchTo_switched { k with lastSlice := 0 } f _ different runnable
    refine ⟨switched.current, fun slot => ?_⟩
    rw [switched.threads]
    simp only [Kernel.setThread]
    split
    · rename_i same
      rw [same]
    · rfl

structure Resumed (picked after : Kernel) : Prop where
  current : after.currentIdx = pickNext picked
  states : ∀ slot, (after.threads slot).state = (picked.threads slot).state

theorem schedYield_picks (k : Kernel) (f : IrqFrame) :
    Resumed { k with lastSlice := 0 } (schedYield k f).2 := by
  obtain ⟨current, states⟩ :=
    schedTick_picks { k with lastSlice := timesliceTicks } f (by simp)
  exact ⟨current, states⟩

theorem turn_cases (w after : Turns) (event : Event) (ret : Int)
    (done : turn w event = .ok (ret, after)) :
    (after.picks = w.picks ∧ after.k.currentIdx = w.k.currentIdx) ∨
      ∃ picked, picked.currentIdx = w.k.currentIdx ∧ Resumed picked after.k ∧
        after.picks = pickNext picked :: w.picks := by
  obtain ⟨⟨result, k⟩, stepped, same⟩ := (bind_ok _ _ _).mp done
  cases same
  cases event with
  | yield f =>
      cases stepped
      exact .inr ⟨{ w.k with lastSlice := 0 }, rfl, schedYield_picks w.k f, rfl⟩
  | call op =>
      cases op with
      | kthreadCreate name f arg =>
          obtain ⟨outcome, equal, created⟩ := kthreadCreate_created w.k name f arg
          rw [happen, step, equal, Except.ok.injEq] at stepped
          subst outcome
          refine .inl ⟨rfl, ?_⟩
          cases created <;> simp [Kernel.setThread, Kernel.setPmm]
      | threadCreateUser name entry userRsp space =>
          obtain ⟨outcome, equal, created⟩ := threadCreateUser_created w.k name entry userRsp space
          rw [happen, step, equal, Except.ok.injEq] at stepped
          subst outcome
          refine .inl ⟨rfl, ?_⟩
          cases created <;> simp [Kernel.setThread, Kernel.setPmm, published]
      | threadExit f =>
          cases stepped
          exact .inr ⟨{ w.k.setThread w.k.currentIdx { w.k.threads w.k.currentIdx with
            state := .zombie } with lastSlice := 0 }, rfl, schedYield_picks _ f, rfl⟩
      | sysExit status f =>
          cases stepped
          rw [sysExit_yields]
          exact .inr ⟨{ w.k.setThread w.k.currentIdx { w.k.threads w.k.currentIdx with
            exitStatus := status
            state := .zombie } with lastSlice := 0 }, rfl, schedYield_picks _ f, rfl⟩
      | reap tid =>
          obtain ⟨reaped, taken, rest⟩ := (bind_ok _ _ _).mp stepped
          cases rest
          refine .inl ⟨rfl, ?_⟩
          rcases schedReap_cases w.k _ tid taken with ⟨_, _, rfl⟩ | ⟨_, _, rfl⟩
          · rfl
          · rfl
      | tick f =>
          cases stepped
          by_cases early : w.k.lastSlice + 1 < timesliceTicks
          · refine .inl ⟨by simp [picking, early], ?_⟩
            simp [schedTick, early]
          · obtain ⟨current, states⟩ := schedTick_picks w.k f early
            exact .inr ⟨{ w.k with lastSlice := 0 }, rfl, ⟨current, states⟩, by simp [picking, early]⟩

/-! ### Runs -/

/-- The current slot was selected last, and is closer to `t` than every slot selected
since `t` was. -/
structure InTurn (t : Nat) (w : Turns) : Prop where
  latest : ∀ slot rest, w.picks = slot :: rest →
    w.k.currentIdx = slot ∧ slot < schedMaxThreads
  closer : ∀ slot, slot ∈ since t w.picks → ahead t w.k.currentIdx ≤ ahead t slot
  turns : TakesTurns t w.picks

theorem InTurn.elsewhere {t slot : Nat} {w : Turns} (inTurn : InTurn t w)
    (recent : slot ∈ since t w.picks) : w.k.currentIdx % schedMaxThreads ≠ t := by
  cases picks : w.picks with
  | nil =>
      rw [picks] at recent
      cases recent
  | cons last rest =>
      obtain ⟨current, inside⟩ := inTurn.latest last rest picks
      rw [current, Nat.mod_eq_of_lt inside]
      rintro rfl
      simp [picks, since] at recent

theorem turn_inTurn (t : Nat) (inside : t < schedMaxThreads) (w after : Turns) (event : Event)
    (ret : Int) (inTurn : InTurn t w) (done : turn w event = .ok (ret, after))
    (runnable : (after.k.threads t).state = .runnable) : InTurn t after := by
  rcases turn_cases w after event ret done with ⟨picks, current⟩ | ⟨picked, before, resumed, picks⟩
  · constructor
    · rw [picks, current]
      exact inTurn.latest
    · rw [picks, current]
      exact inTurn.closer
    · rw [picks]
      exact inTurn.turns
  · rw [resumed.states] at runnable
    have advance : ∀ slot, slot ∈ since t w.picks → pickNext picked ≠ t →
        ahead t (pickNext picked) < ahead t slot := by
      intro slot recent passed
      have step := pickNext_closer picked t inside runnable passed
        (before ▸ inTurn.elsewhere recent)
      rw [before] at step
      exact step.trans_le (inTurn.closer slot recent)
    constructor
    · rw [picks, resumed.current]
      intro slot rest split
      obtain ⟨rfl, _⟩ := List.cons.inj split
      obtain ⟨gap, first, _⟩ := pickNext_first picked t inside runnable
      exact ⟨rfl, first ▸ Nat.mod_lt _ (by decide)⟩
    · rw [picks, resumed.current]
      intro slot recent
      by_cases passed : pickNext picked = t
      · simp [since, passed] at recent
      · simp only [since, List.takeWhile_cons, bne_iff_ne, ne_eq, passed, not_false_eq_true,
          ↓reduceIte, List.mem_cons] at recent
        rcases recent with rfl | older
        · exact Nat.le_refl _
        · exact (advance slot older passed).le
    · rw [picks]
      exact inTurn.turns.cons fun passed recent => Nat.lt_irrefl _ (advance _ recent passed)

def Runnable (t : Nat) (w : Turns) (_ : Event) : Prop := (w.k.threads t).state = .runnable

instance (t : Nat) (w : Turns) (event : Event) : Decidable (Runnable t w event) :=
  inferInstanceAs (Decidable (_ = _))

/-- Round robin from any state on: while `t` stays runnable, no other slot is selected
twice without `t` in between. A slot that is not runnable is selected only when none is. -/
theorem roundRobin_never_passes_over (start w : Turns) (t : Nat) (inside : t < schedMaxThreads)
    (fresh : start.picks = []) (run : Run turn (Runnable t) start w)
    (runnable : (w.k.threads t).state = .runnable) :
    TakesTurns t w.picks ∧
      ∀ k : Kernel, (∃ slot, slot < schedMaxThreads ∧ (k.threads slot).state = .runnable) →
        (k.threads (pickNext k)).state = .runnable := by
  constructor
  · have inTurn : InTurn t w := by
      induction run with
      | refl =>
          constructor
          · intro slot rest picks
            rw [fresh] at picks
            cases picks
          · intro slot recent
            rw [fresh] at recent
            cases recent
          · intro other _ later between earlier picks
            rw [fresh] at picks
            simp at picks
      | tail _ last ih =>
          obtain ⟨event, ret, before, done⟩ := last
          exact turn_inTurn t inside _ _ event ret (ih before) done runnable
    exact inTurn.turns
  · rintro k ⟨slot, low, ready⟩
    obtain ⟨_, _, state, _⟩ := pickNext_first k slot low ready
    exact state

def threeReady : Turns where
  k := { mm := blankMachine (-2), threads := fun slot =>
           if slot < 3 then { Thread.zeroed with state := .runnable } else .zeroed,
         nrThreads := 3, currentIdx := 0, lastSlice := 4, cr3 := 0, rsp0 := 0, kthreadTrampoline := 0 }
  picks := []

def aroundTheTable : List Event :=
  [.call (.tick .zeroed), .call (.threadExit .zeroed), .call (.reap 1), .yield .zeroed, .yield .zeroed]

theorem roundRobin_never_passes_over_three : ∃ w, Run turn (Runnable 2) threeReady w ∧
    w.picks = [2, 0, 2, 1] ∧ TakesTurns 2 w.picks := by
  have evaluated : (replay turn threeReady aroundTheTable).map
      (fun done => (done.2.picks, (done.2.k.threads 2).state)) = .ok ([2, 0, 2, 1], .runnable) := by
    decide +kernel
  have permitted : permits turn (Runnable 2) threeReady aroundTheTable = true := by decide +kernel
  obtain ⟨⟨rets, w⟩, replayed, same⟩ := (map_ok _ _ _).mp evaluated
  obtain ⟨picks, runnable⟩ := Prod.mk.inj same
  have run := permits_run turn (Runnable 2) aroundTheTable threeReady w rets permitted replayed
  exact ⟨w, run, picks,
    (roundRobin_never_passes_over threeReady w 2 (by decide) rfl run runnable).1⟩

end Shizuku.Sched
