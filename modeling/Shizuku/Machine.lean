import Mathlib.Logic.Relation
import Mathlib.Tactic

/-!
Fallible steps and guarded runs. A step either panics (a bounds check of the
program fails) or returns a value with the next state. Arrays are modelled as
total functions, so every indexing of the program is preceded by the check
`index`, and every slice by `range`; an out-of-range access is then an error of
the model and not a silent read of a default.
-/

namespace Shizuku.Machine

/-- `hang` stands for a loop of the program that never ends. -/
inductive Panic where
  | index | range | hang
  deriving DecidableEq, Repr

abbrev Outcome (Result : Type) := Except Panic Result

def index (bound position : Nat) : Outcome Unit :=
  if position < bound then .ok () else .error .index

/-- `array[start..stop]` of an array of `bound` cells. -/
def range (bound start stop : Nat) : Outcome Unit :=
  if start ≤ stop ∧ stop ≤ bound then .ok () else .error .range

section Outcomes
variable {First Second : Type}

theorem bind_ok (first : Outcome First) (next : First → Outcome Second) (result : Second) :
    (first >>= next) = .ok result ↔ ∃ middle, first = .ok middle ∧ next middle = .ok result := by
  cases first with
  | error panic => simp [bind, Except.bind]
  | ok middle => simp [bind, Except.bind]

@[simp] theorem ok_bind (middle : First) (next : First → Outcome Second) :
    ((Except.ok middle : Outcome First) >>= next) = next middle := rfl

@[simp] theorem pure_ok (result : First) : (pure result : Outcome First) = .ok result := rfl

theorem index_ok (bound position : Nat) (done : Unit) :
    index bound position = .ok done ↔ position < bound := by
  unfold index
  by_cases inside : position < bound <;> simp [inside]

theorem range_ok (bound start stop : Nat) (done : Unit) :
    range bound start stop = .ok done ↔ start ≤ stop ∧ stop ≤ bound := by
  unfold range
  by_cases inside : start ≤ stop ∧ stop ≤ bound <;> simp [inside]

theorem map_ok (outcome : Outcome First) (f : First → Second) (result : Second) :
    outcome.map f = .ok result ↔ ∃ value, outcome = .ok value ∧ f value = result := by
  cases outcome <;> simp [Except.map]

theorem value_of_ok {Result Value : Type} {call : Outcome Result} {result : Result}
    (done : call = .ok result) (read : Result → Value) {value : Value}
    (computed : call.map read = .ok value) : read result = value := by
  rw [done] at computed
  exact Except.ok.inj computed

theorem ok_of_returned (outcome : Outcome (First × Second)) (ret : First)
    (returned : outcome.map Prod.fst = .ok ret) : ∃ after, outcome = .ok (ret, after) := by
  obtain ⟨pair, equal, rfl⟩ := (map_ok _ _ _).mp returned
  exact ⟨pair.2, equal⟩

end Outcomes

section Runs
variable {State Op Ret : Type}

def Step (step : State → Op → Outcome (Ret × State)) (allowed : State → Op → Prop)
    (before after : State) : Prop :=
  ∃ op ret, allowed before op ∧ step before op = .ok (ret, after)

/-- Finite runs all of whose steps return and meet the guard `allowed`. -/
def Run (step : State → Op → Outcome (Ret × State)) (allowed : State → Op → Prop) :
    State → State → Prop :=
  Relation.ReflTransGen (Step step allowed)

theorem run_invariant (step : State → Op → Outcome (Ret × State))
    (allowed : State → Op → Prop) (invariant : State → Prop)
    (preserved : ∀ before op ret after, invariant before → allowed before op →
      step before op = .ok (ret, after) → invariant after)
    {before after : State} (run : Run step allowed before after)
    (initially : invariant before) : invariant after := by
  induction run with
  | refl => exact initially
  | tail _ last ih =>
      obtain ⟨op, ret, admitted, taken⟩ := last
      exact preserved _ op ret _ ih admitted taken

def replay (step : State → Op → Outcome (Ret × State)) (s : State) :
    List Op → Outcome (List Ret × State)
  | [] => .ok ([], s)
  | op :: rest => do
      let (ret, next) ← step s op
      let (rets, last) ← replay step next rest
      return (ret :: rets, last)

theorem replay_cons {step : State → Op → Outcome (Ret × State)} {s last : State} {op : Op}
    {ops : List Op} {ret : Ret} {rets : List Ret}
    (done : replay step s (op :: ops) = .ok (ret :: rets, last)) :
    ∃ next, step s op = .ok (ret, next) ∧ replay step next ops = .ok (rets, last) := by
  obtain ⟨⟨first, next⟩, stepped, rest⟩ := (bind_ok _ _ _).mp done
  obtain ⟨⟨others, final⟩, replayed, same⟩ := (bind_ok _ _ _).mp rest
  cases same
  exact ⟨next, stepped, replayed⟩

theorem replay_concat {step : State → Op → Outcome (Ret × State)} {s last : State} {op : Op}
    {ops : List Op} {rets : List Ret} (done : replay step s (ops ++ [op]) = .ok (rets, last)) :
    ∃ earlier before ret, replay step s ops = .ok (earlier, before) ∧
      step before op = .ok (ret, last) := by
  induction ops generalizing s rets with
  | nil =>
      obtain ⟨⟨ret, next⟩, stepped, rest⟩ := (bind_ok _ _ _).mp done
      cases rest
      exact ⟨[], s, ret, rfl, stepped⟩
  | cons first ops ih =>
      obtain ⟨⟨ret, next⟩, stepped, rest⟩ := (bind_ok _ _ _).mp done
      obtain ⟨⟨others, final⟩, replayed, same⟩ := (bind_ok _ _ _).mp rest
      cases same
      obtain ⟨earlier, before, value, reached, lastStep⟩ := ih replayed
      exact ⟨ret :: earlier, before, value, by simp [replay, stepped, reached], lastStep⟩

theorem replay_invariant (step : State → Op → Outcome (Ret × State)) (invariant : State → Prop)
    (ops : List Op)
    (preserved : ∀ op ∈ ops, ∀ before, invariant before →
      ∃ ret after, step before op = .ok (ret, after) ∧ invariant after)
    (s : State) (initially : invariant s) :
    ∃ rets last, replay step s ops = .ok (rets, last) ∧ invariant last := by
  induction ops generalizing s with
  | nil => exact ⟨[], s, rfl, initially⟩
  | cons op ops ih =>
      obtain ⟨ret, next, stepped, kept⟩ := preserved op List.mem_cons_self s initially
      obtain ⟨rets, last, replayed, finally_⟩ :=
        ih (fun later member => preserved later (List.mem_cons_of_mem _ member)) next kept
      exact ⟨ret :: rets, last, by simp [replay, stepped, replayed], finally_⟩

theorem replay_run (step : State → Op → Outcome (Ret × State)) (allowed : State → Op → Prop)
    (ops : List Op) (permitted : ∀ op ∈ ops, ∀ s, allowed s op) (s last : State)
    (rets : List Ret) (done : replay step s ops = .ok (rets, last)) :
    Run step allowed s last := by
  induction ops generalizing s rets with
  | nil =>
      cases done
      exact .refl
  | cons op ops ih =>
      obtain ⟨⟨ret, next⟩, stepped, rest⟩ := (bind_ok _ _ _).mp done
      obtain ⟨⟨others, final⟩, replayed, same⟩ := (bind_ok _ _ _).mp rest
      cases same
      exact .head ⟨op, ret, permitted op List.mem_cons_self s, stepped⟩
        (ih (fun later member => permitted later (List.mem_cons_of_mem _ member)) next others
          replayed)

def permits (step : State → Op → Outcome (Ret × State)) (allowed : State → Op → Prop)
    [∀ s op, Decidable (allowed s op)] (s : State) : List Op → Bool
  | [] => true
  | op :: rest =>
      match step s op with
      | .ok (_, next) => decide (allowed s op) && permits step allowed next rest
      | .error _ => false

theorem permits_run (step : State → Op → Outcome (Ret × State)) (allowed : State → Op → Prop)
    [∀ s op, Decidable (allowed s op)] (ops : List Op) (s last : State) (rets : List Ret)
    (permitted : permits step allowed s ops = true) (done : replay step s ops = .ok (rets, last)) :
    Run step allowed s last := by
  induction ops generalizing s rets with
  | nil =>
      cases done
      exact .refl
  | cons op ops ih =>
      obtain ⟨⟨ret, next⟩, stepped, rest⟩ := (bind_ok _ _ _).mp done
      obtain ⟨⟨others, final⟩, replayed, same⟩ := (bind_ok _ _ _).mp rest
      cases same
      simp only [permits, stepped, Bool.and_eq_true, decide_eq_true_eq] at permitted
      exact .head ⟨op, ret, permitted.1, stepped⟩ (ih next others permitted.2 replayed)

end Runs

end Shizuku.Machine
