import Mathlib.Data.Finset.Card
import Mathlib.Logic.Function.Iterate
import Mathlib.Tactic

/-!
Forests given by a parent function. A node is attached when it is
`Under` the root. Moving one node under a new parent keeps every node
attached exactly when the moved node is not on the new parent's own way up.
-/

namespace Shizuku.ParentForest

variable {Node : Type} [DecidableEq Node]

def Under (parent : Node → Node) (above node : Node) : Prop :=
  ∃ count, parent^[count] node = above

omit [DecidableEq Node] in
theorem iterate_root (parent : Node → Node) (root : Node) (fixed : parent root = root)
    (count : Nat) : parent^[count] root = root :=
  Function.iterate_fixed fixed count

theorem iterate_update (parent : Node → Node) (moved target node : Node)
    (avoids : ¬ Under parent moved node) (count : Nat) :
    (Function.update parent moved target)^[count] node = parent^[count] node := by
  -- Along a chain that avoids the moved node, old and new parents agree.
  induction count with
  | zero => rfl
  | succ count ih =>
      have different : parent^[count] node ≠ moved := fun same => avoids ⟨count, same⟩
      rw [Function.iterate_succ_apply', Function.iterate_succ_apply', ih,
        Function.update_of_ne different]

theorem under_update (parent : Node → Node) (root moved target : Node)
    (all : Under parent root target)
    (avoids : ¬ Under parent moved target) (node : Node) (attached : Under parent root node) :
    Under (Function.update parent moved target) root node := by
  obtain ⟨up, arrives⟩ := all
  obtain ⟨count, reaches⟩ := attached
  -- Induction on the old distance: the chain either meets the moved node, and
  -- continues from the new parent, or its first link is an old one.
  induction count generalizing node with
  | zero => exact ⟨0, reaches⟩
  | succ count ih =>
      by_cases same : node = moved
      · refine ⟨up + 1, ?_⟩
        rw [same, Function.iterate_succ_apply, Function.update_self,
          iterate_update parent moved target target avoids up, arrives]
      · obtain ⟨further, done⟩ := ih (parent node) (by rwa [Function.iterate_succ_apply] at reaches)
        refine ⟨further + 1, ?_⟩
        rw [Function.iterate_succ_apply, Function.update_of_ne same, done]

omit [DecidableEq Node] in
theorem cycle_detached (parent : Node → Node) (root node : Node) (fixed : parent root = root)
    (nonroot : node ≠ root) (period : Nat) (positive : 0 < period)
    (returns : parent^[period] node = node) : ¬ Under parent root node := by
  -- A node that comes back to itself never reaches a fixed root elsewhere.
  rintro ⟨count, reaches⟩
  have around : ∀ times, parent^[period * times] node = node := by
    intro times
    rw [Function.iterate_mul]
    exact Function.iterate_fixed returns times
  have later : parent^[period * count] node = root := by
    have split : period * count = (period * count - count) + count := by
      have bound : count ≤ period * count := Nat.le_mul_of_pos_left count positive
      omega
    rw [split, Function.iterate_add_apply, reaches, iterate_root parent root fixed]
  exact nonroot ((around count).symm.trans later)

/-- Moving a node under itself or under one of its descendants detaches it. -/
theorem update_detached (parent : Node → Node) (root moved target : Node)
    (fixed : parent root = root) (nonroot : moved ≠ root) (below : Under parent moved target) :
    ¬ Under (Function.update parent moved target) root moved := by
  classical
  have first := Nat.find_spec below
  have early : ∀ count, count ≤ Nat.find below →
      (Function.update parent moved target)^[count] target = parent^[count] target := by
    intro count
    induction count with
    | zero => intro _; rfl
    | succ count ih =>
        intro bound
        have different : parent^[count] target ≠ moved := Nat.find_min below (by omega)
        rw [Function.iterate_succ_apply', Function.iterate_succ_apply', ih (by omega),
          Function.update_of_ne different]
  apply cycle_detached _ root moved _ nonroot (Nat.find below + 1) (by omega)
  · rw [Function.iterate_succ_apply, Function.update_self, early _ (Nat.le_refl _), first]
  · rw [Function.update_of_ne (Ne.symm nonroot), fixed]

omit [DecidableEq Node] in
/-- Within a finite set closed under parents, an attached node is attached in
fewer steps than the set has members. -/
theorem under_bound (parent : Node → Node) (root node : Node) (members : Finset Node)
    (closed : ∀ item ∈ members, parent item ∈ members) (inside : node ∈ members)
    (attached : Under parent root node) :
    ∃ count, count < members.card ∧ parent^[count] node = root := by
  classical
  refine ⟨Nat.find attached, ?_, Nat.find_spec attached⟩
  have stays : ∀ count, parent^[count] node ∈ members := by
    intro count
    induction count with
    | zero => exact inside
    | succ count ih =>
        rw [Function.iterate_succ_apply']
        exact closed _ ih
  -- The nodes on the shortest way up are distinct: a repetition could be cut out.
  have distinct : Set.InjOn (fun count => parent^[count] node)
      (Finset.range (Nat.find attached + 1)) := by
    have ordered : ∀ first second, first < second → second ≤ Nat.find attached →
        parent^[first] node ≠ parent^[second] node := by
      intro first second before bound same
      have cut := Nat.find_min attached (m := first + (Nat.find attached - second)) (by omega)
      apply cut
      have total := Nat.find_spec attached
      have split : Nat.find attached = (Nat.find attached - second) + second := by omega
      rw [split, Function.iterate_add_apply, ← same, ← Function.iterate_add_apply] at total
      rwa [Nat.add_comm]
    intro first left second right same
    simp only [Finset.coe_range, Set.mem_Iio] at left right
    rcases Nat.lt_trichotomy first second with before | equal | after
    · exact absurd same (ordered first second before (by omega))
    · exact equal
    · exact absurd same.symm (ordered second first after (by omega))
  have counted := Finset.card_le_card_of_injOn (s := Finset.range (Nat.find attached + 1))
    (t := members) (fun count => parent^[count] node) (fun count _ => stays count) distinct
  rw [Finset.card_range] at counted
  omega

end Shizuku.ParentForest
