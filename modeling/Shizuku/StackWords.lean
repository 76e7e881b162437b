import Mathlib.Data.List.Basic
import Shizuku.WordMemory

/-!
Words on a stack that grows down. A list of values is pushed one after the other, so the
words from the new top on are the values in reverse; what lies above the old top and
below the new one is as it was.
-/

namespace Shizuku.StackWords

open ByteMemory WordMemory

def words (mem : Nat → UInt8) (addr : Nat) : Nat → List Nat
  | 0 => []
  | count + 1 => read64 mem addr :: words mem (addr + 8) count

/-- The memory after the values were pushed from `sp` down. -/
def pushAll (mem : Nat → UInt8) (sp : Nat) : List Nat → Nat → UInt8
  | [] => mem
  | value :: rest => pushAll (write64 mem (sp - 8) value) (sp - 8) rest

theorem words_congr (before after : Nat → UInt8) (addr count : Nat)
    (agree : ∀ place, addr ≤ place → place < addr + 8 * count → after place = before place) :
    words after addr count = words before addr count := by
  induction count generalizing addr with
  | zero => rfl
  | succ count ih =>
      rw [words, words, ih _ fun place low high => agree place (by omega) (by omega),
        read64_congr before after addr fun place low high => agree place low (by omega)]

theorem words_snoc (mem : Nat → UInt8) (addr count : Nat) :
    words mem addr (count + 1) = words mem addr count ++ [read64 mem (addr + 8 * count)] := by
  induction count generalizing addr with
  | zero => rfl
  | succ count ih =>
      rw [words, ih, words, List.cons_append, Nat.add_assoc, show 8 + 8 * count = 8 * (count + 1) by omega]

theorem pushAll_outside (mem : Nat → UInt8) (sp : Nat) (values : List Nat)
    (room : 8 * values.length ≤ sp) (place : Nat)
    (outside : place < sp - 8 * values.length ∨ sp ≤ place) :
    pushAll mem sp values place = mem place := by
  induction values generalizing mem sp with
  | nil => rfl
  | cons value rest ih =>
      simp only [List.length_cons] at room outside
      rw [pushAll, ih _ _ (by omega) (by omega), write64_outside _ _ _ _ (by omega)]

theorem words_pushAll (mem : Nat → UInt8) (sp : Nat) (values : List Nat)
    (room : 8 * values.length ≤ sp) :
    words (pushAll mem sp values) (sp - 8 * values.length) values.length =
      (values.map (· % 2 ^ 64)).reverse := by
  induction values generalizing mem sp with
  | nil => rfl
  | cons value rest ih =>
      simp only [List.length_cons] at room
      have deep : sp - 8 * (rest.length + 1) + 8 * rest.length = sp - 8 := by omega
      have first : read64 (pushAll (write64 mem (sp - 8) value) (sp - 8) rest) (sp - 8) =
          value % 2 ^ 64 := by
        rw [read64_congr (write64 mem (sp - 8) value) _ _ fun place low high =>
          pushAll_outside _ _ rest (by omega) place (.inr low), read64_write64]
      have below := ih (write64 mem (sp - 8) value) (sp - 8) (by omega)
      rw [List.length_cons, words_snoc, deep, List.map_cons, List.reverse_cons, pushAll, first]
      rw [show sp - 8 * (rest.length + 1) = sp - 8 - 8 * rest.length by omega, below]

end Shizuku.StackWords
