import Shizuku.Machine

/-!
A queue in an array of `size` cells. `head` is the cell for the next item and `tail` the
cell of the oldest one; both go back to the start after the last cell. One cell stays
free, so that a full ring differs from an empty one.
-/

namespace Shizuku.RingQueue

open Machine

variable {Item : Type} {size : Nat}

structure RingBuffer (Item : Type) where
  cells : Nat → Item
  head : Nat
  tail : Nat

/-- An item that does not fit is dropped. -/
def RingBuffer.push (size : Nat) (ring : RingBuffer Item) (item : Item) : Outcome (RingBuffer Item) :=
  let next := (ring.head + 1) % size
  if next = ring.tail then .ok ring
  else do
    index size ring.head
    return { ring with
      cells := fun place => if place = ring.head then item else ring.cells place
      head := next }

def RingBuffer.pop (size : Nat) (ring : RingBuffer Item) : Outcome (Option Item × RingBuffer Item) :=
  if ring.head = ring.tail then .ok (none, ring)
  else do
    index size ring.tail
    return (some (ring.cells ring.tail), { ring with tail := (ring.tail + 1) % size })

structure Queued (size : Nat) (ring : RingBuffer Item) (items : List Item) : Prop where
  tail : ring.tail < size
  room : items.length < size
  head : ring.head = (ring.tail + items.length) % size
  each : ∀ i, i < items.length → items[i]? = some (ring.cells ((ring.tail + i) % size))

theorem mod_wrap {place : Nat} (short : place < 2 * size) :
    place % size = if place < size then place else place - size := by
  split
  · exact Nat.mod_eq_of_lt ‹_›
  · rw [Nat.mod_eq_sub_mod (by omega), Nat.mod_eq_of_lt (by omega)]

theorem wrapped_inj {start one two : Nat} (inside : start < size) (first : one < size)
    (second : two < size) (same : (start + one) % size = (start + two) % size) : one = two := by
  -- Places less than one round apart are different.
  rw [mod_wrap (by omega), mod_wrap (by omega)] at same
  split at same <;> split at same <;> omega

section Ends
variable {ring : RingBuffer Item} {items : List Item} (queued : Queued size ring items)
include queued

theorem Queued.head_lt : ring.head < size := by
  rw [queued.head]
  exact Nat.mod_lt _ (Nat.zero_lt_of_lt queued.tail)

theorem Queued.full_iff : (ring.head + 1) % size = ring.tail ↔ items.length + 1 = size := by
  -- One more item would make the head meet the tail.
  have tail := queued.tail
  have room := queued.room
  rw [queued.head, Nat.mod_add_mod, mod_wrap (by omega)]
  split <;> omega

theorem Queued.empty_iff : ring.head = ring.tail ↔ items = [] := by
  have tail := queued.tail
  have room := queued.room
  rw [queued.head, mod_wrap (by omega), ← List.length_eq_zero_iff]
  split <;> omega

theorem Queued.push_full (item : Item) (full : items.length + 1 = size) :
    ring.push size item = .ok ring :=
  if_pos (queued.full_iff.mpr full)

theorem Queued.push_room (item : Item) (space : items.length + 1 < size) :
    ∃ after, ring.push size item = .ok after ∧ after.head ≠ ring.head ∧
      Queued size after (items ++ [item]) := by
  have tail := queued.tail
  have open_ : (ring.head + 1) % size ≠ ring.tail := by
    intro met
    have full := queued.full_iff.mp met
    omega
  have checked := (index_ok size ring.head ()).mpr queued.head_lt
  have pushed : ring.push size item = .ok ⟨fun place => if place = ring.head then item else
      ring.cells place, (ring.head + 1) % size, ring.tail⟩ := by
    simp only [RingBuffer.push, if_neg open_, checked, ok_bind, pure_ok]
  refine ⟨_, pushed, ?_, tail, ?_, ?_, ?_⟩
  · -- One step never stays in place, as there are at least two cells.
    intro same
    have first : (ring.head + 1) % size = (ring.head + 0) % size :=
      same.trans (Nat.mod_eq_of_lt queued.head_lt).symm
    have step := wrapped_inj queued.head_lt (by omega) (by omega) first
    omega
  · simpa using space
  · simp only [List.length_append, List.length_singleton]
    rw [queued.head, Nat.mod_add_mod, Nat.add_assoc]
  · intro i inside
    rw [List.length_append, List.length_singleton] at inside
    simp only
    by_cases last : i = items.length
    · subst i
      rw [if_pos queued.head.symm, List.getElem?_concat_length]
    · have before : i < items.length := by omega
      have other : (ring.tail + i) % size ≠ ring.head := by
        intro same
        rw [queued.head] at same
        exact last (wrapped_inj tail (by omega) (by omega) same)
      rw [if_neg other, List.getElem?_append_left before]
      exact queued.each i before

end Ends

theorem Queued.pop_empty {ring : RingBuffer Item} (queued : Queued size ring []) :
    ring.pop size = .ok (none, ring) :=
  if_pos (queued.empty_iff.mpr rfl)

theorem Queued.pop_first {ring : RingBuffer Item} {item : Item} {rest : List Item}
    (queued : Queued size ring (item :: rest)) :
    ∃ after, ring.pop size = .ok (some item, after) ∧ Queued size after rest := by
  have tail := queued.tail
  have room := queued.room
  rw [List.length_cons] at room
  have filled : ring.head ≠ ring.tail := by
    intro met
    cases queued.empty_iff.mp met
  have checked := (index_ok size ring.tail ()).mpr tail
  have oldest := queued.each 0 (by simp)
  rw [Nat.add_zero, Nat.mod_eq_of_lt tail, List.getElem?_cons_zero, Option.some.injEq] at oldest
  have popped : ring.pop size = .ok (some item,
      ⟨ring.cells, ring.head, (ring.tail + 1) % size⟩) := by
    simp only [RingBuffer.pop, if_neg filled, checked, ok_bind, pure_ok, ← oldest]
  refine ⟨_, popped, Nat.mod_lt _ (Nat.zero_lt_of_lt tail), by omega, ?_, ?_⟩
  · simp only
    rw [queued.head, Nat.mod_add_mod, List.length_cons]
    congr 1
    omega
  · intro i inside
    have next := queued.each (i + 1) (by simpa using inside)
    rw [List.getElem?_cons_succ] at next
    simp only
    rw [next, Nat.mod_add_mod]
    congr 3
    omega

def Relays (size : Nat) (ring : RingBuffer Item) (accepted read : List Item) : Prop :=
  ∃ unread, Queued size ring unread ∧ accepted = read ++ unread

theorem Relays.fresh (cells : Nat → Item) (positive : 0 < size) :
    Relays size ⟨cells, 0, 0⟩ [] [] :=
  ⟨[], ⟨positive, positive, by simp, nofun⟩, rfl⟩

section Traffic
variable {ring : RingBuffer Item} {accepted read : List Item} (relays : Relays size ring accepted read)
include relays

theorem Relays.unread_lt : accepted.length - read.length < size := by
  obtain ⟨unread, queued, rfl⟩ := relays
  rw [List.length_append, Nat.add_sub_cancel_left]
  exact queued.room

/-- A push is dropped exactly if one cell is left. -/
theorem Relays.push (item : Item) :
    ∃ after, ring.push size item = .ok after ∧
      (after = ring ↔ accepted.length - read.length + 1 = size) ∧
      (after.head = ring.head ↔ after = ring) ∧
      Relays size after (if after.head = ring.head then accepted else accepted ++ [item]) read := by
  obtain ⟨unread, queued, rfl⟩ := relays
  have room := queued.room
  have count : (read ++ unread).length - read.length = unread.length := by simp
  rw [count]
  by_cases full : unread.length + 1 = size
  · exact ⟨ring, queued.push_full item full, ⟨fun _ => full, fun _ => rfl⟩, by simp,
      by simpa using ⟨unread, queued, rfl⟩⟩
  · obtain ⟨after, pushed, moved, more⟩ := queued.push_room item (by omega)
    have changed : after ≠ ring := fun same => moved (congrArg RingBuffer.head same)
    refine ⟨after, pushed, by simp [changed, full], by simp [changed, moved], ?_⟩
    rw [if_neg moved]
    exact ⟨_, more, List.append_assoc _ _ _⟩

theorem Relays.pop :
    ∃ item after, ring.pop size = .ok (item, after) ∧
      item = accepted[read.length]? ∧
      (item = none ↔ accepted.length - read.length = 0) ∧
      Relays size after accepted (read ++ item.toList) := by
  obtain ⟨unread, queued, rfl⟩ := relays
  cases unread with
  | nil =>
      exact ⟨none, ring, queued.pop_empty, by simp, by simp, ⟨[], queued, by simp⟩⟩
  | cons item rest =>
      obtain ⟨after, popped, fewer⟩ := queued.pop_first
      exact ⟨some item, after, popped, by simp, by simp, ⟨rest, fewer, by simp⟩⟩

end Traffic

end Shizuku.RingQueue
