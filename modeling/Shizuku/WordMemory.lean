import Shizuku.ByteMemory

/-!
Little-endian machine words in a byte memory. Words are naturals; a store keeps
the low 64 bits. Whole-word loads and stores at disjoint places commute, and a
load sees the last store to its place, zeroed memory or copied memory.
-/

namespace Shizuku.WordMemory

open ByteMemory

def ofBytes : List UInt8 → Nat
  | [] => 0
  | byte :: rest => byte.toNat + 256 * ofBytes rest

def toBytes : Nat → Nat → List UInt8
  | 0, _ => []
  | count + 1, value => UInt8.ofNat value :: toBytes count (value / 256)

def read64 (mem : Nat → UInt8) (addr : Nat) : Nat := ofBytes (slice mem addr 8)

def write64 (mem : Nat → UInt8) (addr value : Nat) : Nat → UInt8 :=
  blit mem addr (toBytes 8 value)

@[simp] theorem toBytes_length (count value : Nat) : (toBytes count value).length = count := by
  induction count generalizing value with
  | zero => rfl
  | succ count ih => simp [toBytes, ih]

theorem ofBytes_toBytes (count value : Nat) :
    ofBytes (toBytes count value) = value % 256 ^ count := by
  induction count generalizing value with
  | zero => simp [toBytes, ofBytes, Nat.mod_one]
  | succ count ih =>
      simp only [toBytes, ofBytes, ih]
      have low : (UInt8.ofNat value).toNat = value % 256 := by simp
      rw [low, Nat.pow_succ, Nat.mul_comm (256 ^ count) 256, Nat.mod_mul]

theorem read64_congr (before after : Nat → UInt8) (addr : Nat)
    (agree : ∀ place, addr ≤ place → place < addr + 8 → after place = before place) :
    read64 after addr = read64 before addr := by
  rw [read64, read64, slice_congr before after addr 8 agree]

theorem read64_write64 (mem : Nat → UInt8) (addr value : Nat) :
    read64 (write64 mem addr value) addr = value % 2 ^ 64 := by
  have whole := slice_blit_all mem addr (toBytes 8 value)
  rw [toBytes_length] at whole
  rw [read64, write64, whole, ofBytes_toBytes]
  norm_num

theorem write64_outside (mem : Nat → UInt8) (addr value place : Nat)
    (outside : place < addr ∨ addr + 8 ≤ place) : write64 mem addr value place = mem place := by
  apply blit_outside
  rwa [toBytes_length]

theorem read64_write64_apart (mem : Nat → UInt8) (addr other value : Nat)
    (apart : other + 8 ≤ addr ∨ addr + 8 ≤ other) :
    read64 (write64 mem addr value) other = read64 mem other := by
  apply read64_congr
  intro place low high
  exact write64_outside mem addr value place (by omega)

theorem read64_zeroed (mem : Nat → UInt8) (addr : Nat)
    (zeroed : ∀ place, addr ≤ place → place < addr + 8 → mem place = 0) : read64 mem addr = 0 := by
  have zeros : slice mem addr 8 = List.replicate 8 0 := by
    apply List.eq_replicate_iff.mpr
    refine ⟨slice_length _ _ _, fun byte member => ?_⟩
    obtain ⟨index, inside, same⟩ := List.mem_map.mp member
    have bound := List.mem_range.mp inside
    rw [← same]
    exact zeroed (addr + index) (by omega) (by omega)
  rw [read64, zeros]
  rfl

/-- A load from a block that was copied from elsewhere. -/
theorem read64_copied (mem : Nat → UInt8) (source target len offset : Nat)
    (inside : offset + 8 ≤ len) :
    read64 (blit mem target (slice mem source len)) (target + offset) =
      read64 mem (source + offset) := by
  have whole := slice_blit_all mem target (slice mem source len)
  rw [slice_length] at whole
  have left := slice_drop_take (blit mem target (slice mem source len)) target len offset 8 inside
  have right := slice_drop_take mem source len offset 8 inside
  rw [whole] at left
  rw [read64, read64, ← left, right]

theorem words_drop_take (words : List Nat) (index word : Nat) (here : words[index]? = some word) :
    ((words.flatMap (toBytes 8)).drop (8 * index)).take 8 = toBytes 8 word := by
  induction words generalizing index with
  | nil => cases here
  | cons first rest ih =>
      rw [List.flatMap_cons]
      cases index with
      | zero =>
          rw [List.getElem?_cons_zero, Option.some.injEq] at here
          subst word
          exact List.take_left' (toBytes_length 8 first)
      | succ index =>
          rw [List.getElem?_cons_succ] at here
          rw [Nat.mul_succ, Nat.add_comm, ← List.drop_drop, List.drop_left' (toBytes_length 8 first)]
          exact ih index here

theorem read64_words (mem : Nat → UInt8) (base : Nat) (words : List Nat) (index word : Nat)
    (stored : slice mem base (8 * words.length) = words.flatMap (toBytes 8))
    (here : words[index]? = some word) : read64 mem (base + 8 * index) = word % 2 ^ 64 := by
  have bound := (List.getElem?_eq_some_iff.mp here).1
  rw [read64, ← slice_drop_take mem base (8 * words.length) (8 * index) 8 (by omega), stored,
    words_drop_take words index word here, ofBytes_toBytes]
  norm_num

end Shizuku.WordMemory
