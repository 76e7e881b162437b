import Mathlib.Data.BitVec
import Mathlib.Data.Finset.Card
import Mathlib.Tactic

/-!
Sets of naturals packed into machine words. Membership is one bit of one word;
inserting and erasing touch that bit only, a word and its trailing zeros give
the least member, and the number of members moves by one with each change.
-/

namespace Shizuku.PackedBits

variable {width : Nat}

def test (words : Nat → BitVec width) (item : Nat) : Bool :=
  (words (item / width)).getLsbD (item % width)

def insert (words : Nat → BitVec width) (item : Nat) : Nat → BitVec width :=
  fun key => if key = item / width then words key ||| BitVec.twoPow width (item % width)
    else words key

def erase (words : Nat → BitVec width) (item : Nat) : Nat → BitVec width :=
  fun key => if key = item / width then words key &&& ~~~BitVec.twoPow width (item % width)
    else words key

theorem same_place (width item other : Nat) :
    other = item ↔ other / width = item / width ∧ other % width = item % width := by
  constructor
  · rintro rfl
    exact ⟨rfl, rfl⟩
  · rintro ⟨words, bits⟩
    rw [← Nat.div_add_mod other width, ← Nat.div_add_mod item width, words, bits]

theorem test_insert (positive : 0 < width) (words : Nat → BitVec width) (item other : Nat) :
    test (insert words item) other = (decide (other = item) || test words other) := by
  have bound := Nat.mod_lt other positive
  simp only [test, insert, same_place width item other]
  by_cases word : other / width = item / width
  · by_cases bit : other % width = item % width
    · rw [bit] at bound
      simp [word, bit, bound]
    · have different : ¬ item % width = other % width := fun same => bit same.symm
      simp [word, bit, different]
  · simp [word]

theorem test_erase (positive : 0 < width) (words : Nat → BitVec width) (item other : Nat) :
    test (erase words item) other = (!decide (other = item) && test words other) := by
  have bound := Nat.mod_lt other positive
  simp only [test, erase, same_place width item other]
  by_cases word : other / width = item / width
  · by_cases bit : other % width = item % width
    · rw [bit] at bound
      simp [word, bit, bound]
    · simp [word, bit, bound]
  · simp [word]

theorem place_split (key bit : Nat) (inside : bit < width) :
    (key * width + bit) / width = key ∧ (key * width + bit) % width = bit := by
  rw [Nat.mul_comm, Nat.mul_add_div (by omega), Nat.mul_add_mod, Nat.div_eq_of_lt inside,
    Nat.mod_eq_of_lt inside]
  exact ⟨rfl, rfl⟩

/-- The first nonzero word and its trailing zeros point at the least member. -/
theorem least_member (positive : 0 < width) (words : Nat → BitVec width) (key : Nat)
    (nonzero : words key ≠ 0) (earlier : ∀ before, before < key → words before = 0) :
    (words key).ctz.toNat < width ∧
      test words (key * width + (words key).ctz.toNat) = true ∧
      ∀ item, item < key * width + (words key).ctz.toNat → test words item = false := by
  have bit := BitVec.getLsbD_true_ctz_of_ne_zero nonzero
  have inside : (words key).ctz.toNat < width := BitVec.lt_of_getLsbD bit
  obtain ⟨high, low⟩ := place_split key _ inside
  refine ⟨inside, by rw [test, high, low, bit], fun item smaller => ?_⟩
  rcases Nat.lt_or_ge (item / width) key with before | after
  · rw [test, earlier _ before]
    simp
  · have sameWord : item / width = key := by
      have split := Nat.div_add_mod item width
      have rem := Nat.mod_lt item positive
      by_contra different
      have beyond : key + 1 ≤ item / width := by omega
      have product := Nat.mul_le_mul_left width beyond
      rw [Nat.mul_add, Nat.mul_one, Nat.mul_comm width key] at product
      omega
    have smallBit : item % width < (words key).ctz.toNat := by
      have split := Nat.div_add_mod item width
      rw [sameWord, Nat.mul_comm] at split
      omega
    rw [test, sameWord]
    exact BitVec.getLsbD_false_of_lt_ctz smallBit

/-! Counting the members below a bound. -/

def members (words : Nat → BitVec width) (bound : Nat) : Finset Nat :=
  (Finset.range bound).filter fun item => test words item = true

theorem mem_members (words : Nat → BitVec width) (bound item : Nat) :
    item ∈ members words bound ↔ item < bound ∧ test words item = true := by
  simp [members]

theorem members_insert (positive : 0 < width) (words : Nat → BitVec width) (bound item : Nat)
    (inside : item < bound) : members (insert words item) bound =
      Insert.insert item (members words bound) := by
  ext other
  simp only [mem_members, Finset.mem_insert, test_insert positive, Bool.or_eq_true,
    decide_eq_true_eq]
  constructor
  · rintro ⟨low, same | old⟩
    · exact .inl same
    · exact .inr ⟨low, old⟩
  · rintro (rfl | ⟨low, old⟩)
    · exact ⟨inside, .inl rfl⟩
    · exact ⟨low, .inr old⟩

theorem members_erase (positive : 0 < width) (words : Nat → BitVec width) (bound item : Nat) :
    members (erase words item) bound = (members words bound).erase item := by
  ext other
  simp only [mem_members, Finset.mem_erase, test_erase positive, Bool.and_eq_true,
    Bool.not_eq_true', decide_eq_false_iff_not]
  tauto

theorem card_insert (positive : 0 < width) (words : Nat → BitVec width) (bound item : Nat)
    (inside : item < bound) (absent : test words item = false) :
    (members (insert words item) bound).card = (members words bound).card + 1 := by
  rw [members_insert positive words bound item inside]
  exact Finset.card_insert_of_notMem (by simp [mem_members, absent])

theorem card_erase (positive : 0 < width) (words : Nat → BitVec width) (bound item : Nat)
    (inside : item < bound) (present : test words item = true) :
    (members (erase words item) bound).card + 1 = (members words bound).card := by
  rw [members_erase positive words bound item]
  exact Finset.card_erase_add_one ((mem_members words bound item).mpr ⟨inside, present⟩)

end Shizuku.PackedBits
