import Mathlib.Data.List.Basic
import Mathlib.Tactic

/-!
Keeping a list of pieces apart. A new piece is joined with the first one it touches,
which leaves the list by a swap with the last; then the scan starts again, since the
joined piece may touch pieces already passed over. When more than `limit` pieces
would remain, all of them are joined into one. As long as that does not happen, what is
left is the least list that is apart and contains the pieces, so their order is
irrelevant.
-/

namespace Shizuku.Absorption

variable {Piece Point : Type}

def swapRemove (pieces : List Piece) (place : Nat) : List Piece :=
  match pieces.getLast? with
  | none => []
  | some last => (pieces.set place last).dropLast

/-- `rounds` bounds the number of joins. -/
def absorb (touches : Piece → Piece → Bool) (join : Piece → Piece → Piece) :
    Nat → List Piece → Piece → List Piece × Piece
  | 0, pieces, piece => (pieces, piece)
  | rounds + 1, pieces, piece =>
      match pieces.findIdx? (touches · piece) with
      | none => (pieces, piece)
      | some place =>
          match pieces[place]? with
          | none => (pieces, piece)
          | some hit => absorb touches join rounds (swapRemove pieces place) (join hit piece)

def gather (touches : Piece → Piece → Bool) (join : Piece → Piece → Piece) (limit : Nat)
    (pieces : List Piece) (piece : Piece) : List Piece :=
  match absorb touches join pieces.length pieces piece with
  | (rest, merged) =>
      if rest.length < limit then rest ++ [merged]
      else [rest.foldl (fun all next => join next all) merged]

theorem swapRemove_perm (pieces : List Piece) (place : Nat) (hit : Piece)
    (found : pieces[place]? = some hit) : (hit :: swapRemove pieces place).Perm pieces := by
  rcases pieces.eq_nil_or_concat with rfl | ⟨front, last, rfl⟩
  · cases found
  · rw [List.concat_eq_append] at found ⊢
    have bound := (List.getElem?_eq_some_iff.mp found).1
    rw [List.length_append, List.length_singleton] at bound
    have removed : swapRemove (front ++ [last]) place =
        ((front ++ [last]).set place last).dropLast := by
      simp [swapRemove]
    have back : (last :: front).Perm (front ++ [last]) := (List.perm_append_singleton last front).symm
    rw [removed]
    by_cases inside : place < front.length
    · rw [List.getElem?_append_left inside, List.getElem?_eq_getElem inside,
        Option.some.injEq] at found
      rw [List.set_append_left _ _ inside, List.dropLast_concat, ← found]
      -- The last piece takes the place of the hit.
      have moved := (List.set_perm_cons_eraseIdx inside last).cons front[place]
      have whole := (List.getElem_cons_eraseIdx_perm inside).cons last
      exact ((moved.trans (.swap _ _ _)).trans whole).trans back
    · have atEnd : place = front.length := by omega
      subst place
      rw [List.getElem?_concat_length, Option.some.injEq] at found
      rw [List.set_append_right _ _ (Nat.le_refl _), Nat.sub_self, List.set_cons_zero,
        List.dropLast_concat, ← found]
      exact back

section Merging
variable {touches : Piece → Piece → Bool} {join : Piece → Piece → Piece}
  {Sound : Piece → Prop} {holds : Piece → Point → Prop}

def Covered (holds : Piece → Point → Prop) (pieces : List Piece) (point : Point) : Prop :=
  ∃ piece ∈ pieces, holds piece point

theorem covered_cons (piece : Piece) (pieces : List Piece) (point : Point) :
    Covered holds (piece :: pieces) point ↔ holds piece point ∨ Covered holds pieces point := by
  simp [Covered]

theorem covered_perm {one two : List Piece} (same : one.Perm two) (point : Point) :
    Covered holds one point ↔ Covered holds two point := by
  simp only [Covered, same.mem_iff]

/-- What the joined piece must keep, for pieces that are sound. -/
structure Joins (join : Piece → Piece → Piece) (Sound : Piece → Prop)
    (holds : Piece → Point → Prop) : Prop where
  sound : ∀ one two, Sound one → Sound two → Sound (join one two)
  left : ∀ one two point, Sound one → Sound two → holds one point → holds (join one two) point
  right : ∀ one two point, Sound one → Sound two → holds two point → holds (join one two) point

structure Absorbed (touches : Piece → Piece → Bool) (Sound : Piece → Prop)
    (holds : Piece → Point → Prop) (pieces : List Piece) (piece : Piece)
    (result : List Piece × Piece) : Prop where
  sub : result.1.Subperm pieces
  sound : Sound result.2
  apart : ∀ other ∈ result.1, touches other result.2 = false
  covers : ∀ point, holds piece point ∨ Covered holds pieces point →
    holds result.2 point ∨ Covered holds result.1 point

theorem absorb_absorbed (joins : Joins join Sound holds) (rounds : Nat) (pieces : List Piece)
    (piece : Piece) (enough : pieces.length ≤ rounds) (all : ∀ other ∈ pieces, Sound other)
    (one : Sound piece) :
    Absorbed touches Sound holds pieces piece (absorb touches join rounds pieces piece) := by
  induction rounds generalizing pieces piece with
  | zero =>
      have none_ : pieces = [] := List.length_eq_zero_iff.mp (Nat.le_zero.mp enough)
      subst none_
      exact ⟨.refl _, one, by simp [absorb], fun _ known => known⟩
  | succ rounds ih =>
      unfold absorb
      cases found : pieces.findIdx? (touches · piece) with
      | none =>
          refine ⟨.refl _, one, ?_, fun _ known => known⟩
          intro other member
          simpa using List.findIdx?_eq_none_iff.mp found other member
      | some place =>
          have bound := (List.findIdx?_eq_some_iff_findIdx_eq.mp found).1
          simp only [List.getElem?_eq_getElem bound]
          have perm := swapRemove_perm pieces place _ (List.getElem?_eq_getElem bound)
          have hit : Sound pieces[place] := all _ (List.getElem_mem bound)
          have shorter : (swapRemove pieces place).length ≤ rounds := by
            have lengths := perm.length_eq
            rw [List.length_cons] at lengths
            omega
          have later := ih (swapRemove pieces place) (join pieces[place] piece) shorter
            (fun other member => all other (perm.subset (List.mem_cons_of_mem _ member)))
            (joins.sound _ _ hit one)
          refine ⟨later.sub.trans ?_, later.sound, later.apart, fun point known => ?_⟩
          · exact ((List.sublist_cons_self _ _).subperm).trans perm.subperm
          · apply later.covers
            rw [← covered_perm perm, covered_cons] at known
            rcases known with own | taken | other
            · exact .inl (joins.right _ _ _ hit one own)
            · exact .inl (joins.left _ _ _ hit one taken)
            · exact .inr other

theorem joinAll_covers (joins : Joins join Sound holds) (pieces : List Piece) (piece : Piece)
    (all : ∀ other ∈ pieces, Sound other) (one : Sound piece) :
    Sound (pieces.foldl (fun all next => join next all) piece) ∧
      ∀ point, holds piece point ∨ Covered holds pieces point →
        holds (pieces.foldl (fun all next => join next all) piece) point := by
  induction pieces generalizing piece with
  | nil =>
      refine ⟨one, fun point known => known.resolve_right ?_⟩
      rintro ⟨_, member, _⟩
      cases member
  | cons next rest ih =>
      have first := all next List.mem_cons_self
      obtain ⟨sound, covers⟩ := ih (join next piece)
        (fun other member => all other (List.mem_cons_of_mem _ member))
        (joins.sound _ _ first one)
      refine ⟨sound, fun point known => covers point ?_⟩
      rw [covered_cons] at known
      rcases known with own | taken | other
      · exact .inl (joins.right _ _ _ first one own)
      · exact .inl (joins.left _ _ _ first one taken)
      · exact .inr other

theorem gather_covers (joins : Joins join Sound holds) (limit : Nat) (pieces : List Piece)
    (piece : Piece) (all : ∀ other ∈ pieces, Sound other) (one : Sound piece) (point : Point)
    (known : holds piece point ∨ Covered holds pieces point) :
    Covered holds (gather touches join limit pieces piece) point := by
  have absorbed : Absorbed touches Sound holds pieces piece
      (absorb touches join pieces.length pieces piece) :=
    absorb_absorbed joins pieces.length pieces piece (Nat.le_refl _) all one
  unfold gather
  generalize absorb touches join pieces.length pieces piece = result at absorbed
  obtain ⟨rest, merged⟩ := result
  simp only
  split
  · rw [covered_perm (List.perm_append_singleton merged rest), covered_cons]
    exact absorbed.covers point known
  · obtain ⟨_, covers⟩ := joinAll_covers joins rest merged
      (fun other member => all other (absorbed.sub.subset member)) absorbed.sound
    exact ⟨_, List.mem_singleton_self _, covers point (absorbed.covers point known)⟩

structure Gathered (touches : Piece → Piece → Bool) (Sound : Piece → Prop) (limit : Nat)
    (pieces : List Piece) : Prop where
  bounded : pieces.length ≤ limit
  sound : ∀ piece ∈ pieces, Sound piece
  apart : pieces.Pairwise fun one two => touches one two = false

theorem Gathered.nil (limit : Nat) : Gathered touches Sound limit [] where
  bounded := Nat.zero_le limit
  sound := by simp
  apart := .nil

theorem gather_gathered (joins : Joins join Sound holds)
    (symmetric : ∀ one two, touches one two = touches two one) (limit : Nat)
    (positive : 0 < limit) (pieces : List Piece) (piece : Piece)
    (before : Gathered touches Sound limit pieces) (one : Sound piece) :
    Gathered touches Sound limit (gather touches join limit pieces piece) := by
  have absorbed : Absorbed touches Sound holds pieces piece
      (absorb touches join pieces.length pieces piece) :=
    absorb_absorbed joins pieces.length pieces piece (Nat.le_refl _) before.sound one
  unfold gather
  generalize absorb touches join pieces.length pieces piece = result at absorbed
  obtain ⟨rest, merged⟩ := result
  have kept : ∀ other ∈ rest, Sound other := fun other member =>
    before.sound other (absorbed.sub.subset member)
  simp only
  split
  · rename_i room
    refine ⟨?_, ?_, ?_⟩
    · rw [List.length_append, List.length_singleton]
      exact room
    · intro other member
      rcases List.mem_append.mp member with old | new
      · exact kept other old
      · exact List.mem_singleton.mp new ▸ absorbed.sound
    · obtain ⟨same, perm, sub⟩ := absorbed.sub
      have left := (before.apart.sublist sub).perm perm fun away => (symmetric _ _).trans away
      refine List.pairwise_append.mpr ⟨left, List.pairwise_singleton _ _, ?_⟩
      intro other member new same
      exact List.mem_singleton.mp same ▸ absorbed.apart other member
  · obtain ⟨sound, _⟩ := joinAll_covers joins rest merged kept absorbed.sound
    refine ⟨positive, ?_, List.pairwise_singleton _ _⟩
    intro other member
    exact List.mem_singleton.mp member ▸ sound

end Merging

/-! ### Any order -/

section Order
variable {touches : Piece → Piece → Bool} {join : Piece → Piece → Piece}
  {Sound : Piece → Prop} {contains : Piece → Piece → Prop}

/-- The joined piece is the least that contains both, and a larger piece touches what a
smaller one does. -/
structure LeastJoins (touches : Piece → Piece → Bool) (join : Piece → Piece → Piece)
    (Sound : Piece → Prop) (contains : Piece → Piece → Prop) : Prop where
  joins : Joins join Sound contains
  refl : ∀ piece, contains piece piece
  trans : ∀ {one two three}, contains one two → contains two three → contains one three
  antisymm : ∀ {one two}, Sound one → Sound two → contains one two → contains two one → one = two
  least : ∀ {one two big}, contains big one → contains big two → contains big (join one two)
  grows : ∀ {one two big large}, contains big one → contains large two →
    touches one two = true → touches big large = true
  self : ∀ {piece}, Sound piece → touches piece piece = true
  symmetric : ∀ one two, touches one two = touches two one

def Apart (touches : Piece → Piece → Bool) (pieces : List Piece) : Prop :=
  pieces.Pairwise fun one two => touches one two = false

theorem Apart.eq_of_touches (symmetric : ∀ one two, touches one two = touches two one)
    {pieces : List Piece} (apart : Apart touches pieces) {one two : Piece} (first : one ∈ pieces)
    (second : two ∈ pieces) (touch : touches one two = true) : one = two := by
  have both : Std.Symm fun one two => touches one two = false :=
    ⟨fun _ _ away => (symmetric _ _).trans away⟩
  by_contra different
  have away := apart.forall first second different
  rw [touch] at away
  cases away

theorem absorb_within (least : LeastJoins touches join Sound contains) {family : List Piece}
    (apart : Apart touches family) (rounds : Nat) (pieces : List Piece) (piece : Piece)
    (all : ∀ other ∈ pieces, Covered contains family other) (one : Covered contains family piece) :
    Covered contains family (absorb touches join rounds pieces piece).2 := by
  -- Two touching pieces are in one member of a list that is apart, so their join is.
  induction rounds generalizing pieces piece with
  | zero => exact one
  | succ rounds ih =>
      unfold absorb
      cases found : pieces.findIdx? (touches · piece) with
      | none => exact one
      | some place =>
          obtain ⟨bound, touch, _⟩ := List.findIdx?_eq_some_iff_getElem.mp found
          simp only [List.getElem?_eq_getElem bound]
          have perm := swapRemove_perm pieces place _ (List.getElem?_eq_getElem bound)
          apply ih
          · intro other member
            exact all other (perm.subset (List.mem_cons_of_mem _ member))
          · obtain ⟨big, inBig, hit⟩ := all _ (List.getElem_mem bound)
            obtain ⟨large, inLarge, own⟩ := one
            have same : big = large :=
              apart.eq_of_touches least.symmetric inBig inLarge (least.grows hit own touch)
            subst large
            exact ⟨big, inBig, least.least hit own⟩

/-- The live pieces after some have been added, as long as all of them fit. -/
structure Settled (touches : Piece → Piece → Bool) (Sound : Piece → Prop)
    (contains : Piece → Piece → Prop) (added live : List Piece) : Prop where
  short : live.length ≤ added.length
  sound : ∀ piece ∈ live, Sound piece
  apart : Apart touches live
  covers : ∀ piece ∈ added, Covered contains live piece
  least : ∀ family, Apart touches family → (∀ piece ∈ added, Covered contains family piece) →
    ∀ piece ∈ live, Covered contains family piece

theorem gather_room (touches : Piece → Piece → Bool) (join : Piece → Piece → Piece) (limit : Nat)
    (pieces : List Piece) (piece : Piece)
    (room : (absorb touches join pieces.length pieces piece).1.length < limit) :
    gather touches join limit pieces piece =
      (absorb touches join pieces.length pieces piece).1 ++
        [(absorb touches join pieces.length pieces piece).2] :=
  if_pos room

theorem gather_settled (least : LeastJoins touches join Sound contains) (limit : Nat)
    {added live : List Piece} {piece : Piece} (room : added.length < limit)
    (before : Settled touches Sound contains added live) (one : Sound piece) :
    Settled touches Sound contains (added ++ [piece]) (gather touches join limit live piece) := by
  have short := before.short
  have absorbed : Absorbed touches Sound contains live piece
      (absorb touches join live.length live piece) :=
    absorb_absorbed least.joins live.length live piece (Nat.le_refl _) before.sound one
  have fewer := absorbed.sub.length_le
  have gathered : Gathered touches Sound limit (gather touches join limit live piece) :=
    gather_gathered least.joins least.symmetric limit (by omega) live piece
      ⟨by omega, before.sound, before.apart⟩ one
  have shape := gather_room touches join limit live piece (by omega)
  refine ⟨?_, gathered.sound, gathered.apart, fun other member => ?_, ?_⟩
  · rw [shape, List.length_append, List.length_append, List.length_singleton, List.length_singleton]
    omega
  · apply gather_covers least.joins limit live piece before.sound one
    rcases List.mem_append.mp member with old | new
    · exact .inr (before.covers other old)
    · exact .inl (List.mem_singleton.mp new ▸ least.refl piece)
  · intro family apart known
    have all := before.least family apart fun other member =>
      known other (List.mem_append_left _ member)
    rw [shape]
    intro other member
    rcases List.mem_append.mp member with old | new
    · exact all other (absorbed.sub.subset old)
    · rw [List.mem_singleton.mp new]
      exact absorb_within least apart _ live piece all (known piece (by simp))

def gatherAll (touches : Piece → Piece → Bool) (join : Piece → Piece → Piece) (limit : Nat)
    (added : List Piece) : List Piece :=
  added.foldl (gather touches join limit) []

theorem gatherAll_settled (least : LeastJoins touches join Sound contains) (limit : Nat)
    (added : List Piece) (room : added.length ≤ limit) (sound : ∀ piece ∈ added, Sound piece) :
    Settled touches Sound contains added (gatherAll touches join limit added) := by
  induction added using List.reverseRecOn with
  | nil => exact ⟨Nat.le_refl _, nofun, .nil, nofun, fun _ _ _ => nofun⟩
  | append_singleton added piece ih =>
      rw [List.length_append, List.length_singleton] at room
      unfold gatherAll
      rw [List.foldl_append]
      apply gather_settled least limit room
      · exact ih (by omega) fun other member => sound other (List.mem_append_left _ member)
      · exact sound piece (by simp)

theorem Settled.subset (least : LeastJoins touches join Sound contains) {added one two : List Piece}
    (first : Settled touches Sound contains added one)
    (second : Settled touches Sound contains added two) : one ⊆ two := by
  -- A live piece is in a piece of the other list, which is in a live one: the same.
  intro piece member
  obtain ⟨big, inTwo, above⟩ := first.least two second.apart second.covers piece member
  obtain ⟨back, inOne, higher⟩ := second.least one first.apart first.covers big inTwo
  have sound := first.sound piece member
  have touch : touches piece back = true :=
    least.grows (least.refl piece) (least.trans higher above) (least.self sound)
  have same : piece = back := first.apart.eq_of_touches least.symmetric member inOne touch
  subst back
  rw [least.antisymm sound (second.sound big inTwo) higher above]
  exact inTwo

theorem Settled.nodup (least : LeastJoins touches join Sound contains) {added live : List Piece}
    (settled : Settled touches Sound contains added live) : live.Nodup := by
  apply settled.apart.imp_of_mem
  intro one two first _ away same
  subst two
  rw [least.self (settled.sound one first)] at away
  cases away

theorem Settled.perm {added other live : List Piece} (same : added.Perm other)
    (settled : Settled touches Sound contains added live) :
    Settled touches Sound contains other live where
  short := same.length_eq ▸ settled.short
  sound := settled.sound
  apart := settled.apart
  covers := fun piece member => settled.covers piece (same.mem_iff.mpr member)
  least := fun family apart known =>
    settled.least family apart fun piece member => known piece (same.mem_iff.mp member)

theorem gatherAll_perm (least : LeastJoins touches join Sound contains) (limit : Nat)
    {added other : List Piece} (same : added.Perm other) (room : added.length ≤ limit)
    (sound : ∀ piece ∈ added, Sound piece) :
    (gatherAll touches join limit added).Perm (gatherAll touches join limit other) := by
  have first := gatherAll_settled least limit added room sound
  have second := (gatherAll_settled least limit other (same.length_eq ▸ room) fun piece member =>
    sound piece (same.mem_iff.mpr member)).perm same.symm
  apply (List.perm_ext_iff_of_nodup (first.nodup least) (second.nodup least)).mpr
  exact fun piece => ⟨fun member => first.subset least second member,
    fun member => second.subset least first member⟩

end Order

end Shizuku.Absorption
