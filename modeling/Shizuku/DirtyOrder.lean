import Shizuku.DirtyRegion

/-!
The order in which rectangles reach `add`. A union can swallow rectangles that were
apart before, so different orders join different pairs. While the array has room for all
of them the result is the same: the least boxes that are apart and contain the clipped
rectangles.
-/

namespace Shizuku.Gui

open Absorption

structure Contains (a b : Rect) : Prop where
  left : a.x ≤ b.x
  top : a.y ≤ b.y
  right : b.right ≤ a.right
  bottom : b.bottom ≤ a.bottom

theorem Contains.trans {a b c : Rect} (one : Contains a b) (two : Contains b c) : Contains a c where
  left := one.left.trans two.left
  top := one.top.trans two.top
  right := two.right.trans one.right
  bottom := two.bottom.trans one.bottom

theorem union_contains_left (a b : Rect) : Contains (union a b) a where
  left := min_le_left _ _
  top := min_le_left _ _
  right := by
    rw [union_right]
    exact le_max_left _ _
  bottom := by
    rw [union_bottom]
    exact le_max_left _ _

theorem union_contains_right (a b : Rect) : Contains (union a b) b where
  left := min_le_right _ _
  top := min_le_right _ _
  right := by
    rw [union_right]
    exact le_max_right _ _
  bottom := by
    rw [union_bottom]
    exact le_max_right _ _

theorem Contains.union {a b big : Rect} (one : Contains big a) (two : Contains big b) :
    Contains big (Gui.union a b) where
  left := le_min one.left two.left
  top := le_min one.top two.top
  right := by
    rw [union_right]
    exact max_le one.right two.right
  bottom := by
    rw [union_bottom]
    exact max_le one.bottom two.bottom

theorem Contains.touching {a b big large : Rect} (one : Contains big a) (two : Contains large b)
    (touch : Gui.touching a b = true) : Gui.touching big large = true := by
  unfold Gui.touching at *
  rw [decide_eq_true_iff] at *
  obtain ⟨left, top, right, bottom⟩ := one
  obtain ⟨left', top', right', bottom'⟩ := two
  omega

section Bounds
variable {bw bh : Int} (wide : bw < 2 ^ 31) (tall : bh < 2 ^ 31)

include wide tall in
theorem InBounds.ends {r : Rect} (inside : InBounds bw bh r) :
    r.right = r.x + r.w ∧ r.bottom = r.y + r.h :=
  ⟨inside.1.last wide, inside.2.last tall⟩

include wide tall in
theorem union_least : LeastJoins touching union (InBounds bw bh) Contains where
  joins := {
    sound := fun _ _ one two => ⟨normal_union wide one.1 two.1, normal_union tall one.2 two.2⟩
    left := fun a b _ _ _ held => (union_contains_left a b).trans held
    right := fun a b _ _ _ held => (union_contains_right a b).trans held }
  refl := fun _ => ⟨le_refl _, le_refl _, le_refl _, le_refl _⟩
  trans := fun one two => one.trans two
  antisymm := by
    intro a b inA inB one two
    obtain ⟨right, bottom⟩ := inA.ends wide tall
    obtain ⟨right', bottom'⟩ := inB.ends wide tall
    obtain ⟨left, top, across, down⟩ := one
    obtain ⟨left', top', across', down'⟩ := two
    cases a
    cases b
    simp only [Rect.mk.injEq] at *
    omega
  least := fun one two => one.union two
  grows := fun one two touch => one.touching two touch
  self := by
    intro r inside
    obtain ⟨right, bottom⟩ := inside.ends wide tall
    obtain ⟨⟨_, across, _⟩, _, down, _⟩ := inside
    unfold touching
    rw [decide_eq_true_iff, right, bottom]
    omega
  symmetric := touching_comm

end Bounds

/-- No sum or difference on the way leaves `i32`. -/
structure Unwrapped (bw bh : Int) (r : Rect) : Prop extends Plain r where
  across : -2 ^ 31 ≤ min (r.x + r.w) bw - max r.x 0
  down : -2 ^ 31 ≤ min (r.y + r.h) bh - max r.y 0

theorem Plain.unwrapped {bw bh : Int} (sized : Sized bw bh) {r : Rect} (plain : Plain r) :
    Unwrapped bw bh r := by
  have across := plain.right
  have down := plain.bottom
  have w := plain.w
  have h := plain.h
  have x := plain.x
  have y := plain.y
  have width := sized.width
  have height := sized.height
  exact ⟨plain, by omega, by omega⟩

theorem normal_unwrapped {bound start len : Int}
    (sum : -2 ^ 31 ≤ start + len ∧ start + len < 2 ^ 31)
    (span : -2 ^ 31 ≤ min (start + len) bound - max start 0)
    (kept : 0 < i32 (min (i32 (start + len)) bound - max start 0)) :
    Normal bound (max start 0) (i32 (min (i32 (start + len)) bound - max start 0)) := by
  rw [i32_eq sum.1 sum.2] at kept ⊢
  rw [i32_eq span (by omega)] at kept ⊢
  unfold Normal
  omega

theorem Unwrapped.clip_inBounds {bw bh : Int} {r c : Rect}
    (unwrapped : Unwrapped bw bh r) (clipped : (DirtyRegion.init bw bh).clip r = some c) :
    InBounds bw bh c := by
  -- Negative bounds let nothing through.
  obtain ⟨x, y, w, h, across, down⟩ := clip_some clipped
  rw [w] at across
  rw [h] at down
  unfold InBounds
  rw [x, y, w, h]
  exact ⟨normal_unwrapped unwrapped.right unwrapped.across across,
    normal_unwrapped unwrapped.bottom unwrapped.down down⟩

theorem run_gathers (bw bh : Int) (added : List Rect) :
    added.foldl DirtyRegion.add (.init bw bh) =
      ⟨gatherAll touching union dirtyMaxRects (added.filterMap (DirtyRegion.init bw bh).clip),
        bw, bh⟩ := by
  induction added using List.reverseRecOn with
  | nil => rfl
  | append_singleton added r ih =>
      rw [List.foldl_append, ih, List.filterMap_append]
      generalize added.filterMap (DirtyRegion.init bw bh).clip = clips
      generalize before : gatherAll touching union dirtyMaxRects clips = live
      -- The bounds never change, so every rectangle is clipped as the first one is.
      have same : DirtyRegion.clip ⟨live, bw, bh⟩ r = (DirtyRegion.init bw bh).clip r := rfl
      cases clipped : (DirtyRegion.init bw bh).clip r with
      | none => simp [DirtyRegion.add, same, clipped, before]
      | some c =>
          have joined : gatherAll touching union dirtyMaxRects (clips ++ [c]) =
              gather touching union dirtyMaxRects live c := by
            rw [← before, gatherAll, gatherAll, List.foldl_append]
            rfl
          simp [DirtyRegion.add, same, clipped, joined]

/-- For any bounds and at most sixteen rectangles, every order leaves the same live ones. -/
theorem add_any_order (bw bh : Int) (width : -2 ^ 31 ≤ bw ∧ bw < 2 ^ 31)
    (height : -2 ^ 31 ≤ bh ∧ bh < 2 ^ 31) (one two : List Rect) (same : one.Perm two)
    (few : one.length ≤ dirtyMaxRects) (unwrapped : ∀ r ∈ one, Unwrapped bw bh r) :
    (one.foldl DirtyRegion.add (.init bw bh)).r.Perm
      (two.foldl DirtyRegion.add (.init bw bh)).r := by
  rw [run_gathers, run_gathers]
  apply gatherAll_perm (union_least width.2 height.2) dirtyMaxRects
  · exact same.filterMap _
  · exact (List.length_filterMap_le _ _).trans few
  · intro c member
    obtain ⟨r, added, clipped⟩ := List.mem_filterMap.mp member
    exact (unwrapped r added).clip_inBounds clipped

/-- The bridge comes last or in the middle; the order within the array differs. -/
theorem add_any_order_bridge :
    ([⟨0, 0, 10, 10⟩, ⟨60, 60, 5, 5⟩, ⟨20, 20, 10, 10⟩, ⟨5, 5, 20, 20⟩].foldl DirtyRegion.add
      (.init 100 100)).r.Perm
    ([⟨20, 20, 10, 10⟩, ⟨5, 5, 20, 20⟩, ⟨0, 0, 10, 10⟩, ⟨60, 60, 5, 5⟩].foldl DirtyRegion.add
      (.init 100 100)).r := by
  apply add_any_order 100 100 (by decide) (by decide) _ _ (by decide) (by decide)
  have sized : Sized 100 100 := by constructor <;> decide
  simp only [List.mem_cons, List.not_mem_nil, or_false, forall_eq_or_imp, forall_eq]
  refine ⟨?_, ?_, ?_, ?_⟩ <;> apply Plain.unwrapped sized <;> constructor <;> decide

end Shizuku.Gui
