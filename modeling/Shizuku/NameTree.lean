import Mathlib.Data.List.Basic
import Shizuku.ParentForest

/-!
Trees given by the links of their nodes. Every listed node has a parent and a label, and
a node is found by the labels on the way down from the root. Adding a leaf, removing one
and giving a node a new place change what the lists of labels lead to at one list, or at
those that begin with it.
-/

namespace Shizuku.NameTree

open ParentForest

variable {Node Label Item : Type}

def descend (child : Node → Label → Option Node) (root : Node) (labels : List Label) :
    Option Node :=
  labels.foldl (fun node label => node.bind fun above => child above label) (some root)

def moved [DecidableEq Label] (old new : List Label) (tree : List Label → Option Item) :
    List Label → Option Item := fun labels =>
  if new <+: labels then tree (old ++ labels.drop new.length)
  else if old <+: labels then none
  else tree labels

/-- The child function looks the listed nodes up by parent and label. -/
structure Links (child : Node → Label → Option Node) (listed : Node → Prop)
    (parent : Node → Node) (label : Node → Label) (root : Node) : Prop where
  found : ∀ above name node,
    child above name = some node ↔ listed node ∧ parent node = above ∧ label node = name
  root : ¬ listed root

section Descents
variable {child : Node → Label → Option Node} {root : Node}

@[simp] theorem descend_nil : descend child root [] = some root := rfl

@[simp] theorem descend_snoc (front : List Label) (last : Label) :
    descend child root (front ++ [last]) =
      (descend child root front).bind fun above => child above last := by
  simp [descend]

theorem descend_of_steps (reach : List Label → Option Node) (start : reach [] = some root)
    (steps : ∀ front last, reach (front ++ [last]) =
      (reach front).bind fun above => child above last) : descend child root = reach := by
  funext labels
  induction labels using List.reverseRecOn with
  | nil => rw [start, descend_nil]
  | append_singleton front last ih => rw [descend_snoc, ih, steps]

theorem descend_beyond {labels : List Label} (lost : descend child root labels = none)
    (more : List Label) : descend child root (labels ++ more) = none := by
  induction more using List.reverseRecOn with
  | nil => rwa [List.append_nil]
  | append_singleton more last ih => rw [← List.append_assoc, descend_snoc, ih, Option.bind_none]

end Descents

section Moves
variable [DecidableEq Label] {old new : List Label} {tree : List Label → Option Item}

theorem moved_new (rest : List Label) : moved old new tree (new ++ rest) = tree (old ++ rest) := by
  simp [moved]

theorem moved_old {labels : List Label} (elsewhere : ¬ new <+: labels) (gone : old <+: labels) :
    moved old new tree labels = none := by
  simp [moved, elsewhere, gone]

theorem moved_other {labels : List Label} (elsewhere : ¬ new <+: labels) (apart : ¬ old <+: labels) :
    moved old new tree labels = tree labels := by
  simp [moved, elsewhere, apart]

theorem moved_map {Shown : Type} (show_ : Item → Shown) (labels : List Label) :
    moved old new (fun key => (tree key).map show_) labels =
      (moved old new tree labels).map show_ := by
  unfold moved
  split_ifs <;> rfl

end Moves

namespace Links

variable {child : Node → Label → Option Node} {listed : Node → Prop} {parent : Node → Node}
  {label : Node → Label} {root : Node} (links : Links child listed parent label root)
include links

theorem last {front : List Label} {name : Label} {node : Node}
    (reached : descend child root (front ++ [name]) = some node) :
    listed node ∧ descend child root front = some (parent node) ∧ label node = name := by
  rw [descend_snoc, Option.bind_eq_some_iff] at reached
  obtain ⟨above, arrived, taken⟩ := reached
  obtain ⟨member, up, named⟩ := (links.found above name node).mp taken
  exact ⟨member, up ▸ arrived, named⟩

theorem distinct {one two : List Label} {node : Node}
    (first : descend child root one = some node) (second : descend child root two = some node) :
    one = two := by
  induction one using List.reverseRecOn generalizing two node with
  | nil =>
      cases two using List.reverseRecOn with
      | nil => rfl
      | append_singleton front name =>
          rw [descend_nil, Option.some.injEq] at first
          exact absurd (first ▸ (links.last second).1) links.root
  | append_singleton one nameOne ih =>
      obtain ⟨member, upOne, labelOne⟩ := links.last first
      cases two using List.reverseRecOn with
      | nil =>
          rw [descend_nil, Option.some.injEq] at second
          exact absurd (second ▸ member) links.root
      | append_singleton two nameTwo =>
          obtain ⟨_, upTwo, labelTwo⟩ := links.last second
          rw [ih upOne upTwo, ← labelOne, ← labelTwo]

/-- A node whose parents lead to the root over listed nodes is found by some labels. -/
theorem reached {node : Node}
    (closed : ∀ node, listed node → parent node = root ∨ listed (parent node))
    (member : node = root ∨ listed node) (attached : Under parent root node) :
    ∃ labels, descend child root labels = some node := by
  obtain ⟨count, climbed⟩ := attached
  induction count generalizing node with
  | zero => exact ⟨[], by rw [descend_nil]; exact congrArg some climbed.symm⟩
  | succ count ih =>
      rcases member with rfl | member
      · exact ⟨[], rfl⟩
      · obtain ⟨labels, arrived⟩ := ih (closed node member) climbed
        refine ⟨labels ++ [label node], ?_⟩
        rw [descend_snoc, arrived, Option.bind_some]
        exact (links.found _ _ _).mpr ⟨member, rfl, rfl⟩

theorem longer_of_under (fixed : parent root = root) {labels further : List Label}
    {node below : Node} (nonroot : node ≠ root)
    (arrived : descend child root labels = some node)
    (deeper : descend child root further = some below) (lies : Under parent node below) :
    labels <+: further := by
  obtain ⟨count, climbed⟩ := lies
  induction count generalizing further below with
  | zero =>
      have same : below = node := climbed
      rw [links.distinct arrived (same ▸ deeper)]
  | succ count ih =>
      cases further using List.reverseRecOn with
      | nil =>
          rw [← Option.some.inj deeper, iterate_root parent root fixed] at climbed
          exact absurd climbed.symm nonroot
      | append_singleton front last =>
          exact (ih (links.last deeper).2.1 climbed).trans (List.prefix_append _ _)

theorem listed_of_descend {labels : List Label} {node : Node}
    (arrived : descend child root labels = some node) (below : node ≠ root) : listed node := by
  cases labels using List.reverseRecOn with
  | nil => exact absurd (Option.some.inj arrived).symm below
  | append_singleton front last => exact (links.last arrived).1

theorem childless {node : Node} (bare : ∀ key, listed key → parent key ≠ node) (name : Label) :
    child node name = none := by
  refine Option.eq_none_iff_forall_ne_some.mpr fun key taken => ?_
  obtain ⟨member, under, _⟩ := (links.found node name key).mp taken
  exact bare key member under

section Changes
variable [DecidableEq Node] {childAfter : Node → Label → Option Node}
  {listedAfter : Node → Prop} {node above : Node} {name : Label} {old front : List Label}

theorem child_placed [DecidableEq Label]
    (after : Links childAfter listedAfter (Function.update parent node above)
      (Function.update label node name) root)
    (members : ∀ key, listedAfter key ↔ key = node ∨ listed key) (place : Node) (key : Label) :
    childAfter place key =
      if place = above ∧ key = name then some node
      else if child place key = some node then none
      else child place key := by
  have here : childAfter place key = some node ↔ place = above ∧ key = name := by
    rw [after.found, Function.update_self, Function.update_self, members, @eq_comm _ above,
      @eq_comm _ name]
    simp
  have there : ∀ other, other ≠ node →
      (childAfter place key = some other ↔ child place key = some other) := by
    intro other different
    rw [after.found, links.found, members, Function.update_of_ne different,
      Function.update_of_ne different, or_iff_right different]
  split_ifs with same left
  · exact here.mpr same
  · refine Option.eq_none_iff_forall_ne_some.mpr fun other taken => ?_
    have different : other ≠ node := fun equal => same (here.mp (equal ▸ taken))
    have both := ((there other different).mp taken).symm.trans left
    exact different (Option.some.inj both)
  · refine Option.ext fun other => ?_
    by_cases different : other = node
    · rw [different, here, iff_false_left same]
      exact left
    · exact there other different

theorem child_dropped (after : Links childAfter listedAfter parent label root)
    (members : ∀ key, listedAfter key ↔ key ≠ node ∧ listed key) (place : Node) (key : Label) :
    childAfter place key = if child place key = some node then none else child place key := by
  refine Option.ext fun other => ?_
  rw [after.found, members, and_assoc, ← links.found place key other]
  split_ifs with left
  · simp only [left, Option.some.injEq, iff_false, not_and]
    exact fun different same => different same.symm
  · rw [and_iff_right_iff_imp]
    rintro taken rfl
    exact left taken

theorem linked [DecidableEq Label]
    (after : Links childAfter listedAfter (Function.update parent node above)
      (Function.update label node name) root)
    (members : ∀ key, listedAfter key ↔ key = node ∨ listed key) (new : ¬ listed node)
    (bare : ∀ key, listed key → parent key ≠ node) (apart : node ≠ above)
    (arrived : descend child root front = some above)
    (fresh : descend child root (front ++ [name]) = none) :
    descend childAfter root =
      Function.update (descend child root) (front ++ [name]) (some node) := by
  have unlisted : ∀ place key, child place key ≠ some node := fun place key taken =>
    new ((links.found place key node).mp taken).1
  have children := links.child_placed after members
  simp only [unlisted, ↓reduceIte] at children
  refine descend_of_steps _ (Function.update_of_ne (by simp) _ _) fun init last => ?_
  by_cases through : init = front ++ [name]
  · rw [through, Function.update_self, Option.bind_some, children, if_neg fun both => apart both.1,
      links.childless bare, Function.update_of_ne (by simp), descend_beyond fresh]
  · rw [Function.update_of_ne through]
    by_cases here : init ++ [last] = front ++ [name]
    · obtain ⟨sameFront, sameLast⟩ := List.append_inj' here rfl
      rw [here, Function.update_self, sameFront, arrived, Option.bind_some, children,
        if_pos ⟨rfl, List.singleton_inj.mp sameLast⟩]
    · rw [Function.update_of_ne here, descend_snoc]
      refine Option.bind_congr fun place way => ?_
      have aside : ¬ (place = above ∧ last = name) := by
        rintro ⟨rfl, rfl⟩
        exact here (by rw [links.distinct way arrived])
      rw [children, if_neg aside]

theorem dropped [DecidableEq Label] (after : Links childAfter listedAfter parent label root)
    (members : ∀ key, listedAfter key ↔ key ≠ node ∧ listed key)
    (bare : ∀ key, listed key → parent key ≠ node) (below : node ≠ root)
    (arrived : descend child root old = some node) :
    descend childAfter root = Function.update (descend child root) old none := by
  have children := links.child_dropped after members
  have deep : [] ≠ old := by
    rintro rfl
    exact below (Option.some.inj arrived).symm
  refine descend_of_steps _ (Function.update_of_ne deep _ _) fun init last => ?_
  by_cases through : init = old
  · rw [through, Function.update_self, Option.bind_none, Function.update_of_ne (by simp),
      descend_snoc, arrived, Option.bind_some, links.childless bare]
  · rw [Function.update_of_ne through]
    by_cases here : init ++ [last] = old
    · rw [here, Function.update_self, eq_comm, Option.bind_eq_none_iff]
      intro place way
      rw [children, if_pos]
      rw [← here, descend_snoc, way, Option.bind_some] at arrived
      exact arrived
    · rw [Function.update_of_ne here, descend_snoc]
      refine Option.bind_congr fun place way => ?_
      have other : child place last ≠ some node := fun taken =>
        here (links.distinct (by rw [descend_snoc, way, Option.bind_some, taken]) arrived)
      rw [children, if_neg other]

/-- A node takes what is below it along to its new place. -/
theorem relinked [DecidableEq Label]
    (after : Links childAfter listed (Function.update parent node above)
      (Function.update label node name) root)
    (arrived : descend child root old = some node) (below : node ≠ root)
    (target : descend child root front = some above) (outside : ¬ old <+: front) :
    descend childAfter root = moved old (front ++ [name]) (descend child root) := by
  have member := links.listed_of_descend arrived below
  have children := links.child_placed after fun key =>
    ⟨.inr, fun either => either.elim (fun same => same ▸ member) id⟩
  have deep : ¬ old <+: [] := fun none_ => outside (List.prefix_nil.mp none_ ▸ List.nil_prefix)
  refine descend_of_steps _ (moved_other (by simp) deep) fun init last => ?_
  by_cases through : front ++ [name] <+: init
  · -- Below the new place the steps are those below the old one.
    obtain ⟨rest, rfl⟩ := through
    rw [List.append_assoc (front ++ [name]), moved_new, moved_new, ← List.append_assoc, descend_snoc]
    refine Option.bind_congr fun place way => ?_
    have aside : ¬ (place = above ∧ last = name) := by
      rintro ⟨rfl, rfl⟩
      exact outside ⟨rest, links.distinct way target⟩
    have other : child place last ≠ some node := by
      intro taken
      have same := links.distinct (by rw [descend_snoc, way, Option.bind_some, taken]) arrived
      simp at same
    rw [children, if_neg aside, if_neg other]
  · by_cases here : init ++ [last] = front ++ [name]
    · obtain ⟨sameFront, sameLast⟩ := List.append_inj' here rfl
      have landed : moved old (front ++ [name]) (descend child root) (front ++ [name]) =
          some node := by
        have at_ := @moved_new _ _ _ old (front ++ [name]) (descend child root) []
        rwa [List.append_nil, List.append_nil, arrived] at at_
      rw [here, landed, sameFront, moved_other (sameFront ▸ through) outside, target,
        Option.bind_some, children, if_pos ⟨rfl, List.singleton_inj.mp sameLast⟩]
    · have elsewhere : ¬ front ++ [name] <+: init ++ [last] := by
        rw [List.prefix_concat_iff]
        exact fun either => either.elim (fun same => here same.symm) through
      by_cases gone : old <+: init
      · rw [moved_old through gone, moved_old elsewhere (gone.trans (List.prefix_append _ _)),
          Option.bind_none]
      · rw [moved_other through gone]
        have aside : ∀ place, descend child root init = some place →
            ¬ (place = above ∧ last = name) := by
          rintro place way ⟨rfl, rfl⟩
          exact here (by rw [links.distinct way target])
        by_cases left : old = init ++ [last]
        · rw [moved_old elsewhere (left ▸ List.prefix_rfl), eq_comm, Option.bind_eq_none_iff]
          intro place way
          rw [left, descend_snoc, way, Option.bind_some] at arrived
          rw [children, if_neg (aside place way), if_pos arrived]
        · have apart : ¬ old <+: init ++ [last] := by
            rw [List.prefix_concat_iff]
            exact fun either => either.elim left gone
          rw [moved_other elsewhere apart, descend_snoc]
          refine Option.bind_congr fun place way => ?_
          have other : child place last ≠ some node := fun taken => left
            (links.distinct arrived (by rw [descend_snoc, way, Option.bind_some, taken]))
          rw [children, if_neg (aside place way), if_neg other]

end Changes

end Links

end Shizuku.NameTree
