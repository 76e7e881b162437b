import Shizuku.TmpfsNamespace

/-!
What a path means. The pieces between the slashes, without the empty ones, are followed
from the root one after the other, and a piece that leads nowhere ends it. `resolve` and
`resolve_parent` scan the bytes each in its own way and both compute this fold.
-/

namespace Shizuku.Tmpfs

open Machine

def follow (fs : Fs) (cur : Nat) (piece : List UInt8) : Option Nat :=
  if piece = dot then some cur
  else if piece = dotDot then some (if cur = 0 then 0 else (fs.nodes cur).parent)
  else if piece.length < vfsNameMax ∧ (fs.nodes cur).typ = .dir then childOf fs cur piece
  else none

def followAll (fs : Fs) (pieces : List (List UInt8)) : Option Nat :=
  pieces.foldl (fun cur piece => cur.bind fun node => follow fs node piece) (some 0)

def splitPath (path : Path) : List (List UInt8) := (path.splitOn slash).filter (· ≠ [])

theorem components_splitPath (bytes : List UInt8) : components bytes = splitPath bytes := by
  induction size : bytes.length using Nat.strong_induction_on generalizing bytes with
  | _ size ih =>
      by_cases split : slash ∈ bytes
      · obtain ⟨left, right, rfl⟩ := List.append_of_mem split
        simp only [List.length_append, List.length_cons] at size
        rw [components_slash, ih left.length (by omega) left rfl, ih right.length (by omega) right rfl]
        simp only [splitPath, List.splitOn_append_cons_self, List.filter_append]
      · rw [splitPath, List.splitOn_eq_singleton split]
        by_cases nothing : bytes = []
        · rw [nothing, components_stop [] rfl]
          rfl
        · rw [components_name bytes nothing split]
          simp [nothing]

theorem enter_follow (fs : Fs) (cur : Nat) (piece : List UInt8) (grounded : Grounded fs cur) :
    enter fs cur piece = .ok (follow fs cur piece) := by
  have read := nodeAt_grounded fs cur grounded
  unfold enter follow
  by_cases stay : piece = dot
  · rw [if_pos stay, if_pos stay]
  rw [if_neg stay, if_neg stay]
  by_cases up : piece = dotDot
  · rw [if_pos up, if_pos up]
    by_cases root : cur = 0
    · simp [root]
    · simp [root, read]
  rw [if_neg up, if_neg up]
  by_cases long : vfsNameMax ≤ piece.length
  · rw [if_pos long, if_neg (fun both => absurd both.1 (Nat.not_lt.mpr long))]
  · rw [if_neg long, read, ok_bind]
    by_cases dir : (fs.nodes cur).typ = .dir
    · simp [dir, Nat.lt_of_not_le long]
    · simp [dir]

theorem followAll_snoc (fs : Fs) (front : List (List UInt8)) (last : List UInt8) :
    followAll fs (front ++ [last]) = (followAll fs front).bind fun node => follow fs node last := by
  rw [followAll, List.foldl_append]
  rfl

theorem walk_followAll (fs : Fs) (comps : List (List UInt8)) :
    walk fs 0 comps = .ok (followAll fs comps) := by
  induction comps using List.reverseRecOn with
  | nil => rfl
  | append_singleton comps comp ih =>
      obtain ⟨_, done, grounded⟩ := walk_grounded fs 0 comps .root
      rw [ih, Except.ok.injEq] at done
      subst done
      rw [walk_append, ih, followAll_snoc]
      cases reached : followAll fs comps with
      | none => rfl
      | some cur =>
          simp only [ok_bind, walk, enter_follow fs cur comp (grounded cur reached), Option.bind_some]
          cases follow fs cur comp <;> rfl

theorem followAll_grounded {fs : Fs} {comps : List (List UInt8)} {id : Nat}
    (reached : followAll fs comps = some id) : Grounded fs id := by
  obtain ⟨_, done, grounded⟩ := walk_grounded fs 0 comps .root
  rw [walk_followAll, Except.ok.injEq] at done
  exact grounded id (done.symm.trans reached)

inductive Filed (fs : Fs) : Nat → Prop where
  | root : Filed fs 0
  | child (id : Nat) (dir : (fs.nodes (fs.nodes id).parent).typ = .dir)
      (above : Filed fs (fs.nodes id).parent) : Filed fs id

theorem followAll_filed {fs : Fs} {comps : List (List UInt8)} {id : Nat}
    (reached : followAll fs comps = some id) : Filed fs id := by
  induction comps using List.reverseRecOn generalizing id with
  | nil =>
      cases reached
      exact .root
  | append_singleton comps comp ih =>
      rw [followAll_snoc, Option.bind_eq_some_iff] at reached
      obtain ⟨cur, before, next⟩ := reached
      have filed := ih before
      unfold follow at next
      split at next
      · cases next
        exact filed
      split at next
      · cases next
        cases filed with
        | root => exact .root
        | child _ dir above =>
            split
            · exact .root
            · exact above
      split at next
      · rename_i name
        have below := (childOf_some fs cur id comp next).2.2.2.1
        exact .child id (below ▸ name.2) (below ▸ filed)
      · cases next

theorem leafName_iff (comp leaf : List UInt8) : leafName comp = some leaf ↔
    comp = leaf ∧ leaf ≠ [] ∧ leaf.length < vfsNameMax ∧ Ordinary leaf := by
  unfold leafName Ordinary
  by_cases bad : comp = [] ∨ vfsNameMax ≤ comp.length
  · rw [if_pos bad]
    refine iff_of_false (by simp) ?_
    rintro ⟨rfl, present, short, _⟩
    exact bad.elim present (Nat.not_le.mpr short)
  rw [if_neg bad]
  obtain ⟨present, short⟩ := not_or.mp bad
  by_cases dots : comp = dot ∨ comp = dotDot
  · rw [if_pos dots]
    refine iff_of_false (by simp) ?_
    rintro ⟨rfl, _, _, one, two⟩
    exact dots.elim one two
  · rw [if_neg dots, Option.some.injEq]
    refine ⟨?_, fun same => same.1⟩
    rintro rfl
    exact ⟨rfl, present, Nat.lt_of_not_le short, not_or.mp dots⟩

theorem resolve_meaning (fs : Fs) (path : Path) :
    resolve fs path = .ok (if path.head? = some slash then followAll fs (splitPath path) else none) := by
  by_cases absolute : path.head? = some slash
  · rw [if_pos absolute, resolve_components fs path absolute, walk_followAll, components_splitPath]
  · rw [if_neg absolute]
    cases path with
    | nil => rfl
    | cons first bytes =>
        have relative : first ≠ slash := fun same => absolute (by simp [same])
        rw [resolve, if_pos relative]

theorem childOf_congr {fs after : Fs} (shape : SameShape fs after)
    (names : ∀ key, (after.nodes key).name = (fs.nodes key).name) : childOf after = childOf fs := by
  funext up name
  simp only [childOf, shape.1, shape.2, names]

theorem resolve_congr {fs after : Fs} (shape : SameShape fs after)
    (names : ∀ key, (after.nodes key).name = (fs.nodes key).name) (path : Path) :
    resolve after path = resolve fs path := by
  have same : follow after = follow fs := by
    funext cur piece
    simp only [follow, shape.1, shape.2, childOf_congr shape names]
  rw [resolve_meaning, resolve_meaning, followAll, followAll, same]

theorem resolve_place (fs : Fs) (id : Nat) (data : List UInt8) (path : Path) :
    resolve (fs.place id data) path = resolve fs path :=
  resolve_congr (place_shape fs id data) (place_name fs id data) path

theorem resolve_written {fs after : Fs} {id : Int} {off : Nat} {buf : List UInt8} {ret : Int}
    (taken : nodeWrite fs id off buf = .ok (ret, after)) (path : Path) :
    resolve after path = resolve fs path := by
  cases nodeWrite_stepped fs after id off buf ret taken with
  | refused => rfl
  | overwrote => exact resolve_congr (overwrite_shape fs id.toNat off buf) (fun _ => rfl) path
  | grew =>
      have moved := resolve_congr (relocate_shape fs id.toNat (off + buf.length))
        (setNode_name fs id.toNat _ rfl) path
      exact (resolve_congr (overwrite_shape _ id.toNat off buf) (fun _ => rfl) path).trans moved

theorem resolveParent_meaning (fs : Fs) (path : Path) :
    ∃ found, resolveParent fs path = .ok found ∧ ∀ parent leaf, found = some (parent, leaf) ↔
      path.head? = some slash ∧ (splitPath path).getLast? = some leaf ∧ Ordinary leaf ∧
        leaf.length < vfsNameMax ∧ followAll fs (splitPath path).dropLast = some parent := by
  cases path with
  | nil => exact ⟨none, rfl, by simp⟩
  | cons first bytes =>
      by_cases relative : first ≠ slash
      · exact ⟨none, by rw [resolveParent, if_pos relative], by simp [relative]⟩
      obtain rfl := not_not.mp relative
      rw [resolveParent, if_neg relative, ← components_splitPath, components_root]
      by_cases nothing : components bytes = []
      · refine ⟨none, ?_, by simp [nothing]⟩
        rw [resolveParentFrom, dif_pos ((components_eq_nil bytes).mp nothing)]
      · have named : ∀ leaf, (components bytes).getLast? = some leaf → leaf ≠ [] :=
          fun leaf last => (mem_components bytes leaf (List.mem_of_getLast? last)).1
        rw [resolveParentFrom_walk fs 0 bytes nothing, walk_followAll, ok_bind]
        cases followAll fs (components bytes).dropLast with
        | none => exact ⟨none, rfl, by simp⟩
        | some node =>
            refine ⟨_, rfl, fun parent leaf => ?_⟩
            simp only [Option.map_eq_some_iff, Option.bind_eq_some_iff, leafName_iff, Prod.mk.injEq,
              List.head?_cons, true_and, Option.some.injEq]
            constructor
            · rintro ⟨_, ⟨_, last, rfl, _, short, ordinary⟩, same, rfl⟩
              exact ⟨last, ordinary, short, same⟩
            · rintro ⟨last, ordinary, short, same⟩
              exact ⟨leaf, ⟨leaf, last, rfl, named leaf last, short, ordinary⟩, same, rfl⟩

theorem resolve_below (fs : Fs) (path : Path) (parent : Nat) (leaf : List UInt8)
    (resolved : resolveParent fs path = .ok (some (parent, leaf))) :
    resolve fs path = .ok (if (fs.nodes parent).typ = .dir then childOf fs parent leaf else none) := by
  obtain ⟨found, done, meaning⟩ := resolveParent_meaning fs path
  rw [resolved, Except.ok.injEq] at done
  obtain ⟨absolute, last, ordinary, short, reached⟩ := (meaning parent leaf).mp done.symm
  have parts : splitPath path = (splitPath path).dropLast ++ [leaf] :=
    (List.dropLast_append_getLast? leaf last).symm
  rw [resolve_meaning, if_pos absolute, parts, followAll_snoc, reached, Option.bind_some, follow,
    if_neg ordinary.1, if_neg ordinary.2]
  simp only [short, true_and]

/-- What lies below a node that is no directory is not to be reached by any path. -/
theorem hidden_child {fs : Fs} {path other : Path} {parent id : Nat} {leaf : List UInt8}
    (lost : resolve fs path = .ok none)
    (parents : resolveParent fs path = .ok (some (parent, leaf)))
    (child : childOf fs parent leaf = some id) : resolve fs other ≠ .ok (some id) := by
  intro there
  obtain ⟨positive, _, _, below, _⟩ := childOf_some fs parent id leaf child
  have reached : followAll fs (splitPath other) = some id := by
    rw [resolve_meaning] at there
    split at there
    · exact Except.ok.inj there
    · cases there
  cases followAll_filed reached with
  | root => omega
  | child _ dir above =>
      rw [below] at dir
      rw [resolve_below fs path parent leaf parents, if_pos dir, child] at lost
      cases lost

theorem childOf_iff {fs : Fs} (names : Namespace fs) (cur : Nat) (name : List UInt8) (id : Nat) :
    childOf fs cur name = some id ↔
      id ≠ 0 ∧ Used fs id ∧ (fs.nodes id).parent = cur ∧ nameBytes (fs.nodes id).name = name := by
  constructor
  · intro found
    obtain ⟨low, inside, used, parent, bytes⟩ := childOf_some fs cur id name found
    exact ⟨by omega, ⟨inside, used⟩, parent, bytes⟩
  · rintro ⟨nonroot, used, parent, bytes⟩
    cases found : childOf fs cur name with
    | none => exact absurd ⟨parent, bytes⟩ (childOf_absent found id used nonroot)
    | some other =>
        obtain ⟨_, inside, alive, sameParent, sameBytes⟩ := childOf_some fs cur other name found
        rw [names.unique other id ⟨inside, alive⟩ used (sameParent.trans parent.symm)
          (sameBytes.trans bytes.symm)]

/-- Both walkers follow the pieces of the path: `resolve` all of them, `resolve_parent` all
but the last, which it takes for a name; and below a directory the two agree. -/
theorem walkers_share_one_meaning (fs : Fs) (names : Namespace fs) (path : Path) :
    resolve fs path = .ok (if path.head? = some slash then followAll fs (splitPath path) else none) ∧
    (∃ found, resolveParent fs path = .ok found ∧ ∀ parent leaf, found = some (parent, leaf) ↔
      path.head? = some slash ∧ (splitPath path).getLast? = some leaf ∧ Ordinary leaf ∧
        leaf.length < vfsNameMax ∧ followAll fs (splitPath path).dropLast = some parent) ∧
    (∀ parent leaf, resolveParent fs path = .ok (some (parent, leaf)) →
      (fs.nodes parent).typ = .dir → resolve fs path = .ok (childOf fs parent leaf)) ∧
    ∀ cur name id, childOf fs cur name = some id ↔
      id ≠ 0 ∧ Used fs id ∧ (fs.nodes id).parent = cur ∧ nameBytes (fs.nodes id).name = name := by
  refine ⟨resolve_meaning fs path, resolveParent_meaning fs path, ?_, childOf_iff names⟩
  intro parent leaf resolved dir
  rw [resolve_below fs path parent leaf resolved, if_pos dir]

theorem walkers_share_one_meaning_detour : ∃ fs, Namespace fs ∧
    splitPath [47, 47, 100, 47, 46, 46, 47, 100, 47, 46, 47, 120, 47] =
      [[100], dotDot, [100], dot, [120]] ∧
    resolveParent fs [47, 47, 100, 47, 46, 46, 47, 100, 47, 46, 47, 120, 47] =
      .ok (some (1, [120])) ∧
    resolve fs [47, 47, 100, 47, 46, 46, 47, 100, 47, 46, 47, 120, 47] = .ok (childOf fs 1 [120]) ∧
    childOf fs 1 [120] = some 2 := by
  have evaluated : (do
      let (_, fs) ← replay step emptyFs [.mkdir [47, 100], .create [47, 100, 47, 120] []]
      let found ← resolveParent fs [47, 47, 100, 47, 46, 46, 47, 100, 47, 46, 47, 120, 47]
      return (found, (fs.nodes 1).typ, childOf fs 1 [120])) =
      Except.ok (some (1, [120]), VnType.dir, some 2) := by decide +kernel
  obtain ⟨⟨rets, fs⟩, replayed, rest⟩ := (bind_ok _ _ _).mp evaluated
  obtain ⟨found, resolved, last⟩ := (bind_ok _ _ _).mp rest
  simp only [pure_ok, Except.ok.injEq, Prod.mk.injEq] at last
  obtain ⟨rfl, dir, child⟩ := last
  have names : Namespace fs :=
    run_namespace _ fs (replay_run _ _ _ (by simp [NulFree]) _ _ _ replayed)
  exact ⟨fs, names, by decide, resolved,
    (walkers_share_one_meaning fs names _).2.2.1 1 [120] resolved dir, child⟩

end Shizuku.Tmpfs
