import Shizuku.TmpfsTree

/-!
The names in the node table, whatever the calls before: also below a file that has
been removed, and in slots that have been taken again. A stored name is padded with
zeros, so it compares equal to the component it came from if that has no zero byte.
Then what a failing call leaves behind.
-/

namespace Shizuku.Tmpfs

open ByteMemory Machine

structure GoodName (name : List UInt8) : Prop where
  present : name ≠ []
  short : name.length < vfsNameMax
  whole : slash ∉ name
  clean : 0 ∉ name
  ordinary : Ordinary name

structure Namespace (fs : Fs) : Prop where
  root : nameBytes (fs.nodes 0).name = []
  unique : ∀ id other, Used fs id → Used fs other → (fs.nodes id).parent = (fs.nodes other).parent →
    nameBytes (fs.nodes id).name = nameBytes (fs.nodes other).name → id = other
  named : ∀ id, Used fs id → id ≠ 0 → ∃ name, GoodName name ∧ (fs.nodes id).name = nameField name
  closed : ∀ id, id < tnMax → (fs.nodes id).parent < tnMax

def NulFree : Op → Prop
  | .mkdir path | .create path _ | .unlink path => 0 ∉ path
  | .rename oldp newp => 0 ∉ oldp ∧ 0 ∉ newp
  | .nodeWrite _ _ _ => True

theorem nameBytes_field (name : List UInt8) (short : name.length < vfsNameMax) (clean : 0 ∉ name) :
    nameBytes (nameField name) = name := by
  have size : vfsNameMax = 24 := rfl
  have count : min name.length (vfsNameMax - 1) = name.length := by omega
  have nonzero : ∀ byte ∈ name, (byte != 0) = true := fun byte member =>
    bne_iff_ne.mpr fun zero => clean (zero ▸ member)
  unfold nameBytes nameField
  simp only [count, List.take_length]
  rw [List.takeWhile_append_of_pos nonzero]
  have some_ : vfsNameMax - name.length = (vfsNameMax - name.length - 1) + 1 := by omega
  rw [some_, List.replicate_succ]
  simp

theorem attach_childOf (fs : Fs) (id parent : Nat) (name : List UInt8) (typ : VnType)
    (short : name.length < vfsNameMax) (clean : 0 ∉ name) (slot : freeSlot fs = some id)
    (absent : childOf fs parent name = none) (above : Nat) (other : List UInt8) :
    childOf (fs.attach id parent name typ) above other =
      if above = parent ∧ other = name then some id else childOf fs above other := by
  obtain ⟨positive, inside, free⟩ := freeSlot_some fs id slot
  have field := nameBytes_field name short clean
  let hit := fun key => ((fs.attach id parent name typ).nodes key).typ != .free &&
    ((fs.attach id parent name typ).nodes key).parent == above &&
      nameBytes ((fs.attach id parent name typ).nodes key).name == other
  have here : hit id = (parent == above && name == other) := by
    have used : ((if typ = .file then VnType.file else .dir) != .free) = true := by split <;> rfl
    simp [hit, Fs.attach, field, used]
  have there : ∀ key, key ≠ id → hit key = ((fs.nodes key).typ != .free &&
      (fs.nodes key).parent == above && nameBytes (fs.nodes key).name == other) := by
    intro key different
    simp only [hit, Fs.attach, setNode_other fs id key _ different]
  change slots.find? hit = _
  by_cases same : above = parent ∧ other = name
  · obtain ⟨rfl, rfl⟩ := same
    rw [if_pos ⟨rfl, rfl⟩]
    have some_ : (slots.find? hit).isSome :=
      List.find?_isSome.mpr ⟨id, (mem_slots id).mpr ⟨positive, inside⟩, by simp [here]⟩
    obtain ⟨found, which⟩ := Option.isSome_iff_exists.mp some_
    by_cases new : found = id
    · rw [which, new]
    · have matched := List.find?_some which
      rw [there found new] at matched
      exact absurd matched
        (List.find?_eq_none.mp absent found (List.mem_of_find?_eq_some which))
  · rw [if_neg same]
    unfold childOf
    congr 1
    funext key
    by_cases new : key = id
    · have miss : (parent == above && name == other) = false := by
        simp only [Bool.and_eq_false_iff, beq_eq_false_iff_ne]
        by_contra both
        simp only [not_or, not_not] at both
        exact same ⟨both.1.symm, both.2.symm⟩
      rw [new, here, miss]
      simp [free]
    · exact there key new

theorem place_name (fs : Fs) (id : Nat) (data : List UInt8) (key : Nat) :
    ((fs.place id data).nodes key).name = (fs.nodes key).name := by
  by_cases same : key = id
  · simp [Fs.place, same]
  · simp [Fs.place, setNode_other fs id key _ same]

theorem used_place (fs : Fs) (id : Nat) (data : List UInt8) (key : Nat) :
    Used (fs.place id data) key ↔ Used fs key := by
  simp [Used, (place_shape fs id data).1]

theorem storeFile_fits (fs : Fs) (id : Nat) (data : List UInt8) (inside : id < tnMax)
    (fits : fs.poolUsed + data.length ≤ tnPool) :
    storeFile fs id data = .ok (id, fs.place id data) := by
  unfold storeFile
  rw [if_neg (by omega), (range_ok _ _ _ ()).mpr ⟨by omega, fits⟩, (index_ok _ _ ()).mpr inside]
  rfl

theorem resolveParent_leaf (fs : Fs) (path : Path) (parent : Nat) (leaf : List UInt8)
    (found : resolveParent fs path = .ok (some (parent, leaf))) : leaf ∈ components path.tail := by
  cases path with
  | nil => cases found
  | cons first bytes =>
      by_cases relative : first ≠ slash
      · simp [resolveParent, relative] at found
      · simp only [resolveParent, relative, ↓reduceIte] at found
        have more : components bytes ≠ [] := by
          intro empty
          rw [resolveParentFrom, dif_pos ((components_eq_nil bytes).mp empty)] at found
          cases found
        rw [resolveParentFrom_walk fs 0 bytes more] at found
        obtain ⟨walked, _, rest⟩ := (bind_ok _ _ _).mp found
        cases walked with
        | none => cases rest
        | some node =>
            simp only [pure_ok, Except.ok.injEq, Option.map_eq_some_iff, Option.bind_eq_some_iff] at rest
            obtain ⟨comp, ⟨last, final, named⟩, pair⟩ := rest
            rw [leafName_some last comp named, (Prod.mk.inj pair).2] at final
            exact List.mem_of_getLast? final

theorem resolveParent_good (fs : Fs) (path : Path) (parent : Nat) (leaf : List UInt8)
    (clean : 0 ∉ path) (found : resolveParent fs path = .ok (some (parent, leaf))) :
    parent < tnMax ∧ GoodName leaf := by
  obtain ⟨directory, named⟩ := resolved_parent fs path parent leaf found
  obtain ⟨present, inside, whole⟩ := mem_components path.tail leaf
    (resolveParent_leaf fs path parent leaf found)
  refine ⟨(dirNamedBy_grounded fs path parent directory).inside, present, ?_, whole,
    fun zero => clean (List.mem_of_mem_tail (inside zero)), ?_⟩
  · by_contra long
    rw [leafName, if_pos (.inr (Nat.le_of_not_lt long))] at named
    cases named
  · constructor <;> rintro rfl <;> simp [leafName, dot, dotDot, vfsNameMax] at named

theorem childOf_absent {fs : Fs} {parent : Nat} {name : List UInt8}
    (absent : childOf fs parent name = none) (id : Nat) (used : Used fs id) (nonroot : id ≠ 0) :
    ¬ ((fs.nodes id).parent = parent ∧ nameBytes (fs.nodes id).name = name) := by
  -- No used slot but the root can have a name that `child_of` does not find.
  rintro ⟨rfl, rfl⟩
  have missed := List.find?_eq_none.mp absent id ((mem_slots id).mpr ⟨by omega, used.1⟩)
  simp [used.2] at missed

section Changes
variable {fs : Fs}

theorem init_namespace (boot : Fs) : Namespace (init boot) := by
  have only : ∀ id, Used (init boot) id → id = 0 := by
    intro id used
    by_contra free
    exact used.2 (by simp [init, free, TNode.free])
  refine ⟨by simp [init, TNode.free, nameBytes, vfsNameMax, List.replicate], ?_, ?_, ?_⟩
  · intro id other used second _ _
    rw [only id used, only other second]
  · intro id used nonroot
    exact absurd (only id used) nonroot
  · intro id _
    by_cases root : id = 0 <;> simp [init, root, TNode.free, tnMax]

theorem Namespace.put (names : Namespace fs) {id parent : Nat} {leaf : List UInt8} {node : TNode}
    (nonroot : id ≠ 0) (good : GoodName leaf) (inside : parent < tnMax)
    (absent : childOf fs parent leaf = none) (place : node.parent = parent)
    (name : node.name = nameField leaf) : Namespace (fs.setNode id node) := by
  have here : nameBytes node.name = leaf := name ▸ nameBytes_field leaf good.short good.clean
  have others : ∀ other, other ≠ id → (fs.setNode id node).nodes other = fs.nodes other :=
    fun other different => setNode_other fs id other node different
  have used : ∀ other, other ≠ id → (Used (fs.setNode id node) other ↔ Used fs other) :=
    fun other different => used_other fs id other node different
  -- The new name is nobody else's; the root has none.
  have fresh : ∀ other, other ≠ id → Used fs other → (fs.nodes other).parent = parent →
      nameBytes (fs.nodes other).name ≠ leaf := by
    intro other _ member below same
    by_cases root : other = 0
    · rw [root, names.root] at same
      exact good.present same.symm
    · exact childOf_absent absent other member root ⟨below, same⟩
  constructor
  · rw [others 0 nonroot.symm]
    exact names.root
  · intro first second usedFirst usedSecond parents bytes
    by_cases isFirst : first = id
    · by_cases isSecond : second = id
      · rw [isFirst, isSecond]
      · subst first
        rw [setNode_same, others second isSecond] at parents bytes
        exact absurd (bytes.symm.trans here)
          (fresh second isSecond ((used second isSecond).mp usedSecond) (parents.symm.trans place))
    · rw [others first isFirst] at parents bytes
      by_cases isSecond : second = id
      · subst second
        rw [setNode_same] at parents bytes
        exact absurd (bytes.trans here)
          (fresh first isFirst ((used first isFirst).mp usedFirst) (parents.trans place))
      · rw [others second isSecond] at parents bytes
        exact names.unique first second ((used first isFirst).mp usedFirst)
          ((used second isSecond).mp usedSecond) parents bytes
  · intro other member notRoot
    by_cases same : other = id
    · subst other
      rw [setNode_same]
      exact ⟨leaf, good, name⟩
    · rw [others other same]
      exact names.named other ((used other same).mp member) notRoot
  · intro other bound
    by_cases same : other = id
    · rw [same, setNode_same, place]
      exact inside
    · rw [others other same]
      exact names.closed other bound

theorem Namespace.congr {after : Fs} (names : Namespace fs)
    (fewer : ∀ id, Used after id → Used fs id)
    (parents : ∀ id, (after.nodes id).parent = (fs.nodes id).parent)
    (same : ∀ id, (after.nodes id).name = (fs.nodes id).name) : Namespace after where
  root := same 0 ▸ names.root
  unique id other used second below bytes := by
    rw [parents, parents] at below
    rw [same, same] at bytes
    exact names.unique id other (fewer id used) (fewer other second) below bytes
  named id used nonroot := same id ▸ names.named id (fewer id used) nonroot
  closed id bound := parents id ▸ names.closed id bound

theorem setNode_name (fs : Fs) (id : Nat) (node : TNode) (same : node.name = (fs.nodes id).name)
    (other : Nat) : ((fs.setNode id node).nodes other).name = (fs.nodes other).name := by
  by_cases here : other = id
  · rw [here, setNode_same, same]
  · rw [setNode_other fs id other node here]

theorem Namespace.place (names : Namespace fs) (id : Nat) (data : List UInt8) :
    Namespace (fs.place id data) :=
  names.congr (fun other => (used_place fs id data other).mp) (place_shape fs id data).2
    (place_name fs id data)

theorem step_namespace (fs after : Fs) (op : Op) (ret : Int) (names : Namespace fs)
    (clean : NulFree op) (taken : step fs op = .ok (ret, after)) : Namespace after := by
  cases step_stepped fs after op ret taken with
  | refused => exact names
  | madeDir path parent leaf id found absent slot =>
      obtain ⟨inside, good⟩ := resolveParent_good fs path parent leaf clean found
      have positive := (freeSlot_some fs id slot).1
      exact names.put (by omega) good inside absent rfl rfl
  | createdFull path data parent leaf id found absent slot =>
      obtain ⟨inside, good⟩ := resolveParent_good fs path parent leaf clean found
      have positive := (freeSlot_some fs id slot).1
      exact names.put (by omega) good inside absent rfl rfl
  | created path data parent leaf id found absent slot =>
      obtain ⟨inside, good⟩ := resolveParent_good fs path parent leaf clean found
      have positive := (freeSlot_some fs id slot).1
      have attached : Namespace (fs.attach id parent leaf .file) :=
        names.put (by omega) good inside absent rfl rfl
      exact attached.place id data
  | truncated path data parent leaf id => exact names.place id data
  | unlinked path id found nonroot inside file =>
      refine names.congr (fun other used => ?_) (setNode_parent fs id _ rfl) (setNode_name fs id _ rfl)
      by_cases same : other = id
      · subst other
        exact absurd (by simp [Fs.detach]) used.2
      · exact (used_other fs id other _ same).mp used
  | renamed oldp newp id parent leaf source nonroot inside found absent =>
      obtain ⟨bound, good⟩ := resolveParent_good fs newp parent leaf clean.2 found
      exact names.put nonroot good bound absent rfl rfl
  | overwrote id off buf => exact names.congr (fun _ used => used) (fun _ => rfl) fun _ => rfl
  | grew id off buf =>
      have shape := relocate_shape fs id.toNat (off + buf.length)
      refine names.congr (fun other used => ⟨used.1, ?_⟩) shape.2 (setNode_name fs id.toNat _ rfl)
      exact shape.1 other ▸ used.2

end Changes

theorem run_namespace (boot fs : Fs) (run : Run step (fun _ op => NulFree op) (init boot) fs) :
    Namespace fs :=
  run_invariant step _ Namespace
    (fun before op ret after names clean taken => step_namespace before after op ret names clean taken)
    run (init_namespace boot)

/-- In every reachable state the used slots have good names, different below one
parent, and all links point into the table, so that no walker leaves it. -/
theorem names_unique_and_good (boot fs : Fs) (run : Run step (fun _ op => NulFree op) (init boot) fs) :
    (∀ id other, Used fs id → Used fs other → (fs.nodes id).parent = (fs.nodes other).parent →
      nameBytes (fs.nodes id).name = nameBytes (fs.nodes other).name → id = other) ∧
    (∀ id, Used fs id → id ≠ 0 →
      ∃ name, GoodName name ∧ (fs.nodes id).name = nameField name ∧
        nameBytes (fs.nodes id).name = name) ∧
    (∀ id, id < tnMax → (fs.nodes id).parent < tnMax) ∧
    ∀ path, (∃ result, resolve fs path = .ok result) ∧ ∃ result, resolveParent fs path = .ok result := by
  have names := run_namespace boot fs run
  refine ⟨names.unique, fun id used nonroot => ?_, names.closed, fun path => ?_⟩
  · obtain ⟨name, good, field⟩ := names.named id used nonroot
    exact ⟨name, good, field, field ▸ nameBytes_field name good.short good.clean⟩
  · obtain ⟨result, done, _⟩ := resolveParent_dirNamedBy fs path
    exact ⟨⟨_, resolve_namedBy fs path⟩, result, done⟩

/-- A file below a file, whose slot becomes a directory when the upper one is gone. -/
def recycledParent : List Op :=
  [.create [47, 102] [], .create [47, 102, 47, 120] [], .unlink [47, 102], .mkdir [47, 100],
    .rename [47, 100, 47, 120] [47, 100, 47, 121]]

theorem names_unique_and_good_recycled : ∃ fs, Run step (fun _ op => NulFree op) emptyFs fs ∧
    Used fs 1 ∧ Used fs 2 ∧ (fs.nodes 2).parent = 1 ∧
    ∃ name, GoodName name ∧ (fs.nodes 2).name = nameField name ∧ name = [121] := by
  have evaluated : (replay step emptyFs recycledParent).map (fun done =>
      (done.1, (done.2.nodes 1).typ, (done.2.nodes 2).typ, (done.2.nodes 2).parent,
        nameBytes (done.2.nodes 2).name)) =
      .ok ([1, 2, 0, 0, 0], .dir, .file, 1, [121]) := by decide +kernel
  obtain ⟨⟨rets, fs⟩, replayed, same⟩ := (map_ok _ _ _).mp evaluated
  simp only [Prod.mk.injEq] at same
  obtain ⟨_, first, second, parent, bytes⟩ := same
  have run : Run step (fun _ op => NulFree op) emptyFs fs :=
    replay_run _ _ recycledParent (by simp [recycledParent, NulFree]) _ _ _ replayed
  have used : Used fs 2 := ⟨by decide, by simp [second]⟩
  obtain ⟨name, good, field, here⟩ := (names_unique_and_good _ fs run).2.1 2 used (by decide)
  exact ⟨fs, run, ⟨by decide, by simp [first]⟩, used, parent, name, good, field, here.symm.trans bytes⟩

/-! ### Failing calls -/

structure SameTree (before after : Fs) : Prop where
  used : ∀ id, Used after id ↔ Used before id
  nodes : ∀ id, Used before id → (after.nodes id).typ = (before.nodes id).typ ∧
    (after.nodes id).parent = (before.nodes id).parent ∧ (after.nodes id).name = (before.nodes id).name
  files : contents after = contents before

theorem SameTree.refl (fs : Fs) : SameTree fs fs where
  used _ := Iff.rfl
  nodes _ _ := ⟨rfl, rfl, rfl⟩
  files := rfl

/-- A file under a new name, for which there is a slot, fits into the pool. -/
def RoomForNew (fs : Fs) : Op → Prop
  | .create path data => ∀ parent leaf, resolveParent fs path = .ok (some (parent, leaf)) →
      childOf fs parent leaf = none → freeSlot fs ≠ none → fs.poolUsed + data.length ≤ tnPool
  | .mkdir _ | .unlink _ | .rename _ _ | .nodeWrite _ _ _ => True

theorem create_left_empty {fs : Fs} {path : Path} {data leaf : List UInt8} {parent id : Nat}
    (found : resolveParent fs path = .ok (some (parent, leaf)))
    (absent : childOf fs parent leaf = none) (slot : freeSlot fs = some id)
    (full : tnPool < fs.poolUsed + data.length) :
    create fs path data = .ok (-1, fs.attach id parent leaf .file) ∧
      ¬ SameTree fs (fs.attach id parent leaf .file) := by
  obtain ⟨_, inside, free⟩ := freeSlot_some fs id slot
  constructor
  · simp only [create, found, ok_bind, absent, allocNode, slot, storeFile]
    exact if_pos full
  · intro same
    have used : Used (fs.attach id parent leaf .file) id := ⟨inside, by simp [Fs.attach]⟩
    exact ((same.used id).mp used).2 free

/-- A failing call leaves the tree as it was, except a `create` of a new name that finds
a slot and no room for the data. -/
theorem failed_calls_change_nothing (fs : Fs) (reached : Reachable fs) (op : Op) :
    (∃ ret after, step fs op = .ok (ret, after) ∧ (ret < 0 → SameTree fs after)) ↔
      RoomForNew fs op := by
  constructor
  · rintro ⟨ret, after, taken, same⟩
    cases op with
    | create path data =>
        intro parent leaf found absent some_
        by_contra full
        obtain ⟨id, slot⟩ := Option.ne_none_iff_exists'.mp some_
        obtain ⟨failed, differs⟩ := create_left_empty found absent slot (Nat.lt_of_not_le full)
        rw [step, failed, Except.ok.injEq, Prod.mk.injEq] at taken
        obtain ⟨rfl, rfl⟩ := taken
        exact differs (same (by decide))
    | mkdir _ | unlink _ | rename _ _ | nodeWrite _ _ _ => trivial
  · intro room
    obtain ⟨ret, after, taken⟩ := step_returns fs op (reachable_laid fs reached)
    refine ⟨ret, after, taken, fun failed => ?_⟩
    cases step_stepped fs after op ret taken with
    | refused => exact .refl fs
    | createdFull path data parent leaf id found absent slot full =>
        have fits := room parent leaf found absent (by simp [slot])
        omega
    | madeDir | created | truncated | unlinked | renamed | overwrote | grew => omega

/-- One byte more than the pool holds, into an empty filesystem. -/
theorem oversized_create_leaves_a_file : ∃ data after, Reachable emptyFs ∧
    create emptyFs [47, 102] data = .ok (-1, after) ∧ ¬ SameTree emptyFs after ∧
    contents emptyFs 1 = none ∧ contents after 1 = some [] := by
  have found : resolveParent emptyFs [47, 102] = .ok (some (0, [102])) := by decide +kernel
  have absent : childOf emptyFs 0 [102] = none := by decide
  have slot : freeSlot emptyFs = some 1 := by decide
  have full : tnPool < emptyFs.poolUsed + (List.replicate (tnPool + 1) (0 : UInt8)).length := by
    rw [List.length_replicate]
    exact Nat.lt_of_lt_of_le (Nat.lt_succ_self tnPool) (Nat.le_add_left _ _)
  obtain ⟨failed, differs⟩ := create_left_empty found absent slot full
  exact ⟨_, _, emptyFs_reachable, failed, differs, by decide,
    attach_file_contents emptyFs 1 0 [102] (by decide)⟩

theorem failed_calls_change_nothing_duplicate : ∃ fs after, Reachable fs ∧
    mkdir fs [47, 100] = .ok (-1, after) ∧ SameTree fs after := by
  have made : (do
      let (_, fs) ← mkdir emptyFs [47, 100]
      let (ret, _) ← mkdir fs [47, 100]
      return ret) = Except.ok (-1 : Int) := by decide +kernel
  obtain ⟨⟨ret, fs⟩, first, rest⟩ := (bind_ok _ _ _).mp made
  obtain ⟨⟨again, after⟩, second, last⟩ := (bind_ok _ _ _).mp rest
  cases last
  have reached : Reachable fs := ⟨_, .single ⟨.mkdir [47, 100], ret, trivial, first⟩⟩
  obtain ⟨_, _, taken, same⟩ := (failed_calls_change_nothing fs reached (.mkdir [47, 100])).mpr trivial
  cases second.symm.trans taken
  exact ⟨fs, after, reached, second, same (by decide)⟩

end Shizuku.Tmpfs
