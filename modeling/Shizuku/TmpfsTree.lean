import Shizuku.ParentForest
import Shizuku.TmpfsPaths

/-!
The shape of the node table over whole runs. `resolve_parent` does not look at
the type of the node its last component is created in, and `rename` does not
look where the new parent lies. What the calls keep therefore depends on the
paths they are given, and the two guards below say on what exactly.
-/

namespace Shizuku.Tmpfs

open Machine ParentForest

def parentOf (fs : Fs) : Nat → Nat := fun id => (fs.nodes id).parent

/-! Parents of used nodes are directories. -/

def WellTyped (fs : Fs) : Prop :=
  ∀ id, Used fs id → (fs.nodes id).parent < tnMax ∧ (fs.nodes (fs.nodes id).parent).typ = .dir

structure Typed (fs : Fs) : Prop where
  root : (fs.nodes 0).typ = .dir
  parents : WellTyped fs

/-- A call given this path gets past `resolve_parent` and `child_of`, and its
entry is to stand in `parent`. -/
def Enters (fs : Fs) (path : Path) (parent : Nat) : Prop :=
  ∃ leaf, resolveParent fs path = .ok (some (parent, leaf)) ∧ childOf fs parent leaf = none

/-- The rename moves node `id` into `parent`. -/
def Moves (fs : Fs) (oldp newp : Path) (id parent : Nat) : Prop :=
  resolve fs oldp = .ok (some id) ∧ id ≠ 0 ∧ Enters fs newp parent

/-- The call makes no entry in a file. A call that returns before it makes one
is free. -/
def DirectoryPart (fs : Fs) : Op → Prop
  | .mkdir path | .create path _ =>
      ∀ parent, Enters fs path parent → freeSlot fs ≠ none → (fs.nodes parent).typ ≠ .file
  | .rename oldp newp => ∀ id parent, Moves fs oldp newp id parent → (fs.nodes parent).typ ≠ .file
  | .unlink _ | .nodeWrite _ _ _ => True

theorem grounded_typed (fs : Fs) (typed : Typed fs) (id : Nat) (grounded : Grounded fs id)
    (notFile : (fs.nodes id).typ ≠ .file) : (fs.nodes id).typ = .dir := by
  by_cases root : id = 0
  · rw [root]
    exact typed.root
  · have used := grounded.used root
    cases kind : (fs.nodes id).typ with
    | free => exact absurd kind used
    | file => exact absurd kind notFile
    | dir => rfl

theorem resolved_parent (fs : Fs) (path : Path) (parent : Nat) (leaf : List UInt8)
    (found : resolveParent fs path = .ok (some (parent, leaf))) :
    dirNamedBy fs path = some parent ∧ leafName leaf = some leaf := by
  obtain ⟨result, done, named⟩ := resolveParent_dirNamedBy fs path
  rw [done, Except.ok.injEq] at found
  exact named parent leaf found

theorem init_typed (boot : Fs) : Typed (init boot) := by
  refine ⟨by simp [init], fun id used => ?_⟩
  have root : id = 0 := by
    by_contra free
    exact used.2 (by simp [init, free, TNode.free])
  subst id
  exact ⟨by simp [init, TNode.free, tnMax], by simp [init, TNode.free]⟩

theorem setNode_typ (fs : Fs) (id : Nat) (node : TNode) (same : node.typ = (fs.nodes id).typ)
    (other : Nat) : ((fs.setNode id node).nodes other).typ = (fs.nodes other).typ := by
  by_cases here : other = id
  · rw [here, setNode_same, same]
  · rw [setNode_other fs id other node here]

theorem setNode_parent (fs : Fs) (id : Nat) (node : TNode)
    (same : node.parent = (fs.nodes id).parent) (other : Nat) :
    ((fs.setNode id node).nodes other).parent = (fs.nodes other).parent := by
  by_cases here : other = id
  · rw [here, setNode_same, same]
  · rw [setNode_other fs id other node here]

def SameShape (before after : Fs) : Prop :=
  (∀ id, (after.nodes id).typ = (before.nodes id).typ) ∧
    ∀ id, (after.nodes id).parent = (before.nodes id).parent

theorem place_shape (fs : Fs) (id : Nat) (data : List UInt8) : SameShape fs (fs.place id data) :=
  ⟨setNode_typ fs id _ rfl, setNode_parent fs id _ rfl⟩

theorem relocate_shape (fs : Fs) (id need : Nat) : SameShape fs (fs.relocate id need) :=
  ⟨setNode_typ fs id _ rfl, setNode_parent fs id _ rfl⟩

theorem overwrite_shape (fs : Fs) (id off : Nat) (buf : List UInt8) :
    SameShape fs (fs.overwrite id off buf) :=
  ⟨fun _ => rfl, fun _ => rfl⟩

theorem shape_wellTyped (before after : Fs) (shape : SameShape before after) :
    WellTyped after ↔ WellTyped before := by
  obtain ⟨types, parents⟩ := shape
  have used : ∀ id, Used after id ↔ Used before id := fun id => by simp [Used, types]
  simp only [WellTyped, used, types, parents]

theorem shape_typed (before after : Fs) (shape : SameShape before after) (typed : Typed before) :
    Typed after :=
  ⟨by rw [shape.1]; exact typed.root, (shape_wellTyped before after shape).mpr typed.parents⟩

theorem root_directory (fs : Fs) (reached : Reachable fs) : (fs.nodes 0).typ = .dir := by
  obtain ⟨boot, run⟩ := reached
  refine run_invariant step _ (fun fs => (fs.nodes 0).typ = .dir) ?_ run (by simp [init])
  intro before op ret after root _ taken
  cases step_stepped before after op ret taken with
  | refused => exact root
  | madeDir path parent leaf id _ _ slot | createdFull path data parent leaf id _ _ slot =>
      have positive := (freeSlot_some before id slot).1
      rw [Fs.attach, setNode_other before id 0 _ (by omega)]
      exact root
  | created path data parent leaf id _ _ slot =>
      have positive := (freeSlot_some before id slot).1
      rw [(place_shape _ id data).1, Fs.attach, setNode_other before id 0 _ (by omega)]
      exact root
  | truncated path data parent leaf id => exact ((place_shape before id data).1 0).trans root
  | unlinked path id _ nonroot =>
      rw [Fs.detach, setNode_other before id 0 _ nonroot.symm]
      exact root
  | renamed oldp newp id parent leaf =>
      have kept : ∀ other, ((before.move id parent leaf).nodes other).typ = (before.nodes other).typ :=
        setNode_typ before id _ rfl
      exact (kept 0).trans root
  | overwrote => exact root
  | grew id off buf => exact ((relocate_shape before id.toNat (off + buf.length)).1 0).trans root

theorem attach_typed (fs : Fs) (id parent : Nat) (name : List UInt8) (typ : VnType)
    (typed : Typed fs) (slot : freeSlot fs = some id) (inside : parent < tnMax)
    (dir : (fs.nodes parent).typ = .dir) : Typed (fs.attach id parent name typ) := by
  -- The slot taken was free, so no used node can have had it as parent.
  obtain ⟨positive, _, free⟩ := freeSlot_some fs id slot
  have kept : ∀ other, other ≠ id →
      (fs.attach id parent name typ).nodes other = fs.nodes other :=
    fun other different => setNode_other fs id other _ different
  have notParent : parent ≠ id := by
    rintro rfl
    rw [free] at dir
    cases dir
  refine ⟨by rw [kept 0 (by omega)]; exact typed.root, fun other used => ?_⟩
  by_cases same : other = id
  · subst other
    simp only [Fs.attach, setNode_same]
    exact ⟨inside, by rw [setNode_other fs id parent _ notParent]; exact dir⟩
  · have before := typed.parents other ⟨used.1, by rw [← kept other same]; exact used.2⟩
    have different : (fs.nodes other).parent ≠ id := by
      intro hit
      rw [hit, free] at before
      cases before.2
    rw [kept other same, kept _ different]
    exact before

theorem detach_typed (fs : Fs) (id : Nat) (typed : Typed fs) (nonroot : id ≠ 0)
    (file : (fs.nodes id).typ = .file) : Typed (fs.detach id) := by
  -- An unlinked node is a file, and a file is nobody's parent.
  have kept : ∀ other, other ≠ id → (fs.detach id).nodes other = fs.nodes other :=
    fun other different => setNode_other fs id other _ different
  refine ⟨by rw [kept 0 (Ne.symm nonroot)]; exact typed.root, fun other used => ?_⟩
  by_cases same : other = id
  · subst other
    exact absurd (by simp [Fs.detach]) used.2
  · have before := typed.parents other ⟨used.1, by rw [← kept other same]; exact used.2⟩
    have different : (fs.nodes other).parent ≠ id := by
      intro hit
      rw [hit, file] at before
      cases before.2
    rw [kept other same, kept _ different]
    exact before

theorem move_typed (fs : Fs) (id parent : Nat) (name : List UInt8) (typed : Typed fs)
    (inside : parent < tnMax) (dir : (fs.nodes parent).typ = .dir) :
    Typed (fs.move id parent name) := by
  have types : ∀ other, ((fs.move id parent name).nodes other).typ = (fs.nodes other).typ :=
    setNode_typ fs id _ rfl
  refine ⟨by rw [types]; exact typed.root, fun other used => ?_⟩
  rw [types]
  by_cases same : other = id
  · subst other
    simp only [Fs.move, setNode_same]
    exact ⟨inside, dir⟩
  · have kept : (fs.move id parent name).nodes other = fs.nodes other :=
      setNode_other fs id other _ same
    rw [kept]
    exact typed.parents other ⟨used.1, by rw [← kept]; exact used.2⟩

theorem step_typed (fs after : Fs) (op : Op) (ret : Int) (typed : Typed fs)
    (directory : DirectoryPart fs op) (taken : step fs op = .ok (ret, after)) : Typed after := by
  have target : ∀ path parent leaf, resolveParent fs path = .ok (some (parent, leaf)) →
      (fs.nodes parent).typ ≠ .file → parent < tnMax ∧ (fs.nodes parent).typ = .dir := by
    intro path parent leaf found notFile
    have grounded := dirNamedBy_grounded fs path parent (resolved_parent fs path parent leaf found).1
    exact ⟨grounded.inside, grounded_typed fs typed parent grounded notFile⟩
  cases step_stepped fs after op ret taken with
  | refused => exact typed
  | madeDir path parent leaf id found absent slot =>
      have notFile := directory parent ⟨leaf, found, absent⟩ (by simp [slot])
      obtain ⟨inside, dir⟩ := target path parent leaf found notFile
      exact attach_typed fs id parent leaf .dir typed slot inside dir
  | createdFull path data parent leaf id found absent slot =>
      have notFile := directory parent ⟨leaf, found, absent⟩ (by simp [slot])
      obtain ⟨inside, dir⟩ := target path parent leaf found notFile
      exact attach_typed fs id parent leaf .file typed slot inside dir
  | created path data parent leaf id found absent slot =>
      have notFile := directory parent ⟨leaf, found, absent⟩ (by simp [slot])
      obtain ⟨inside, dir⟩ := target path parent leaf found notFile
      exact shape_typed _ _ (place_shape _ id data)
        (attach_typed fs id parent leaf .file typed slot inside dir)
  | truncated path data parent leaf id => exact shape_typed _ _ (place_shape fs id data) typed
  | unlinked path id _ nonroot _ file => exact detach_typed fs id typed nonroot file
  | renamed oldp newp id parent leaf source nonroot _ found absent =>
      have notFile := directory id parent ⟨source, nonroot, leaf, found, absent⟩
      obtain ⟨inside, dir⟩ := target newp parent leaf found notFile
      exact move_typed fs id parent leaf typed inside dir
  | overwrote id off buf => exact shape_typed _ _ (overwrite_shape fs id.toNat off buf) typed
  | grew id off buf =>
      exact shape_typed _ _ (overwrite_shape _ id.toNat off buf)
        (shape_typed _ _ (relocate_shape fs id.toNat _) typed)

/-- In every run whose calls make no entry in a file, the parent of every used
node is a used directory. -/
theorem parents_are_directories (boot fs : Fs) (run : Run step DirectoryPart (init boot) fs) :
    ∀ id, Used fs id →
      Used fs (fs.nodes id).parent ∧ (fs.nodes (fs.nodes id).parent).typ = .dir := by
  have typed := run_invariant step DirectoryPart Typed
    (fun before op ret after inv admitted taken =>
      step_typed before after op ret inv admitted taken) run (init_typed boot)
  intro id used
  obtain ⟨inside, dir⟩ := typed.parents id used
  exact ⟨⟨inside, by simp [dir]⟩, dir⟩

theorem parents_are_directories_nested : ∃ fs, Run step DirectoryPart emptyFs fs ∧
    Used fs (fs.nodes 2).parent ∧ (fs.nodes (fs.nodes 2).parent).typ = .dir := by
  have evaluated : (do
      let (_, first) ← mkdir emptyFs [47, 100]
      let (_, second) ← create first [47, 100, 47, 102] [1]
      return (dirNamedBy first [47, 100, 47, 102], (first.nodes 1).typ, (second.nodes 2).typ)) =
      Except.ok (some 1, VnType.dir, VnType.file) := by
    decide +kernel
  obtain ⟨⟨one, first⟩, made, rest⟩ := (bind_ok _ _ _).mp evaluated
  obtain ⟨⟨two, second⟩, created, last⟩ := (bind_ok _ _ _).mp rest
  simp only [pure_ok, Except.ok.injEq, Prod.mk.injEq] at last
  obtain ⟨named, dir, file⟩ := last
  have noDirPart : dirNamedBy emptyFs [47, 100] = some 0 := by decide +kernel
  have run : Run step DirectoryPart emptyFs second := by
    refine .tail (.single ⟨.mkdir [47, 100], one, ?_, made⟩)
      ⟨.create [47, 100, 47, 102] [1], two, ?_, created⟩
    · rintro parent ⟨leaf, found, _⟩ _
      have same := noDirPart.symm.trans (resolved_parent _ _ parent leaf found).1
      rw [← Option.some.inj same]
      decide
    · rintro parent ⟨leaf, found, _⟩ _
      have same := named.symm.trans (resolved_parent _ _ parent leaf found).1
      rw [← Option.some.inj same, dir]
      decide
  exact ⟨second, run, parents_are_directories _ second run 2 ⟨by decide, by simp [file]⟩⟩

theorem attach_below_file (fs : Fs) (id parent : Nat) (leaf : List UInt8) (typ : VnType)
    (slot : freeSlot fs = some id) (file : (fs.nodes parent).typ = .file) :
    ¬ WellTyped (fs.attach id parent leaf typ) := by
  intro wellTyped
  obtain ⟨_, inside, free⟩ := freeSlot_some fs id slot
  have used : Used (fs.attach id parent leaf typ) id :=
    ⟨inside, by by_cases kind : typ = .file <;> simp [Fs.attach, kind]⟩
  have dir := (wellTyped id used).2
  have notSelf : parent ≠ id := by
    rintro rfl
    rw [free] at file
    cases file
  simp only [Fs.attach, setNode_same, setNode_other fs id parent _ notSelf, file] at dir
  cases dir

theorem move_below_file (fs : Fs) (id parent : Nat) (leaf : List UInt8) (used : Used fs id)
    (file : (fs.nodes parent).typ = .file) : ¬ WellTyped (fs.move id parent leaf) := by
  intro wellTyped
  have dir := (wellTyped id ⟨used.1, by simpa [Fs.move] using used.2⟩).2
  have types := setNode_typ fs id { fs.nodes id with parent := parent, name := nameField leaf }
    rfl parent
  simp only [Fs.move, setNode_same] at dir
  rw [types, file] at dir
  cases dir

theorem Moves.used {fs : Fs} {oldp newp : Path} {id parent : Nat}
    (moves : Moves fs oldp newp id parent) : Used fs id := by
  have named := Except.ok.inj ((resolve_namedBy fs oldp).symm.trans moves.1)
  have grounded := namedBy_grounded fs oldp id named
  exact ⟨grounded.inside, grounded.used moves.2.1⟩

theorem Moves.moved {fs : Fs} {oldp newp : Path} {id parent : Nat}
    (moves : Moves fs oldp newp id parent) :
    ∃ leaf, rename fs oldp newp = .ok (0, fs.move id parent leaf) := by
  have used := moves.used
  obtain ⟨source, nonroot, leaf, found, absent⟩ := moves
  exact ⟨leaf, by simp [rename, source, nonroot, found, absent, index, used.1]⟩

/-- The guard leaves out only the calls that break the typing. -/
theorem file_part_breaks (fs after : Fs) (op : Op) (ret : Int) (below : ¬ DirectoryPart fs op)
    (taken : step fs op = .ok (ret, after)) : ¬ WellTyped after := by
  cases op with
  | unlink path => exact absurd trivial below
  | nodeWrite id off buf => exact absurd trivial below
  | mkdir path =>
      simp only [DirectoryPart, not_forall, not_not] at below
      obtain ⟨parent, ⟨leaf, found, absent⟩, room, file⟩ := below
      obtain ⟨id, slot⟩ := Option.ne_none_iff_exists'.mp room
      simp only [step, mkdir, found, ok_bind, absent, allocNode, slot] at taken
      cases taken
      exact attach_below_file fs id parent leaf .dir slot file
  | create path data =>
      simp only [DirectoryPart, not_forall, not_not] at below
      obtain ⟨parent, ⟨leaf, found, absent⟩, room, file⟩ := below
      obtain ⟨id, slot⟩ := Option.ne_none_iff_exists'.mp room
      have broken := attach_below_file fs id parent leaf .file slot file
      simp only [step, create, found, ok_bind, absent, allocNode, slot] at taken
      rcases storeFile_ok _ _ _ _ _ taken with ⟨_, _, rfl⟩ | ⟨_, _, rfl⟩
      · exact broken
      · rwa [shape_wellTyped _ _ (place_shape _ id data)]
  | rename oldp newp =>
      simp only [DirectoryPart, not_forall, not_not] at below
      obtain ⟨id, parent, moves, file⟩ := below
      obtain ⟨leaf, moved⟩ := moves.moved
      cases moved.symm.trans taken
      exact move_below_file fs id parent leaf moves.used file

/-- `/f` is a file, and `mkdir("/f/d")` still succeeds. -/
theorem file_with_child : ¬ ∀ fs, Reachable fs → ∀ id, Used fs id →
    Used fs (fs.nodes id).parent ∧ (fs.nodes (fs.nodes id).parent).typ = .dir := by
  intro always
  have evaluated : (do
      let (_, first) ← create emptyFs [47, 102] []
      let (_, second) ← mkdir first [47, 102, 47, 100]
      return ((second.nodes 2).typ, (second.nodes 2).parent, (second.nodes 1).typ)) =
      Except.ok (VnType.dir, 1, VnType.file) := by
    decide +kernel
  obtain ⟨⟨one, first⟩, created, rest⟩ := (bind_ok _ _ _).mp evaluated
  obtain ⟨⟨two, second⟩, made, last⟩ := (bind_ok _ _ _).mp rest
  simp only [pure_ok, Except.ok.injEq, Prod.mk.injEq] at last
  obtain ⟨dir, parent, file⟩ := last
  have reached : Reachable second :=
    ⟨_, .tail (.single ⟨.create [47, 102] [], one, trivial, created⟩)
      ⟨.mkdir [47, 102, 47, 100], two, trivial, made⟩⟩
  have typed := (always second reached 2 ⟨by decide, by simp [dir]⟩).2
  rw [parent, file] at typed
  cases typed

/-! Parent links lead to the root. Freed slots keep their parent, and the
invariant speaks of them too: a recycled slot may still have stale children. -/

structure Rooted (fs : Fs) : Prop where
  fixed : parentOf fs 0 = 0
  closed : ∀ id, id < tnMax → parentOf fs id < tnMax
  attached : ∀ id, id < tnMax → Under (parentOf fs) 0 id

/-- A rename that moves a node moves it neither into itself nor below it. -/
def OutsideItself (fs : Fs) : Op → Prop
  | .rename oldp newp =>
      ∀ id parent, Moves fs oldp newp id parent → ¬ Under (parentOf fs) id parent
  | .mkdir _ | .create _ _ | .unlink _ | .nodeWrite _ _ _ => True

theorem init_rooted (boot : Fs) : Rooted (init boot) := by
  have zero : ∀ id, parentOf (init boot) id = 0 := by
    intro id
    by_cases root : id = 0 <;> simp [parentOf, init, root, TNode.free]
  refine ⟨zero 0, fun id _ => ?_, fun id _ => ⟨1, zero id⟩⟩
  rw [zero]
  decide

theorem rooted_congr (before after : Fs)
    (parents : ∀ id, (after.nodes id).parent = (before.nodes id).parent) (rooted : Rooted before) :
    Rooted after := by
  have same : parentOf after = parentOf before := funext parents
  exact ⟨by rw [same]; exact rooted.fixed, by rw [same]; exact rooted.closed,
    by rw [same]; exact rooted.attached⟩

theorem parentOf_update (fs : Fs) (id parent : Nat) (node : TNode) (placed : node.parent = parent) :
    parentOf (fs.setNode id node) = Function.update (parentOf fs) id parent := by
  funext other
  by_cases same : other = id
  · rw [same, Function.update_self]
    simp [parentOf, placed]
  · rw [Function.update_of_ne same]
    simp [parentOf, setNode_other fs id other node same]

theorem reparent_rooted (fs : Fs) (id parent : Nat) (node : TNode) (rooted : Rooted fs)
    (placed : node.parent = parent) (nonroot : id ≠ 0) (inside : parent < tnMax)
    (outside : ¬ Under (parentOf fs) id parent) : Rooted (fs.setNode id node) := by
  have moved := parentOf_update fs id parent node placed
  refine ⟨?_, fun other bound => ?_, fun other bound => ?_⟩
  · rw [moved, Function.update_of_ne (Ne.symm nonroot)]
    exact rooted.fixed
  · rw [moved]
    by_cases same : other = id
    · rwa [same, Function.update_self]
    · rw [Function.update_of_ne same]
      exact rooted.closed other bound
  · rw [moved]
    exact under_update (parentOf fs) 0 id parent (rooted.attached parent inside) outside other
      (rooted.attached other bound)

theorem grounded_iterate (fs : Fs) (rooted : Rooted fs) (id : Nat) (grounded : Grounded fs id)
    (count : Nat) : Grounded fs ((parentOf fs)^[count] id) := by
  induction count with
  | zero => exact grounded
  | succ count ih =>
      rw [Function.iterate_succ_apply']
      by_cases root : (parentOf fs)^[count] id = 0
      · rw [root, rooted.fixed]
        exact .root
      · exact ih.parent root

theorem free_not_above (fs : Fs) (rooted : Rooted fs) (id node : Nat) (nonroot : id ≠ 0)
    (free : (fs.nodes id).typ = .free) (grounded : Grounded fs node) :
    ¬ Under (parentOf fs) id node := by
  -- The way up from a grounded node meets used nodes only, so not a free slot.
  rintro ⟨count, hit⟩
  have above := grounded_iterate fs rooted node grounded count
  rw [hit] at above
  exact above.used nonroot free

theorem attach_rooted (fs : Fs) (path : Path) (id parent : Nat) (leaf : List UInt8)
    (typ : VnType) (rooted : Rooted fs)
    (found : resolveParent fs path = .ok (some (parent, leaf))) (slot : freeSlot fs = some id) :
    Rooted (fs.attach id parent leaf typ) := by
  have grounded := dirNamedBy_grounded fs path parent (resolved_parent fs path parent leaf found).1
  obtain ⟨positive, _, free⟩ := freeSlot_some fs id slot
  exact reparent_rooted fs id parent _ rooted rfl (by omega) grounded.inside
    (free_not_above fs rooted id parent (by omega) free grounded)

theorem step_rooted (fs after : Fs) (op : Op) (ret : Int) (rooted : Rooted fs)
    (outside : OutsideItself fs op) (taken : step fs op = .ok (ret, after)) : Rooted after := by
  cases step_stepped fs after op ret taken with
  | refused => exact rooted
  | madeDir path parent leaf id found _ slot =>
      exact attach_rooted fs path id parent leaf .dir rooted found slot
  | createdFull path data parent leaf id found _ slot =>
      exact attach_rooted fs path id parent leaf .file rooted found slot
  | created path data parent leaf id found _ slot =>
      exact rooted_congr _ _ (place_shape _ id data).2
        (attach_rooted fs path id parent leaf .file rooted found slot)
  | truncated path data parent leaf id => exact rooted_congr _ _ (place_shape fs id data).2 rooted
  | unlinked path id => exact rooted_congr _ _ (setNode_parent fs id _ rfl) rooted
  | renamed oldp newp id parent leaf source nonroot _ found absent =>
      have named := (resolved_parent fs newp parent leaf found).1
      exact reparent_rooted fs id parent _ rooted rfl nonroot
        (dirNamedBy_grounded fs newp parent named).inside
        (outside id parent ⟨source, nonroot, leaf, found, absent⟩)
  | overwrote id off buf => exact rooted_congr _ _ (overwrite_shape fs id.toNat off buf).2 rooted
  | grew id off buf =>
      exact rooted_congr _ _ (overwrite_shape _ id.toNat off buf).2
        (rooted_congr _ _ (relocate_shape fs id.toNat _).2 rooted)

/-- In every run that renames no node under itself, the parent links of every
used node reach the root within the size of the table. -/
theorem links_reach_root (boot fs : Fs) (run : Run step OutsideItself (init boot) fs) :
    ∀ id, Used fs id → ∃ count, count ≤ tnMax ∧ (parentOf fs)^[count] id = 0 := by
  have rooted := run_invariant step OutsideItself Rooted
    (fun before op ret after inv admitted taken =>
      step_rooted before after op ret inv admitted taken) run (init_rooted boot)
  intro id used
  obtain ⟨count, bound, arrives⟩ := under_bound (parentOf fs) 0 id (Finset.range tnMax)
    (fun item member => Finset.mem_range.mpr (rooted.closed item (Finset.mem_range.mp member)))
    (Finset.mem_range.mpr used.1) (rooted.attached id used.1)
  rw [Finset.card_range] at bound
  exact ⟨count, Nat.le_of_lt bound, arrives⟩

theorem links_reach_root_moved : ∃ fs, Run step OutsideItself emptyFs fs ∧
    (fs.nodes 1).parent = 2 ∧ ∃ count, count ≤ tnMax ∧ (parentOf fs)^[count] 1 = 0 := by
  have evaluated : (do
      let (_, first) ← mkdir emptyFs [47, 97]
      let (_, second) ← mkdir first [47, 98]
      let (_, third) ← rename second [47, 97] [47, 98, 47, 99]
      return (namedBy second [47, 97], dirNamedBy second [47, 98, 47, 99], parentOf second 2,
        parentOf second 0, (third.nodes 1).typ, (third.nodes 1).parent)) =
      Except.ok (some 1, some 2, 0, 0, VnType.dir, 2) := by
    decide +kernel
  obtain ⟨⟨one, first⟩, made, rest⟩ := (bind_ok _ _ _).mp evaluated
  obtain ⟨⟨two, second⟩, other, more⟩ := (bind_ok _ _ _).mp rest
  obtain ⟨⟨three, third⟩, moved, last⟩ := (bind_ok _ _ _).mp more
  simp only [pure_ok, Except.ok.injEq, Prod.mk.injEq] at last
  obtain ⟨source, target, up, root, dir, parent⟩ := last
  have apart : ¬ Under (parentOf second) 1 2 := by
    rintro ⟨count, hit⟩
    cases count with
    | zero => cases hit
    | succ count =>
        rw [Function.iterate_succ_apply, up, iterate_root _ _ root] at hit
        cases hit
  have run : Run step OutsideItself emptyFs third := by
    refine .tail (.tail (.single ⟨.mkdir [47, 97], one, trivial, made⟩)
      ⟨.mkdir [47, 98], two, trivial, other⟩)
      ⟨.rename [47, 97] [47, 98, 47, 99], three, ?_, moved⟩
    rintro id place ⟨named, _, leaf, found, _⟩
    have one := source.symm.trans (Except.ok.inj ((resolve_namedBy _ _).symm.trans named))
    have two := target.symm.trans (resolved_parent _ _ place leaf found).1
    rw [← Option.some.inj one, ← Option.some.inj two]
    exact apart
  exact ⟨third, run, parent, links_reach_root _ third run 1 ⟨by decide, by simp [dir]⟩⟩

/-- The guard leaves out only the renames that detach a subtree. -/
theorem rename_into_itself_detaches (fs after : Fs) (oldp newp : Path) (ret : Int)
    (rooted : Rooted fs) (inside : ¬ OutsideItself fs (.rename oldp newp))
    (taken : rename fs oldp newp = .ok (ret, after)) :
    ∃ id, Used after id ∧ ¬ Under (parentOf after) 0 id := by
  simp only [OutsideItself, not_forall, not_not] at inside
  obtain ⟨id, parent, moves, below⟩ := inside
  obtain ⟨leaf, moved⟩ := moves.moved
  cases moved.symm.trans taken
  refine ⟨id, ⟨moves.used.1, by simpa [Fs.move] using moves.used.2⟩, ?_⟩
  rw [show parentOf (fs.move id parent leaf) = _ from parentOf_update fs id parent _ rfl]
  exact update_detached (parentOf fs) 0 id parent rooted.fixed moves.2.1 below

/-- `rename("/a", "/a/b")` makes the directory its own parent. -/
theorem directory_inside_itself : ¬ ∀ fs, Reachable fs → ∀ id, Used fs id →
    ∃ count, count ≤ tnMax ∧ (parentOf fs)^[count] id = 0 := by
  intro always
  have evaluated : (do
      let (_, first) ← mkdir emptyFs [47, 97]
      let (_, second) ← rename first [47, 97] [47, 97, 47, 98]
      return ((second.nodes 1).typ, parentOf second 1)) = Except.ok (VnType.dir, 1) := by
    decide +kernel
  obtain ⟨⟨one, first⟩, made, rest⟩ := (bind_ok _ _ _).mp evaluated
  obtain ⟨⟨two, second⟩, moved, last⟩ := (bind_ok _ _ _).mp rest
  simp only [pure_ok, Except.ok.injEq, Prod.mk.injEq] at last
  obtain ⟨dir, itself⟩ := last
  have reached : Reachable second :=
    ⟨_, .tail (.single ⟨.mkdir [47, 97], one, trivial, made⟩)
      ⟨.rename [47, 97] [47, 97, 47, 98], two, trivial, moved⟩⟩
  obtain ⟨count, _, arrives⟩ := always second reached 1 ⟨by decide, by simp [dir]⟩
  rw [iterate_root _ _ itself] at arrives
  cases arrives

end Shizuku.Tmpfs
