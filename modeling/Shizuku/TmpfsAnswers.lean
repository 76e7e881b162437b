import Shizuku.TmpfsRefinement

/-!
The calls of the filesystem over whole runs. Each allowed call on the node table does to
the tree of names what `treeStep` says; the table adds the refusals for want of a slot or
of pool space. The calls that `resolve_parent` and `rename` should refuse and do not are
left out by `Proper`. What is read from the table is then read from the tree.
-/

namespace Shizuku.Tmpfs

open ByteMemory Machine ParentForest NameTree

def Room (fs : Fs) : Op → Prop
  | .mkdir _ => freeSlot fs ≠ none
  | .create path data =>
      (placeOf fs.tree path = none → freeSlot fs ≠ none) ∧ fs.poolUsed + data.length ≤ tnPool
  | .nodeWrite id off buf => (fs.nodes id.toNat).size < off + buf.length →
      fs.poolUsed + (off + buf.length) ≤ tnPool
  | .unlink _ | .rename _ _ => True

inductive Stands (fs : Fs) : Op → TreeOp → Prop where
  | mkdir (path : Path) : Stands fs (.mkdir path) (.mkdir path)
  | create (path : Path) (data : List UInt8) : Stands fs (.create path data) (.create path data)
  | unlink (path : Path) : Stands fs (.unlink path) (.unlink path)
  | rename (oldp newp : Path) : Stands fs (.rename oldp newp) (.rename oldp newp)
  | write (id off : Nat) (buf : List UInt8) (names : Names)
      (reached : descend (childOf fs) 0 names = some id) :
      Stands fs (.nodeWrite id off buf) (.write (some names) off buf)
  | stray (id : Int) (off : Nat) (buf : List UInt8) (unused : id < 0 ∨ ¬ Used fs id.toNat) :
      Stands fs (.nodeWrite id off buf) (.write none off buf)

/-- How the table answers when the tree's answer is `next`. -/
inductive Answers (fs : Fs) : Op → Option Tree → Int → Fs → Prop where
  | done (op : Op) (ret : Int) (after : Fs) (room : Room fs op) (succeeded : 0 ≤ ret) :
      Answers fs op (some after.tree) ret after
  | refused (op : Op) : Answers fs op none (-1) fs
  | full (op : Op) (next : Tree) (noRoom : ¬ Room fs op) : Answers fs op (some next) (-1) fs
  | leftEmpty (path : Path) (data : List UInt8) (next : Tree) (after : Fs)
      (noRoom : ¬ Room fs (.create path data)) (new : placeOf fs.tree path = none)
      (shown : treeStep fs.tree (.create path []) = some after.tree) :
      Answers fs (.create path data) (some next) (-1) after

theorem Answers.none {fs : Fs} {op : Op} {next : Option Tree} (refuses : next = .none) :
    Answers fs op next (-1) fs :=
  refuses ▸ .refused op

theorem Answers.roomy {fs after : Fs} {op : Op} {next : Tree} {ret : Int}
    (answered : Answers fs op (some next) ret after) (room : Room fs op) :
    0 ≤ ret ∧ after.tree = next := by
  cases answered with
  | done _ _ _ _ succeeded => exact ⟨succeeded, rfl⟩
  | full _ _ noRoom => exact absurd room noRoom
  | leftEmpty _ _ _ _ noRoom => exact absurd room noRoom

structure Aims (fs : Fs) (path : Path) (above : Names) (leaf : List UInt8) (parent : Nat) : Prop where
  found : resolveParent fs path = .ok (some (parent, leaf))
  reached : descend (childOf fs) 0 above = some parent
  dir : (fs.nodes parent).typ = .dir
  good : GoodName leaf

section Aims
variable {fs : Fs} {path : Path} {above : Names} {leaf : List UInt8} {parent : Nat}
  (aims : Aims fs path above leaf parent)
include aims

theorem Aims.target (absent : childOf fs parent leaf = none) : Target fs above leaf parent :=
  ⟨aims.reached, aims.dir, aims.good, absent⟩

theorem Aims.below : descend (childOf fs) 0 (above ++ [leaf]) = childOf fs parent leaf := by
  rw [descend_snoc, aims.reached, Option.bind_some]

theorem Aims.child : fs.tree (above ++ [leaf]) = (childOf fs parent leaf).map (itemOf fs) := by
  rw [Fs.tree, aims.below]

theorem Aims.item (orderly : Orderly fs) : fs.tree above = some .dir :=
  (orderly.dir_iff aims.reached).mpr aims.dir

theorem Aims.place (orderly : Orderly fs) :
    placeOf fs.tree path = none ↔ childOf fs parent leaf = none := by
  have looked := resolve_below fs path parent leaf aims.found
  rw [if_pos aims.dir] at looked
  cases place : placeOf fs.tree path with
  | none =>
      rw [orderly.resolve_lost place, Except.ok.injEq] at looked
      simp [← looked]
  | some names =>
      obtain ⟨id, resolved, _⟩ := orderly.resolve_place place
      rw [resolved, Except.ok.injEq] at looked
      simp [← looked]

theorem Aims.targets (orderly : Orderly fs) : targetOf fs.tree path = some (above, leaf) := by
  obtain ⟨other, target, reached⟩ := orderly.found_target aims.found
  rw [target, orderly.links.distinct reached aims.reached]

theorem Aims.allowed (orderly : Orderly fs) {op : Op} (new : op.newPath = some path)
    (fresh : op.oldPath = none) (clean : NulFree op) : Allowed fs op := by
  refine ⟨clean, fun other here target found => ?_⟩
  cases new.symm.trans here
  cases (aims.targets orderly).symm.trans found
  exact ⟨aims.item orderly, fun oldp old => by cases fresh.symm.trans old⟩

end Aims

section Calls
variable {fs : Fs} (orderly : Orderly fs)
include orderly

theorem Orderly.stands (op : Op) : ∃ call, Stands fs op call := by
  cases op with
  | mkdir path => exact ⟨_, .mkdir path⟩
  | create path data => exact ⟨_, .create path data⟩
  | unlink path => exact ⟨_, .unlink path⟩
  | rename oldp newp => exact ⟨_, .rename oldp newp⟩
  | nodeWrite id off buf =>
      by_cases stray : id < 0 ∨ ¬ Used fs id.toNat
      · exact ⟨_, .stray id off buf stray⟩
      · push Not at stray
        obtain ⟨names, reached⟩ := orderly.reached stray.2
        obtain ⟨count, rfl⟩ := Int.eq_ofNat_of_zero_le stray.1
        exact ⟨_, .write count off buf names reached⟩

theorem Orderly.aims {path : Path} {above : Names} {leaf : List UInt8}
    (target : targetOf fs.tree path = some (above, leaf)) (clean : 0 ∉ path)
    (dir : fs.tree above = some .dir) :
    ∃ parent, Aims fs path above leaf parent := by
  obtain ⟨parent, found, reached⟩ := orderly.target_found target
  exact ⟨parent, found, reached, (orderly.dir_iff reached).mp dir,
    (resolveParent_good fs path parent leaf clean found).2⟩

theorem Orderly.mkdir_answers {path : Path} (allowed : Allowed fs (.mkdir path)) :
    ∃ ret after, mkdir fs path = .ok (ret, after) ∧
      Answers fs (.mkdir path) (treeStep fs.tree (.mkdir path)) ret after := by
  cases target : targetOf fs.tree path with
  | none =>
      exact ⟨-1, fs, by simp [mkdir, orderly.target_lost target], .none (by simp [treeStep, target])⟩
  | some both =>
      obtain ⟨above, leaf⟩ := both
      obtain ⟨parent, aims⟩ := orderly.aims target allowed.1 (allowed.2 path rfl _ target).1
      cases present : childOf fs parent leaf with
      | some id =>
          exact ⟨-1, fs, by simp [mkdir, aims.found, present],
            .none (by simp [treeStep, target, aims.child, present])⟩
      | none =>
          have next : treeStep fs.tree (.mkdir path) =
              some (Function.update fs.tree (above ++ [leaf]) (some .dir)) := by
            simp [treeStep, target, aims.item orderly, aims.child, present]
          rw [next]
          cases slot : freeSlot fs with
          | none =>
              refine ⟨-1, fs, by simp [mkdir, aims.found, allocNode, slot], ?_⟩
              exact .full _ _ (by simp [Room, slot])
          | some id =>
              have taken : mkdir fs path = .ok (0, fs.attach id parent leaf .dir) := by
                simp [mkdir, aims.found, present, allocNode, slot]
              have bare : contents fs id = none :=
                contents_none fs id (by simp [IsFile, (freeSlot_some fs id slot).2.2])
              have shown := attach_tree orderly (aims.target present) slot .dir
              rw [itemOf, attach_dir_contents fs id parent leaf slot, bare] at shown
              refine ⟨0, _, taken, ?_⟩
              rw [← shown]
              exact .done _ _ _ (by simp [Room, slot]) (by decide)

theorem Orderly.create_answers {path : Path} {data : List UInt8}
    (allowed : Allowed fs (.create path data)) :
    ∃ ret after, create fs path data = .ok (ret, after) ∧
      Answers fs (.create path data) (treeStep fs.tree (.create path data)) ret after := by
  cases target : targetOf fs.tree path with
  | none =>
      exact ⟨-1, fs, by simp [create, orderly.target_lost target], .none (by simp [treeStep, target])⟩
  | some both =>
      obtain ⟨above, leaf⟩ := both
      obtain ⟨parent, aims⟩ := orderly.aims target allowed.1 (allowed.2 path rfl _ target).1
      have next : ∀ bytes, fs.tree (above ++ [leaf]) ≠ some .dir →
          treeStep fs.tree (.create path bytes) =
            some (Function.update fs.tree (above ++ [leaf]) (some (.file bytes))) := by
        intro bytes other
        simp [treeStep, target, aims.item orderly, other]
      cases present : childOf fs parent leaf with
      | none =>
          have new := (aims.place orderly).mpr present
          have bare : fs.tree (above ++ [leaf]) ≠ some .dir := by simp [aims.child, present]
          rw [next data bare]
          cases slot : freeSlot fs with
          | none =>
              refine ⟨-1, fs, by simp [create, aims.found, present, allocNode, slot], ?_⟩
              exact .full _ _ (by simp [Room, slot, new])
          | some id =>
              -- the slot is taken before the pool is asked for space
              have inside := (freeSlot_some fs id slot).2.1
              by_cases fits : fs.poolUsed + data.length ≤ tnPool
              · have stored := storeFile_fits (fs.attach id parent leaf .file) id data inside fits
                refine ⟨id, _, by simp [create, aims.found, present, allocNode, slot, stored]; rfl, ?_⟩
                rw [← created_tree orderly (aims.target present) slot data]
                exact .done _ _ _ (by simp [Room, slot, fits]) (by omega)
              · have taken := (create_left_empty aims.found present slot (Nat.not_le.mp fits)).1
                have shown := attach_tree orderly (aims.target present) slot .file
                rw [itemOf_contents (attach_file_contents fs id parent leaf inside)] at shown
                refine ⟨-1, _, taken, .leftEmpty path data _ _ (by simp [Room, fits]) new ?_⟩
                rw [next [] bare, shown]
      | some id =>
          have reached := aims.below.trans present
          have used := orderly.used reached
          have read : nodeAt fs id = .ok (fs.nodes id) := (nodeAt_ok _ _ _).mpr ⟨used.1, rfl⟩
          have known : placeOf fs.tree path ≠ none := by
            rw [ne_eq, aims.place orderly, present]
            simp
          by_cases file : (fs.nodes id).typ = .file
          · have other : fs.tree (above ++ [leaf]) ≠ some .dir := by
              rw [ne_eq, orderly.dir_iff reached, file]
              decide
            rw [next data other]
            by_cases fits : fs.poolUsed + data.length ≤ tnPool
            · have stored := storeFile_fits fs id data used.1 fits
              refine ⟨id, fs.place id data,
                by simp [create, aims.found, present, read, file, stored], ?_⟩
              rw [← rewrite_tree orderly (place_shape fs id data) (place_name fs id data)
                (place_update fs id data orderly.laid ⟨used.1, file⟩) reached]
              exact .done _ _ _ (by simp [Room, known, fits]) (by omega)
            · refine ⟨-1, fs, ?_, .full _ _ (by simp [Room, fits])⟩
              simp [create, aims.found, present, read, storeFile, Nat.not_le.mp fits]
          · have shown := (orderly.dir_iff reached).mpr (used.dir file)
            exact ⟨-1, fs, by simp [create, aims.found, present, read, file],
              .none (by simp [treeStep, target, shown])⟩

theorem Orderly.unlink_answers {path : Path} :
    ∃ ret after, unlink fs path = .ok (ret, after) ∧
      Answers fs (.unlink path) (treeStep fs.tree (.unlink path)) ret after := by
  cases place : placeOf fs.tree path with
  | none =>
      exact ⟨-1, fs, by simp [unlink, orderly.resolve_lost place], .none (by simp [treeStep, place])⟩
  | some names =>
      obtain ⟨id, resolved, reached⟩ := orderly.resolve_place place
      have used := orderly.used reached
      have read : nodeAt fs id = .ok (fs.nodes id) := (nodeAt_ok _ _ _).mpr ⟨used.1, rfl⟩
      by_cases file : (fs.nodes id).typ = .file
      · have nonroot : id ≠ 0 := Nat.ne_of_gt (orderly.file_nonroot file)
        have other : fs.tree names ≠ some .dir := by
          rw [ne_eq, orderly.dir_iff reached, file]
          decide
        refine ⟨0, fs.detach id, by simp [unlink, resolved, nonroot, read, file], ?_⟩
        have next : treeStep fs.tree (.unlink path) = some (fs.detach id).tree := by
          simp [treeStep, place, other, detach_tree orderly reached nonroot file]
        rw [next]
        exact .done _ _ _ trivial (by decide)
      · have shown := (orderly.dir_iff reached).mpr (used.dir file)
        refine ⟨-1, fs, ?_, .none (by simp [treeStep, place, shown])⟩
        simp only [unlink, resolved, ok_bind, read]
        split <;> rfl

theorem Orderly.rename_answers {oldp newp : Path} (allowed : Allowed fs (.rename oldp newp)) :
    ∃ ret after, rename fs oldp newp = .ok (ret, after) ∧
      Answers fs (.rename oldp newp) (treeStep fs.tree (.rename oldp newp)) ret after := by
  cases place : placeOf fs.tree oldp with
  | none =>
      exact ⟨-1, fs, by simp [rename, orderly.resolve_lost place], .none (by simp [treeStep, place])⟩
  | some names =>
      obtain ⟨id, resolved, reached⟩ := orderly.resolve_place place
      by_cases root : id = 0
      · have empty : names = [] := orderly.links.distinct reached (root ▸ descend_nil)
        exact ⟨-1, fs, by simp [rename, resolved, root], .none (by simp [treeStep, place, empty])⟩
      cases target : targetOf fs.tree newp with
      | none =>
          exact ⟨-1, fs, by simp [rename, resolved, orderly.target_lost target],
            .none (by simp [treeStep, place, target])⟩
      | some both =>
          obtain ⟨above, leaf⟩ := both
          obtain ⟨parent, aims⟩ := orderly.aims target allowed.1.2 (allowed.2 newp rfl _ target).1
          cases present : childOf fs parent leaf with
          | some other =>
              exact ⟨-1, fs, by simp [rename, resolved, aims.found, present],
                .none (by simp [treeStep, place, target, aims.child, present])⟩
          | none =>
              have inside : index tnMax id = .ok () :=
                (index_ok _ _ ()).mpr (orderly.used reached).1
              have deep : names ≠ [] := by
                rintro rfl
                exact root (Option.some.inj reached).symm
              have outside := (allowed.2 newp rfl _ target).2 oldp rfl names place deep
              refine ⟨0, fs.move id parent leaf,
                by simp [rename, resolved, root, aims.found, present, inside], ?_⟩
              have next : treeStep fs.tree (.rename oldp newp) =
                  some (fs.move id parent leaf).tree := by
                simp [treeStep, place, target, deep, aims.item orderly, aims.child, present, outside,
                  move_tree orderly (aims.target present) reached root outside]
              rw [next]
              exact .done _ _ _ trivial (by decide)

omit orderly in
theorem nodeWrite_settled (laid : Laid fs) {id off : Nat} {bytes : List UInt8} (buf : List UInt8)
    (nonroot : 0 < id) (held : contents fs id = some bytes) :
    (off ≤ bytes.length ∧ Room fs (.nodeWrite id off buf) ∧
        ∃ after, nodeWrite fs id off buf = .ok (buf.length, after)) ∨
      (¬ (off ≤ bytes.length ∧ Room fs (.nodeWrite id off buf)) ∧
        nodeWrite fs id off buf = .ok (-1, fs)) := by
  have file : IsFile fs id := by
    by_contra other
    rw [contents_none fs id other] at held
    cases held
  have size := contents_length fs id bytes held
  have node : fileNode fs id = some (fs.nodes id) :=
    (fileNode_some _ _ _).mpr ⟨by omega, by simpa using file.1, by simpa using file.2, by simp⟩
  obtain ⟨ret, after, taken⟩ := nodeWrite_returns fs id off buf laid
  have run := taken
  simp only [nodeWrite, node] at run
  by_cases beyond : off > (fs.nodes id).size
  · exact .inr ⟨fun both => by omega, by simp [nodeWrite, node, beyond]⟩
  by_cases grows : off + buf.length > (fs.nodes id).size
  · by_cases full : fs.poolUsed + (off + buf.length) > tnPool
    · refine .inr ⟨fun both => ?_, by simp [nodeWrite, node, beyond, grows, full]⟩
      have fits : fs.poolUsed + (off + buf.length) ≤ tnPool := both.2 grows
      omega
    · simp only [beyond, grows, full, ↓reduceIte] at run
      obtain ⟨_, _, run⟩ := (bind_ok _ _ _).mp run
      obtain ⟨_, _, run⟩ := (bind_ok _ _ _).mp run
      obtain ⟨rfl, _⟩ := storeAt_ok _ _ _ _ _ _ run
      exact .inl ⟨by omega, fun _ => by omega, after, taken⟩
  · simp only [beyond, grows, ↓reduceIte] at run
    obtain ⟨rfl, _⟩ := storeAt_ok _ _ _ _ _ _ run
    exact .inl ⟨by omega, fun longer => absurd longer grows, after, taken⟩

omit orderly in
theorem written_shape {after : Fs} {id : Int} {off : Nat} {buf : List UInt8} {ret : Int}
    (taken : nodeWrite fs id off buf = .ok (ret, after)) :
    SameShape fs after ∧ ∀ key, (after.nodes key).name = (fs.nodes key).name := by
  cases nodeWrite_stepped fs after id off buf ret taken with
  | refused => exact ⟨⟨fun _ => rfl, fun _ => rfl⟩, fun _ => rfl⟩
  | overwrote => exact ⟨overwrite_shape fs id.toNat off buf, fun _ => rfl⟩
  | grew =>
      have shape := relocate_shape fs id.toNat (off + buf.length)
      have names : ∀ key, ((fs.relocate id.toNat (off + buf.length)).nodes key).name =
          (fs.nodes key).name := setNode_name fs id.toNat _ rfl
      exact ⟨⟨shape.1, shape.2⟩, names⟩

theorem Orderly.write_answers {id off : Nat} {buf : List UInt8} {names : Names}
    (reached : descend (childOf fs) 0 names = some id) :
    ∃ ret after, nodeWrite fs id off buf = .ok (ret, after) ∧
      Answers fs (.nodeWrite id off buf) (treeStep fs.tree (.write (some names) off buf)) ret after := by
  cases held : contents fs id with
  | none =>
      have shown : fs.tree names = some .dir := by
        rw [Fs.tree, reached, Option.map_some, itemOf, held]
      have other : (fs.nodes id).typ = .dir := (orderly.dir_iff reached).mp shown
      exact ⟨-1, fs, by simp [nodeWrite, fileNode, other], .none (by simp [treeStep, shown])⟩
  | some bytes =>
      have shown := (tree_file_iff reached).mpr held
      have nonroot := orderly.file_nonroot (itemOf_file (itemOf_contents held)).2
      rcases nodeWrite_settled orderly.laid buf nonroot held with
        ⟨start, room, after, taken⟩ | ⟨no, taken⟩
      · obtain ⟨_, again, _, _, changed⟩ := write_update fs after id off buf orderly.laid taken
        cases held.symm.trans again
        have shape := written_shape taken
        have next : treeStep fs.tree (.write (some names) off buf) = some after.tree := by
          simp [treeStep, shown, start, rewrite_tree orderly shape.1 shape.2 changed reached]
        refine ⟨_, after, taken, ?_⟩
        rw [next]
        exact .done _ _ _ room (by omega)
      · refine ⟨-1, fs, taken, ?_⟩
        by_cases start : off ≤ bytes.length
        · simpa [treeStep, shown, start] using
            Answers.full (.nodeWrite id off buf) _ fun room => no ⟨start, room⟩
        · exact .none (by simp [treeStep, shown, start])

theorem Orderly.answers {op : Op} (allowed : Allowed fs op) {call : TreeOp}
    (stands : Stands fs op call) :
    ∃ ret after, step fs op = .ok (ret, after) ∧ Answers fs op (treeStep fs.tree call) ret after := by
  cases stands with
  | mkdir path => exact orderly.mkdir_answers allowed
  | create path data => exact orderly.create_answers allowed
  | unlink path => exact orderly.unlink_answers
  | rename oldp newp => exact orderly.rename_answers allowed
  | write id off buf names reached => exact orderly.write_answers reached
  | stray id off buf unused =>
      have nothing : fileNode fs id = none := by
        refine Option.eq_none_iff_forall_ne_some.mpr fun node found => ?_
        obtain ⟨positive, inside, file, _⟩ := (fileNode_some _ _ _).mp found
        rcases unused with negative | free
        · omega
        · exact free ⟨inside, by rw [file]; decide⟩
      exact ⟨-1, fs, by simp [step, nodeWrite, nothing], .refused _⟩

/-- The allowed calls are within both guards of the table's shape. -/
theorem Orderly.guarded {op : Op} (allowed : Allowed fs op) :
    DirectoryPart fs op ∧ OutsideItself fs op := by
  have part : ∀ path, op.newPath = some path → ∀ parent, Enters fs path parent →
      (fs.nodes parent).typ ≠ .file := by
    rintro path new parent ⟨leaf, found, _⟩ file
    obtain ⟨above, target, reached⟩ := orderly.found_target found
    rw [(orderly.dir_iff reached).mp (allowed.2 path new _ target).1] at file
    cases file
  cases op with
  | unlink path => exact ⟨trivial, trivial⟩
  | nodeWrite id off buf => exact ⟨trivial, trivial⟩
  | mkdir path => exact ⟨fun parent enters _ => part path rfl parent enters, trivial⟩
  | create path data => exact ⟨fun parent enters _ => part path rfl parent enters, trivial⟩
  | rename oldp newp =>
      refine ⟨fun id parent moves => part newp rfl parent moves.2.2, ?_⟩
      rintro id parent ⟨named, root, leaf, found, _⟩ under
      obtain ⟨above, target, arrived⟩ := orderly.found_target found
      cases place : placeOf fs.tree oldp with
      | none => cases (orderly.resolve_lost place).symm.trans named
      | some names =>
          obtain ⟨other, resolved, reached⟩ := orderly.resolve_place place
          cases named.symm.trans resolved
          have deep : names ≠ [] := by
            rintro rfl
            exact root (Option.some.inj reached).symm
          exact (allowed.2 newp rfl _ target).2 oldp rfl names place deep
            (orderly.links.longer_of_under orderly.rooted.fixed root reached arrived under)

theorem Orderly.step {op : Op} {ret : Int} {after : Fs} (allowed : Allowed fs op)
    (taken : Tmpfs.step fs op = .ok (ret, after)) : Orderly after := by
  obtain ⟨directory, outside⟩ := orderly.guarded allowed
  exact ⟨step_laid fs after op ret orderly.laid taken,
    step_typed fs after op ret orderly.typed directory taken,
    step_rooted fs after op ret orderly.rooted outside taken,
    step_namespace fs after op ret orderly.names allowed.1 taken⟩

end Calls

theorem run_orderly (boot fs : Fs) (run : Run step Allowed (init boot) fs) : Orderly fs :=
  run_invariant step Allowed Orderly
    (fun _ _ _ _ orderly allowed taken => orderly.step allowed taken)
    run ⟨init_laid boot, init_typed boot, init_rooted boot, init_namespace boot⟩

theorem init_tree (boot : Fs) : (init boot).tree = bareTree := by
  have bare : ∀ above name, childOf (init boot) above name = none := by
    intro above name
    refine List.find?_eq_none.mpr fun id member => ?_
    have positive := ((mem_slots id).mp member).1
    simp [init, show id ≠ 0 by omega, TNode.free]
  funext names
  cases names using List.reverseRecOn with
  | nil => simp [Fs.tree, bareTree, itemOf, contents, IsFile, init]
  | append_singleton front last =>
      have lost : descend (childOf (init boot)) 0 (front ++ [last]) = none := by
        rw [descend_snoc, Option.bind_eq_none_iff]
        exact fun above _ => bare above last
      simp [Fs.tree, bareTree, lost]

/-- From the bare root on, every allowed call on the table is the call on the tree, as
long as there is room; the only trace of a call without room is an empty file. -/
theorem calls_act_on_the_tree (boot fs : Fs) (run : Run step Allowed (init boot) fs) :
    (init boot).tree = bareTree ∧
    ∀ op, Allowed fs op → ∃ call ret after, Stands fs op call ∧ step fs op = .ok (ret, after) ∧
      Answers fs op (treeStep fs.tree call) ret after := by
  have orderly := run_orderly boot fs run
  refine ⟨init_tree boot, fun op allowed => ?_⟩
  obtain ⟨call, stands⟩ := orderly.stands op
  obtain ⟨ret, after, taken, answered⟩ := orderly.answers allowed stands
  exact ⟨call, ret, after, stands, taken, answered⟩

instance (op : Op) : Decidable (NulFree op) := by
  cases op <;> unfold NulFree <;> infer_instance

instance (tree : Tree) (op : Op) : Decidable (Proper tree op) := by
  unfold Proper
  infer_instance

instance (fs : Fs) (op : Op) : Decidable (Allowed fs op) := inferInstanceAs (Decidable (_ ∧ _))

def twoDirectories : List Op :=
  [.mkdir [47, 97], .create [47, 97, 47, 120] [104, 105], .mkdir [47, 98]]

theorem twoDirectories_permitted : permits step Allowed emptyFs twoDirectories = true := by
  decide +kernel

theorem twoDirectories_done : ∃ rets fs, replay step emptyFs twoDirectories = .ok (rets, fs) := by
  have returned : (replay step emptyFs twoDirectories).map Prod.fst = .ok [0, 2, 0] := by
    decide +kernel
  obtain ⟨⟨rets, fs⟩, replayed, _⟩ := (map_ok _ _ _).mp returned
  exact ⟨rets, fs, replayed⟩

theorem calls_act_on_the_tree_moved : ∃ fs after, Run step Allowed emptyFs fs ∧
    rename fs [47, 97] [47, 98, 47, 99] = .ok (0, after) ∧
    after.tree = moved [[97]] [[98], [99]] fs.tree ∧
    after.tree [[98], [99], [120]] = some (.file [104, 105]) := by
  obtain ⟨rets, fs, replayed⟩ := twoDirectories_done
  have allowed : Allowed fs (.rename [47, 97] [47, 98, 47, 99]) :=
    of_decide_eq_true (value_of_ok replayed (fun done => decide (Allowed done.2 _))
      (by decide +kernel))
  have place : placeOf fs.tree [47, 97] = some [[97]] :=
    value_of_ok replayed (fun done => placeOf done.2.tree _) (by decide +kernel)
  have target : targetOf fs.tree [47, 98, 47, 99] = some ([[98]], [99]) :=
    value_of_ok replayed (fun done => targetOf done.2.tree _) (by decide +kernel)
  have items : [[[98]], [[98], [99]], [[97], [120]]].map fs.tree =
      [some .dir, none, some (.file [104, 105])] :=
    value_of_ok replayed (fun done => List.map done.2.tree _) (by decide +kernel)
  have returned : (rename fs [47, 97] [47, 98, 47, 99]).map Prod.fst = .ok 0 :=
    value_of_ok replayed (fun done => (rename done.2 _ _).map Prod.fst) (by decide +kernel)
  simp only [List.map_cons, List.map_nil, List.cons.injEq, and_true] at items
  obtain ⟨dir, fresh, file⟩ := items
  have run := permits_run step Allowed twoDirectories emptyFs fs rets twoDirectories_permitted replayed
  obtain ⟨call, ret, after, stands, taken, answered⟩ :=
    (calls_act_on_the_tree _ fs run).2 _ allowed
  cases stands
  have renamed : rename fs [47, 97] [47, 98, 47, 99] = .ok (ret, after) := taken
  rw [renamed] at returned
  obtain rfl : ret = 0 := Except.ok.inj returned
  have next : treeStep fs.tree (.rename [47, 97] [47, 98, 47, 99]) =
      some (moved [[97]] [[98], [99]] fs.tree) := by
    simp [treeStep, place, target, dir, fresh]
  rw [next] at answered
  generalize expected : some (moved [[97]] [[98], [99]] fs.tree) = tree at answered
  cases answered with
  | done =>
      have tree := (Option.some.inj expected).symm
      refine ⟨fs, after, run, renamed, tree, ?_⟩
      rw [tree]
      exact file

/-! ### What is read from the table -/

/-- The answers for a path that leads to the given item. -/
def Seen (fs : Fs) (path : Path) : Option FsItem → Prop
  | none => pathType fs path = .ok .free ∧ pathSize fs path = .ok (-1) ∧
      (∀ off len, readPath fs path off len = .ok (-1, [])) ∧ ∀ index, list fs path index = .ok none
  | some .dir => pathType fs path = .ok .dir ∧ pathSize fs path = .ok (-1) ∧
      ∀ off len, readPath fs path off len = .ok (-1, [])
  | some (.file bytes) => pathType fs path = .ok .file ∧
      pathSize fs path = .ok bytes.length ∧
      -- the code adds `off` and the length only for an offset inside the file
      (∀ off len, bytes.length < off ∨ off + len < 2 ^ 64 → readPath fs path off len =
        .ok (((min len (bytes.length - off) : Nat) : Int), (bytes.drop off).take len)) ∧
      ∀ index, list fs path index = .ok none

structure Lists (tree : Tree) (names : Names) (entries : List DirEnt) : Prop where
  once : (entries.map fun e => nameBytes e.name).Nodup
  complete : ∀ name, (tree (names ++ [name])).isSome ↔ ∃ e ∈ entries, nameBytes e.name = name
  dirs : ∀ e ∈ entries, e.typ = .dir ↔ tree (names ++ [nameBytes e.name]) = some .dir
  files : ∀ e ∈ entries, ∀ bytes, tree (names ++ [nameBytes e.name]) = some (.file bytes) →
    e.typ = .file ∧ e.size = bytes.length

theorem Orderly.seen {fs : Fs} (orderly : Orderly fs) (path : Path) :
    Seen fs path ((placeOf fs.tree path).bind fs.tree) := by
  cases place : placeOf fs.tree path with
  | none =>
      have lost := orderly.resolve_lost place
      refine ⟨?_, ?_, fun off len => ?_, fun index => ?_⟩ <;>
        simp [pathType, pathSize, readPath, lookup, list, lost, nodeRead, fileNode]
  | some names =>
      obtain ⟨id, resolved, reached⟩ := orderly.resolve_place place
      have used := orderly.used reached
      have read : nodeAt fs id = .ok (fs.nodes id) := (nodeAt_ok _ _ _).mpr ⟨used.1, rfl⟩
      rw [Option.bind_some]
      cases item : fs.tree names with
      | none => simp [Fs.tree, reached] at item
      | some item' =>
          cases item' with
          | dir =>
              have dir := (orderly.dir_iff reached).mp item
              refine ⟨?_, ?_, fun off len => ?_⟩ <;>
                simp [pathType, pathSize, readPath, lookup, resolved, read, dir, nodeRead,
                  fileNode]
          | file bytes =>
              have held := (tree_file_iff reached).mp item
              have size := contents_length fs id bytes held
              have file : (fs.nodes id).typ = .file := (itemOf_file (itemOf_contents held)).2
              have nonroot : 0 < id := orderly.file_nonroot file
              refine ⟨?_, ?_, fun off len word => ?_, fun index => ?_⟩
              · simp [pathType, resolved, read, file]
              · simp [pathSize, resolved, read, file, size]
              · simp only [readPath, lookup, resolved, ok_bind, pure_ok]
                exact read_contents fs id off len bytes orderly.laid nonroot held word
              · simp [list, resolved, read, file]

theorem Orderly.lists {fs : Fs} (orderly : Orderly fs) {path : Path} {names : Names}
    (place : placeOf fs.tree path = some names) (item : fs.tree names = some .dir) :
    ∃ entries, (∀ index, list fs path index = .ok entries[index]?) ∧
      Lists fs.tree names entries := by
  obtain ⟨pid, resolved, reached⟩ := orderly.resolve_place place
  have dir := (orderly.dir_iff reached).mp item
  have below : ∀ name, descend (childOf fs) 0 (names ++ [name]) = childOf fs pid name := by
    intro name
    rw [descend_snoc, reached, Option.bind_some]
  have entry : ∀ i ∈ children fs pid, childOf fs pid (nameBytes (fs.nodes i).name) = some i := by
    intro i member
    obtain ⟨⟨positive, inside⟩, used, up⟩ := (mem_children fs pid i).mp member
    exact (childOf_iff orderly.names pid _ i).mpr ⟨by omega, ⟨inside, used⟩, up, rfl⟩
  refine ⟨(children fs pid).map fs.dirEnt, fun index => ?_, ?_, fun name => ?_, ?_, ?_⟩
  · rw [list_children resolved dir, List.getElem?_map]
  · rw [List.map_map]
    refine List.Nodup.map_on ?_ ((children_increasing fs pid).imp Nat.ne_of_lt)
    intro one memberOne two memberTwo same
    have found := entry one memberOne
    rw [show nameBytes (fs.nodes one).name = nameBytes (fs.nodes two).name from same,
      entry two memberTwo] at found
    exact (Option.some.inj found).symm
  · rw [Fs.tree, below, Option.isSome_map, Option.isSome_iff_exists]
    constructor
    · rintro ⟨id, found⟩
      obtain ⟨nonroot, used, up, label⟩ := (childOf_iff orderly.names pid name id).mp found
      refine ⟨fs.dirEnt id, List.mem_map_of_mem ?_, label⟩
      exact (mem_children fs pid id).mpr ⟨⟨by omega, used.1⟩, used.2, up⟩
    · rintro ⟨e, member, label⟩
      obtain ⟨i, inside, rfl⟩ := List.mem_map.mp member
      exact ⟨i, label ▸ entry i inside⟩
  · intro e member
    obtain ⟨i, inside, rfl⟩ := List.mem_map.mp member
    exact (orderly.dir_iff ((below _).trans (entry i inside))).symm
  · intro e member bytes known
    obtain ⟨i, inside, rfl⟩ := List.mem_map.mp member
    have held := (tree_file_iff ((below _).trans (entry i inside))).mp known
    exact ⟨(itemOf_file (itemOf_contents held)).2, (contents_length fs i bytes held).symm⟩

/-- Types, sizes, bytes and directory entries are those of the tree, by whatever path. -/
theorem reads_see_the_tree (boot fs : Fs) (run : Run step Allowed (init boot) fs) (path : Path) :
    Seen fs path ((placeOf fs.tree path).bind fs.tree) ∧
    ∀ names, placeOf fs.tree path = some names → fs.tree names = some .dir →
      ∃ entries, (∀ index, list fs path index = .ok entries[index]?) ∧
        Lists fs.tree names entries :=
  have orderly := run_orderly boot fs run
  ⟨orderly.seen path, fun _ place item => orderly.lists place item⟩

theorem reads_see_the_tree_detour : ∃ fs, Run step Allowed emptyFs fs ∧
    pathSize fs [47, 98, 47, 46, 46, 47, 97, 47, 120] = .ok 2 ∧
    readPath fs [47, 98, 47, 46, 46, 47, 97, 47, 120] 1 8 = .ok (1, [105]) ∧
    ∃ entries, (∀ index, list fs [47] index = .ok entries[index]?) ∧ Lists fs.tree [] entries := by
  obtain ⟨rets, fs, replayed⟩ := twoDirectories_done
  have run := permits_run step Allowed twoDirectories emptyFs fs rets twoDirectories_permitted replayed
  have item : (placeOf fs.tree [47, 98, 47, 46, 46, 47, 97, 47, 120]).bind fs.tree =
      some (.file [104, 105]) :=
    value_of_ok replayed (fun done => (placeOf done.2.tree _).bind done.2.tree) (by decide +kernel)
  have root : placeOf fs.tree [47] = some [] :=
    value_of_ok replayed (fun done => placeOf done.2.tree _) (by decide +kernel)
  have dir : fs.tree [] = some .dir :=
    value_of_ok replayed (fun done => done.2.tree _) (by decide +kernel)
  have seen := (reads_see_the_tree _ fs run [47, 98, 47, 46, 46, 47, 97, 47, 120]).1
  rw [item] at seen
  exact ⟨fs, run, seen.2.1, seen.2.2.1 1 8 (.inr (by decide)),
    (reads_see_the_tree _ fs run [47]).2 [] root dir⟩

end Shizuku.Tmpfs
