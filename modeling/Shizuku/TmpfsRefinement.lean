import Shizuku.DirectoryListing
import Shizuku.NameTree
import Shizuku.PathMeaning

/-!
The filesystem as a tree of names. `treeStep` says what each call is for: a rename takes
everything below the moved directory along, a write splices bytes into one file. The tree
of a node table is found by descending from the root; a path leads to the same place in
both, and each change of the table changes the tree at one list of names, or moves what
lies below it.
-/

namespace Shizuku.Tmpfs

open ByteMemory Machine ParentForest NameTree

abbrev Names := List (List UInt8)

inductive FsItem where
  | dir
  | file (data : List UInt8)
  deriving DecidableEq, Repr

abbrev Tree := Names → Option FsItem

def itemOf (fs : Fs) (id : Nat) : FsItem :=
  match contents fs id with
  | some data => .file data
  | none => .dir

theorem itemOf_file {fs : Fs} {id : Nat} {data : List UInt8} (file : itemOf fs id = .file data) :
    IsFile fs id := by
  by_contra other
  unfold itemOf at file
  rw [contents_none fs id other] at file
  cases file

def bareTree : Tree := fun names => if names = [] then some .dir else none

instance (comp : List UInt8) : Decidable (Ordinary comp) := inferInstanceAs (Decidable (_ ∧ _))

def Fs.tree (fs : Fs) : Tree := fun names => (descend (childOf fs) 0 names).map (itemOf fs)

def locateStep (tree : Tree) (names : Names) (piece : List UInt8) : Option Names :=
  if piece = dot then some names
  else if piece = dotDot then some names.dropLast
  else if (tree (names ++ [piece])).isSome then some (names ++ [piece])
  else none

def locate (tree : Tree) (pieces : Names) : Option Names :=
  pieces.foldl (fun names piece => names.bind fun above => locateStep tree above piece) (some [])

def placeOf (tree : Tree) (path : Path) : Option Names :=
  if path.head? = some slash then locate tree (splitPath path) else none

def targetOf (tree : Tree) (path : Path) : Option (Names × List UInt8) :=
  if path.head? = some slash then
    match (splitPath path).getLast? with
    | none => none
    | some leaf =>
        if Ordinary leaf ∧ leaf.length < vfsNameMax then
          (locate tree (splitPath path).dropLast).map fun above => (above, leaf)
        else none
  else none

/-- A write names its file; `none` for a number that belongs to nothing. -/
inductive TreeOp where
  | mkdir (path : Path)
  | create (path : Path) (data : List UInt8)
  | unlink (path : Path)
  | rename (oldp newp : Path)
  | write (names : Option Names) (off : Nat) (buf : List UInt8)

def treeStep (tree : Tree) : TreeOp → Option Tree
  | .mkdir path => do
      let (above, leaf) ← targetOf tree path
      if tree above = some .dir ∧ tree (above ++ [leaf]) = none then
        some (Function.update tree (above ++ [leaf]) (some .dir))
      else none
  | .create path data => do
      let (above, leaf) ← targetOf tree path
      if tree above = some .dir ∧ tree (above ++ [leaf]) ≠ some .dir then
        some (Function.update tree (above ++ [leaf]) (some (.file data)))
      else none
  | .unlink path => do
      let names ← placeOf tree path
      if tree names ≠ some .dir then some (Function.update tree names none) else none
  | .rename oldp newp => do
      let names ← placeOf tree oldp
      let (above, leaf) ← targetOf tree newp
      if names ≠ [] ∧ tree above = some .dir ∧ tree (above ++ [leaf]) = none ∧ ¬ names <+: above then
        some (moved names (above ++ [leaf]) tree)
      else none
  | .write names off buf => do
      let place ← names
      match tree place with
      | some (.file bytes) =>
          if off ≤ bytes.length then
            some (Function.update tree place (some (.file (splice bytes off buf))))
          else none
      | _ => none

def Op.oldPath : Op → Option Path
  | .rename oldp _ => some oldp
  | .mkdir _ | .create _ _ | .unlink _ | .nodeWrite _ _ _ => none

/-- A new name goes into a directory, and no directory into itself. -/
def Proper (tree : Tree) (op : Op) : Prop :=
  ∀ path ∈ op.newPath, ∀ target ∈ targetOf tree path, tree target.1 = some .dir ∧
    ∀ oldp ∈ op.oldPath, ∀ names ∈ placeOf tree oldp, names ≠ [] → ¬ names <+: target.1

def Allowed (fs : Fs) (op : Op) : Prop := NulFree op ∧ Proper fs.tree op

structure Orderly (fs : Fs) : Prop where
  laid : Laid fs
  typed : Typed fs
  rooted : Rooted fs
  names : Namespace fs

def Listed (fs : Fs) (id : Nat) : Prop := id ≠ 0 ∧ Used fs id

def labelOf (fs : Fs) (id : Nat) : List UInt8 := nameBytes (fs.nodes id).name

theorem Namespace.links {fs : Fs} (names : Namespace fs) :
    Links (childOf fs) (Listed fs) (parentOf fs) (labelOf fs) 0 where
  found above name node := by
    rw [childOf_iff names]
    simp only [Listed, parentOf, labelOf, and_assoc]
  root member := member.1 rfl

theorem Used.dir {fs : Fs} {id : Nat} (used : Used fs id) (other : (fs.nodes id).typ ≠ .file) :
    (fs.nodes id).typ = .dir := by
  cases kind : (fs.nodes id).typ with
  | free => exact absurd kind used.2
  | file => exact absurd kind other
  | dir => rfl

theorem tree_file_iff {fs : Fs} {names : Names} {id : Nat} {bytes : List UInt8}
    (reached : descend (childOf fs) 0 names = some id) :
    fs.tree names = some (.file bytes) ↔ contents fs id = some bytes := by
  rw [Fs.tree, reached, Option.map_some, Option.some.injEq]
  unfold itemOf
  cases contents fs id <;> simp

section Orderly
variable {fs : Fs} (orderly : Orderly fs)
include orderly

theorem Orderly.links : Links (childOf fs) (Listed fs) (parentOf fs) (labelOf fs) 0 :=
  orderly.names.links

theorem Orderly.child {above id : Nat} {name : List UInt8}
    (found : childOf fs above name = some id) :
    (fs.nodes above).typ = .dir ∧ name.length < vfsNameMax ∧ Ordinary name := by
  obtain ⟨nonroot, used, up, label⟩ := (childOf_iff orderly.names above name id).mp found
  obtain ⟨good, fine, field⟩ := orderly.names.named id used nonroot
  have same : name = good := by
    rw [← label, field, nameBytes_field good fine.short fine.clean]
  exact ⟨up ▸ (orderly.typed.parents id used).2, same ▸ fine.short, same ▸ fine.ordinary⟩

theorem Orderly.used {names : Names} {id : Nat} (reached : descend (childOf fs) 0 names = some id) :
    Used fs id := by
  by_cases root : id = 0
  · exact ⟨root ▸ by decide, by rw [root, orderly.typed.root]; decide⟩
  · exact (orderly.links.listed_of_descend reached root).2

theorem Orderly.file_nonroot {id : Nat} (file : (fs.nodes id).typ = .file) : 0 < id := by
  rcases Nat.eq_zero_or_pos id with rfl | positive
  · rw [orderly.typed.root] at file
    cases file
  · exact positive

theorem Orderly.reached {id : Nat} (used : Used fs id) :
    ∃ names, descend (childOf fs) 0 names = some id := by
  refine orderly.links.reached (fun node member => ?_) (or_iff_not_imp_left.mpr fun below => ⟨below, used⟩)
    (orderly.rooted.attached id used.1)
  obtain ⟨inside, dir⟩ := orderly.typed.parents node member.2
  refine or_iff_not_imp_left.mpr fun below => ⟨below, inside, ?_⟩
  rw [parentOf, dir]
  decide

theorem Orderly.dir_iff {names : Names} {id : Nat}
    (reached : descend (childOf fs) 0 names = some id) :
    fs.tree names = some .dir ↔ (fs.nodes id).typ = .dir := by
  have used := orderly.used reached
  rw [Fs.tree, reached, Option.map_some, Option.some.injEq]
  unfold itemOf
  by_cases file : IsFile fs id
  · rw [contents_file fs id file]
    simp [file.2]
  · rw [contents_none fs id file]
    simp [used.dir fun same => file ⟨used.1, same⟩]

/-- One piece of a path leads to the same place in the table and in the tree. -/
theorem Orderly.follow {names : Names} {id : Nat} (reached : descend (childOf fs) 0 names = some id)
    (piece : List UInt8) :
    (locateStep fs.tree names piece).bind (descend (childOf fs) 0) = follow fs id piece ∧
      ∀ next, locateStep fs.tree names piece = some next → descend (childOf fs) 0 next ≠ none := by
  unfold locateStep Tmpfs.follow
  by_cases stay : piece = dot
  · simp [stay, reached]
  by_cases up : piece = dotDot
  · subst up
    rw [if_neg stay, if_pos rfl, if_neg stay, if_pos rfl]
    cases names using List.reverseRecOn with
    | nil =>
        have root : id = 0 := (Option.some.inj reached).symm
        simp [root]
    | append_singleton front last =>
        obtain ⟨member, above, _⟩ := orderly.links.last reached
        simp [above, member.1, parentOf]
  · have step : descend (childOf fs) 0 (names ++ [piece]) = childOf fs id piece := by
      rw [descend_snoc, reached, Option.bind_some]
    rw [if_neg stay, if_neg up, if_neg stay, if_neg up, Fs.tree, step]
    cases below : childOf fs id piece with
    | none => simp
    | some node =>
        obtain ⟨dir, short, _⟩ := orderly.child below
        simp [step, below, dir, short]

theorem Orderly.followAll (pieces : Names) :
    (locate fs.tree pieces).bind (descend (childOf fs) 0) = followAll fs pieces ∧
      ∀ names, locate fs.tree pieces = some names → descend (childOf fs) 0 names ≠ none := by
  induction pieces using List.reverseRecOn with
  | nil => exact ⟨rfl, fun names root => by rw [← Option.some.inj root]; simp⟩
  | append_singleton front last ih =>
      have both : locate fs.tree (front ++ [last]) =
          (locate fs.tree front).bind fun above => locateStep fs.tree above last := by
        simp [locate]
      rw [both, followAll_snoc, ← ih.1]
      cases found : locate fs.tree front with
      | none => simp
      | some names =>
          obtain ⟨id, reached⟩ := Option.ne_none_iff_exists'.mp (ih.2 names found)
          simp only [Option.bind_some, reached]
          exact orderly.follow reached last

/-- Without `..` a path leads straight down; single dots do not count. -/
theorem Orderly.followAll_down (pieces : Names) (down : ∀ piece ∈ pieces, piece ≠ dotDot) :
    Tmpfs.followAll fs pieces = descend (childOf fs) 0 (pieces.filter (· ≠ dot)) := by
  induction pieces using List.reverseRecOn with
  | nil => rfl
  | append_singleton front last ih =>
      rw [followAll_snoc, ih fun piece member => down piece (List.mem_append_left _ member),
        List.filter_append]
      by_cases stay : last = dot
      · simp [stay, Tmpfs.follow]
      · have kept : [last].filter (· ≠ dot) = [last] := by simp [stay]
        rw [kept, descend_snoc]
        refine Option.bind_congr fun cur _ => ?_
        rw [Tmpfs.follow, if_neg stay, if_neg (down last (by simp))]
        cases found : childOf fs cur last with
        | none => exact ite_self none
        | some id =>
            obtain ⟨dir, short, _⟩ := orderly.child found
            exact if_pos ⟨short, dir⟩

theorem Orderly.resolve_down (bytes : List UInt8) (down : ∀ piece ∈ components bytes, piece ≠ dotDot) :
    resolve fs (slash :: bytes) =
      .ok (descend (childOf fs) 0 ((components bytes).filter (· ≠ dot))) := by
  rw [resolve_meaning, if_pos List.head?_cons, ← components_splitPath, components_root,
    orderly.followAll_down _ down]

theorem Orderly.ordinary {names : Names} {id : Nat}
    (reached : descend (childOf fs) 0 names = some id) : ∀ name ∈ names, Ordinary name := by
  induction names using List.reverseRecOn generalizing id with
  | nil => simp
  | append_singleton front last ih =>
      rw [descend_snoc, Option.bind_eq_some_iff] at reached
      obtain ⟨above, way, found⟩ := reached
      intro name member
      rcases List.mem_append.mp member with earlier | here
      · exact ih way name earlier
      · exact List.mem_singleton.mp here ▸ (orderly.child found).2.2

theorem Orderly.resolve_place {path : Path} {names : Names} (place : placeOf fs.tree path = some names) :
    ∃ id, resolve fs path = .ok (some id) ∧ descend (childOf fs) 0 names = some id := by
  unfold placeOf at place
  split at place
  case isTrue absolute =>
    obtain ⟨walked, known⟩ := orderly.followAll (splitPath path)
    obtain ⟨id, reached⟩ := Option.ne_none_iff_exists'.mp (known names place)
    rw [place, Option.bind_some, reached] at walked
    exact ⟨id, by rw [resolve_meaning, if_pos absolute, ← walked], reached⟩
  case isFalse => cases place

theorem Orderly.resolve_lost {path : Path} (lost : placeOf fs.tree path = none) :
    resolve fs path = .ok none := by
  rw [resolve_meaning]
  unfold placeOf at lost
  split at lost
  case isTrue absolute =>
    rw [if_pos absolute, ← (orderly.followAll (splitPath path)).1, lost, Option.bind_none]
  case isFalse relative => rw [if_neg relative]

theorem Orderly.target_found {path : Path} {above : Names} {leaf : List UInt8}
    (target : targetOf fs.tree path = some (above, leaf)) :
    ∃ parent, resolveParent fs path = .ok (some (parent, leaf)) ∧
      descend (childOf fs) 0 above = some parent := by
  obtain ⟨found, done, means⟩ := resolveParent_meaning fs path
  unfold targetOf at target
  split at target
  case isFalse => cases target
  case isTrue absolute =>
    cases last : (splitPath path).getLast? with
    | none => simp [last] at target
    | some name =>
        simp only [last] at target
        split at target
        case isFalse => cases target
        case isTrue fine =>
          obtain ⟨place, located, same⟩ := Option.map_eq_some_iff.mp target
          cases same
          obtain ⟨walked, known⟩ := orderly.followAll (splitPath path).dropLast
          obtain ⟨parent, reached⟩ := Option.ne_none_iff_exists'.mp (known _ located)
          rw [located, Option.bind_some, reached] at walked
          refine ⟨parent, ?_, reached⟩
          rw [done, (means parent leaf).mpr ⟨absolute, last, fine.1, fine.2, walked.symm⟩]

theorem Orderly.found_target {path : Path} {parent : Nat} {leaf : List UInt8}
    (found : resolveParent fs path = .ok (some (parent, leaf))) :
    ∃ above, targetOf fs.tree path = some (above, leaf) ∧
      descend (childOf fs) 0 above = some parent := by
  obtain ⟨result, done, means⟩ := resolveParent_meaning fs path
  obtain ⟨absolute, last, ordinary, short, walked⟩ :=
    (means parent leaf).mp (Except.ok.inj (done.symm.trans found))
  rw [← (orderly.followAll _).1, Option.bind_eq_some_iff] at walked
  obtain ⟨above, located, reached⟩ := walked
  exact ⟨above, by simp [targetOf, absolute, last, ordinary, short, located], reached⟩

theorem Orderly.target_lost {path : Path} (lost : targetOf fs.tree path = none) :
    resolveParent fs path = .ok none := by
  obtain ⟨result, done, _⟩ := resolveParent_meaning fs path
  cases result with
  | none => exact done
  | some both =>
      obtain ⟨above, target, _⟩ := orderly.found_target done
      cases lost.symm.trans target

end Orderly

theorem tree_update {fs after : Fs} {names : Names} {value : Option Nat} {id : Nat}
    (reach : descend (childOf after) 0 = Function.update (descend (childOf fs) 0) names value)
    (only : ∀ other, other ≠ names → descend (childOf fs) 0 other ≠ some id)
    (same : ∀ key, key ≠ id → contents after key = contents fs key) :
    after.tree = Function.update fs.tree names (value.map (itemOf after)) := by
  funext other
  by_cases here : other = names
  · rw [here, Function.update_self, Fs.tree, reach, Function.update_self]
  · rw [Function.update_of_ne here, Fs.tree, Fs.tree, reach, Function.update_of_ne here]
    cases way : descend (childOf fs) 0 other with
    | none => rfl
    | some key =>
        have apart : key ≠ id := fun equal => only other here (equal ▸ way)
        simp only [Option.map_some, itemOf, same key apart]

theorem itemOf_contents {fs : Fs} {id : Nat} {bytes : List UInt8}
    (held : contents fs id = some bytes) : itemOf fs id = .file bytes := by
  rw [itemOf, held]

structure Target (fs : Fs) (above : Names) (leaf : List UInt8) (parent : Nat) : Prop where
  reached : descend (childOf fs) 0 above = some parent
  dir : (fs.nodes parent).typ = .dir
  good : GoodName leaf
  absent : childOf fs parent leaf = none

theorem Target.fresh {fs : Fs} {above : Names} {leaf : List UInt8} {parent : Nat}
    (target : Target fs above leaf parent) : descend (childOf fs) 0 (above ++ [leaf]) = none := by
  rw [descend_snoc, target.reached, Option.bind_some, target.absent]

section Changes
variable {fs after : Fs} {above : Names} {leaf : List UInt8} {parent id : Nat}

theorem labelOf_update (good : GoodName leaf) {node : TNode} (named : node.name = nameField leaf) :
    labelOf (fs.setNode id node) = Function.update (labelOf fs) id leaf := by
  funext key
  by_cases here : key = id
  · rw [here, Function.update_self, labelOf, setNode_same, named,
      nameBytes_field leaf good.short good.clean]
  · rw [Function.update_of_ne here, labelOf, setNode_other _ _ _ _ here, labelOf]

variable (orderly : Orderly fs)
include orderly

theorem Target.names (target : Target fs above leaf parent) (nonroot : id ≠ 0)
    {node : TNode} (place : node.parent = parent) (named : node.name = nameField leaf) :
    Links (childOf (fs.setNode id node)) (Listed (fs.setNode id node))
      (Function.update (parentOf fs) id parent) (Function.update (labelOf fs) id leaf) 0 := by
  have inside := (orderly.used target.reached).1
  have names := orderly.names.put nonroot target.good inside target.absent place named
  have links := names.links
  rwa [parentOf_update fs id parent node place, labelOf_update target.good named] at links

theorem attach_reach (target : Target fs above leaf parent) (slot : freeSlot fs = some id)
    (typ : VnType) :
    descend (childOf (fs.attach id parent leaf typ)) 0 =
      Function.update (descend (childOf fs) 0) (above ++ [leaf]) (some id) := by
  obtain ⟨positive, inside, free⟩ := freeSlot_some fs id slot
  have nonroot : id ≠ 0 := by omega
  refine orderly.links.linked (target.names orderly nonroot rfl rfl) (fun key => ?_)
    (fun listed => listed.2.2 free) ?_ ?_ target.reached target.fresh
  · by_cases here : key = id
    · have kind : (if typ = .file then VnType.file else .dir) ≠ .free := by split <;> decide
      simp [here, Listed, Used, inside, kind, nonroot]
    · simp [here, Listed, used_other fs id key _ here]
  · intro key listed below
    have dir := (orderly.typed.parents key listed.2).2
    rw [show (fs.nodes key).parent = id from below, free] at dir
    cases dir
  · rintro rfl
    rw [target.dir] at free
    cases free

theorem unreached (slot : freeSlot fs = some id) (names : Names) :
    descend (childOf fs) 0 names ≠ some id :=
  fun reached => (orderly.used reached).2 (freeSlot_some fs id slot).2.2

theorem attach_tree (target : Target fs above leaf parent) (slot : freeSlot fs = some id)
    (typ : VnType) :
    (fs.attach id parent leaf typ).tree =
      Function.update fs.tree (above ++ [leaf]) (some (itemOf (fs.attach id parent leaf typ) id)) :=
  tree_update (attach_reach orderly target slot typ) (fun other _ => unreached orderly slot other)
    fun key apart => attach_contents fs id parent leaf typ key apart

theorem created_tree (target : Target fs above leaf parent) (slot : freeSlot fs = some id)
    (data : List UInt8) :
    ((fs.attach id parent leaf .file).place id data).tree =
      Function.update fs.tree (above ++ [leaf]) (some (.file data)) := by
  have changed := created_update fs id parent leaf data orderly.laid (freeSlot_some fs id slot).2.1
  have reach := attach_reach orderly target slot .file
  rw [← childOf_congr (place_shape _ id data) (place_name _ id data)] at reach
  rw [tree_update reach (fun other _ => unreached orderly slot other)
    fun key apart => by rw [changed, Function.update_of_ne apart]]
  rw [Option.map_some, itemOf_contents (by rw [changed, Function.update_self])]

theorem rewrite_tree (shape : SameShape fs after)
    (names : ∀ key, (after.nodes key).name = (fs.nodes key).name) {bytes : List UInt8}
    (changed : contents after = Function.update (contents fs) id (some bytes)) {place : Names}
    (reached : descend (childOf fs) 0 place = some id) :
    after.tree = Function.update fs.tree place (some (.file bytes)) := by
  have reach : descend (childOf after) 0 =
      Function.update (descend (childOf fs) 0) place (some id) := by
    rw [childOf_congr shape names, ← reached, Function.update_eq_self]
  rw [tree_update reach (fun other apart way => apart (orderly.links.distinct way reached))
    fun key apart => by rw [changed, Function.update_of_ne apart]]
  rw [Option.map_some, itemOf_contents (by rw [changed, Function.update_self])]

theorem detach_tree {place : Names} (reached : descend (childOf fs) 0 place = some id)
    (nonroot : id ≠ 0) (file : (fs.nodes id).typ = .file) :
    (fs.detach id).tree = Function.update fs.tree place none := by
  have used : ∀ key, Used (fs.detach id) key ↔ key ≠ id ∧ Used fs key := by
    intro key
    by_cases here : key = id
    · simp [here, Used, Fs.detach]
    · simp [here, used_other fs id key _ here, Fs.detach]
  have parents := setNode_parent fs id { fs.nodes id with typ := .free } rfl
  have labels := setNode_name fs id { fs.nodes id with typ := .free } rfl
  have links := (orderly.names.congr (fun key held => ((used key).mp held).2) parents labels).links
  rw [show parentOf (fs.detach id) = parentOf fs from funext parents,
    show labelOf (fs.detach id) = labelOf fs from
      funext fun key => congrArg nameBytes (labels key)] at links
  have reach : descend (childOf (fs.detach id)) 0 =
      Function.update (descend (childOf fs) 0) place none := by
    refine orderly.links.dropped links (fun key => ?_) ?_ nonroot reached
    · rw [Listed, Listed, used]
      exact and_left_comm
    · intro key listed up
      have dir := (orderly.typed.parents key listed.2).2
      rw [show (fs.nodes key).parent = id from up, file] at dir
      cases dir
  refine tree_update reach (fun other apart way => apart (orderly.links.distinct way reached)) ?_
  intro key apart
  rw [detach_contents, Function.update_of_ne apart]

theorem move_tree (target : Target fs above leaf parent) {place : Names}
    (reached : descend (childOf fs) 0 place = some id) (nonroot : id ≠ 0)
    (outside : ¬ place <+: above) :
    (fs.move id parent leaf).tree = moved place (above ++ [leaf]) fs.tree := by
  have kinds := setNode_typ fs id { fs.nodes id with parent := parent, name := nameField leaf } rfl
  have listed : Listed (fs.move id parent leaf) = Listed fs := by
    funext key
    rw [Listed, Listed, Used, Used, Fs.move, kinds]
  have links : Links (childOf (fs.move id parent leaf)) (Listed (fs.move id parent leaf)) _ _ 0 :=
    target.names orderly nonroot rfl rfl
  rw [listed] at links
  have reach := orderly.links.relinked links reached nonroot target.reached outside
  have items : itemOf (fs.move id parent leaf) = itemOf fs := by
    funext key
    rw [itemOf, itemOf, move_contents]
  funext other
  rw [Fs.tree, reach, items]
  exact (moved_map (itemOf fs) other).symm

end Changes

end Shizuku.Tmpfs
