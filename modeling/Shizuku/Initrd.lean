import Mathlib.Data.List.DropRight
import Shizuku.TmpfsAnswers
import Shizuku.WorkingDirectory

/-!
Unpacking the initial ramdisk, after `fs/initrd.rs`. The unpacker walks over the blocks
of a ustar archive and makes a directory or a file for every member, with the missing
directories above a file. It is compared with an encoder: the tree it leaves is the one
that the encoded entries describe.
-/

namespace Shizuku.Initrd

open Machine Tmpfs NameTree Syscalls

/-- Twelve digits at most, so the value stays far below 2^64. -/
def octal (v : Nat) : List UInt8 → Nat
  | [] => v
  | b :: rest => if b = 0 ∨ b < 48 ∨ 55 < b then v else octal (v * 8 + (b.toNat - 48)) rest

/-- The path of a member: the name behind a slash, without one trailing slash. -/
def memberPath (field : List UInt8) : Path :=
  let name := (strOr [] field).rdropWhile (· == 0)
  let path := slash :: name.take (min name.length 126)
  if 1 < path.length ∧ path.getLast? = some slash then path.dropLast else path

def ensureDir (fs : Fs) (sub : Path) : Outcome Fs :=
  if validUtf8 [] sub then do
    let typ ← pathType fs sub
    if typ = .free then (mkdir fs sub).map Prod.snd else .ok fs
  else .ok fs

/-- `sub` is what precedes the current place in the path. -/
def ensureParents (fs : Fs) (sub : Path) : List UInt8 → Outcome Fs
  | [] => .ok fs
  | byte :: rest =>
      if byte ≠ slash then ensureParents fs (sub ++ [byte]) rest
      else do
        let fs ← ensureDir fs sub
        ensureParents fs (sub ++ [byte]) rest

def unpackMember (fs : Fs) (ftype : UInt8) (path : Path) (data : List UInt8) :
    Outcome ((Int × Int) × Fs) :=
  if validUtf8 [] path then
    if ftype = 53 then do
      let (ret, fs) ← mkdir fs path
      return ((0, if ret = 0 then 1 else 0), fs)
    else if ftype = 48 ∨ ftype = 0 then do
      let fs ← ensureParents fs (path.take 1) (path.drop 1)
      let (ret, fs) ← create fs path data
      return ((if 0 ≤ ret then 1 else 0, 0), fs)
    else .ok ((0, 0), fs)
  else .ok ((0, 0), fs)

/-- `512 + (fsize + 511) & !511`, where the sum binds tighter. -/
def stride (fsize : Nat) : Nat := (512 + (fsize + 511)) / 512 * 512

def tarUnpack (fs : Fs) (files dirs : Int) (rest : List UInt8) : Outcome (Int × Fs) :=
  if rest.length < 512 then .ok (files + dirs, fs)
  else if rest.headD 0 = 0 then .ok (files + dirs, fs)
  else do
    let fsize := octal 0 ((rest.drop 124).take 12)
    let (counts, fs) ← unpackMember fs (rest.getD 156 0) (memberPath (rest.take 100))
      ((rest.drop 512).take fsize)
    tarUnpack fs (files + counts.1) (dirs + counts.2) (rest.drop (stride fsize))
termination_by rest.length
decreasing_by
  rw [List.length_drop]
  unfold stride
  omega

/-! ### The encoder -/

/-- A directory or a file with its data. The other fields are those of the header that
the unpacker does not read: mode and owner, time and checksum, and what follows the type. -/
structure Entry where
  name : List UInt8
  data : Option (List UInt8)
  owner : Fin 24 → UInt8
  stamp : Fin 20 → UInt8
  trailer : Fin 355 → UInt8

def Entry.size (e : Entry) : Nat := (e.data.getD []).length

def octalDigits : Nat → Nat → List UInt8
  | 0, _ => []
  | count + 1, n => octalDigits count (n / 8) ++ [UInt8.ofNat (48 + n % 8)]

def namePart (name : List UInt8) : List UInt8 := name ++ List.replicate (100 - name.length) 0

def sizePart (n : Nat) : List UInt8 := octalDigits 11 n ++ [0]

def Entry.typeflag (e : Entry) : UInt8 := if e.data = none then 53 else 48

def Entry.header (e : Entry) : List UInt8 :=
  namePart e.name ++ (List.ofFn e.owner ++ (sizePart e.size ++ (List.ofFn e.stamp ++
    e.typeflag :: List.ofFn e.trailer)))

def padding (n : Nat) : List UInt8 := List.replicate ((512 - n % 512) % 512) 0

def Entry.member (e : Entry) : List UInt8 := e.header ++ (e.data.getD [] ++ padding e.size)

def archive (entries : List Entry) (tail : List UInt8) : List UInt8 :=
  entries.flatMap Entry.member ++ (List.replicate 512 0 ++ tail)

/-- The names on the way to the entry; single dots do not count. -/
def Entry.path (e : Entry) : Names := (components e.name).filter (· ≠ dot)

def Entry.paths (e : Entry) : List Names := if e.data = none then [e.path] else e.path.inits

def listed (entries : List Entry) : List Names := [] :: entries.flatMap Entry.paths

def lastFile (entries : List Entry) (names : Names) : Option (List UInt8) :=
  ((entries.filter fun e => e.path = names).filterMap Entry.data).getLast?

def expected (entries : List Entry) : Tree := fun names =>
  match lastFile entries names with
  | some data => some (.file data)
  | none => if names ∈ listed entries then some .dir else none

/-- Components are short and are not `..`. `leaf` and `file` are this development's reading
of names as `tar` emits them: a single dot may stand anywhere but at the end, except for
the root itself, and a file's name ends in one slash at most. -/
structure Entry.Valid (e : Entry) : Prop where
  text : Text e.name
  present : e.name ≠ []
  length : e.name.length ≤ 100
  comps : ∀ comp ∈ components e.name, comp ≠ dotDot ∧ comp.length < vfsNameMax
  leaf : (components e.name).getLast? = some dot → e.path = [] ∧ e.data = none
  file : e.data ≠ none → e.path ≠ [] ∧ ¬ [slash, slash] <:+ e.name

structure Packable (entries : List Entry) : Prop where
  valid : ∀ e ∈ entries, e.Valid
  /-- No path is both a file and a directory. -/
  kinds : ∀ e ∈ entries, e.data ≠ none → ∀ f ∈ entries,
    (f.data = none → f.path ≠ e.path) ∧ (e.path <+: f.path → f.path = e.path)
  /-- The directory above a directory is there before it. -/
  parents : ∀ before e after, entries = before ++ e :: after → e.data = none →
    e.path.dropLast ∈ listed before
  pool : (entries.map Entry.size).sum ≤ tnPool
  nodes : (listed entries).toFinset.card ≤ tnMax

theorem octalDigits_length (count n : Nat) : (octalDigits count n).length = count := by
  induction count generalizing n with
  | zero => rfl
  | succ count ih => simp [octalDigits, ih]

theorem octal_digits (count n v : Nat) (small : n < 8 ^ count) (rest : List UInt8) :
    octal v (octalDigits count n ++ rest) = octal (v * 8 ^ count + n) rest := by
  induction count generalizing n rest with
  | zero =>
      have zero : n = 0 := by simpa using small
      simp [octalDigits, zero]
  | succ count ih =>
      have shorter : n / 8 < 8 ^ count := by
        rw [Nat.div_lt_iff_lt_mul (by decide), ← pow_succ]
        exact small
      have digit : (UInt8.ofNat (48 + n % 8)).toNat = 48 + n % 8 := by
        rw [UInt8.toNat_ofNat']
        omega
      have accepted : ¬ (UInt8.ofNat (48 + n % 8) = 0 ∨ UInt8.ofNat (48 + n % 8) < 48 ∨
          55 < UInt8.ofNat (48 + n % 8)) := by
        rw [← UInt8.toNat_inj, UInt8.lt_iff_toNat_lt, UInt8.lt_iff_toNat_lt, digit]
        simp only [UInt8.reduceToNat]
        omega
      rw [octalDigits, List.append_assoc, ih (n / 8) shorter, List.singleton_append, octal,
        if_neg accepted, digit]
      congr 1
      rw [pow_succ, ← Nat.mul_assoc]
      omega

theorem octal_size (n : Nat) (small : n < 8 ^ 11) : octal 0 (sizePart n) = n := by
  rw [sizePart, octal_digits 11 n 0 small]
  simp [octal]

theorem namePart_length (name : List UInt8) (length : name.length ≤ 100) :
    (namePart name).length = 100 := by
  simp [namePart, length]

theorem sizePart_length (n : Nat) : (sizePart n).length = 12 := by
  simp [sizePart, octalDigits_length]

theorem stride_padded (n : Nat) : stride n = 512 + (n + (padding n).length) := by
  unfold stride padding
  rw [List.length_replicate]
  omega

structure Read (e : Entry) (rest : List UInt8) : Prop where
  long : 512 ≤ (e.member ++ rest).length
  name : (e.member ++ rest).take 100 = namePart e.name
  size : ((e.member ++ rest).drop 124).take 12 = sizePart e.size
  flag : (e.member ++ rest).getD 156 0 = e.typeflag
  data : ((e.member ++ rest).drop 512).take e.size = e.data.getD []
  next : (e.member ++ rest).drop (stride e.size) = rest

theorem member_read (e : Entry) (length : e.name.length ≤ 100) (rest : List UInt8) : Read e rest := by
  have names := namePart_length e.name length
  have sizes := sizePart_length e.size
  have header : e.header.length = 512 := by
    simp only [Entry.header, List.length_append, List.length_cons, List.length_ofFn, names, sizes]
  have whole : e.member.length = stride e.size := by
    rw [stride_padded, Entry.member, List.length_append, List.length_append, header]
    rfl
  have body : (e.member ++ rest).drop 512 = e.data.getD [] ++ (padding e.size ++ rest) := by
    rw [Entry.member, List.append_assoc, List.drop_left' header, List.append_assoc]
  refine ⟨?_, ?_, ?_, ?_, ?_, ?_⟩
  · rw [List.length_append, whole, stride_padded]
    omega
  · rw [Entry.member, Entry.header, List.append_assoc, List.append_assoc, List.take_left' names]
  · have front : (namePart e.name ++ List.ofFn e.owner).length = 124 := by
      rw [List.length_append, names, List.length_ofFn]
    rw [Entry.member, Entry.header, ← List.append_assoc (namePart e.name), List.append_assoc,
      List.append_assoc, List.drop_left' front, List.append_assoc, List.take_left' sizes]
  · have front : (namePart e.name ++ (List.ofFn e.owner ++ (sizePart e.size ++
        List.ofFn e.stamp))).length = 156 := by
      simp only [List.length_append, List.length_ofFn, names, sizes]
    have parts : e.member ++ rest = (namePart e.name ++ (List.ofFn e.owner ++ (sizePart e.size ++
        List.ofFn e.stamp))) ++ e.typeflag :: (List.ofFn e.trailer ++
          (e.data.getD [] ++ padding e.size ++ rest)) := by
      simp only [Entry.member, Entry.header, List.append_assoc, List.cons_append]
    rw [parts, List.getD_eq_getElem?_getD, List.getElem?_append_right (by omega), front]
    rfl
  · rw [body]
    exact List.take_left' rfl
  · exact List.drop_left' whole

def stripped (name : List UInt8) : List UInt8 :=
  if name.getLast? = some slash then name.dropLast else name

theorem rdropWhile_zeros (name : List UInt8) (clean : 0 ∉ name) (count : Nat) :
    (name ++ List.replicate count 0).rdropWhile (· == (0 : UInt8)) = name := by
  induction count with
  | zero =>
      rw [List.replicate_zero, List.append_nil]
      refine (List.rdropWhile_eq_self_iff).mpr fun present => ?_
      intro zero
      exact clean ((beq_iff_eq.mp zero) ▸ List.getLast_mem present)
  | succ count ih =>
      rw [List.replicate_succ', ← List.append_assoc, List.rdropWhile_concat_pos _ _ _ (by rfl), ih]

theorem validUtf8_zeros (name : List UInt8) (valid : validUtf8 [] name = true) (count : Nat) :
    validUtf8 [] (name ++ List.replicate count 0) = true := by
  induction count generalizing name with
  | zero => simpa using valid
  | succ count ih =>
      rw [List.replicate_succ, validUtf8_ascii [] _ _ 0 (by decide) (by simp), valid]
      exact ih [] (by simp [validUtf8])

theorem memberPath_name (name : List UInt8) (text : Text name) (present : name ≠ [])
    (length : name.length ≤ 100) : memberPath (namePart name) = slash :: stripped name := by
  have kept : strOr [] (namePart name) = namePart name :=
    if_pos (validUtf8_zeros name text.2 _)
  have short : min name.length 126 = name.length := by omega
  have positive := List.length_pos_iff.mpr present
  unfold memberPath stripped
  rw [kept, namePart, rdropWhile_zeros name text.1]
  simp only [short, List.take_length, List.length_cons, List.getLast?_cons_of_ne_nil present,
    List.dropLast_cons_of_ne_nil present]
  by_cases ends : name.getLast? = some slash
  · rw [if_pos ⟨by omega, ends⟩, if_pos ends]
  · rw [if_neg (fun both => ends both.2), if_neg ends]

theorem stripped_spec (name : List UInt8) (text : Text name) :
    Text (stripped name) ∧ components (stripped name) = components name := by
  unfold stripped
  split
  · rename_i ends
    have parts : name = name.dropLast ++ slash :: [] :=
      (List.dropLast_append_getLast? slash ends).symm
    have cut : components name = components name.dropLast := by
      rw [parts, components_slash, components_stop [] rfl, List.append_nil]
      simp
    rw [parts, text_slash] at text
    exact ⟨by simpa using text.1, by simpa using cut.symm⟩
  · exact ⟨text, rfl⟩

def graft (tree : Tree) (names : Names) : Tree := fun key =>
  if key <+: names then some ((tree key).getD .dir) else tree key

structure Roomy (tree : Tree) (scope : Finset Names) : Prop where
  listed : ∀ names, tree names ≠ none → names ∈ scope
  room : scope.card ≤ tnMax

theorem graft_roomy {tree : Tree} {scope : Finset Names} (roomy : Roomy tree scope) {names : Names}
    (inside : ∀ key, key <+: names → key ∈ scope) : Roomy (graft tree names) scope := by
  refine ⟨fun key known => ?_, roomy.room⟩
  unfold graft at known
  split at known
  · rename_i above
    exact inside key above
  · exact roomy.listed key known

theorem graft_self {tree : Tree} {names : Names} (free : tree names = none ∨ tree names = some .dir) :
    graft tree names names = some .dir := by
  unfold graft
  rw [if_pos (List.prefix_refl names)]
  rcases free with none_ | some_ <;> simp [*]

theorem graft_snoc (tree : Tree) (names : Names) (name : List UInt8)
    (free : tree (names ++ [name]) = none ∨ tree (names ++ [name]) = some .dir) :
    graft tree (names ++ [name]) = Function.update (graft tree names) (names ++ [name]) (some .dir) := by
  funext key
  by_cases same : key = names ++ [name]
  · rw [same, Function.update_self, graft_self free]
  · rw [Function.update_of_ne same]
    simp only [graft, List.prefix_concat_iff, same, false_or]

theorem graft_beyond (tree : Tree) (names : Names) (name : List UInt8) :
    graft tree names (names ++ [name]) = tree (names ++ [name]) := by
  refine if_neg fun shorter => ?_
  have length := shorter.length_le
  rw [List.length_append, List.length_singleton] at length
  omega

def Bounded (left : List UInt8) : Prop := left = [] ∨ ∃ front, left = front ++ [slash]

theorem Bounded.components {left : List UInt8} (bounded : Bounded left) (right : List UInt8) :
    components (left ++ right) = components left ++ components right := by
  rcases bounded with rfl | ⟨front, rfl⟩
  · rw [List.nil_append, components_stop [] rfl, List.nil_append]
  · rw [List.append_assoc, List.singleton_append, components_slash, components_slash,
      components_stop [] rfl, List.append_nil]

theorem components_plain (comp : List UInt8) (whole : slash ∉ comp) :
    components comp = if comp = [] then [] else [comp] := by
  split
  · rename_i empty
    rw [empty, components_stop [] rfl]
  · rename_i present
    exact components_name comp present whole

theorem ensureParents_skip (fs : Fs) (sub comp rest : List UInt8) (whole : slash ∉ comp) :
    ensureParents fs sub (comp ++ rest) = ensureParents fs (sub ++ comp) rest := by
  induction comp generalizing sub with
  | nil => rw [List.nil_append, List.append_nil]
  | cons byte comp ih =>
      have different : byte ≠ slash := fun same => whole (same ▸ List.mem_cons_self)
      rw [List.cons_append, ensureParents, if_pos different,
        ih (sub ++ [byte]) (fun member => whole (List.mem_cons_of_mem _ member)), List.append_assoc,
        List.singleton_append]

structure Walkable (bytes : List UInt8) : Prop where
  text : Text bytes
  comps : ∀ comp ∈ components bytes, comp ≠ dotDot ∧ comp.length < vfsNameMax

theorem Walkable.valid {bytes : List UInt8} (walkable : Walkable bytes) :
    validUtf8 [] (slash :: bytes) = true := by
  have both := (text_slash [] bytes).mpr ⟨by simp [Text, validUtf8], walkable.text⟩
  exact both.2

theorem Walkable.clean {bytes : List UInt8} (walkable : Walkable bytes) : 0 ∉ slash :: bytes :=
  List.not_mem_cons_of_ne_of_not_mem (by decide) walkable.text.1

theorem Walkable.front {left right : List UInt8} (walkable : Walkable (left ++ slash :: right)) :
    Walkable left := by
  refine ⟨((text_slash left right).mp walkable.text).1, fun comp member => walkable.comps comp ?_⟩
  rw [components_slash]
  exact List.mem_append_left _ member

theorem Walkable.aims {fs : Fs} (orderly : Orderly fs) {bytes : List UInt8}
    (walkable : Walkable bytes) {front : Names} {name : List UInt8}
    (parts : components bytes = front ++ [name]) (other : name ≠ dot)
    (dir : fs.tree (front.filter (· ≠ dot)) = some .dir) :
    ∃ parent, Aims fs (slash :: bytes) (front.filter (· ≠ dot)) name parent := by
  obtain ⟨parent, reached, item⟩ := Option.map_eq_some_iff.mp dir
  obtain ⟨up, short⟩ := walkable.comps name (by simp [parts])
  obtain ⟨found, done, means⟩ := resolveParent_meaning fs (slash :: bytes)
  have split : splitPath (slash :: bytes) = front ++ [name] := by
    rw [← components_splitPath, components_root, parts]
  have walked : followAll fs (splitPath (slash :: bytes)).dropLast = some parent := by
    rw [split, List.dropLast_concat, ← reached]
    exact orderly.followAll_down front fun comp member => (walkable.comps comp (by simp [parts, member])).1
  rw [(means parent name).mpr ⟨rfl, by simp [split], ⟨other, up⟩, short, walked⟩] at done
  exact ⟨parent, done, reached, (orderly.dir_iff reached).mp dir,
    (resolveParent_good fs _ parent name walkable.clean done).2⟩

/-! ### The calls on the tree -/

structure Mirrors (fs : Fs) (tree : Tree) : Prop where
  orderly : Orderly fs
  shows : fs.tree = tree

section Mirrors
variable {fs : Fs} {tree : Tree} (mirrors : Mirrors fs tree)
include mirrors

theorem Mirrors.slot {scope : Finset Names} (roomy : Roomy tree scope) {names : Names}
    (member : names ∈ scope) (fresh : tree names = none) : freeSlot fs ≠ none := by
  -- A table with all slots used reaches as many lists of names.
  intro full
  have used : ∀ id : Fin tnMax, Used fs id := by
    refine fun id => ⟨id.2, fun free => ?_⟩
    by_cases root : id.1 = 0
    · rw [root, mirrors.orderly.typed.root] at free
      cases free
    · exact absurd (by simpa using free)
        (List.find?_eq_none.mp full id ((mem_slots id).mpr ⟨by omega, id.2⟩))
  choose path reached using fun id => mirrors.orderly.reached (used id)
  have small : (Finset.univ : Finset (Fin tnMax)).card ≤ (scope.erase names).card := by
    refine Finset.card_le_card_of_injOn path (fun id _ => ?_) fun one _ two _ same => ?_
    · have shown : tree (path id) = some (itemOf fs id) := by
        rw [← mirrors.shows, Fs.tree, reached, Option.map_some]
      refine Finset.mem_coe.mpr (Finset.mem_erase.mpr ⟨fun same => ?_, roomy.listed _ (by simp [shown])⟩)
      rw [same, fresh] at shown
      cases shown
    · have both := reached one
      rw [same, reached two] at both
      exact Fin.ext (Option.some.inj both).symm
  rw [Finset.card_univ, Fintype.card_fin, Finset.card_erase_of_mem member] at small
  have positive := Finset.card_pos.mpr ⟨names, member⟩
  have room := roomy.room
  omega

theorem Mirrors.call {op : Tmpfs.Op} {call : TreeOp} (allowed : Allowed fs op) (stands : Stands fs op call)
    (room : Room fs op) {next : Tree} (asked : treeStep tree call = some next) :
    ∃ ret after, step fs op = .ok (ret, after) ∧ 0 ≤ ret ∧ Mirrors after next := by
  obtain ⟨ret, after, taken, answered⟩ := mirrors.orderly.answers allowed stands
  rw [mirrors.shows, asked] at answered
  obtain ⟨succeeded, shown⟩ := answered.roomy room
  exact ⟨ret, after, taken, succeeded, mirrors.orderly.step allowed taken, shown⟩

theorem pathType_item {bytes : List UInt8} (walkable : Walkable bytes) :
    (tree ((components bytes).filter (· ≠ dot)) = none → pathType fs (slash :: bytes) = .ok .free) ∧
      (tree ((components bytes).filter (· ≠ dot)) = some .dir →
        pathType fs (slash :: bytes) = .ok .dir) := by
  rw [pathType, mirrors.orderly.resolve_down _ fun comp member => (walkable.comps comp member).1,
    ← mirrors.shows, ok_bind]
  generalize (components bytes).filter (· ≠ dot) = names
  cases reached : descend (childOf fs) 0 names with
  | none => simp [Fs.tree, reached]
  | some id =>
      refine ⟨fun unknown => by simp [Fs.tree, reached] at unknown, fun dir => ?_⟩
      have read := (nodeAt_ok fs id _).mpr ⟨(mirrors.orderly.used reached).1, rfl⟩
      simp [read, (mirrors.orderly.dir_iff reached).mp dir]

variable {path : Path} {above : Names} {name : List UInt8} {parent : Nat}
  (aims : Aims fs path above name parent)
include aims

theorem mkdir_taken {item : FsItem} (known : tree (above ++ [name]) = some item) :
    mkdir fs path = .ok (-1, fs) := by
  rw [← mirrors.shows, aims.child] at known
  obtain ⟨id, present, _⟩ := Option.map_eq_some_iff.mp known
  simp [mkdir, aims.found, present]

variable (clean : 0 ∉ path)
include clean

theorem mkdir_new (fresh : tree (above ++ [name]) = none) (slot : freeSlot fs ≠ none) :
    ∃ ret after, mkdir fs path = .ok (ret, after) ∧ after.poolUsed = fs.poolUsed ∧
      Mirrors after (Function.update tree (above ++ [name]) (some .dir)) := by
  have asked : treeStep tree (.mkdir path) =
      some (Function.update tree (above ++ [name]) (some .dir)) := by
    rw [← mirrors.shows] at fresh ⊢
    simp [treeStep, aims.targets mirrors.orderly, aims.item mirrors.orderly, fresh]
  have allowed : Allowed fs (.mkdir path) := aims.allowed mirrors.orderly rfl rfl clean
  obtain ⟨ret, after, taken, _, shown⟩ := mirrors.call allowed (.mkdir path) slot asked
  refine ⟨ret, after, taken, ?_, shown⟩
  cases mkdir_stepped fs after path ret taken with
  | refused | madeDir => rfl

theorem create_file (data : List UInt8) (fits : fs.poolUsed + data.length ≤ tnPool)
    (slot : tree (above ++ [name]) = none → freeSlot fs ≠ none)
    (other : tree (above ++ [name]) ≠ some .dir) :
    ∃ ret after, create fs path data = .ok (ret, after) ∧
      after.poolUsed = fs.poolUsed + data.length ∧
      Mirrors after (Function.update tree (above ++ [name]) (some (.file data))) := by
  have asked : treeStep tree (.create path data) =
      some (Function.update tree (above ++ [name]) (some (.file data))) := by
    rw [← mirrors.shows] at other ⊢
    simp [treeStep, aims.targets mirrors.orderly, aims.item mirrors.orderly, other]
  have room : placeOf fs.tree path = none → freeSlot fs ≠ none := by
    rw [aims.place mirrors.orderly]
    intro absent
    exact slot (by rw [← mirrors.shows, aims.child, absent, Option.map_none])
  have allowed : Allowed fs (.create path data) := aims.allowed mirrors.orderly rfl rfl clean
  obtain ⟨ret, after, taken, succeeded, shown⟩ :=
    mirrors.call allowed (.create path data) ⟨room, fits⟩ asked
  refine ⟨ret, after, taken, ?_, shown⟩
  cases create_stepped fs after path data ret taken with
  | refused | createdFull => omega
  | created | truncated => rfl

end Mirrors

theorem ensureDir_mirrors {fs : Fs} {tree : Tree} {scope : Finset Names} (roomy : Roomy tree scope)
    {left comp : List UInt8} (bounded : Bounded left) (whole : slash ∉ comp)
    (walkable : Walkable (left ++ comp))
    (inside : ∀ key, key <+: (components (left ++ comp)).filter (· ≠ dot) → key ∈ scope)
    (free : ∀ key, key <+: (components (left ++ comp)).filter (· ≠ dot) →
      tree key = none ∨ tree key = some .dir)
    (mirrors : Mirrors fs (graft tree ((components left).filter (· ≠ dot)))) :
    ∃ after, ensureDir fs (slash :: (left ++ comp)) = .ok after ∧ after.poolUsed = fs.poolUsed ∧
      Mirrors after (graft tree ((components (left ++ comp)).filter (· ≠ dot))) := by
  have valid := walkable.valid
  have parts : components (left ++ comp) = components left ++ components comp := bounded.components comp
  have types := pathType_item mirrors walkable
  unfold ensureDir
  rw [if_pos valid]
  by_cases stays : comp = [] ∨ comp = dot
  · have same : (components (left ++ comp)).filter (· ≠ dot) = (components left).filter (· ≠ dot) := by
      rw [parts, components_plain comp whole]
      rcases stays with rfl | rfl <;> simp [dot]
    rw [same] at types free ⊢
    rw [types.2 (graft_self (free _ (List.prefix_refl _)))]
    exact ⟨fs, rfl, rfl, mirrors⟩
  · obtain ⟨present, other⟩ := not_or.mp stays
    have longer : components (left ++ comp) = components left ++ [comp] := by
      rw [parts, components_plain comp whole, if_neg present]
    have names : (components (left ++ comp)).filter (· ≠ dot) =
        (components left).filter (· ≠ dot) ++ [comp] := by
      rw [longer, List.filter_append]
      simp [other]
    rw [names] at types free inside ⊢
    generalize above : (components left).filter (· ≠ dot) = names' at *
    have chance := free _ (List.prefix_refl _)
    rw [graft_snoc tree names' comp chance]
    rw [graft_beyond] at types
    rcases chance with fresh | known
    · have dir := graft_self (free names' (List.prefix_append _ _))
      rw [← mirrors.shows, ← above] at dir
      obtain ⟨parent, aims⟩ := walkable.aims mirrors.orderly longer other dir
      have unknown : graft tree names' (names' ++ [comp]) = none := by rw [graft_beyond, fresh]
      have slot := mirrors.slot
        (graft_roomy roomy fun key up => inside key (up.trans (List.prefix_append _ _)))
        (inside _ (List.prefix_refl _)) unknown
      rw [above] at aims
      obtain ⟨ret, after, made, pool, shown⟩ := mkdir_new mirrors aims walkable.clean unknown slot
      refine ⟨after, ?_, pool, shown⟩
      rw [types.1 fresh]
      simp [made, Except.map]
    · rw [types.2 known]
      refine ⟨fs, rfl, rfl, ?_⟩
      have same : Function.update (graft tree names') (names' ++ [comp]) (some .dir) =
          graft tree names' := by
        rw [← known, ← graft_beyond tree names' comp]
        exact Function.update_eq_self _ _
      rw [same]
      exact mirrors

theorem ensureParents_mirrors {tree : Tree} {scope : Finset Names} (roomy : Roomy tree scope)
    (rest : List UInt8) (left : List UInt8) (fs : Fs) (bounded : Bounded left)
    (walkable : Walkable (left ++ rest))
    (inside : ∀ key, key <+: (components (left ++ rest)).filter (· ≠ dot) → key ∈ scope)
    (free : ∀ front right, left ++ rest = front ++ slash :: right →
      ∀ key, key <+: (components front).filter (· ≠ dot) → tree key = none ∨ tree key = some .dir)
    (mirrors : Mirrors fs (graft tree ((components left).filter (· ≠ dot)))) :
    ∃ after front last, ensureParents fs (slash :: left) rest = .ok after ∧
      after.poolUsed = fs.poolUsed ∧ left ++ rest = front ++ last ∧ Bounded front ∧ slash ∉ last ∧
      Mirrors after (graft tree ((components front).filter (· ≠ dot))) := by
  obtain ⟨whole, ⟨only, _⟩ | ⟨later, parts, _⟩⟩ := component_split rest
  · refine ⟨fs, left, rest, ?_, rfl, rfl, bounded, only ▸ whole, mirrors⟩
    have skipped := ensureParents_skip fs (slash :: left) rest [] (only ▸ whole)
    rw [List.append_nil] at skipped
    rw [skipped]
    rfl
  · generalize comp_ : component rest = comp at whole parts
    have shorter : later.length < rest.length := by
      rw [parts]
      simp
      omega
    subst parts
    have again : left ++ (comp ++ slash :: later) = (left ++ comp) ++ slash :: later := by simp
    have again' : left ++ (comp ++ slash :: later) = (left ++ comp ++ [slash]) ++ later := by simp
    have part : (components (left ++ comp)).filter (· ≠ dot) <+:
        (components (left ++ (comp ++ slash :: later))).filter (· ≠ dot) := by
      rw [again, components_slash, List.filter_append]
      exact List.prefix_append _ _
    obtain ⟨next, made, pool, shown⟩ := ensureDir_mirrors roomy bounded whole
      (again ▸ walkable).front (fun key up => inside key (up.trans part))
      (fun key up => free (left ++ comp) later again key up) mirrors
    have cut : components (left ++ comp ++ [slash]) = components (left ++ comp) := by
      rw [components_slash, components_stop [] rfl, List.append_nil]
    obtain ⟨after, front, last, done, kept, split, ends, plain, final⟩ :=
      ensureParents_mirrors roomy later (left ++ comp ++ [slash]) next (.inr ⟨_, rfl⟩)
        (again' ▸ walkable) (again' ▸ inside) (again' ▸ free) (by rw [cut]; exact shown)
    refine ⟨after, front, last, ?_, kept.trans pool, again'.trans split, ends, plain, final⟩
    rw [ensureParents_skip fs (slash :: left) comp _ whole, ensureParents]
    simp only [ne_eq, not_true_eq_false, ↓reduceIte, List.cons_append, made, ok_bind]
    simpa using done
termination_by rest.length

theorem lastFile_snoc (entries : List Entry) (e : Entry) (names : Names) :
    lastFile (entries ++ [e]) names =
      if e.path = names then e.data.or (lastFile entries names) else lastFile entries names := by
  unfold lastFile
  rw [List.filter_append, List.filterMap_append]
  by_cases same : e.path = names
  · cases known : e.data with
    | none => simp [same, known]
    | some data => simp [same, known]
  · simp [same]

theorem lastFile_some {entries : List Entry} {names : Names} {data : List UInt8}
    (known : lastFile entries names = some data) :
    ∃ e ∈ entries, e.path = names ∧ e.data = some data := by
  obtain ⟨e, member, held⟩ := List.mem_filterMap.mp (List.mem_of_getLast? known)
  obtain ⟨inside, same⟩ := List.mem_filter.mp member
  exact ⟨e, inside, by simpa using same, held⟩

theorem lastFile_none {entries : List Entry} {names : Names} (unknown : lastFile entries names = none)
    {e : Entry} (member : e ∈ entries) (same : e.path = names) : e.data = none := by
  have empty := List.getLast?_eq_none_iff.mp unknown
  rw [List.filterMap_eq_nil_iff] at empty
  exact empty e (List.mem_filter.mpr ⟨member, by simpa using same⟩)

theorem mem_listed (entries : List Entry) (names : Names) :
    names ∈ listed entries ↔ names = [] ∨ ∃ e ∈ entries, names ∈ e.paths := by
  simp [listed]

theorem path_mem_paths (e : Entry) : e.path ∈ e.paths := by
  unfold Entry.paths
  split <;> simp

theorem listed_mono {some_ all : List Entry} (inside : some_ ⊆ all) : listed some_ ⊆ listed all := by
  intro names member
  rcases (mem_listed _ _).mp member with root | ⟨e, present, path⟩
  · exact (mem_listed _ _).mpr (.inl root)
  · exact (mem_listed _ _).mpr (.inr ⟨e, inside present, path⟩)

theorem expected_listed {entries : List Entry} {names : Names} (known : expected entries names ≠ none) :
    names ∈ listed entries := by
  unfold expected at known
  cases file : lastFile entries names with
  | some data =>
      obtain ⟨e, member, same, _⟩ := lastFile_some file
      exact (mem_listed _ _).mpr (.inr ⟨e, member, same ▸ path_mem_paths e⟩)
  | none =>
      rw [file] at known
      by_contra missing
      exact known (if_neg missing)

theorem expected_root (entries : List Entry) : ∃ item, expected entries [] = some item := by
  unfold expected
  cases lastFile entries [] with
  | some data => exact ⟨_, rfl⟩
  | none => exact ⟨.dir, if_pos (by simp [listed])⟩

theorem expected_dir {entries : List Entry} {names : Names} (file : lastFile entries names = none) :
    expected entries names = if names ∈ listed entries then some .dir else none := by
  unfold expected
  rw [file]

theorem expected_snoc_dir (entries : List Entry) (e : Entry) (dir : e.data = none) :
    expected (entries ++ [e]) = fun names =>
      if names = e.path then some ((expected entries names).getD .dir) else expected entries names := by
  have paths : e.paths = [e.path] := if_pos dir
  funext names
  have file : lastFile (entries ++ [e]) names = lastFile entries names := by
    rw [lastFile_snoc, dir, Option.none_or, ite_self]
  have member : names ∈ listed (entries ++ [e]) ↔ names ∈ listed entries ∨ names = e.path := by
    simp [listed, paths, or_assoc]
  unfold expected
  rw [file]
  cases lastFile entries names with
  | some data => simp
  | none =>
      simp only [member]
      by_cases same : names = e.path
      · by_cases old : names ∈ listed entries <;> simp [same, same ▸ old]
      · simp [same]

theorem expected_snoc_file (entries : List Entry) (e : Entry) (data : List UInt8)
    (file : e.data = some data) (above : Names) (name : List UInt8) (path : e.path = above ++ [name]) :
    expected (entries ++ [e]) =
      Function.update (graft (expected entries) above) (above ++ [name]) (some (.file data)) := by
  have paths : e.paths = e.path.inits := if_neg (by simp [file])
  funext names
  by_cases same : names = above ++ [name]
  · rw [same, Function.update_self]
    unfold expected
    rw [lastFile_snoc, path, if_pos rfl, file]
    rfl
  · have other : e.path ≠ names := by
      rw [path]
      exact fun equal => same equal.symm
    have member : names ∈ listed (entries ++ [e]) ↔ names ∈ listed entries ∨ names <+: above := by
      simp [listed, paths, path, same, or_assoc]
    rw [Function.update_of_ne same]
    unfold expected graft
    rw [lastFile_snoc, if_neg other]
    by_cases up : names <+: above
    · simp only [member, up, or_true, ↓reduceIte]
      cases lastFile entries names with
      | some held => rfl
      | none => by_cases old : names ∈ listed entries <;> simp [old]
    · simp only [member, up, or_false, ↓reduceIte]

/-! ### One member -/

theorem getLast_dot {comps : Names} (more : comps ≠ []) (nothing : comps.filter (· ≠ dot) = []) :
    comps.getLast? = some dot := by
  rw [List.getLast?_eq_some_getLast more]
  by_contra other
  have kept : comps.getLast more ∈ comps.filter (· ≠ dot) :=
    List.mem_filter.mpr ⟨List.getLast_mem more, by simpa using other⟩
  rw [nothing] at kept
  cases kept

section Members
variable {entries before after : List Entry} {e : Entry}

theorem paths_inside (split : entries = before ++ e :: after) {names : Names}
    (member : names ∈ e.paths) : names ∈ (listed entries).toFinset := by
  rw [List.mem_toFinset, mem_listed]
  exact .inr ⟨e, by simp [split], member⟩

variable (packable : Packable entries) (split : entries = before ++ e :: after)
include packable split

theorem member_valid : e.Valid := packable.valid e (by simp [split])

theorem before_roomy : Roomy (expected before) (listed entries).toFinset where
  listed := fun names known => List.mem_toFinset.mpr
    (listed_mono (by simp [split]) (expected_listed known))
  room := packable.nodes

theorem no_file_above {names : Names} (up : names <+: e.path) (proper : names ≠ e.path) :
    lastFile before names = none := by
  cases known : lastFile before names with
  | none => rfl
  | some data =>
      obtain ⟨f, member, same, file⟩ := lastFile_some known
      have kinds := packable.kinds f (by simp [split, member]) (by simp [file]) e (by simp [split])
      rw [same] at kinds
      exact absurd (kinds.2 up).symm proper

theorem member_walkable : Walkable (stripped e.name) := by
  have valid := member_valid packable split
  obtain ⟨text, same⟩ := stripped_spec e.name valid.text
  exact ⟨text, by rw [same]; exact valid.comps⟩

theorem name_parts {above : Names} {name : List UInt8} (path : e.path = above ++ [name]) :
    ∃ front, components (stripped e.name) = front ++ [name] ∧ front.filter (· ≠ dot) = above ∧
      name ≠ dot := by
  have valid := member_valid packable split
  rw [(stripped_spec e.name valid.text).2]
  unfold Entry.path at path
  rcases List.eq_nil_or_concat (components e.name) with empty | ⟨front, last, parts⟩
  · rw [empty] at path
    simp at path
  · rw [List.concat_eq_append] at parts
    have ordinary : last ≠ dot := by
      rintro rfl
      have root := (valid.leaf (by simp [parts])).1
      rw [Entry.path, path] at root
      simp at root
    have kept : [last].filter (· ≠ dot) = [last] := by simp [ordinary]
    rw [parts, List.filter_append, kept] at path
    obtain ⟨sameFront, sameLast⟩ := List.append_inj' path rfl
    rw [List.singleton_inj] at sameLast
    exact ⟨front, by rw [parts, sameLast], sameFront, sameLast ▸ ordinary⟩

theorem mkdir_root {fs : Fs} (root : e.path = []) :
    mkdir fs (slash :: stripped e.name) = .ok (-1, fs) := by
  obtain ⟨found, done, means⟩ := resolveParent_meaning fs (slash :: stripped e.name)
  cases found with
  | none => simp [mkdir, done]
  | some both =>
      obtain ⟨_, last, ordinary, _⟩ := (means both.1 both.2).mp rfl
      rw [← components_splitPath, components_root,
        (stripped_spec e.name (member_valid packable split).text).2] at last
      have member : both.2 ∈ e.path :=
        List.mem_filter.mpr ⟨List.mem_of_getLast? last, by simpa using ordinary.1⟩
      rw [root] at member
      cases member

theorem unpack_dir {fs : Fs} (dir : e.data = none) (mirrors : Mirrors fs (expected before))
    (data : List UInt8) :
    ∃ counts next, unpackMember fs 53 (slash :: stripped e.name) data = .ok (counts, next) ∧
      next.poolUsed = fs.poolUsed ∧ Mirrors next (expected (before ++ [e])) := by
  have walkable := member_walkable packable split
  have known : ∀ item, expected before e.path = some item →
      expected (before ++ [e]) = expected before := by
    intro item shown
    rw [expected_snoc_dir before e dir]
    funext names
    by_cases same : names = e.path
    · simp [same, shown]
    · simp [same]
  unfold unpackMember
  rw [if_pos walkable.valid, if_pos rfl]
  rcases List.eq_nil_or_concat e.path with root | ⟨above, name, path⟩
  · obtain ⟨item, shown⟩ := expected_root before
    rw [mkdir_root packable split root]
    exact ⟨_, fs, rfl, rfl, by rw [known item (root ▸ shown)]; exact mirrors⟩
  · rw [List.concat_eq_append] at path
    obtain ⟨front, parts, names, other⟩ := name_parts packable split path
    have parent : expected before above = some .dir := by
      have up : above <+: e.path := path ▸ List.prefix_append _ _
      have proper : above ≠ e.path := by simp [path]
      rw [expected_dir (no_file_above packable split up proper), if_pos]
      have listed := packable.parents before e after split dir
      rwa [path, List.dropLast_concat] at listed
    rw [← mirrors.shows, ← names] at parent
    obtain ⟨pid, aims⟩ := walkable.aims mirrors.orderly parts other parent
    rw [names] at aims
    cases shown : expected before (above ++ [name]) with
    | some item =>
        rw [mkdir_taken mirrors aims shown]
        exact ⟨_, fs, rfl, rfl, by rw [known item (path ▸ shown)]; exact mirrors⟩
    | none =>
        have roomy := before_roomy packable split
        have slot := mirrors.slot roomy (paths_inside split (path ▸ path_mem_paths e)) shown
        obtain ⟨ret, next, made, pool, mirrored⟩ := mkdir_new mirrors aims walkable.clean shown slot
        refine ⟨_, next, by rw [made]; rfl, pool, ?_⟩
        have same : expected (before ++ [e]) =
            Function.update (expected before) (above ++ [name]) (some .dir) := by
          rw [expected_snoc_dir before e dir, path]
          funext names
          by_cases new : names = above ++ [name]
          · simp [new, shown]
          · simp [new]
        rw [same]
        exact mirrored

theorem stripped_end (file : e.data ≠ none) : (stripped e.name).getLast? ≠ some slash := by
  have single := ((member_valid packable split).file file).2
  unfold stripped
  split
  · rename_i ends
    intro again
    have outer := List.dropLast_append_getLast? slash ends
    have inner := List.dropLast_append_getLast? slash again
    refine single ⟨e.name.dropLast.dropLast, ?_⟩
    rw [← List.singleton_append, ← List.append_assoc, inner, outer]
  · rename_i other
    exact other

theorem front_proper (file : e.data ≠ none) {front right : List UInt8}
    (cut : stripped e.name = front ++ slash :: right) :
    (components front).filter (· ≠ dot) <+: e.path ∧
      (components front).filter (· ≠ dot) ≠ e.path := by
  have valid := member_valid packable split
  have whole : e.path = (components front).filter (· ≠ dot) ++ (components right).filter (· ≠ dot) := by
    rw [Entry.path, ← (stripped_spec e.name valid.text).2, cut, components_slash, List.filter_append]
  refine ⟨whole ▸ List.prefix_append _ _, fun same => ?_⟩
  have nothing : (components right).filter (· ≠ dot) = [] := by
    rw [← same] at whole
    exact List.self_eq_append_right.mp whole
  have more : components right ≠ [] := by
    intro empty
    have slashes : ∀ byte ∈ slash :: right, byte = slash := by
      have skipped := List.dropWhile_eq_nil_iff.mp ((components_eq_nil right).mp empty)
      intro byte member
      rcases List.mem_cons.mp member with first | later
      · exact first
      · simpa using skipped byte later
    refine stripped_end packable split file ?_
    rw [cut, List.getLast?_append_of_ne_nil _ (by simp), List.getLast?_eq_some_getLast (by simp)]
    rw [slashes _ (List.getLast_mem (by simp))]
  have last : (components e.name).getLast? = some dot := by
    rw [← (stripped_spec e.name valid.text).2, cut, components_slash,
      List.getLast?_append_of_ne_nil _ more]
    exact getLast_dot more nothing
  exact file (valid.leaf last).2

theorem file_leaf (file : e.data ≠ none) {front last : List UInt8}
    (cut : [] ++ stripped e.name = front ++ last) (bounded : Bounded front) (whole : slash ∉ last) :
    components (stripped e.name) = components front ++ [last] ∧ last ≠ dot := by
  have valid := member_valid packable split
  rw [List.nil_append] at cut
  have present : last ≠ [] := by
    rintro rfl
    rw [List.append_nil] at cut
    rcases bounded with empty | ⟨rest, ends⟩
    · refine (valid.file file).1 ?_
      rw [Entry.path, ← (stripped_spec e.name valid.text).2, cut, empty, components_stop [] rfl]
      rfl
    · refine stripped_end packable split file ?_
      rw [cut, ends, List.getLast?_concat]
  have parts : components (stripped e.name) = components front ++ [last] := by
    rw [cut, bounded.components, components_plain last whole, if_neg present]
  refine ⟨parts, ?_⟩
  rintro rfl
  rw [(stripped_spec e.name valid.text).2] at parts
  exact file (valid.leaf (by simp [parts])).2

theorem file_not_dir (file : e.data ≠ none) : expected before e.path ≠ some .dir := by
  intro shown
  have member := expected_listed (by rw [shown]; simp)
  have unknown : lastFile before e.path = none := by
    cases known : lastFile before e.path with
    | none => rfl
    | some data =>
        unfold expected at shown
        rw [known] at shown
        cases shown
  rcases (mem_listed _ _).mp member with root | ⟨f, inside, path⟩
  · exact ((member_valid packable split).file file).1 root
  · have kinds := packable.kinds e (by simp [split]) file f (by simp [split, inside])
    unfold Entry.paths at path
    split at path
    · rename_i dir
      exact kinds.1 dir (List.mem_singleton.mp path).symm
    · rename_i other
      have same := kinds.2 ((List.mem_inits _ _).mp path)
      exact other (lastFile_none unknown inside same)

theorem unpack_file {fs : Fs} {data : List UInt8} (file : e.data = some data)
    (mirrors : Mirrors fs (expected before)) (fits : fs.poolUsed + data.length ≤ tnPool) :
    ∃ counts next, unpackMember fs 48 (slash :: stripped e.name) data = .ok (counts, next) ∧
      next.poolUsed = fs.poolUsed + data.length ∧ Mirrors next (expected (before ++ [e])) := by
  have present : e.data ≠ none := by simp [file]
  have valid := member_valid packable split
  have walkable := member_walkable packable split
  have roomy := before_roomy packable split
  have paths : e.paths = e.path.inits := if_neg present
  have inside : ∀ key, key <+: e.path → key ∈ (listed entries).toFinset := fun key up =>
    paths_inside split (paths ▸ (List.mem_inits _ _).mpr up)
  have same : (components (stripped e.name)).filter (· ≠ dot) = e.path := by
    rw [(stripped_spec e.name valid.text).2, Entry.path]
  have above_free : ∀ key, key <+: e.path → key ≠ e.path →
      expected before key = none ∨ expected before key = some .dir := by
    intro key up proper
    rw [expected_dir (no_file_above packable split up proper)]
    by_cases known : key ∈ listed before <;> simp [known]
  have free : ∀ front right, stripped e.name = front ++ slash :: right →
      ∀ key, key <+: (components front).filter (· ≠ dot) →
        expected before key = none ∨ expected before key = some .dir := by
    intro front right cut key up
    obtain ⟨part, proper⟩ := front_proper packable split present cut
    refine above_free key (up.trans part) fun equal => proper ?_
    exact part.eq_of_length_le (equal ▸ up.length_le)
  have start : graft (expected before) ((components []).filter (· ≠ dot)) = expected before := by
    obtain ⟨item, shown⟩ := expected_root before
    rw [components_stop [] rfl]
    funext key
    by_cases root : key = [] <;> simp [graft, root, shown]
  obtain ⟨middle, front, last, ensured, pool, cut, bounded, whole, made⟩ :=
    ensureParents_mirrors roomy (stripped e.name) [] fs (.inl rfl) walkable
      (by rw [List.nil_append, same]; exact inside) free (start.symm ▸ mirrors)
  obtain ⟨parts, other⟩ := file_leaf packable split present cut bounded whole
  have path : e.path = (components front).filter (· ≠ dot) ++ [last] := by
    rw [← same, parts, List.filter_append]
    simp [other]
  generalize above : (components front).filter (· ≠ dot) = names at made path
  have dir := graft_self (above_free names (path ▸ List.prefix_append _ _) (by simp [path]))
  rw [← made.shows, ← above] at dir
  obtain ⟨pid, aims⟩ := walkable.aims made.orderly parts other dir
  rw [above] at aims
  have slot : graft (expected before) names (names ++ [last]) = none → freeSlot middle ≠ none :=
    made.slot (graft_roomy roomy fun key up => inside key (up.trans (path ▸ List.prefix_append _ _)))
      (inside _ (path ▸ List.prefix_refl _))
  have plain : graft (expected before) names (names ++ [last]) ≠ some .dir := by
    rw [graft_beyond, ← path]
    exact file_not_dir packable split present
  obtain ⟨ret, next, created, used, mirrored⟩ := create_file made aims walkable.clean data
    (by rw [pool]; exact fits) slot plain
  refine ⟨(if (0 : Int) ≤ ret then 1 else 0, 0), next, ?_, by rw [used, pool], ?_⟩
  · unfold unpackMember
    rw [if_pos walkable.valid, if_neg (by decide), if_pos (.inl rfl)]
    simp only [List.take_succ_cons, List.take_zero, List.drop_succ_cons, List.drop_zero, ensured,
      ok_bind, created, pure_ok]
  · rw [expected_snoc_file before e data file names last path]
    exact mirrored

theorem unpack_step {fs : Fs} (files dirs : Int) (rest : List UInt8)
    (mirrors : Mirrors fs (expected before))
    (pool : fs.poolUsed = (before.map Entry.size).sum) :
    ∃ files' dirs' next, tarUnpack fs files dirs (e.member ++ rest) = tarUnpack next files' dirs' rest ∧
      Mirrors next (expected (before ++ [e])) ∧
      next.poolUsed = ((before ++ [e]).map Entry.size).sum := by
  have valid := member_valid packable split
  have read := member_read e valid.length rest
  have total := packable.pool
  simp only [split, List.map_append, List.map_cons, List.sum_append, List.sum_cons] at total
  have small : e.size < 8 ^ 11 := by
    have limit : tnPool = 1024 * 1024 := rfl
    omega
  have more : (e.member ++ rest).headD 0 ≠ 0 := by
    obtain ⟨first, others, name⟩ := List.exists_cons_of_ne_nil valid.present
    have start : (e.member ++ rest).headD 0 = first := by
      simp only [Entry.member, Entry.header, namePart, name, List.cons_append, List.headD_cons]
    rw [start]
    intro zero
    exact valid.text.1 (by simp [name, zero])
  have unpacked : ∃ counts next, unpackMember fs e.typeflag (slash :: stripped e.name)
      (e.data.getD []) = .ok (counts, next) ∧ next.poolUsed = fs.poolUsed + e.size ∧
        Mirrors next (expected (before ++ [e])) := by
    cases kind : e.data with
    | none =>
        have flag : e.typeflag = 53 := if_pos kind
        have empty : e.size = 0 := by simp [Entry.size, kind]
        rw [flag, empty]
        exact unpack_dir packable split kind mirrors _
    | some data =>
        have flag : e.typeflag = 48 := if_neg (by simp [kind])
        have length : e.size = data.length := by simp [Entry.size, kind]
        rw [flag, length, Option.getD_some]
        exact unpack_file packable split kind mirrors (by omega)
  obtain ⟨counts, next, done, used, mirrored⟩ := unpacked
  refine ⟨files + counts.1, dirs + counts.2, next, ?_, mirrored, ?_⟩
  · rw [tarUnpack, if_neg (Nat.not_lt.mpr read.long), if_neg more]
    simp only [read.size, octal_size e.size small, read.flag, read.name, read.data, read.next,
      memberPath_name e.name valid.text valid.present valid.length, done, ok_bind]
  · rw [used, pool]
    simp

end Members

theorem unpack_run {entries : List Entry} (packable : Packable entries) (tail : List UInt8)
    (after before : List Entry) (split : entries = before ++ after) (fs : Fs) (files dirs : Int)
    (mirrors : Mirrors fs (expected before)) (pool : fs.poolUsed = (before.map Entry.size).sum) :
    ∃ count last, tarUnpack fs files dirs (archive after tail) = .ok (count, last) ∧
      Mirrors last (expected entries) := by
  induction after generalizing before fs files dirs with
  | nil =>
      refine ⟨files + dirs, fs, ?_, ?_⟩
      · have zeros : archive [] tail = 0 :: (List.replicate 511 0 ++ tail) := rfl
        rw [tarUnpack, zeros, List.headD_cons, if_neg, if_pos rfl]
        rw [List.length_cons, List.length_append, List.length_replicate]
        omega
      · rw [split, List.append_nil]
        exact mirrors
  | cons e rest ih =>
      obtain ⟨files', dirs', next, stepped, mirrored, used⟩ :=
        unpack_step packable split files dirs (archive rest tail) mirrors pool
      have parts : archive (e :: rest) tail = e.member ++ archive rest tail := by
        simp only [archive, List.flatMap_cons, List.append_assoc]
      rw [parts, stepped]
      exact ih (before ++ [e]) (by simp [split]) next files' dirs' mirrored used

theorem expected_nil : expected [] = bareTree := by
  funext names
  simp [expected, lastFile, listed, bareTree]

def itemNamed (fs : Fs) (path : Path) : Option FsItem :=
  match resolve fs path with
  | .ok (some id) =>
      match nodeType fs id with
      | .free => none
      | .dir => some .dir
      | .file => (contents fs id).map .file
  | _ => none

theorem itemNamed_tree {fs : Fs} (orderly : Orderly fs) {bytes : List UInt8}
    (plain : ∀ comp ∈ components bytes, Ordinary comp) :
    resolve fs (slash :: bytes) = .ok (descend (childOf fs) 0 (components bytes)) ∧
      itemNamed fs (slash :: bytes) = fs.tree (components bytes) := by
  have kept : (components bytes).filter (· ≠ dot) = components bytes :=
    List.filter_eq_self.mpr fun comp member => by simpa using (plain comp member).1
  have resolved := orderly.resolve_down bytes fun comp member => (plain comp member).2
  rw [kept] at resolved
  refine ⟨resolved, ?_⟩
  rw [itemNamed, resolved, Fs.tree]
  cases reached : descend (childOf fs) 0 (components bytes) with
  | none => rfl
  | some id =>
      have used := orderly.used reached
      have typ : nodeType fs id = (fs.nodes id).typ := by
        have inside := used.1
        rw [nodeType, if_neg (by omega)]
        rfl
      simp only [typ, Option.map_some, itemOf]
      by_cases file : (fs.nodes id).typ = .file
      · simp [file, contents_file fs id ⟨used.1, file⟩]
      · rw [used.dir file, contents_none fs id fun is => file is.2]

theorem listed_spelled {entries : List Entry} {names : Names} (member : names ∈ listed entries) :
    ∃ bytes, components bytes = names := by
  have names_ : ∀ name ∈ names, name ≠ [] ∧ slash ∉ name := by
    intro name inside
    rcases (mem_listed _ _).mp member with root | ⟨e, _, path⟩
    · rw [root] at inside
      cases inside
    · have part : names <+: e.path := by
        unfold Entry.paths at path
        split at path
        · rw [List.mem_singleton.mp path]
        · exact (List.mem_inits _ _).mp path
      have comp := (List.mem_filter.mp (part.subset inside)).1
      obtain ⟨present, _, whole⟩ := mem_components e.name name comp
      exact ⟨present, whole⟩
  refine ⟨names.flatMap (slash :: ·), ?_⟩
  clear member
  induction names using List.reverseRecOn with
  | nil => exact components_stop [] rfl
  | append_singleton names name ih =>
      obtain ⟨present, whole⟩ := names_ name (by simp)
      rw [List.flatMap_append, List.flatMap_singleton, components_slash,
        components_name name present whole,
        ih fun other inside => names_ other (List.mem_append_left _ inside)]

/-- The unpacked archive is the tree that its entries describe: every path leads to what
they say, and every node in use is at one of their paths. -/
theorem unpack_inverts_pack (entries : List Entry) (packable : Packable entries) (tail : List UInt8)
    (boot : Fs) :
    ∃ count fs, tarUnpack (init boot) 0 0 (archive entries tail) = .ok (count, fs) ∧
      (∀ bytes, (∀ comp ∈ components bytes, Ordinary comp) →
        itemNamed fs (slash :: bytes) = expected entries (components bytes)) ∧
      ∀ id, Used fs id → ∃ bytes, components bytes ∈ listed entries ∧
        resolve fs (slash :: bytes) = .ok (some id) := by
  have start : Mirrors (init boot) (expected []) :=
    ⟨run_orderly boot _ .refl, (init_tree boot).trans expected_nil.symm⟩
  obtain ⟨count, fs, unpacked, mirrors⟩ := unpack_run packable tail entries [] rfl (init boot) 0 0
    start rfl
  refine ⟨count, fs, unpacked, fun bytes plain => ?_, fun id used => ?_⟩
  · rw [(itemNamed_tree mirrors.orderly plain).2, mirrors.shows]
  · obtain ⟨names, reached⟩ := mirrors.orderly.reached used
    have shown : expected entries names ≠ none := by
      rw [← mirrors.shows, Fs.tree, reached]
      simp
    obtain ⟨bytes, rfl⟩ := listed_spelled (expected_listed shown)
    refine ⟨bytes, expected_listed shown, ?_⟩
    rw [(itemNamed_tree mirrors.orderly (mirrors.orderly.ordinary reached)).1, reached]

/-! `./`, `./b/`, `./b/s` and then `b/s` once more. -/

def plainEntry (name : List UInt8) (data : Option (List UInt8)) : Entry :=
  ⟨name, data, fun _ => 48, fun _ => 48, fun _ => 0⟩

def smallArchive : List Entry :=
  [plainEntry [46, 47] none, plainEntry [46, 47, 98, 47] none,
    plainEntry [46, 47, 98, 47, 115] (some [1, 2]), plainEntry [98, 47, 115] (some [7, 8, 9])]

theorem smallArchive_packable : Packable smallArchive where
  valid := by
    simp only [smallArchive, List.mem_cons, List.not_mem_nil, or_false, forall_eq_or_imp, forall_eq]
    refine ⟨?_, ?_, ?_, ?_⟩ <;> constructor <;> decide +kernel
  kinds := by decide +kernel
  parents := by
    intro before e after split dir
    rcases before with _ | ⟨first, _ | ⟨second, _ | ⟨third, _ | ⟨fourth, rest⟩⟩⟩⟩ <;>
      simp only [smallArchive, List.nil_append, List.cons_append, List.cons.injEq,
        List.nil_eq_append_iff, List.cons_ne_nil, and_false] at split
    · rw [← split.1]
      decide +kernel
    · rw [← split.1, ← split.2.1]
      decide +kernel
    · rw [← split.2.2.1] at dir
      cases dir
    · rw [← split.2.2.2.1] at dir
      cases dir
  pool := by decide +kernel
  nodes := by decide +kernel

theorem unpack_inverts_pack_small : Packable smallArchive ∧
    ∃ count fs, tarUnpack emptyFs 0 0 (archive smallArchive []) = .ok (count, fs) ∧
      itemNamed fs [47, 98, 47, 115] = some (.file [7, 8, 9]) := by
  obtain ⟨count, fs, unpacked, shows, _⟩ := unpack_inverts_pack smallArchive smallArchive_packable []
    ⟨fun _ => TNode.free, fun _ => 0, 0⟩
  refine ⟨smallArchive_packable, count, fs, unpacked, ?_⟩
  have plain : ∀ comp ∈ components [98, 47, 115], comp ≠ dot ∧ comp ≠ dotDot := by decide +kernel
  exact (shows [98, 47, 115] plain).trans (by decide +kernel)

end Shizuku.Initrd
