import Mathlib.Data.List.TakeWhile
import Shizuku.FileCopy

/-!
Directory listings: `list` of the tmpfs, the call `sys_getdents` over it, and the loop of
the program `ls`. Each call scans the node table anew and skips as many children as the
index says, so the sequence of calls is the filtered table, read one place after another.

The records `Ustat` and `Udirent` of the program are passed in and returned; what it
prints is the list of its lines, without the message of a failed `stat`.
-/

namespace Shizuku.Tmpfs

open Machine

structure DirEnt where
  name : List UInt8
  size : Nat
  typ : VnType
  deriving DecidableEq, Repr

def Fs.dirEnt (fs : Fs) (i : Nat) : DirEnt :=
  ⟨(fs.nodes i).name, (fs.nodes i).size, (fs.nodes i).typ⟩

/-- The loop of `list`, over the slots that are left. -/
def listFrom (fs : Fs) (pid index : Nat) : List Nat → Nat → Option DirEnt
  | [], _ => none
  | i :: rest, seen =>
      if (fs.nodes i).typ = .free ∨ (fs.nodes i).parent ≠ pid then listFrom fs pid index rest seen
      else if seen ≠ index then listFrom fs pid index rest (seen + 1)
      else some (fs.dirEnt i)

def list (fs : Fs) (dir : Path) (index : Nat) : Outcome (Option DirEnt) := do
  match ← resolve fs dir with
  | none => return none
  | some pid =>
      let node ← nodeAt fs pid
      if node.typ ≠ .dir then return none
      return listFrom fs pid index slots 0

def IsChild (fs : Fs) (pid i : Nat) : Prop :=
  (fs.nodes i).typ ≠ .free ∧ (fs.nodes i).parent = pid

instance (fs : Fs) (pid i : Nat) : Decidable (IsChild fs pid i) :=
  inferInstanceAs (Decidable (_ ∧ _))

def children (fs : Fs) (pid : Nat) : List Nat := slots.filter fun i => IsChild fs pid i

theorem mem_children (fs : Fs) (pid i : Nat) :
    i ∈ children fs pid ↔ (1 ≤ i ∧ i < tnMax) ∧ IsChild fs pid i := by
  rw [children, List.mem_filter, mem_slots, decide_eq_true_iff]

theorem children_increasing (fs : Fs) (pid : Nat) : (children fs pid).Pairwise (· < ·) :=
  (List.pairwise_lt_range' : slots.Pairwise (· < ·)).filter _

theorem children_length (fs : Fs) (pid : Nat) : (children fs pid).length < tnMax := by
  have fewer : (children fs pid).length ≤ slots.length := List.length_filter_le _ _
  have all : slots.length = tnMax - 1 := List.length_range'
  have some_ : tnMax = 192 := rfl
  omega

theorem listFrom_getElem? (fs : Fs) (pid index : Nat) (table : List Nat) (seen : Nat)
    (before : seen ≤ index) :
    listFrom fs pid index table seen =
      (table.filter fun i => IsChild fs pid i)[index - seen]?.map fs.dirEnt := by
  -- The counter runs over the children only, whatever the holes between them.
  induction table generalizing seen with
  | nil => rfl
  | cons i rest ih =>
      by_cases child : IsChild fs pid i
      · have taken : ¬ ((fs.nodes i).typ = .free ∨ (fs.nodes i).parent ≠ pid) := by
          rintro (free | elsewhere)
          · exact child.1 free
          · exact elsewhere child.2
        rw [listFrom, if_neg taken, List.filter_cons_of_pos (by simpa using child)]
        by_cases here : seen = index
        · subst here
          simp
        · rw [if_pos here, ih (seen + 1) (by omega),
            show index - seen = index - (seen + 1) + 1 by omega, List.getElem?_cons_succ]
      · have skipped : (fs.nodes i).typ = .free ∨ (fs.nodes i).parent ≠ pid := by
          by_contra neither
          rw [not_or, not_not] at neither
          exact child neither
        rw [listFrom, if_pos skipped, List.filter_cons_of_neg (by simpa using child)]
        exact ih seen before

theorem list_children {fs : Fs} {path : Path} {pid : Nat} (found : resolve fs path = .ok (some pid))
    (dir : (fs.nodes pid).typ = .dir) (index : Nat) :
    list fs path index = .ok ((children fs pid)[index]?.map fs.dirEnt) := by
  have named : namedBy fs path = some pid := by
    rw [resolve_namedBy] at found
    exact Except.ok.inj found
  have inside := nodeAt_grounded fs pid (namedBy_grounded fs path pid named)
  simp only [list, found, ok_bind, inside, dir, ne_eq, not_true_eq_false, ↓reduceIte, pure_ok]
  rw [listFrom_getElem? fs pid index slots 0 (Nat.zero_le _)]
  rfl

def NamesHold (good : List UInt8 → Prop) (fs : Fs) : Prop := ∀ id, good (fs.nodes id).name

def Op.newPath : Op → Option Path
  | .mkdir path => some path
  | .create path _ => some path
  | .rename _ newp => some newp
  | .unlink _ => none
  | .nodeWrite _ _ _ => none

section Names
variable {good : List UInt8 → Prop} {fs : Fs}

theorem setNode_namesHold {node : TNode} (held : NamesHold good fs) (id : Nat)
    (named : good node.name) : NamesHold good (fs.setNode id node) := by
  intro other
  by_cases same : other = id
  · rw [same, setNode_same]
    exact named
  · rw [setNode_other fs id other node same]
    exact held other

theorem place_namesHold (held : NamesHold good fs) (id : Nat) (data : List UInt8) :
    NamesHold good (fs.place id data) :=
  setNode_namesHold held id (held id)

theorem step_namesHold {after : Fs} {op : Op} {ret : Int} (held : NamesHold good fs)
    (new : ∀ path parent leaf, op.newPath = some path →
      resolveParent fs path = .ok (some (parent, leaf)) → good (nameField leaf))
    (taken : step fs op = .ok (ret, after)) : NamesHold good after := by
  cases step_stepped fs after op ret taken with
  | refused => exact held
  | madeDir path parent leaf id found => exact setNode_namesHold held id (new path parent leaf rfl found)
  | createdFull path data parent leaf id found =>
      exact setNode_namesHold held id (new path parent leaf rfl found)
  | created path data parent leaf id found =>
      exact place_namesHold (setNode_namesHold held id (new path parent leaf rfl found)) id data
  | truncated path data parent leaf id => exact place_namesHold held id data
  | unlinked path id => exact setNode_namesHold held id (held id)
  | renamed oldp newp id parent leaf source nonroot inside found =>
      exact setNode_namesHold held id (new newp parent leaf rfl found)
  | overwrote => exact held
  | grew id => exact setNode_namesHold held id.toNat (held id.toNat)

theorem init_namesHold (boot : Fs) (empty : good (List.replicate vfsNameMax 0)) :
    NamesHold good (init boot) := by
  intro id
  simp only [init]
  split <;> exact empty

end Names

def NamesFit (fs : Fs) : Prop := NamesHold (fun name => name.length = vfsNameMax) fs

theorem nameField_length (name : List UInt8) : (nameField name).length = vfsNameMax := by
  have size : vfsNameMax = 24 := rfl
  simp only [nameField, List.length_append, List.length_take, List.length_replicate]
  omega

theorem reachable_namesFit (fs : Fs) (reached : Reachable fs) : NamesFit fs := by
  obtain ⟨boot, run⟩ := reached
  exact run_invariant step _ NamesFit
    (fun _ _ _ _ fit _ taken => step_namesHold fit (fun _ _ leaf _ _ => nameField_length leaf) taken)
    run (init_namesHold boot (List.length_replicate ..))

end Shizuku.Tmpfs

namespace Shizuku.Syscalls

open ByteMemory Machine Tmpfs Sched

structure Udirent where
  name : List UInt8
  typ : Nat
  deriving DecidableEq, Repr

def Udirent.zeroed : Udirent := ⟨List.replicate 56 0, 0⟩

def sysGetdents (s : System) (tid : Nat) (user : Nat → UInt8) (rdi rsi rdx : BitVec 64)
    (d : Udirent) : Outcome (Int × Udirent) :=
  if badUaddr rdx.toNat then .ok (-1, d)
  else
    match absPath user (s.threads tid) rdi.toNat with
    | none => .ok (-1, d)
    | some path => do
        match ← list s.fs path rsi.toNat with
        | none => return (0, d)
        | some de =>
            let n := min (nameBytes de.name).length 55
            return (1, ⟨de.name.take n ++ List.replicate (56 - n) 0, vnCode de.typ⟩)

structure ListFrame where
  mem : Nat → UInt8
  p : BitVec 64
  st : BitVec 64
  d : BitVec 64
  valid : ∀ address ∈ [p, st, d], badUaddr address.toNat = false

def ListFrame.holding (f : ListFrame) (path : List UInt8) : Nat → UInt8 :=
  blit f.mem f.p.toNat (cstr 256 path)

def cstrOf (b : List UInt8) : List UInt8 := strOr [63] (nameBytes b)

def Udirent.line (d : Udirent) : List UInt8 := cstrOf d.name ++ if d.typ = 2 then [slash] else []

/-- The loop, for at most `fuel` rounds: the lines it prints. Any answer but 0 keeps it going. -/
def lsLoop (f : ListFrame) (tid : Nat) (path : List UInt8) (s : System) :
    Nat → BitVec 32 → Udirent → Outcome (Option (List (List UInt8)))
  | 0, _, _ => .ok none
  | fuel + 1, i, d => do
      let got ← sysGetdents s tid (f.holding path) f.p (i.setWidth 64) f.d d
      if got.1 ≠ 0 then
        let rest ← lsLoop f tid path s fuel (i + 1) got.2
        return rest.map fun lines => got.2.line :: lines
      return some []

def lsList (f : ListFrame) (tid : Nat) (path : List UInt8) (fuel : Nat) (s : System) :
    Outcome (Option (Int × List (List UInt8))) := do
  let found ← sysStat s tid (f.holding path) f.p f.st ⟨0, 0⟩
  if found.1 < 0 then return some (1, [])
  if found.2.typ ≠ 2 then return some (0, [path])
  let lines ← lsLoop f tid path s fuel 0 .zeroed
  return lines.map fun lines => (0, lines)

/-- The path that names a new node is a `&str` without NUL, as those of the calls are. -/
def TextPaths (op : Tmpfs.Op) : Prop := ∀ path, op.newPath = some path → Text path

theorem text_components (bytes : List UInt8) (text : Text bytes) :
    ∀ piece ∈ components bytes, Text piece := by
  fun_induction components bytes with
  | case1 => simp
  | case2 bytes present _ ih =>
      obtain ⟨first, rest⟩ := text_component _ (text_skipSlashes bytes text)
      intro piece member
      rcases List.mem_cons.mp member with rfl | later
      · exact first
      · exact ih rest piece later

theorem resolveParent_text {fs : Fs} {path : Path} {parent : Nat} {leaf : List UInt8}
    (text : Text path) (found : resolveParent fs path = .ok (some (parent, leaf))) :
    Text (nameBytes (nameField leaf)) := by
  have good := (resolveParent_good fs path parent leaf text.1 found).2
  have piece := resolveParent_leaf fs path parent leaf found
  rw [nameBytes_field leaf good.short good.clean]
  cases path with
  | nil => cases found
  | cons first bytes =>
      by_cases relative : first ≠ slash
      · simp [resolveParent, relative] at found
      · rw [not_not] at relative
        subst relative
        exact text_components bytes ((text_slash [] bytes).mp text).2 leaf piece

theorem names_are_texts (boot fs : Fs)
    (run : Run Tmpfs.step (fun _ op => TextPaths op) (Tmpfs.init boot) fs) (id : Nat) :
    Text (nameBytes (fs.nodes id).name) :=
  run_invariant Tmpfs.step _ (NamesHold fun name => Text (nameBytes name))
    (fun _ _ _ _ held texts taken => step_namesHold held
      (fun path _ _ new found => resolveParent_text (texts path new) found) taken)
    run (init_namesHold boot (by decide)) id

/-! ### What is printed -/

def lineOf (node : TNode) : List UInt8 :=
  cstrOf node.name ++ if node.typ = .dir then [slash] else []

section Listing
variable {s : System} {tid : Nat} {f : ListFrame} {arg : List UInt8} {path : Path} {pid : Nat}

structure Lists (s : System) (tid : Nat) (f : ListFrame) (arg : List UInt8) (path : Path)
    (pid : Nat) : Prop where
  fit : NamesFit s.fs
  named : absPath (f.holding arg) (s.threads tid) f.p.toNat = some path
  found : resolve s.fs path = .ok (some pid)
  dir : (s.fs.nodes pid).typ = .dir

def udirent (de : DirEnt) : Udirent :=
  ⟨nameBytes de.name ++ List.replicate (56 - (nameBytes de.name).length) 0, vnCode de.typ⟩

theorem lineOf_text (node : TNode) (text : Text (nameBytes node.name)) :
    lineOf node = nameBytes node.name ++ if node.typ = .dir then [slash] else [] := by
  rw [lineOf, cstrOf, strOr, if_pos text.2]

theorem nameBytes_short {fs : Fs} (fit : NamesFit fs) (i : Nat) :
    (nameBytes (fs.nodes i).name).length ≤ 24 := by
  have part : (nameBytes (fs.nodes i).name).length ≤ (fs.nodes i).name.length :=
    (List.takeWhile_sublist _).length_le
  rwa [fit i] at part

theorem udirent_line (fs : Fs) (i : Nat) :
    (udirent (fs.dirEnt i)).line = lineOf (fs.nodes i) := by
  have nonzero : ∀ byte ∈ nameBytes (fs.nodes i).name, (byte != 0) = true := by
    intro byte member
    exact List.mem_takeWhile_imp (p := (· != 0)) member
  have ended : nameBytes (udirent (fs.dirEnt i)).name = nameBytes (fs.nodes i).name := by
    simp only [udirent, Fs.dirEnt]
    nth_rewrite 1 [nameBytes]
    rw [List.takeWhile_append_of_pos nonzero]
    simp
  have code : vnCode (fs.nodes i).typ = 2 ↔ (fs.nodes i).typ = .dir := by
    cases (fs.nodes i).typ <;> decide
  simp only [Udirent.line, lineOf, cstrOf, ended]
  congr 1
  simp only [udirent, Fs.dirEnt, code]

theorem getdents_returns (lists : Lists s tid f arg path pid) (rsi : BitVec 64) (d : Udirent) :
    sysGetdents s tid (f.holding arg) f.p rsi f.d d =
      .ok (match (children s.fs pid)[rsi.toNat]? with
        | none => (0, d)
        | some i => (1, udirent (s.fs.dirEnt i))) := by
  have valid : badUaddr f.d.toNat = false := f.valid f.d (by simp)
  simp only [sysGetdents, valid, Bool.false_eq_true, ↓reduceIte, lists.named,
    list_children lists.found lists.dir, ok_bind]
  cases (children s.fs pid)[rsi.toNat]? with
  | none => rfl
  | some i =>
      have short := nameBytes_short lists.fit i
      have whole : min (nameBytes (s.fs.nodes i).name).length 55 =
          (nameBytes (s.fs.nodes i).name).length := by
        omega
      have front : (s.fs.nodes i).name.take (nameBytes (s.fs.nodes i).name).length =
          nameBytes (s.fs.nodes i).name :=
        (List.prefix_iff_eq_take.mp ( List.takeWhile_prefix _)).symm
      simp only [Option.map_some, Fs.dirEnt, whole, pure_ok, udirent, front]

theorem lsLoop_prints (lists : Lists s tid f arg path pid) (fuel i : Nat) (d : Udirent)
    (begun : i ≤ (children s.fs pid).length)
    (enough : (children s.fs pid).length < i + fuel) :
    lsLoop f tid arg s fuel (.ofNat 32 i) d =
      .ok (some (((children s.fs pid).drop i).map fun j => lineOf (s.fs.nodes j))) := by
  induction fuel generalizing i d with
  | zero => omega
  | succ fuel ih =>
      -- The index is a `u32`, and there are fewer children than slots.
      have few := children_length s.fs pid
      have max : tnMax = 192 := rfl
      have same : ((BitVec.ofNat 32 i).setWidth 64).toNat = i := by
        rw [BitVec.toNat_setWidth, BitVec.toNat_ofNat]
        omega
      simp only [lsLoop, getdents_returns lists, same, ok_bind]
      by_cases more : i < (children s.fs pid).length
      · have next : BitVec.ofNat 32 i + 1 = BitVec.ofNat 32 (i + 1) := by
          apply BitVec.eq_of_toNat_eq
          simp
        rw [List.getElem?_eq_getElem more, List.drop_eq_getElem_cons more, List.map_cons,
          ← udirent_line s.fs]
        simp only [ne_eq, one_ne_zero, not_false_eq_true, ↓reduceIte, next]
        rw [ih (i + 1) _ (by omega) (by omega), ok_bind]
        rfl
      · rw [List.getElem?_eq_none (by omega), List.drop_eq_nil_of_le (by omega)]
        rfl

theorem lsList_prints (lists : Lists s tid f arg path pid) (fuel : Nat)
    (enough : (children s.fs pid).length < fuel) :
    lsList f tid arg fuel s =
      .ok (some (0, (children s.fs pid).map fun j => lineOf (s.fs.nodes j))) := by
  have valid : badUaddr f.st.toNat = false := f.valid f.st (by simp)
  have there : lookup s.fs path = .ok (pid : Int) := lookup_there.mpr lists.found
  have inside : pid < tnMax := by
    have found := lists.found
    rw [resolve_namedBy] at found
    exact (namedBy_grounded s.fs path pid (Except.ok.inj found)).inside
  have typ : nodeType s.fs pid = .dir := by
    rw [nodeType, if_neg (by omega)]
    exact lists.dir
  have loop := lsLoop_prints lists fuel 0 .zeroed (Nat.zero_le _) (by omega)
  simp only [lsList, sysStat, valid, Bool.false_eq_true, ↓reduceIte, lists.named, there, ok_bind]
  rw [if_neg (by omega)]
  simp only [pure_ok, ok_bind, typ, vnCode]
  rw [if_neg (by omega), if_neg (by simp), show (0 : BitVec 32) = BitVec.ofNat 32 0 from rfl, loop]
  rfl

end Listing

/-- The calls of `list` on a directory return its children, each once and in the order of
the slots, then nothing; and `ls` prints one line for each of them and returns. The line is
the name itself where all paths were texts. -/
theorem listing_enumerates (fs : Fs) (reached : Reachable fs) (path : Path) (pid : Nat)
    (found : resolve fs path = .ok (some pid)) (dir : (fs.nodes pid).typ = .dir) :
    (children fs pid).Pairwise (· < ·) ∧
    (∀ i, i ∈ children fs pid ↔
      (1 ≤ i ∧ i < tnMax) ∧ (fs.nodes i).typ ≠ .free ∧ (fs.nodes i).parent = pid) ∧
    (∀ index (inside : index < (children fs pid).length),
      list fs path index = .ok (some (fs.dirEnt (children fs pid)[index]))) ∧
    (∀ index, (children fs pid).length ≤ index → list fs path index = .ok none) ∧
    (∀ (s : System) (tid : Nat) (f : ListFrame) (arg : List UInt8), s.fs = fs →
      absPath (f.holding arg) (s.threads tid) f.p.toNat = some path →
      ∀ fuel, (children fs pid).length < fuel →
        lsList f tid arg fuel s =
          .ok (some (0, (children fs pid).map fun i => lineOf (fs.nodes i)))) ∧
    ∀ boot, Run Tmpfs.step (fun _ op => TextPaths op) (Tmpfs.init boot) fs →
      ∀ i ∈ children fs pid, lineOf (fs.nodes i) =
        nameBytes (fs.nodes i).name ++ if (fs.nodes i).typ = .dir then [slash] else [] := by
  refine ⟨children_increasing fs pid, mem_children fs pid, ?_, ?_, ?_, ?_⟩
  · intro index inside
    rw [list_children found dir, List.getElem?_eq_getElem inside, Option.map_some]
  · intro index beyond
    rw [list_children found dir, List.getElem?_eq_none beyond, Option.map_none]
  · rintro s tid f arg rfl named fuel enough
    exact lsList_prints ⟨reachable_namesFit s.fs reached, named, found, dir⟩ fuel enough
  · intro boot run i _
    exact lineOf_text (fs.nodes i) (names_are_texts boot fs run i)

def listFrame : ListFrame where
  mem := fun _ => 0
  p := 4096
  st := 8192
  d := 12288
  valid := by simp [badUaddr]

/-- The file `/a`, the directory `/d` and the file `/b`, and `/a` is removed again. -/
def withHole : List Tmpfs.Op :=
  [.create [47, 97] [], .mkdir [47, 100], .create [47, 98] [104, 105], .unlink [47, 97]]

structure RootListing where
  root : Option Nat
  typ : VnType
  ids : List Nat
  entries : List DirEnt
  lines : List (List UInt8)
  deriving DecidableEq

def rootListing (fs : Fs) : RootListing :=
  ⟨namedBy fs [47], (fs.nodes 0).typ, children fs 0, (children fs 0).map fs.dirEnt,
    (children fs 0).map fun i => lineOf (fs.nodes i)⟩

/-- `ls /` after that: `d/` and `b`. -/
theorem listing_enumerates_hole : ∃ fs, Reachable fs ∧ resolve fs [47] = .ok (some 0) ∧
    list fs [47] 1 = .ok (some ⟨nameField [98], 2, .file⟩) ∧ list fs [47] 2 = .ok none ∧
    lsList listFrame 1 [47] 3 ⟨fs, fun _ => .zeroed⟩ = .ok (some (0, [[100, 47], [98]])) := by
  have evaluated : (replay Tmpfs.step emptyFs withHole).map (fun done => rootListing done.2) =
      .ok ⟨some 0, .dir, [2, 3], [⟨nameField [100], 0, .dir⟩, ⟨nameField [98], 2, .file⟩],
        [[100, 47], [98]]⟩ := by
    decide +kernel
  obtain ⟨⟨rets, fs⟩, replayed, shown⟩ := (map_ok _ _ _).mp evaluated
  simp only [rootListing, RootListing.mk.injEq] at shown
  obtain ⟨named, dir, kids, entries, lines⟩ := shown
  have reached : Reachable fs := ⟨_, replay_run _ _ _ (fun _ _ _ => trivial) _ _ _ replayed⟩
  have found : resolve fs [47] = .ok (some 0) := by rw [resolve_namedBy, named]
  obtain ⟨_, _, listed, ended, printed, _⟩ := listing_enumerates fs reached [47] 0 found dir
  refine ⟨fs, reached, found, ?_, ended 2 (by rw [kids]; rfl), ?_⟩
  · simp only [kids, List.map_cons, List.map_nil, List.cons.injEq] at entries
    rw [listed 1 (by rw [kids]; decide), ← entries.2.1]
    simp only [kids, List.getElem_cons_succ, List.getElem_cons_zero]
  · rw [← lines]
    refine printed ⟨fs, fun _ => .zeroed⟩ 1 listFrame [47] rfl ?_ 3 (by rw [kids]; decide)
    exact absPath_absolute [47] (by decide +kernel) rfl (by decide)

end Shizuku.Syscalls
