import Shizuku.TmpfsSteps

/-!
File contents as an abstract map from node ids to byte lists. The pool invariant
`Laid` says where the bytes are; the map says what they mean. A write
splices the map in the same way whether it happens in place or after a relocation to
the pool top.
-/

namespace Shizuku.Tmpfs

open ByteMemory Machine

def Used (fs : Fs) (id : Nat) : Prop := id < tnMax ∧ (fs.nodes id).typ ≠ .free

def IsFile (fs : Fs) (id : Nat) : Prop := id < tnMax ∧ (fs.nodes id).typ = .file

instance (fs : Fs) (id : Nat) : Decidable (Used fs id) := inferInstanceAs (Decidable (_ ∧ _))

instance (fs : Fs) (id : Nat) : Decidable (IsFile fs id) := inferInstanceAs (Decidable (_ ∧ _))

theorem IsFile.used {fs : Fs} {id : Nat} (file : IsFile fs id) : Used fs id :=
  ⟨file.1, by simp [file.2]⟩

def extentOf (fs : Fs) (id : Nat) : Extent := ⟨(fs.nodes id).off, (fs.nodes id).size⟩

/-- Directories take part with an empty range, so that a slot can change kind. -/
structure Laid (fs : Fs) : Prop where
  capacity : fs.poolUsed ≤ tnPool
  packed : Packed (Used fs) (extentOf fs) fs.poolUsed

def contents (fs : Fs) (id : Nat) : Option (List UInt8) :=
  if IsFile fs id then some (slice fs.pool (fs.nodes id).off (fs.nodes id).size) else none

theorem contents_file (fs : Fs) (id : Nat) (file : IsFile fs id) :
    contents fs id = some (slice fs.pool (fs.nodes id).off (fs.nodes id).size) := by
  simp [contents, file]

theorem contents_none (fs : Fs) (id : Nat) (other : ¬ IsFile fs id) : contents fs id = none := by
  simp [contents, other]

theorem contents_congr (before after : Fs) (id : Nat) (node : after.nodes id = before.nodes id)
    (bytes : IsFile before id →
      slice after.pool (before.nodes id).off (before.nodes id).size =
        slice before.pool (before.nodes id).off (before.nodes id).size) :
    contents after id = contents before id := by
  by_cases file : IsFile before id
  · have kept : IsFile after id := ⟨file.1, by rw [node]; exact file.2⟩
    rw [contents_file _ _ file, contents_file _ _ kept, node, bytes file]
  · have absent : ¬ IsFile after id := fun kept => file ⟨kept.1, by rw [← node]; exact kept.2⟩
    rw [contents_none _ _ file, contents_none _ _ absent]

/-! One lemma pair for each change of state: the pool stays laid out, and the
contents change at one id only. -/

theorem init_laid (boot : Fs) : Laid (init boot) := by
  refine ⟨Nat.zero_le _, ?_, ?_⟩
  · intro id _
    by_cases root : id = 0 <;> simp [extentOf, init, root, TNode.free]
  · intro id other first second different
    have firstRoot : id = 0 := by
      by_contra free
      exact first.2 (by simp [init, free, TNode.free])
    have secondRoot : other = 0 := by
      by_contra free
      exact second.2 (by simp [init, free, TNode.free])
    exact absurd (firstRoot.trans secondRoot.symm) different

theorem used_other (fs : Fs) (id other : Nat) (node : TNode) (different : other ≠ id) :
    Used (fs.setNode id node) other ↔ Used fs other := by
  simp [Used, setNode_other fs id other node different]

theorem attach_laid (fs : Fs) (id parent : Nat) (name : List UInt8) (typ : VnType)
    (laid : Laid fs) : Laid (fs.attach id parent name typ) := by
  refine ⟨laid.capacity, ?_⟩
  have pushed : Packed (Used (fs.attach id parent name typ))
      (extentOf (fs.attach id parent name typ)) (fs.poolUsed + 0) := by
    apply laid.packed.push id 0
    · simp [extentOf, Fs.attach]
    · intro other member different
      exact ⟨(used_other fs id other _ different).mp member,
        by simp [extentOf, Fs.attach, setNode_other fs id other _ different]⟩
  exact pushed

theorem attach_contents (fs : Fs) (id parent : Nat) (name : List UInt8) (typ : VnType)
    (other : Nat) (different : other ≠ id) :
    contents (fs.attach id parent name typ) other = contents fs other :=
  contents_congr fs _ other (setNode_other fs id other _ different) fun _ => rfl

theorem attach_dir_contents (fs : Fs) (id parent : Nat) (name : List UInt8)
    (slot : freeSlot fs = some id) : contents (fs.attach id parent name .dir) = contents fs := by
  funext other
  by_cases same : other = id
  · subst other
    have free := (freeSlot_some fs id slot).2.2
    rw [contents_none _ _ (by simp [IsFile, Fs.attach]), contents_none _ _ (by simp [IsFile, free])]
  · exact attach_contents fs id parent name .dir other same

theorem attach_file_contents (fs : Fs) (id parent : Nat) (name : List UInt8)
    (inside : id < tnMax) : contents (fs.attach id parent name .file) id = some [] := by
  rw [contents_file _ _ ⟨inside, by simp [Fs.attach]⟩]
  simp [Fs.attach, slice]

theorem place_laid (fs : Fs) (id : Nat) (data : List UInt8) (laid : Laid fs)
    (fits : fs.poolUsed + data.length ≤ tnPool) : Laid (fs.place id data) := by
  refine ⟨fits, ?_⟩
  apply laid.packed.push id data.length
  · simp [extentOf, Fs.place]
  · intro other member different
    have node : (fs.place id data).nodes other = fs.nodes other :=
      setNode_other fs id other _ different
    exact ⟨⟨member.1, by rw [← node]; exact member.2⟩, by simp [extentOf, node]⟩

theorem place_contents (fs : Fs) (id : Nat) (data : List UInt8) (file : IsFile fs id) :
    contents (fs.place id data) id = some data := by
  have placed : IsFile (fs.place id data) id := ⟨file.1, by simp [Fs.place, file.2]⟩
  rw [contents_file _ _ placed]
  simp [Fs.place, slice_blit_all]

theorem place_contents_other (fs : Fs) (id other : Nat) (data : List UInt8) (laid : Laid fs)
    (different : other ≠ id) : contents (fs.place id data) other = contents fs other :=
  contents_congr fs _ other (setNode_other fs id other _ different) fun file =>
    laid.packed.slice_blit_top fs.pool other file.used fs.poolUsed (Nat.le_refl _) data

theorem detach_laid (fs : Fs) (id : Nat) (laid : Laid fs) : Laid (fs.detach id) := by
  refine ⟨laid.capacity, laid.packed.mono ?_⟩
  intro other member
  by_cases same : other = id
  · subst other
    exact absurd (by simp [Fs.detach]) member.2
  · exact ⟨(used_other fs id other _ same).mp member,
      by simp [extentOf, Fs.detach, setNode_other fs id other _ same]⟩

theorem detach_contents (fs : Fs) (id : Nat) :
    contents (fs.detach id) = Function.update (contents fs) id none := by
  funext other
  by_cases same : other = id
  · subst other
    rw [Function.update_self, contents_none _ _ (by simp [IsFile, Fs.detach])]
  · rw [Function.update_of_ne same]
    exact contents_congr fs _ other (setNode_other fs id other _ same) fun _ => rfl

theorem move_laid (fs : Fs) (id parent : Nat) (name : List UInt8) (laid : Laid fs) :
    Laid (fs.move id parent name) := by
  refine ⟨laid.capacity, laid.packed.mono ?_⟩
  intro other member
  by_cases same : other = id
  · subst other
    exact ⟨⟨member.1, by simpa [Fs.move] using member.2⟩, by simp [extentOf, Fs.move]⟩
  · exact ⟨(used_other fs id other _ same).mp member,
      by simp [extentOf, Fs.move, setNode_other fs id other _ same]⟩

theorem move_contents (fs : Fs) (id parent : Nat) (name : List UInt8) :
    contents (fs.move id parent name) = contents fs := by
  funext other
  by_cases same : other = id
  · subst other
    by_cases file : IsFile fs id
    · have kept : IsFile (fs.move id parent name) id := ⟨file.1, by simp [Fs.move, file.2]⟩
      rw [contents_file _ _ file, contents_file _ _ kept]
      simp [Fs.move]
    · have absent : ¬ IsFile (fs.move id parent name) id := by
        intro kept
        exact file ⟨kept.1, by simpa [Fs.move] using kept.2⟩
      rw [contents_none _ _ file, contents_none _ _ absent]
  · exact contents_congr fs _ other (setNode_other fs id other _ same) fun _ => rfl

theorem overwrite_laid (fs : Fs) (id off : Nat) (buf : List UInt8) (laid : Laid fs) :
    Laid (fs.overwrite id off buf) :=
  ⟨laid.capacity, laid.packed⟩

def splice (bytes : List UInt8) (off : Nat) (buf : List UInt8) : List UInt8 :=
  bytes.take off ++ buf ++ bytes.drop (off + buf.length)

theorem overwrite_contents (fs : Fs) (id off : Nat) (buf bytes : List UInt8)
    (held : contents fs id = some bytes) (fits : off + buf.length ≤ (fs.nodes id).size) :
    contents (fs.overwrite id off buf) id = some (splice bytes off buf) := by
  by_cases file : IsFile fs id
  · rw [contents_file _ _ file, Option.some.injEq] at held
    have kept : IsFile (fs.overwrite id off buf) id := file
    rw [contents_file _ _ kept]
    have within := slice_blit_within fs.pool (fs.nodes id).off (fs.nodes id).size off buf fits
    rw [held] at within
    exact congrArg some within
  · rw [contents_none _ _ file] at held
    exact absurd held (by simp)

theorem overwrite_contents_other (fs : Fs) (id other off : Nat) (buf : List UInt8)
    (laid : Laid fs) (file : IsFile fs id) (fits : off + buf.length ≤ (fs.nodes id).size)
    (different : other ≠ id) :
    contents (fs.overwrite id off buf) other = contents fs other :=
  contents_congr fs _ other rfl fun present =>
    laid.packed.slice_blit_other fs.pool id other file.used present.used different off buf fits

theorem relocate_laid (fs : Fs) (id need : Nat) (laid : Laid fs)
    (fits : fs.poolUsed + need ≤ tnPool) : Laid (fs.relocate id need) := by
  refine ⟨fits, ?_⟩
  apply laid.packed.push id need
  · simp [extentOf, Fs.relocate]
  · intro other member different
    have node : (fs.relocate id need).nodes other = fs.nodes other :=
      setNode_other fs id other _ different
    exact ⟨⟨member.1, by rw [← node]; exact member.2⟩, by simp [extentOf, node]⟩

theorem relocate_contents_other (fs : Fs) (id other need : Nat) (laid : Laid fs)
    (different : other ≠ id) : contents (fs.relocate id need) other = contents fs other :=
  contents_congr fs _ other (setNode_other fs id other _ different) fun file =>
    laid.packed.slice_blit_top fs.pool other file.used fs.poolUsed (Nat.le_refl _) _

/-- Relocation keeps the old bytes as a prefix; what follows is whatever the
pool held there. -/
theorem relocate_contents (fs : Fs) (id need : Nat) (bytes : List UInt8)
    (held : contents fs id = some bytes) (grows : (fs.nodes id).size ≤ need) :
    ∃ stale, contents (fs.relocate id need) id = some (bytes ++ stale) ∧
      (bytes ++ stale).length = need := by
  by_cases file : IsFile fs id
  · rw [contents_file _ _ file, Option.some.injEq] at held
    have kept : IsFile (fs.relocate id need) id := ⟨file.1, by simp [Fs.relocate, file.2]⟩
    have within := slice_blit_within fs.pool fs.poolUsed need 0 bytes
      (by rw [← held, slice_length]; omega)
    refine ⟨(slice fs.pool fs.poolUsed need).drop (0 + bytes.length), ?_, ?_⟩
    · rw [contents_file _ _ kept]
      simpa [Fs.relocate, held] using within
    · rw [← held]
      simp only [List.length_append, slice_length, List.length_drop]
      omega
  · rw [contents_none _ _ file] at held
    exact absurd held (by simp)

theorem contents_length (fs : Fs) (id : Nat) (bytes : List UInt8)
    (held : contents fs id = some bytes) : bytes.length = (fs.nodes id).size := by
  by_cases file : IsFile fs id
  · rw [contents_file _ _ file, Option.some.injEq] at held
    rw [← held, slice_length]
  · rw [contents_none _ _ file] at held
    exact absurd held (by simp)

theorem grown_contents (fs : Fs) (id off : Nat) (buf bytes : List UInt8)
    (held : contents fs id = some bytes) (start : off ≤ (fs.nodes id).size)
    (longer : (fs.nodes id).size < off + buf.length) :
    contents ((fs.relocate id (off + buf.length)).overwrite id off buf) id =
      some (splice bytes off buf) := by
  obtain ⟨stale, moved, total⟩ :=
    relocate_contents fs id (off + buf.length) bytes held (Nat.le_of_lt longer)
  have size := contents_length fs id bytes held
  rw [overwrite_contents _ id off buf (bytes ++ stale) moved (by simp [Fs.relocate])]
  have front : (bytes ++ stale).take off = bytes.take off :=
    List.take_append_of_le_length (by omega)
  have noTail : (bytes ++ stale).drop (off + buf.length) = [] :=
    List.drop_eq_nil_of_le (by omega)
  have oldTail : bytes.drop (off + buf.length) = [] := List.drop_eq_nil_of_le (by omega)
  rw [splice, splice, front, noTail, oldTail]

/-! Whole calls. -/

theorem step_laid (fs after : Fs) (op : Op) (ret : Int) (laid : Laid fs)
    (taken : step fs op = .ok (ret, after)) : Laid after := by
  cases step_stepped fs after op ret taken with
  | refused => exact laid
  | madeDir path parent leaf id => exact attach_laid fs id parent leaf .dir laid
  | createdFull path data parent leaf id => exact attach_laid fs id parent leaf .file laid
  | created path data parent leaf id _ _ _ fits =>
      exact place_laid _ id data (attach_laid fs id parent leaf .file laid) fits
  | truncated path data parent leaf id _ _ _ fits => exact place_laid fs id data laid fits
  | unlinked path id => exact detach_laid fs id laid
  | renamed oldp newp id parent leaf => exact move_laid fs id parent leaf laid
  | overwrote id off buf => exact overwrite_laid fs id.toNat off buf laid
  | grew id off buf _ _ _ _ _ fits =>
      exact overwrite_laid _ id.toNat off buf (relocate_laid fs id.toNat _ laid fits)

abbrev Files := Nat → Option (List UInt8)

theorem update_of_pointwise (files after : Files) (id : Nat) (value : Option (List UInt8))
    (here : after id = value) (elsewhere : ∀ other, other ≠ id → after other = files other) :
    after = Function.update files id value := by
  funext other
  by_cases same : other = id
  · rw [same, Function.update_self, here]
  · rw [Function.update_of_ne same, elsewhere other same]

theorem place_update (fs : Fs) (id : Nat) (data : List UInt8) (laid : Laid fs)
    (file : IsFile fs id) :
    contents (fs.place id data) = Function.update (contents fs) id (some data) :=
  update_of_pointwise _ _ id _ (place_contents fs id data file)
    fun other different => place_contents_other fs id other data laid different

theorem created_update (fs : Fs) (id parent : Nat) (leaf data : List UInt8) (laid : Laid fs)
    (inside : id < tnMax) :
    contents ((fs.attach id parent leaf .file).place id data) =
      Function.update (contents fs) id (some data) := by
  have placed := place_update _ id data (attach_laid fs id parent leaf .file laid)
    ⟨inside, by simp [Fs.attach]⟩
  rw [placed]
  refine update_of_pointwise _ _ id _ (Function.update_self ..) fun other different => ?_
  rw [Function.update_of_ne different, attach_contents fs id parent leaf .file other different]

theorem write_update (fs after : Fs) (id : Int) (off : Nat) (buf : List UInt8) (laid : Laid fs)
    (taken : nodeWrite fs id off buf = .ok (buf.length, after)) :
    ∃ bytes, contents fs id.toNat = some bytes ∧ off ≤ bytes.length ∧ 0 < id ∧
      contents after = Function.update (contents fs) id.toNat (some (splice bytes off buf)) := by
  have stepped := nodeWrite_stepped fs after id off buf _ taken
  generalize returned : (buf.length : Int) = ret at stepped
  cases stepped with
  | refused => omega
  | overwrote _ _ _ positive inside file fits =>
      have held := contents_file fs id.toNat ⟨inside, file⟩
      refine ⟨_, held, by rw [slice_length]; omega, positive, ?_⟩
      exact update_of_pointwise _ _ id.toNat _ (overwrite_contents fs _ off buf _ held fits)
        fun other different =>
          overwrite_contents_other fs _ other off buf laid ⟨inside, file⟩ fits different
  | grew _ _ _ positive inside file start longer fits =>
      have held := contents_file fs id.toNat ⟨inside, file⟩
      refine ⟨_, held, by rw [slice_length]; exact start, positive, ?_⟩
      refine update_of_pointwise _ _ id.toNat _ (grown_contents fs _ off buf _ held start longer)
        fun other different => ?_
      have moved : Laid (fs.relocate id.toNat (off + buf.length)) := relocate_laid fs _ _ laid fits
      have typed : IsFile (fs.relocate id.toNat (off + buf.length)) id.toNat :=
        ⟨inside, by simp [Fs.relocate, file]⟩
      rw [overwrite_contents_other _ _ other off buf moved typed (by simp [Fs.relocate]) different,
        relocate_contents_other fs _ other _ laid different]

theorem create_update (fs after : Fs) (path : Path) (data : List UInt8) (ret : Int)
    (laid : Laid fs) (taken : create fs path data = .ok (ret, after)) (succeeded : 0 ≤ ret) :
    contents after = Function.update (contents fs) ret.toNat (some data) := by
  cases create_stepped fs after path data ret taken with
  | refused => omega
  | createdFull => omega
  | created _ _ parent leaf id _ _ slot _ =>
      exact created_update fs id parent leaf data laid (freeSlot_some fs id slot).2.1
  | truncated _ _ parent leaf id _ present file _ =>
      exact place_update fs id data laid ⟨(childOf_some fs parent id leaf present).2.1, file⟩

theorem read_contents (fs : Fs) (id off bufLen : Nat) (bytes : List UInt8) (laid : Laid fs)
    (positive : 0 < id) (held : contents fs id = some bytes)
    (word : bytes.length < off ∨ off + bufLen < 2 ^ 64) :
    nodeRead fs id off bufLen =
      .ok (((min bufLen (bytes.length - off) : Nat) : Int), (bytes.drop off).take bufLen) := by
  have file : IsFile fs id := by
    by_contra other
    rw [contents_none fs id other] at held
    exact absurd held (by simp)
  have size := contents_length fs id bytes held
  have bound := laid.packed.below id file.used
  have capacity := laid.capacity
  simp only [extentOf] at bound
  rw [contents_file fs id file, Option.some.injEq] at held
  have open_ : fileNode fs id = some (fs.nodes id) :=
    (fileNode_some _ _ _).mpr ⟨by omega, by simpa using file.1, by simpa using file.2, by simp⟩
  simp only [nodeRead, open_]
  by_cases beyond : off > (fs.nodes id).size
  · have nothing : bytes.drop off = [] := List.drop_eq_nil_of_le (by omega)
    have zero : bytes.length - off = 0 := by omega
    simp [beyond, nothing, zero]
  · have sum : off + bufLen < 2 ^ 64 := by omega
    simp only [beyond, ↓reduceIte, Nat.mod_eq_of_lt sum]
    have clipped : (if off + bufLen > (fs.nodes id).size then (fs.nodes id).size - off else bufLen) =
        min bufLen (bytes.length - off) := by
      split <;> omega
    have small : tnPool < 2 ^ 64 := by decide
    rw [clipped, Nat.mod_eq_of_lt (by omega), Nat.mod_eq_of_lt (by omega),
      (range_ok tnPool _ _ ()).mpr ⟨by omega, by omega⟩]
    simp only [ok_bind, pure_ok, Except.ok.injEq, Prod.mk.injEq]
    constructor
    · trivial
    · rw [← held] at size ⊢
      rw [slice_length] at size ⊢
      have taken := slice_drop_take fs.pool (fs.nodes id).off (fs.nodes id).size off
        (min bufLen ((fs.nodes id).size - off)) (by omega)
      rw [← taken]
      apply List.ext_getElem?
      intro index
      simp only [List.getElem?_take, List.getElem?_drop, slice_getElem?]
      by_cases inBuf : index < bufLen
      · by_cases inFile : off + index < (fs.nodes id).size
        · simp [inBuf, inFile, show index < (fs.nodes id).size - off by omega]
        · simp [inFile]
      · simp [inBuf]

def Reachable (fs : Fs) : Prop := ∃ boot, Run step (fun _ _ => True) (init boot) fs

theorem reachable_laid (fs : Fs) (reached : Reachable fs) : Laid fs := by
  obtain ⟨boot, run⟩ := reached
  exact run_invariant step _ Laid
    (fun before op ret after laid _ taken => step_laid before after op ret laid taken)
    run (init_laid boot)

theorem reachable_step {fs after : Fs} {op : Op} {ret : Int} (reached : Reachable fs)
    (taken : step fs op = .ok (ret, after)) : Reachable after := by
  obtain ⟨boot, run⟩ := reached
  exact ⟨boot, run.tail ⟨op, ret, trivial, taken⟩⟩

/-- Contents refinement over all runs: layout of the pool, effect of writes and
creations on the file they name and on no other, and what reads return. -/
theorem contents_refined (fs : Fs) (reached : Reachable fs) :
    (fs.poolUsed ≤ tnPool ∧
      (∀ id, Used fs id → (fs.nodes id).off + (fs.nodes id).size ≤ fs.poolUsed) ∧
      (∀ id other, IsFile fs id → IsFile fs other → id ≠ other →
        Disjoint (extentOf fs id).cells (extentOf fs other).cells)) ∧
    (∀ (id : Int) off buf after, nodeWrite fs id off buf = .ok (buf.length, after) →
      ∃ bytes, contents fs id.toNat = some bytes ∧
        contents after id.toNat =
          some (bytes.take off ++ buf ++ bytes.drop (off + buf.length)) ∧
        ∀ other, other ≠ id.toNat → contents after other = contents fs other) ∧
    (∀ path data (id : Int) after, create fs path data = .ok (id, after) → 0 ≤ id →
      contents after id.toNat = some data ∧
        ∀ other, other ≠ id.toNat → contents after other = contents fs other) ∧
    (∀ (id : Int) off bufLen bytes, 0 < id → contents fs id.toNat = some bytes →
      off + bufLen < 2 ^ 64 →
      nodeRead fs id off bufLen =
        .ok (((min bufLen (bytes.length - off) : Nat) : Int), (bytes.drop off).take bufLen)) := by
  have laid := reachable_laid fs reached
  refine ⟨⟨laid.capacity, laid.packed.below, ?_⟩, ?_, ?_, ?_⟩
  · intro id other first second different
    exact laid.packed.apart id other first.used second.used different
  · intro id off buf after taken
    obtain ⟨bytes, held, _, _, updated⟩ := write_update fs after id off buf laid taken
    refine ⟨bytes, held, ?_, fun other different => ?_⟩
    · rw [updated, Function.update_self, splice]
    · rw [updated, Function.update_of_ne different]
  · intro path data id after taken succeeded
    have updated := create_update fs after path data id laid taken succeeded
    exact ⟨by rw [updated, Function.update_self],
      fun other different => by rw [updated, Function.update_of_ne different]⟩
  · intro id off bufLen bytes positive held word
    have natural : ((id.toNat : Nat) : Int) = id := Int.toNat_of_nonneg (Int.le_of_lt positive)
    have read := read_contents fs id.toNat off bufLen bytes laid (by omega) held (.inr word)
    rwa [natural] at read

def emptyFs : Fs := init ⟨fun _ => TNode.free, fun _ => 0, 0⟩

theorem emptyFs_reachable : Reachable emptyFs := ⟨_, Relation.ReflTransGen.refl⟩

theorem contents_refined_two_bytes : ∃ fs, Reachable fs ∧ contents fs 1 = some [104, 105] ∧
    nodeRead fs 1 1 8 = .ok (1, [105]) := by
  have returned : (create emptyFs [47, 97] [104, 105]).map Prod.fst = .ok 1 := by decide +kernel
  obtain ⟨fs, taken⟩ := ok_of_returned _ _ returned
  have held := ((contents_refined emptyFs emptyFs_reachable).2.2.1 _ _ 1 fs taken (by omega)).1
  have reached : Reachable fs :=
    ⟨_, Relation.ReflTransGen.single ⟨.create [47, 97] [104, 105], 1, trivial, taken⟩⟩
  have read := (contents_refined fs reached).2.2.2 1 1 8 [104, 105] (by omega) held (by norm_num)
  exact ⟨fs, reached, held, read⟩

end Shizuku.Tmpfs
