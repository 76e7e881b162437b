import Shizuku.Tmpfs

/-!
The calls that change the filesystem, as one step function, and the complete
list of what such a step can do. Later invariants are proved by going through
`Stepped`, never by unfolding the calls again.
-/

namespace Shizuku.Tmpfs

open ByteMemory Machine

inductive Op where
  | mkdir (path : Path)
  | create (path : Path) (data : List UInt8)
  | unlink (path : Path)
  | rename (oldp newp : Path)
  | nodeWrite (id : Int) (off : Nat) (buf : List UInt8)

def step (fs : Fs) : Op → Outcome (Int × Fs)
  | .mkdir path => mkdir fs path
  | .create path data => create fs path data
  | .unlink path => unlink fs path
  | .rename oldp newp => rename fs oldp newp
  | .nodeWrite id off buf => nodeWrite fs id off buf

/-! Node lookups after one update of the table. -/

@[simp] theorem setNode_same (fs : Fs) (id : Nat) (node : TNode) :
    (fs.setNode id node).nodes id = node := by
  simp [Fs.setNode]

theorem setNode_other (fs : Fs) (id other : Nat) (node : TNode) (different : other ≠ id) :
    (fs.setNode id node).nodes other = fs.nodes other := by
  simp [Fs.setNode, different]

@[simp] theorem setNode_pool (fs : Fs) (id : Nat) (node : TNode) :
    (fs.setNode id node).pool = fs.pool := rfl

@[simp] theorem setNode_poolUsed (fs : Fs) (id : Nat) (node : TNode) :
    (fs.setNode id node).poolUsed = fs.poolUsed := rfl

theorem mem_slots (id : Nat) : id ∈ slots ↔ 1 ≤ id ∧ id < tnMax := by
  simp only [slots, List.mem_range'_1, tnMax]

theorem freeSlot_some (fs : Fs) (id : Nat) (found : freeSlot fs = some id) :
    1 ≤ id ∧ id < tnMax ∧ (fs.nodes id).typ = .free := by
  have member := (mem_slots id).mp (List.mem_of_find?_eq_some found)
  have free := List.find?_some found
  exact ⟨member.1, member.2, by simpa using free⟩

theorem childOf_some (fs : Fs) (parent id : Nat) (name : List UInt8)
    (found : childOf fs parent name = some id) :
    1 ≤ id ∧ id < tnMax ∧ (fs.nodes id).typ ≠ .free ∧ (fs.nodes id).parent = parent ∧
      nameBytes (fs.nodes id).name = name := by
  have member := (mem_slots id).mp (List.mem_of_find?_eq_some found)
  have hit := List.find?_some found
  simp only [Bool.and_eq_true, bne_iff_ne, beq_iff_eq] at hit
  exact ⟨member.1, member.2, hit.1.1, hit.1.2, hit.2⟩

theorem nodeAt_ok (fs : Fs) (id : Nat) (node : TNode) :
    nodeAt fs id = .ok node ↔ id < tnMax ∧ node = fs.nodes id := by
  unfold nodeAt
  rw [bind_ok]
  constructor
  · rintro ⟨done, inside, same⟩
    simp only [pure_ok, Except.ok.injEq] at same
    exact ⟨(index_ok _ _ _).mp inside, same.symm⟩
  · rintro ⟨inside, rfl⟩
    exact ⟨(), (index_ok _ _ _).mpr inside, rfl⟩

theorem fileNode_some (fs : Fs) (id : Int) (node : TNode) :
    fileNode fs id = some node ↔
      0 < id ∧ id.toNat < tnMax ∧ (fs.nodes id.toNat).typ = .file ∧ node = fs.nodes id.toNat := by
  unfold fileNode
  by_cases outside : id ≤ 0 ∨ tnMax ≤ id.toNat
  · have excluded : ¬ (0 < id ∧ id.toNat < tnMax) := by omega
    simp only [outside, ↓reduceIte, reduceCtorEq, false_iff]
    exact fun both => excluded ⟨both.1, both.2.1⟩
  · have inside : 0 < id ∧ id.toNat < tnMax := by omega
    by_cases file : (fs.nodes id.toNat).typ = .file
    · simp [outside, file, inside.1, inside.2, eq_comm]
    · simp [outside, file]

/-- Everything a returning call can have done. The first case covers every
refusal; a `create` that fails for lack of pool space after it took a slot is
not one of them, since its empty node stays. -/
inductive Stepped (fs : Fs) : Op → Int → Fs → Prop where
  | refused (op : Op) : Stepped fs op (-1) fs
  | madeDir (path : Path) (parent : Nat) (leaf : List UInt8) (id : Nat)
      (found : resolveParent fs path = .ok (some (parent, leaf)))
      (absent : childOf fs parent leaf = none) (slot : freeSlot fs = some id) :
      Stepped fs (.mkdir path) 0 (fs.attach id parent leaf .dir)
  | createdFull (path : Path) (data : List UInt8) (parent : Nat) (leaf : List UInt8) (id : Nat)
      (found : resolveParent fs path = .ok (some (parent, leaf)))
      (absent : childOf fs parent leaf = none) (slot : freeSlot fs = some id)
      (full : tnPool < fs.poolUsed + data.length) :
      Stepped fs (.create path data) (-1) (fs.attach id parent leaf .file)
  | created (path : Path) (data : List UInt8) (parent : Nat) (leaf : List UInt8) (id : Nat)
      (found : resolveParent fs path = .ok (some (parent, leaf)))
      (absent : childOf fs parent leaf = none) (slot : freeSlot fs = some id)
      (fits : fs.poolUsed + data.length ≤ tnPool) :
      Stepped fs (.create path data) id ((fs.attach id parent leaf .file).place id data)
  | truncated (path : Path) (data : List UInt8) (parent : Nat) (leaf : List UInt8) (id : Nat)
      (found : resolveParent fs path = .ok (some (parent, leaf)))
      (present : childOf fs parent leaf = some id) (file : (fs.nodes id).typ = .file)
      (fits : fs.poolUsed + data.length ≤ tnPool) :
      Stepped fs (.create path data) id (fs.place id data)
  | unlinked (path : Path) (id : Nat) (found : resolve fs path = .ok (some id))
      (nonroot : id ≠ 0) (inside : id < tnMax) (file : (fs.nodes id).typ = .file) :
      Stepped fs (.unlink path) 0 (fs.detach id)
  | renamed (oldp newp : Path) (id parent : Nat) (leaf : List UInt8)
      (source : resolve fs oldp = .ok (some id)) (nonroot : id ≠ 0) (inside : id < tnMax)
      (found : resolveParent fs newp = .ok (some (parent, leaf)))
      (absent : childOf fs parent leaf = none) :
      Stepped fs (.rename oldp newp) 0 (fs.move id parent leaf)
  | overwrote (id : Int) (off : Nat) (buf : List UInt8) (positive : 0 < id)
      (inside : id.toNat < tnMax) (file : (fs.nodes id.toNat).typ = .file)
      (fits : off + buf.length ≤ (fs.nodes id.toNat).size) :
      Stepped fs (.nodeWrite id off buf) buf.length (fs.overwrite id.toNat off buf)
  | grew (id : Int) (off : Nat) (buf : List UInt8) (positive : 0 < id)
      (inside : id.toNat < tnMax) (file : (fs.nodes id.toNat).typ = .file)
      (start : off ≤ (fs.nodes id.toNat).size)
      (longer : (fs.nodes id.toNat).size < off + buf.length)
      (fits : fs.poolUsed + (off + buf.length) ≤ tnPool) :
      Stepped fs (.nodeWrite id off buf) buf.length
        ((fs.relocate id.toNat (off + buf.length)).overwrite id.toNat off buf)

theorem mkdir_stepped (fs after : Fs) (path : Path) (ret : Int)
    (taken : mkdir fs path = .ok (ret, after)) : Stepped fs (.mkdir path) ret after := by
  obtain ⟨walked, found, rest⟩ := (bind_ok _ _ _).mp taken
  rcases walked with _ | ⟨parent, leaf⟩
  · cases rest
    exact .refused _
  · by_cases occupied : (childOf fs parent leaf).isSome
    · simp only [occupied, ↓reduceIte] at rest
      cases rest
      exact .refused _
    · simp only [occupied, Bool.false_eq_true, ↓reduceIte, allocNode] at rest
      cases slot : freeSlot fs with
      | none =>
          simp only [slot] at rest
          cases rest
          exact .refused _
      | some id =>
          simp only [slot] at rest
          cases rest
          exact .madeDir path parent leaf id found (by simpa using occupied) slot

theorem storeFile_ok (fs after : Fs) (id : Nat) (data : List UInt8) (ret : Int)
    (taken : storeFile fs id data = .ok (ret, after)) :
    (tnPool < fs.poolUsed + data.length ∧ ret = -1 ∧ after = fs) ∨
      (fs.poolUsed + data.length ≤ tnPool ∧ ret = id ∧ after = fs.place id data) := by
  unfold storeFile at taken
  by_cases full : fs.poolUsed + data.length > tnPool
  · simp only [full, ↓reduceIte] at taken
    cases taken
    exact .inl ⟨full, rfl, rfl⟩
  · simp only [full, ↓reduceIte] at taken
    obtain ⟨_, _, more⟩ := (bind_ok _ _ _).mp taken
    obtain ⟨_, _, last⟩ := (bind_ok _ _ _).mp more
    cases last
    exact .inr ⟨Nat.le_of_not_lt full, rfl, rfl⟩

theorem create_stepped (fs after : Fs) (path : Path) (data : List UInt8) (ret : Int)
    (taken : create fs path data = .ok (ret, after)) :
    Stepped fs (.create path data) ret after := by
  obtain ⟨walked, found, rest⟩ := (bind_ok _ _ _).mp taken
  rcases walked with _ | ⟨parent, leaf⟩
  · cases rest
    exact .refused _
  cases child : childOf fs parent leaf with
  | none =>
      simp only [child, allocNode] at rest
      cases slot : freeSlot fs with
      | none =>
          simp only [slot] at rest
          cases rest
          exact .refused _
      | some id =>
          simp only [slot] at rest
          rcases storeFile_ok _ _ _ _ _ rest with ⟨full, rfl, rfl⟩ | ⟨fits, rfl, rfl⟩
          · exact .createdFull path data parent leaf id found child slot full
          · exact .created path data parent leaf id found child slot fits
  | some id =>
      simp only [child] at rest
      obtain ⟨node, read, more⟩ := (bind_ok _ _ _).mp rest
      obtain ⟨_, rfl⟩ := (nodeAt_ok _ _ _).mp read
      by_cases file : (fs.nodes id).typ = .file
      · simp only [file, ne_eq, not_true_eq_false, ↓reduceIte] at more
        rcases storeFile_ok _ _ _ _ _ more with ⟨_, rfl, rfl⟩ | ⟨fits, rfl, rfl⟩
        · exact .refused _
        · exact .truncated path data parent leaf id found child file fits
      · simp only [ne_eq, file, not_false_eq_true, ↓reduceIte] at more
        cases more
        exact .refused _

theorem unlink_stepped (fs after : Fs) (path : Path) (ret : Int)
    (taken : unlink fs path = .ok (ret, after)) : Stepped fs (.unlink path) ret after := by
  obtain ⟨walked, found, rest⟩ := (bind_ok _ _ _).mp taken
  rcases walked with _ | id
  · cases rest
    exact .refused _
  by_cases root : id = 0
  · simp only [root, ↓reduceIte] at rest
    cases rest
    exact .refused _
  · simp only [root, ↓reduceIte] at rest
    obtain ⟨node, read, more⟩ := (bind_ok _ _ _).mp rest
    obtain ⟨inside, rfl⟩ := (nodeAt_ok _ _ _).mp read
    by_cases file : (fs.nodes id).typ = .file
    · simp only [file, ne_eq, not_true_eq_false, ↓reduceIte] at more
      cases more
      exact .unlinked path id found root inside file
    · simp only [ne_eq, file, not_false_eq_true, ↓reduceIte] at more
      cases more
      exact .refused _

theorem rename_stepped (fs after : Fs) (oldp newp : Path) (ret : Int)
    (taken : rename fs oldp newp = .ok (ret, after)) :
    Stepped fs (.rename oldp newp) ret after := by
  obtain ⟨walked, source, rest⟩ := (bind_ok _ _ _).mp taken
  rcases walked with _ | id
  · cases rest
    exact .refused _
  by_cases root : id = 0
  · simp only [root, ↓reduceIte] at rest
    cases rest
    exact .refused _
  simp only [root, ↓reduceIte] at rest
  obtain ⟨target, found, more⟩ := (bind_ok _ _ _).mp rest
  rcases target with _ | ⟨parent, leaf⟩
  · cases more
    exact .refused _
  by_cases occupied : (childOf fs parent leaf).isSome
  · simp only [occupied, ↓reduceIte] at more
    cases more
    exact .refused _
  · simp only [occupied, Bool.false_eq_true, ↓reduceIte] at more
    obtain ⟨_, bound, last⟩ := (bind_ok _ _ _).mp more
    cases last
    exact .renamed oldp newp id parent leaf source root ((index_ok _ _ _).mp bound) found
      (by simpa using occupied)

theorem storeAt_ok (fs after : Fs) (id off : Nat) (buf : List UInt8) (ret : Int)
    (taken : storeAt fs id off buf = .ok (ret, after)) :
    ret = buf.length ∧ after = fs.overwrite id off buf := by
  obtain ⟨_, _, last⟩ := (bind_ok _ _ _).mp taken
  cases last
  exact ⟨rfl, rfl⟩

theorem nodeWrite_stepped (fs after : Fs) (id : Int) (off : Nat) (buf : List UInt8) (ret : Int)
    (taken : nodeWrite fs id off buf = .ok (ret, after)) :
    Stepped fs (.nodeWrite id off buf) ret after := by
  unfold nodeWrite at taken
  cases file : fileNode fs id with
  | none =>
      simp only [file] at taken
      cases taken
      exact .refused _
  | some node =>
      obtain ⟨positive, inside, typed, rfl⟩ := (fileNode_some _ _ _).mp file
      simp only [file] at taken
      by_cases beyond : off > (fs.nodes id.toNat).size
      · simp only [beyond, ↓reduceIte] at taken
        cases taken
        exact .refused _
      simp only [beyond, ↓reduceIte] at taken
      by_cases grows : off + buf.length > (fs.nodes id.toNat).size
      · simp only [grows, ↓reduceIte] at taken
        by_cases full : fs.poolUsed + (off + buf.length) > tnPool
        · simp only [full, ↓reduceIte] at taken
          cases taken
          exact .refused _
        · simp only [full, ↓reduceIte] at taken
          obtain ⟨_, _, more⟩ := (bind_ok _ _ _).mp taken
          obtain ⟨_, _, last⟩ := (bind_ok _ _ _).mp more
          obtain ⟨rfl, rfl⟩ := storeAt_ok _ _ _ _ _ _ last
          exact .grew id off buf positive inside typed (Nat.le_of_not_lt beyond) grows
            (Nat.le_of_not_lt full)
      · simp only [grows, ↓reduceIte] at taken
        obtain ⟨rfl, rfl⟩ := storeAt_ok _ _ _ _ _ _ taken
        exact .overwrote id off buf positive inside typed (Nat.le_of_not_lt grows)

theorem step_stepped (fs after : Fs) (op : Op) (ret : Int)
    (taken : step fs op = .ok (ret, after)) : Stepped fs op ret after := by
  cases op with
  | mkdir path => exact mkdir_stepped fs after path ret taken
  | create path data => exact create_stepped fs after path data ret taken
  | unlink path => exact unlink_stepped fs after path ret taken
  | rename oldp newp => exact rename_stepped fs after oldp newp ret taken
  | nodeWrite id off buf => exact nodeWrite_stepped fs after id off buf ret taken

end Shizuku.Tmpfs
