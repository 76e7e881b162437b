import Shizuku.FileChunks
import Shizuku.PathMeaning
import Shizuku.WorkingDirectory

/-!
Opens that fail, and where the others lead. `sys_open` makes a missing file before it
looks for a descriptor, so a full descriptor table leaves the new file behind. And
`create` takes any node for a directory that `resolve_parent` arrives at: below a file
it makes, or empties, a file that no path leads to.
-/

namespace Shizuku.Syscalls

open ByteMemory Machine Tmpfs Sched

section Creation
variable {fs : Fs} {id parent : Nat} {leaf : List UInt8}

theorem followAll_attach (typ : VnType) (slot : freeSlot fs = some id) (good : GoodName leaf)
    (absent : childOf fs parent leaf = none) (pieces : List (List UInt8)) (node : Nat)
    (reached : followAll fs pieces = some node) :
    followAll (fs.attach id parent leaf typ) pieces = some node := by
  -- A new node is on no way that led somewhere before.
  induction pieces using List.reverseRecOn generalizing node with
  | nil => exact reached
  | append_singleton pieces last ih =>
      rw [followAll_snoc, Option.bind_eq_some_iff] at reached
      obtain ⟨above, way, next⟩ := reached
      have other : above ≠ id := by
        obtain ⟨positive, _, free⟩ := freeSlot_some fs id slot
        rintro rfl
        exact (followAll_grounded way).used (by omega) free
      have same : (fs.attach id parent leaf typ).nodes above = fs.nodes above :=
        setNode_other fs id above _ other
      rw [followAll_snoc, ih above way, Option.bind_some, ← next, follow, follow, same,
        attach_childOf fs id parent leaf typ good.short good.clean slot absent]
      by_cases here : above = parent ∧ last = leaf
      · -- this piece led nowhere before
        obtain ⟨rfl, rfl⟩ := here
        rw [follow, if_neg good.ordinary.1, if_neg good.ordinary.2, absent, ite_self] at next
        cases next
      · rw [if_neg here]

theorem resolve_created {path : Path} (clean : 0 ∉ path)
    (parents : resolveParent fs path = .ok (some (parent, leaf)))
    (absent : childOf fs parent leaf = none) (slot : freeSlot fs = some id) :
    resolve ((fs.attach id parent leaf .file).place id []) path =
      .ok (if (fs.nodes parent).typ = .dir then some id else none) := by
  obtain ⟨_, good⟩ := resolveParent_good fs path parent leaf clean parents
  obtain ⟨_, done, meaning⟩ := resolveParent_meaning fs path
  rw [parents, Except.ok.injEq] at done
  obtain ⟨absolute, last, ordinary, short, reached⟩ := (meaning parent leaf).mp done.symm
  have kept := followAll_attach .file slot good absent _ parent reached
  have again : resolveParent (fs.attach id parent leaf .file) path = .ok (some (parent, leaf)) := by
    obtain ⟨found, done, meaning⟩ := resolveParent_meaning (fs.attach id parent leaf .file) path
    rw [done, (meaning parent leaf).mpr ⟨absolute, last, ordinary, short, kept⟩]
  have other : parent ≠ id := by
    obtain ⟨positive, _, free⟩ := freeSlot_some fs id slot
    rintro rfl
    exact (followAll_grounded reached).used (by omega) free
  have same : (fs.attach id parent leaf .file).nodes parent = fs.nodes parent :=
    setNode_other fs id parent _ other
  rw [resolve_place, resolve_below _ path parent leaf again, same,
    attach_childOf fs id parent leaf .file good.short good.clean slot absent,
    if_pos (And.intro rfl rfl)]

end Creation

inductive Opened (fs : Fs) (path : Path) (flags : BitVec 64) : Int → Fs → Prop where
  | found (id : Nat) (there : resolve fs path = .ok (some id)) : Opened fs path flags id fs
  | missing (lost : resolve fs path = .ok none)
      (quiet : flags.getLsbD 1 = true → ∀ parent leaf,
        resolveParent fs path = .ok (some (parent, leaf)) →
          (childOf fs parent leaf = none → freeSlot fs = none) ∧
          ∀ id, childOf fs parent leaf = some id → ¬ IsFile fs id) :
      Opened fs path flags (-1) fs
  | created (parent : Nat) (leaf : List UInt8) (id : Nat) (lost : resolve fs path = .ok none)
      (flag : flags.getLsbD 1 = true) (parents : resolveParent fs path = .ok (some (parent, leaf)))
      (absent : childOf fs parent leaf = none) (slot : freeSlot fs = some id) :
      Opened fs path flags id ((fs.attach id parent leaf .file).place id [])
  | emptied (parent : Nat) (leaf : List UInt8) (id : Nat) (lost : resolve fs path = .ok none)
      (flag : flags.getLsbD 1 = true) (parents : resolveParent fs path = .ok (some (parent, leaf)))
      (child : childOf fs parent leaf = some id) (file : IsFile fs id) :
      Opened fs path flags id (fs.place id [])

theorem create_opened (fs : Fs) (laid : Laid fs) (path : Path) (flags : BitVec 64)
    (lost : resolve fs path = .ok none) (flag : flags.getLsbD 1 = true) :
    ∃ id after, create fs path [] = .ok (id, after) ∧ Opened fs path flags id after := by
  have capacity := laid.capacity
  obtain ⟨found, parents, _⟩ := resolveParent_dirNamedBy fs path
  cases found with
  | none =>
      refine ⟨-1, fs, by simp [create, parents], .missing lost fun _ parent leaf other => ?_⟩
      rw [parents] at other
      cases other
  | some pair =>
      obtain ⟨parent, leaf⟩ := pair
      -- nothing is made: the path has one parent and one last piece only
      have missing (free : childOf fs parent leaf = none → freeSlot fs = none)
          (other : ∀ id, childOf fs parent leaf = some id → ¬ IsFile fs id) :
          Opened fs path flags (-1) fs := by
        refine .missing lost fun _ above name same => ?_
        rw [parents] at same
        cases same
        exact ⟨free, other⟩
      cases child : childOf fs parent leaf with
      | none =>
          cases slot : freeSlot fs with
          | none =>
              exact ⟨-1, fs, by simp [create, parents, child, allocNode, slot],
                missing (fun _ => slot) (by simp [child])⟩
          | some id =>
              have inside := (freeSlot_some fs id slot).2.1
              refine ⟨id, _, ?_, .created parent leaf id lost flag parents child slot⟩
              simp only [create, parents, ok_bind, child, allocNode, slot]
              exact storeFile_fits _ id [] inside capacity
      | some id =>
          have inside := (childOf_some fs parent id leaf child).2.1
          by_cases file : (fs.nodes id).typ = .file
          · refine ⟨id, _, ?_, .emptied parent leaf id lost flag parents child ⟨inside, file⟩⟩
            simp [create, parents, child, nodeAt, index, inside, file, storeFile_fits fs id [] inside capacity]
          · exact ⟨-1, fs, by simp [create, parents, child, nodeAt, index, inside, file],
              missing (by simp [child]) (by simp [child, IsFile, file])⟩

theorem openNode_opened (fs : Fs) (laid : Laid fs) (path : Path) (flags : BitVec 64) :
    ∃ id after, openNode fs path flags = .ok (id, after) ∧ Opened fs path flags id after := by
  cases walked : namedBy fs path with
  | some id =>
      have there : resolve fs path = .ok (some id) := by rw [resolve_namedBy, walked]
      refine ⟨id, fs, ?_, .found id there⟩
      simp only [openNode, lookup, there, ok_bind, pure_ok]
      exact if_neg fun both => absurd both.1 (by omega)
  | none =>
      have lost : resolve fs path = .ok none := by rw [resolve_namedBy, walked]
      by_cases flag : flags.getLsbD 1 = true
      · have opens : openNode fs path flags = create fs path [] := by
          simp [openNode, lookup, lost, flag]
        rw [opens]
        exact create_opened fs laid path flags lost flag
      · refine ⟨-1, fs, ?_, .missing lost fun on => absurd on flag⟩
        simp only [openNode, lookup, lost, ok_bind, pure_ok]
        exact if_neg fun both => flag both.2

theorem sameTree_place {fs : Fs} {id : Nat} (laid : Laid fs) (file : IsFile fs id) :
    SameTree fs (fs.place id []) ↔ contents fs id = some [] := by
  have emptied := place_update fs id [] laid file
  constructor
  · intro same
    rw [← same.files, emptied, Function.update_self]
  · intro empty
    refine ⟨used_place fs id [], fun other _ => ?_, ?_⟩
    · exact ⟨(place_shape fs id []).1 other, (place_shape fs id []).2 other, place_name fs id [] other⟩
    · rw [emptied, ← empty, Function.update_eq_self]

/-- A failing open changes nothing; a descriptor that is returned was free, is at the
start of the file that the path leads to now, and is the only one that changed. -/
def OpensOrFails (s : System) (tid : Nat) (user : Nat → UInt8) (rdi rsi : BitVec 64) : Prop :=
  ∃ ret after, sysOpen s tid user rdi rsi = .ok (ret, after) ∧
    (ret.value = -1 ∧ SameTree s.fs after.fs ∧ after.threads = s.threads ∨
      ∃ fd path id, ret.value = (fd : Nat) ∧ 3 ≤ fd ∧ fd ≤ 7 ∧ ((s.threads tid).fds fd).node < 0 ∧
        absPath user (s.threads tid) rdi.toNat = some path ∧ lookup after.fs path = .ok id ∧ 0 ≤ id ∧
        (after.threads tid).fds fd = ⟨id, 0⟩ ∧
        ∀ other key, ¬ (other = tid ∧ key = fd) →
          (after.threads other).fds key = (s.threads other).fds key)

/-- What holds if `sys_open` has to make a file: there is a descriptor for it and its
parent is a directory. Nothing is asked where `create` gives up; it truncates an
existing file only below another file. -/
def RoomToOpen (s : System) (tid : Nat) (path : Path) (flags : BitVec 64) : Prop :=
  flags.getLsbD 1 = true → lookup s.fs path = .ok (-1) →
    ∀ parent leaf, resolveParent s.fs path = .ok (some (parent, leaf)) →
      (childOf s.fs parent leaf = none → freeSlot s.fs ≠ none →
        (s.fs.nodes parent).typ = .dir ∧ freeFd (s.threads tid) ≠ none) ∧
      ∀ id, childOf s.fs parent leaf = some id → IsFile s.fs id →
        freeFd (s.threads tid) = none ∧ contents s.fs id = some []

theorem freeFd_some {t : Thread} {fd : Nat} (free : freeFd t = some fd) :
    3 ≤ fd ∧ fd ≤ 7 ∧ (t.fds fd).node < 0 := by
  have unused := List.find?_some free
  have member := List.mem_range'_1.mp (List.mem_of_find?_eq_some free)
  have first : ufdFirst = 3 := rfl
  have last : ufdMax = 8 := rfl
  rw [decide_eq_true_eq] at unused
  exact ⟨by omega, by omega, unused⟩

section Calls
variable {s : System} {tid : Nat} {user : Nat → UInt8} {rdi rsi : BitVec 64} {path : Path} {id : Int} {fs : Fs}

theorem sysOpen_opened (absolute : absPath user (s.threads tid) rdi.toNat = some path)
    (opened : openNode s.fs path rsi = .ok (id, fs)) :
    sysOpen s tid user rdi rsi = .ok (if id < 0 ∨ nodeType fs id ≠ .file then (.failed, { s with fs := fs })
      else match freeFd (s.threads tid) with
        | none => (.failed, { s with fs := fs })
        | some fd => (⟨fd, []⟩, { s with fs := fs }.setFd tid fd ⟨id, 0⟩)) := by
  simp only [sysOpen, absolute, opened, ok_bind]
  split
  · rfl
  · cases freeFd (s.threads tid) <;> rfl

theorem opens_failing (absolute : absPath user (s.threads tid) rdi.toNat = some path)
    (opened : openNode s.fs path rsi = .ok (id, fs))
    (failing : id < 0 ∨ nodeType fs id ≠ .file ∨ freeFd (s.threads tid) = none) :
    OpensOrFails s tid user rdi rsi ↔ SameTree s.fs fs := by
  have done : sysOpen s tid user rdi rsi = .ok (.failed, { s with fs := fs }) := by
    rw [sysOpen_opened absolute opened]
    by_cases refused : id < 0 ∨ nodeType fs id ≠ .file
    · rw [if_pos refused]
    · rw [if_neg refused, (or_assoc.mpr failing).resolve_left refused]
  constructor
  · rintro ⟨ret, after, again, ⟨_, same, _⟩ | ⟨fd, _, _, value, _⟩⟩
    · rw [done] at again
      cases again
      exact same
    · rw [done] at again
      cases again
      have negative : Ret.failed.value = -1 := rfl
      omega
  · intro same
    exact ⟨_, _, done, .inl ⟨rfl, same, rfl⟩⟩

theorem opens_served {fd : Nat} (absolute : absPath user (s.threads tid) rdi.toNat = some path)
    (opened : openNode s.fs path rsi = .ok (id, fs)) (positive : 0 ≤ id)
    (file : nodeType fs id = .file) (free : freeFd (s.threads tid) = some fd) :
    OpensOrFails s tid user rdi rsi ↔ lookup fs path = .ok id := by
  have done : sysOpen s tid user rdi rsi =
      .ok (⟨fd, []⟩, { s with fs := fs }.setFd tid fd ⟨id, 0⟩) := by
    rw [sysOpen_opened absolute opened, if_neg (by simp [file, positive]), free]
  constructor
  · rintro ⟨ret, after, again, ⟨value, _⟩ | ⟨key, other, node, value, _, _, _, named, looked, _, here, _⟩⟩
    · rw [done] at again
      cases again
      simp only at value
      omega
    · rw [done] at again
      cases again
      rw [absolute, Option.some.injEq] at named
      subst named
      obtain rfl : fd = key := by simpa using value
      rw [setFd_same] at here
      cases here
      exact looked
  · intro looked
    obtain ⟨low, high, unused⟩ := freeFd_some free
    refine ⟨_, _, done, .inr ⟨fd, path, id, rfl, low, high, unused, absolute, looked, positive,
      setFd_same _ _ _ _, fun other key elsewhere => ?_⟩⟩
    rw [setFd_other _ _ _ _ _ _ elsewhere]

end Calls

theorem lookup_lost {fs : Fs} {path : Path} : lookup fs path = .ok (-1) ↔ resolve fs path = .ok none := by
  rw [resolve_namedBy, lookup, resolve_namedBy, ok_bind]
  cases namedBy fs path with
  | none => simp
  | some id => simp

theorem lookup_there {fs : Fs} {path : Path} {id : Nat} :
    lookup fs path = .ok (id : Int) ↔ resolve fs path = .ok (some id) := by
  rw [resolve_namedBy, lookup, resolve_namedBy, ok_bind]
  cases namedBy fs path with
  | none => simp
  | some other => simp

theorem nodeType_file {fs : Fs} {id : Nat} : nodeType fs id = .file ↔ IsFile fs id := by
  unfold nodeType IsFile
  by_cases inside : id < tnMax
  · rw [if_neg (by omega), Int.toNat_natCast]
    exact (and_iff_right inside).symm
  · rw [if_pos (by omega)]
    exact iff_of_false (by simp) fun file => inside file.1

section Cases
variable {s : System} {tid : Nat} {user : Nat → UInt8} {rdi rsi : BitVec 64} {path : Path}
  (absolute : absPath user (s.threads tid) rdi.toNat = some path)
  {parent id : Nat} {leaf : List UInt8}

include absolute in
theorem opens_found (done : openNode s.fs path rsi = .ok ((id : Int), s.fs))
    (there : resolve s.fs path = .ok (some id)) : OpensOrFails s tid user rdi rsi := by
  by_cases failing : (id : Int) < 0 ∨ nodeType s.fs id ≠ .file ∨ freeFd (s.threads tid) = none
  · exact (opens_failing absolute done failing).mpr (.refl _)
  · obtain ⟨positive, file, free⟩ := by simpa only [not_or, not_not] using failing
    obtain ⟨fd, free⟩ := Option.ne_none_iff_exists'.mp free
    exact (opens_served absolute done (Int.not_lt.mp positive) file free).mpr (lookup_there.mpr there)

theorem room_created (lost : resolve s.fs path = .ok none) (flag : rsi.getLsbD 1 = true)
    (parents : resolveParent s.fs path = .ok (some (parent, leaf)))
    (absent : childOf s.fs parent leaf = none) (slot : freeSlot s.fs = some id) :
    RoomToOpen s tid path rsi ↔
      (s.fs.nodes parent).typ = .dir ∧ freeFd (s.threads tid) ≠ none := by
  constructor
  · intro room
    exact (room flag (lookup_lost.mpr lost) parent leaf parents).1 absent (by simp [slot])
  · intro holds _ _ above name same
    rw [parents] at same
    cases same
    exact ⟨fun _ _ => holds, fun id there => absurd (absent.symm.trans there) (by simp)⟩

theorem room_emptied (lost : resolve s.fs path = .ok none) (flag : rsi.getLsbD 1 = true)
    (parents : resolveParent s.fs path = .ok (some (parent, leaf)))
    (child : childOf s.fs parent leaf = some id) (file : IsFile s.fs id) :
    RoomToOpen s tid path rsi ↔
      freeFd (s.threads tid) = none ∧ contents s.fs id = some [] := by
  constructor
  · intro room
    exact (room flag (lookup_lost.mpr lost) parent leaf parents).2 id child file
  · intro holds _ _ above name same
    rw [parents] at same
    cases same
    refine ⟨fun absent => absurd (child.symm.trans absent) (by simp), fun other there _ => ?_⟩
    rw [child, Option.some.injEq] at there
    exact there ▸ holds

include absolute in
theorem opens_created (clean : 0 ∉ path)
    (done : openNode s.fs path rsi = .ok ((id : Int), (s.fs.attach id parent leaf .file).place id []))
    (parents : resolveParent s.fs path = .ok (some (parent, leaf)))
    (absent : childOf s.fs parent leaf = none) (slot : freeSlot s.fs = some id) :
    OpensOrFails s tid user rdi rsi ↔
      (s.fs.nodes parent).typ = .dir ∧ freeFd (s.threads tid) ≠ none := by
  obtain ⟨_, inside, unused⟩ := freeSlot_some s.fs id slot
  have file : IsFile ((s.fs.attach id parent leaf .file).place id []) id :=
    ⟨inside, by simp [Fs.attach, Fs.place]⟩
  cases free : freeFd (s.threads tid) with
  | none =>
      rw [opens_failing absolute done (.inr (.inr free))]
      refine iff_of_false (fun same => ?_) (by simp)
      exact ((same.used id).mp file.used).2 unused
  | some fd =>
      rw [opens_served absolute done (Int.natCast_nonneg id) (nodeType_file.mpr file) free, lookup_there,
        resolve_created clean parents absent slot]
      simp

include absolute in
theorem opens_emptied (laid : Laid s.fs)
    (done : openNode s.fs path rsi = .ok ((id : Int), s.fs.place id []))
    (lost : resolve s.fs path = .ok none)
    (file : IsFile s.fs id) :
    OpensOrFails s tid user rdi rsi ↔
      freeFd (s.threads tid) = none ∧ contents s.fs id = some [] := by
  have still : IsFile (s.fs.place id []) id := ⟨file.1, by simp [Fs.place, file.2]⟩
  cases free : freeFd (s.threads tid) with
  | none =>
      rw [opens_failing absolute done (.inr (.inr free)), sameTree_place laid file]
      simp
  | some fd =>
      rw [opens_served absolute done (Int.natCast_nonneg id) (nodeType_file.mpr still) free, lookup_there,
        resolve_place, lost]
      simp

end Cases

theorem sysOpen_fails_cleanly_iff (s : System) (reached : Reachable s.fs) (tid : Nat)
    (user : Nat → UInt8) (rdi rsi : BitVec 64) :
    OpensOrFails s tid user rdi rsi ↔
      ∀ path, absPath user (s.threads tid) rdi.toNat = some path → RoomToOpen s tid path rsi := by
  have laid := reachable_laid s.fs reached
  cases absolute : absPath user (s.threads tid) rdi.toNat with
  | none =>
      refine iff_of_true ⟨.failed, s, by simp [sysOpen, absolute], .inl ⟨rfl, .refl _, rfl⟩⟩ ?_
      intro path named
      cases named
  | some path =>
      have clean := (absPath_text user (s.threads tid) rdi.toNat path absolute).1
      obtain ⟨id, fs, done, opened⟩ := openNode_opened s.fs laid path rsi
      simp only [Option.some.injEq, forall_eq']
      cases opened with
      | found id there =>
          refine iff_of_true ?_ fun _ lost => ?_
          · exact opens_found absolute done there
          · rw [lookup_lost, there] at lost
            cases lost
      | missing lost quiet =>
          refine iff_of_true ((opens_failing absolute done (.inl (by decide))).mpr (.refl _)) ?_
          intro flag _ parent leaf parents
          obtain ⟨full, other⟩ := quiet flag parent leaf parents
          exact ⟨fun absent slot => absurd (full absent) slot, fun id child file => absurd file (other id child)⟩
      | created parent leaf id lost flag parents absent slot =>
          exact (opens_created absolute clean done parents absent slot).trans
            (room_created lost flag parents absent slot).symm
      | emptied parent leaf id lost flag parents child file =>
          exact (opens_emptied absolute laid done lost file).trans
            (room_emptied lost flag parents child file).symm

theorem sysOpen_fails_cleanly_first : OpensOrFails firstWorld.sys 1 (userText [47, 102]) 4096 2 := by
  refine (sysOpen_fails_cleanly_iff firstWorld.sys emptyFs_reachable 1 (userText [47, 102]) 4096 2).mpr ?_
  have absolute : absPath (userText [47, 102]) (firstWorld.sys.threads 1) (4096 : BitVec 64).toNat =
      some [47, 102] := by decide +kernel
  have parents : resolveParent firstWorld.sys.fs [47, 102] = .ok (some (0, [102])) := by decide +kernel
  have absent : childOf firstWorld.sys.fs 0 [102] = none := by decide
  intro path named _ _ parent leaf same
  rw [absolute, Option.some.injEq] at named
  subst named
  rw [parents] at same
  cases same
  exact ⟨fun _ _ => ⟨rfl, by decide⟩, fun id there => absurd (absent.symm.trans there) (by simp)⟩

/-- Five descriptors of `/f`, and then `/g` is wanted: the call fails and `/g` is there.
And `/f/x` is opened, and no path leads to the file that the descriptor is on. -/
theorem failed_open_leaves_a_file :
    (∃ s after, Served s ∧ syscall s ⟨1, userText [47, 103], .openFile 4096 2⟩ = .ok (.failed, after) ∧
      lookup s.fs [47, 103] = .ok (-1) ∧ lookup after.fs [47, 103] = .ok 2 ∧
      contents s.fs 2 = none ∧ contents after.fs 2 = some []) ∧
    ∃ s after, Served s ∧
      syscall s ⟨1, userText [47, 102, 47, 120], .openFile 4096 2⟩ = .ok (⟨4, []⟩, after) ∧
      (after.threads 1).fds 4 = ⟨2, 0⟩ ∧ lookup after.fs [47, 102, 47, 120] = .ok (-1) := by
  constructor
  · have evaluated : (do
        let full ← replay syscall firstWorld.sys
          (List.replicate 5 ⟨1, userText [47, 102], .openFile 4096 2⟩)
        let opened ← syscall full.2 ⟨1, userText [47, 103], .openFile 4096 2⟩
        let before ← lookup full.2.fs [47, 103]
        let there ← lookup opened.2.fs [47, 103]
        return ((opened.1, before, there), contents full.2.fs 2, contents opened.2.fs 2)) =
        Except.ok ((Ret.failed, -1, 2), none, some []) := by decide +kernel
    obtain ⟨⟨rets, s⟩, replayed, rest⟩ := (bind_ok _ _ _).mp evaluated
    obtain ⟨⟨ret, after⟩, opened, rest⟩ := (bind_ok _ _ _).mp rest
    obtain ⟨before, missing, rest⟩ := (bind_ok _ _ _).mp rest
    obtain ⟨there, found, last⟩ := (bind_ok _ _ _).mp rest
    simp only [pure_ok, Except.ok.injEq, Prod.mk.injEq] at last
    obtain ⟨⟨rfl, rfl, rfl⟩, nothing, empty⟩ := last
    exact ⟨s, after, replay_run _ _ _ (fun _ _ _ => trivial) _ _ _ replayed, opened, missing, found,
      nothing, empty⟩
  · have evaluated : (do
        let made ← replay syscall firstWorld.sys [⟨1, userText [47, 102], .openFile 4096 2⟩]
        let opened ← syscall made.2 ⟨1, userText [47, 102, 47, 120], .openFile 4096 2⟩
        let found ← lookup opened.2.fs [47, 102, 47, 120]
        return (opened.1, (opened.2.threads 1).fds 4, found)) =
        Except.ok (⟨4, []⟩, ⟨2, 0⟩, -1) := by decide +kernel
    obtain ⟨⟨rets, s⟩, replayed, rest⟩ := (bind_ok _ _ _).mp evaluated
    obtain ⟨⟨ret, after⟩, opened, rest⟩ := (bind_ok _ _ _).mp rest
    obtain ⟨found, looked, last⟩ := (bind_ok _ _ _).mp rest
    simp only [pure_ok, Except.ok.injEq, Prod.mk.injEq] at last
    obtain ⟨rfl, here, rfl⟩ := last
    exact ⟨s, after, replay_run _ _ _ (fun _ _ _ => trivial) _ _ _ replayed, opened, here, looked⟩

end Shizuku.Syscalls
