import Shizuku.Syscalls
import Shizuku.TmpfsContents

/-!
Which file an open descriptor means. A descriptor holds the number of a node slot,
and a slot outlives the file in it; `World` adds to the system what the kernel does
not keep: when the file in each slot was created, and which file each descriptor
was opened on.
-/

namespace Shizuku.Syscalls

open ByteMemory Machine Tmpfs Sched

/-- Files are named by the number of the step that created them. -/
structure World where
  sys : System
  clock : Nat
  birth : Nat → Nat
  opened : Nat → Nat → Nat

/-- A step creates the file in a slot when the slot becomes a file. -/
def bornAfter (w : World) (after : System) (slot : Nat) : Nat :=
  if (w.sys.fs.nodes slot).typ ≠ .file ∧ (after.fs.nodes slot).typ = .file then w.clock
  else w.birth slot

def openedAfter (w : World) (op : Op) (ret : Ret) (after : System) (tid fd : Nat) : Nat :=
  match op.call with
  | .openFile _ _ =>
      if tid = op.tid ∧ (fd : Int) = ret.value then
        bornAfter w after ((after.threads tid).fds fd).node.toNat
      else w.opened tid fd
  | _ => w.opened tid fd

def World.observe (w : World) (op : Op) (ret : Ret) (after : System) : World where
  sys := after
  clock := w.clock + 1
  birth := bornAfter w after
  opened := openedAfter w op ret after

def step (w : World) (op : Op) : Outcome (Ret × World) := do
  let (ret, after) ← syscall w.sys op
  return (ret, w.observe op ret after)

structure Dated (w : World) : Prop where
  past : ∀ slot, w.birth slot < w.clock
  apart : ∀ one two, IsFile w.sys.fs one → IsFile w.sys.fs two →
    w.birth one = w.birth two → one = two

/-- Before the first call: any file system that the kernel can have built, no open
descriptor, and names for the files that are there. -/
structure Fresh (w : World) : Prop where
  built : Reachable w.sys.fs
  closed : ∀ tid fd, ((w.sys.threads tid).fds fd).node < 0
  dated : Dated w

def Unnamed (s : System) (slot : Nat) : Prop := ∀ tid fd, ((s.threads tid).fds fd).node ≠ slot

def Creates (fs : Fs) (path : Path) (slot : Nat) : Prop :=
  ∃ parent leaf, resolveParent fs path = .ok (some (parent, leaf)) ∧
    childOf fs parent leaf = none ∧ freeSlot fs = some slot

/-- An open that creates a file finds no descriptor that names the slot for it. -/
def SlotsSettled (w : World) (op : Op) : Prop :=
  match op.call with
  | .openFile rdi rsi => rsi.getLsbD 1 = true → ∀ path slot,
      absPath op.user (w.sys.threads op.tid) rdi.toNat = some path →
      lookup w.sys.fs path = .ok (-1) → Creates w.sys.fs path slot → Unnamed w.sys slot
  | _ => True

structure Bound (w : World) : Prop where
  laid : Laid w.sys.fs
  dated : Dated w
  past : ∀ tid fd, 0 ≤ ((w.sys.threads tid).fds fd).node → w.opened tid fd < w.clock
  files : ∀ tid fd, 0 ≤ ((w.sys.threads tid).fds fd).node →
    IsFile w.sys.fs ((w.sys.threads tid).fds fd).node.toNat →
    w.birth ((w.sys.threads tid).fds fd).node.toNat = w.opened tid fd

theorem fresh_bound (w : World) (fresh : Fresh w) : Bound w := by
  have unused : ∀ tid fd, ¬ 0 ≤ ((w.sys.threads tid).fds fd).node := fun tid fd =>
    Int.not_le.mpr (fresh.closed tid fd)
  exact ⟨reachable_laid _ fresh.built, fresh.dated, fun tid fd used => absurd used (unused tid fd),
    fun tid fd used => absurd used (unused tid fd)⟩

theorem setFd_same (s : System) (tid fd : Nat) (u : Ufd) :
    ((s.setFd tid fd u).threads tid).fds fd = u := by
  simp [System.setFd]

theorem setFd_other (s : System) (tid fd other key : Nat) (u : Ufd)
    (different : ¬ (other = tid ∧ key = fd)) :
    ((s.setFd tid fd u).threads other).fds key = (s.threads other).fds key := by
  by_cases sameTid : other = tid
  · have sameFd : ¬ key = fd := fun same => different ⟨sameTid, same⟩
    simp [System.setFd, sameTid, sameFd]
  · simp [System.setFd, sameTid]

theorem advance_node (s : System) (tid fd : Nat) (n : Int) (other key : Nat) :
    (((s.advance tid fd ((s.threads tid).fds fd) n).threads other).fds key).node =
      ((s.threads other).fds key).node := by
  unfold System.advance
  split
  · by_cases same : other = tid ∧ key = fd
    · rw [same.1, same.2, setFd_same]
    · rw [setFd_other _ _ _ _ _ _ same]
  · rfl

theorem advance_fs (s : System) (tid fd : Nat) (u : Ufd) (n : Int) :
    (s.advance tid fd u n).fs = s.fs := by
  unfold System.advance
  split <;> rfl

theorem setNode_file (fs : Fs) (id : Nat) (node : TNode)
    (same : node.typ = .file → (fs.nodes id).typ = .file) (slot : Nat)
    (file : ((fs.setNode id node).nodes slot).typ = .file) : (fs.nodes slot).typ = .file := by
  by_cases here : slot = id
  · subst slot
    rw [setNode_same] at file
    exact same file
  · rwa [setNode_other fs id slot node here] at file

theorem attach_file (fs : Fs) (id parent : Nat) (name : List UInt8) (typ : VnType) (slot : Nat)
    (file : ((fs.attach id parent name typ).nodes slot).typ = .file) :
    slot = id ∨ (fs.nodes slot).typ = .file := by
  by_cases here : slot = id
  · exact .inl here
  · rw [Fs.attach, setNode_other fs id slot _ here] at file
    exact .inr file

theorem step_file (fs after : Fs) (op : Tmpfs.Op) (ret : Int)
    (taken : Tmpfs.step fs op = .ok (ret, after)) (slot : Nat)
    (file : (after.nodes slot).typ = .file) :
    (fs.nodes slot).typ = .file ∨ ∃ path data, op = .create path data ∧ Creates fs path slot := by
  cases step_stepped fs after op ret taken with
  | refused => exact .inl file
  | madeDir path parent leaf id found absent free =>
      rcases attach_file fs id parent leaf .dir slot file with rfl | old
      · simp [Fs.attach] at file
      · exact .inl old
  | createdFull path data parent leaf id found absent free full =>
      rcases attach_file fs id parent leaf .file slot file with rfl | old
      · exact .inr ⟨path, data, rfl, parent, leaf, found, absent, free⟩
      · exact .inl old
  | created path data parent leaf id found absent free fits =>
      have placed := setNode_file (fs.attach id parent leaf .file) id _ (by exact fun typ => typ) slot file
      rcases attach_file fs id parent leaf .file slot placed with rfl | old
      · exact .inr ⟨path, data, rfl, parent, leaf, found, absent, free⟩
      · exact .inl old
  | truncated path data parent leaf id found present isFile fits =>
      exact .inl (setNode_file fs id _ (by exact fun typ => typ) slot file)
  | unlinked path id found nonroot inside isFile =>
      exact .inl (setNode_file fs id _ (by intro typ; cases typ) slot file)
  | renamed oldp newp id parent leaf source nonroot inside found absent =>
      exact .inl (setNode_file fs id _ (by exact fun typ => typ) slot file)
  | overwrote id off buf => exact .inl file
  | grew id off buf => exact .inl (setNode_file fs id.toNat _ (by exact fun typ => typ) slot file)

def Creating (s : System) (op : Op) (path : Path) : Prop :=
  ∃ rdi rsi, op.call = .openFile rdi rsi ∧ rsi.getLsbD 1 = true ∧
    absPath op.user (s.threads op.tid) rdi.toNat = some path ∧ lookup s.fs path = .ok (-1)

/-- What a call can do: at most one operation of the file system, a creation only
where `Creating` says so, and to a descriptor nothing, a close or an open. -/
structure Effect (s : System) (op : Op) (ret : Ret) (after : System) : Prop where
  fs : after.fs = s.fs ∨ ∃ change value, Tmpfs.step s.fs change = .ok (value, after.fs) ∧
    ∀ path data, change = .create path data → Creating s op path
  fds : ∀ tid fd, ((after.threads tid).fds fd).node < 0 ∨
    ((after.threads tid).fds fd).node = ((s.threads tid).fds fd).node ∨
    (∃ rdi rsi, op.call = .openFile rdi rsi) ∧ tid = op.tid ∧ (fd : Int) = ret.value

theorem Effect.refused (s : System) (op : Op) (ret : Ret) : Effect s op ret s :=
  ⟨.inl rfl, fun _ _ => .inr (.inl rfl)⟩

theorem Effect.changed (s : System) (op : Op) (ret : Ret) (change : Tmpfs.Op) (value : Int) (fs : Fs)
    (taken : Tmpfs.step s.fs change = .ok (value, fs))
    (creating : ∀ path data, change = .create path data → Creating s op path) :
    Effect s op ret { s with fs := fs } :=
  ⟨.inr ⟨change, value, taken, creating⟩, fun _ _ => .inr (.inl rfl)⟩

theorem fdGet_some (t : Thread) (fd : Nat) (u : Ufd) (found : fdGet t fd = some u) :
    u = t.fds fd ∧ 0 ≤ u.node := by
  unfold fdGet at found
  split at found
  · rename_i inside
    rw [Option.some.injEq] at found
    subst u
    exact ⟨rfl, inside.2.2⟩
  · cases found

theorem sysWrite_cases (s after : System) (tid : Nat) (user : Nat → UInt8) (rdi rsi rdx : BitVec 64)
    (ret : Ret) (done : sysWrite s tid user rdi rsi rdx = .ok (ret, after)) :
    after = s ∨ ∃ data n fs, 0 ≤ ((s.threads tid).fds (fdIndex rdi)).node ∧
      nodeWrite s.fs ((s.threads tid).fds (fdIndex rdi)).node
        ((s.threads tid).fds (fdIndex rdi)).pos data = .ok (n, fs) ∧
      after = { s with fs := fs }.advance tid (fdIndex rdi) ((s.threads tid).fds (fdIndex rdi)) n := by
  unfold sysWrite at done
  split at done
  · cases done
    exact .inl rfl
  · simp only at done
    split at done
    · cases done
      exact .inl rfl
    · cases found : fdGet (s.threads tid) (fdIndex rdi) with
      | none =>
          rw [found] at done
          cases done
          exact .inl rfl
      | some u =>
          obtain ⟨rfl, used⟩ := fdGet_some _ _ _ found
          rw [found] at done
          obtain ⟨⟨n, fs⟩, written, rest⟩ := (bind_ok _ _ _).mp done
          cases rest
          exact .inr ⟨_, n, fs, used, written, rfl⟩

theorem sysRead_cases (s after : System) (tid : Nat) (rdi rsi rdx : BitVec 64) (key : UInt8)
    (ret : Ret) (done : sysRead s tid rdi rsi rdx key = .ok (ret, after)) :
    (after = s ∧ (ret.bytes = [] ∨ fdIndex rdi = 0)) ∨
      (fdIndex rdi ≠ 0 ∧ 0 ≤ ((s.threads tid).fds (fdIndex rdi)).node ∧
        nodeRead s.fs ((s.threads tid).fds (fdIndex rdi)).node
          ((s.threads tid).fds (fdIndex rdi)).pos rdx.toNat = .ok (ret.value, ret.bytes) ∧
        after = s.advance tid (fdIndex rdi) ((s.threads tid).fds (fdIndex rdi)) ret.value) := by
  unfold sysRead at done
  split at done
  · cases done
    exact .inl ⟨rfl, .inl rfl⟩
  · split at done
    · rename_i console
      cases done
      exact .inl ⟨rfl, .inr console⟩
    · rename_i file
      cases found : fdGet (s.threads tid) (fdIndex rdi) with
      | none =>
          rw [found] at done
          cases done
          exact .inl ⟨rfl, .inl rfl⟩
      | some u =>
          obtain ⟨rfl, used⟩ := fdGet_some _ _ _ found
          rw [found] at done
          obtain ⟨⟨n, bytes⟩, taken, rest⟩ := (bind_ok _ _ _).mp done
          cases rest
          exact .inr ⟨file, used, taken, rfl⟩

theorem lookup_negative (fs : Fs) (path : Path) (found : Int) (looked : lookup fs path = .ok found)
    (negative : found < 0) : found = -1 := by
  obtain ⟨walked, _, rest⟩ := (bind_ok _ _ _).mp looked
  cases walked with
  | none =>
      cases rest
      rfl
  | some id =>
      cases rest
      omega

theorem sysOpen_cases (s after : System) (tid : Nat) (user : Nat → UInt8) (rdi rsi : BitVec 64)
    (ret : Ret) (done : sysOpen s tid user rdi rsi = .ok (ret, after)) :
    (absPath user (s.threads tid) rdi.toNat = none ∧ ret = .failed ∧ after = s) ∨
      ∃ path id fs, absPath user (s.threads tid) rdi.toNat = some path ∧
        openNode s.fs path rsi = .ok (id, fs) ∧
        (ret = .failed ∧ after = { s with fs := fs } ∨
          ∃ fd, freeFd (s.threads tid) = some fd ∧ ret = ⟨fd, []⟩ ∧
            after = { s with fs := fs }.setFd tid fd ⟨id, 0⟩) := by
  unfold sysOpen at done
  cases absolute : absPath user (s.threads tid) rdi.toNat with
  | none =>
      rw [absolute] at done
      cases done
      exact .inl ⟨rfl, rfl, rfl⟩
  | some path =>
      rw [absolute] at done
      obtain ⟨⟨id, fs⟩, opened, last⟩ := (bind_ok _ _ _).mp done
      refine .inr ⟨path, id, fs, rfl, opened, ?_⟩
      simp only at last
      split at last
      · cases last
        exact .inl ⟨rfl, rfl⟩
      · cases free : freeFd (s.threads tid) with
        | none =>
            rw [free] at last
            cases last
            exact .inl ⟨rfl, rfl⟩
        | some fd =>
            rw [free] at last
            cases last
            exact .inr ⟨fd, rfl, rfl, rfl⟩

theorem openNode_effect (s : System) (op : Op) (rdi rsi : BitVec 64) (path : Path) (id : Int)
    (fs : Fs) (called : op.call = .openFile rdi rsi)
    (absolute : absPath op.user (s.threads op.tid) rdi.toNat = some path)
    (opened : openNode s.fs path rsi = .ok (id, fs)) (ret : Ret) :
    Effect s op ret { s with fs := fs } := by
  obtain ⟨found, looked, resolved⟩ := (bind_ok _ _ _).mp opened
  by_cases creates : found < 0 ∧ rsi.getLsbD 1 = true
  · rw [if_pos creates] at resolved
    refine .changed s op ret (.create path []) id fs resolved ?_
    rintro _ _ ⟨⟩
    exact ⟨rdi, rsi, called, creates.2, absolute,
      lookup_negative s.fs path found looked creates.1 ▸ looked⟩
  · rw [if_neg creates] at resolved
    cases resolved
    exact .refused s op ret

theorem sysOpen_effect (s after : System) (op : Op) (rdi rsi : BitVec 64) (ret : Ret)
    (called : op.call = .openFile rdi rsi)
    (done : sysOpen s op.tid op.user rdi rsi = .ok (ret, after)) : Effect s op ret after := by
  rcases sysOpen_cases s after op.tid op.user rdi rsi ret done with
    ⟨_, _, rfl⟩ | ⟨path, id, fs, absolute, opened, ⟨_, rfl⟩ | ⟨fd, _, rfl, rfl⟩⟩
  · exact .refused _ op ret
  · exact openNode_effect s op rdi rsi path id fs called absolute opened ret
  · refine ⟨(openNode_effect s op rdi rsi path id fs called absolute opened ⟨fd, []⟩).fs, ?_⟩
    intro tid key
    by_cases here : tid = op.tid ∧ key = fd
    · obtain ⟨rfl, rfl⟩ := here
      exact .inr (.inr ⟨⟨rdi, rsi, called⟩, rfl, rfl⟩)
    · rw [setFd_other _ _ _ _ _ _ here]
      exact .inr (.inl rfl)

theorem pathCall_effect (s after : System) (op : Op) (rdi : BitVec 64) (ret : Ret)
    (call : Fs → Path → Outcome (Int × Fs)) (change : Path → Tmpfs.Op)
    (same : ∀ fs path, call fs path = Tmpfs.step fs (change path))
    (harmless : ∀ path other data, change path ≠ .create other data)
    (done : pathCall s op.tid op.user rdi call = .ok (ret, after)) : Effect s op ret after := by
  unfold pathCall at done
  cases absolute : absPath op.user (s.threads op.tid) rdi.toNat with
  | none =>
      rw [absolute] at done
      cases done
      exact .refused s op _
  | some path =>
      rw [absolute] at done
      obtain ⟨⟨value, fs⟩, taken, rest⟩ := (bind_ok _ _ _).mp done
      cases rest
      rw [same] at taken
      exact .changed s op _ (change path) value fs taken fun other data equal =>
        absurd equal (harmless path other data)

theorem syscall_effect (s after : System) (op : Op) (ret : Ret)
    (done : syscall s op = .ok (ret, after)) : Effect s op ret after := by
  unfold syscall at done
  cases called : op.call with
  | read rdi rsi rdx key =>
      rw [called] at done
      rcases sysRead_cases s after op.tid rdi rsi rdx key ret done with ⟨rfl, _⟩ | ⟨_, _, _, rfl⟩
      · exact .refused _ op ret
      · exact ⟨.inl (advance_fs _ _ _ _ _), fun tid fd => .inr (.inl (advance_node _ _ _ _ tid fd))⟩
  | write rdi rsi rdx =>
      rw [called] at done
      rcases sysWrite_cases s after op.tid op.user rdi rsi rdx ret done with
        rfl | ⟨data, n, fs, _, written, rfl⟩
      · exact .refused _ op ret
      · refine ⟨.inr ⟨.nodeWrite ((s.threads op.tid).fds (fdIndex rdi)).node
            ((s.threads op.tid).fds (fdIndex rdi)).pos data, n, ?_, ?_⟩, fun tid fd =>
          .inr (.inl (advance_node { s with fs := fs } op.tid (fdIndex rdi) n tid fd))⟩
        · rw [advance_fs]
          exact written
        · intro path data impossible
          cases impossible
  | openFile rdi rsi =>
      rw [called] at done
      exact sysOpen_effect s after op rdi rsi ret called done
  | close rdi =>
      rw [called] at done
      simp only [sysClose] at done
      split at done
      · cases done
        refine ⟨.inl rfl, fun tid fd => ?_⟩
        by_cases here : tid = op.tid ∧ fd = fdIndex rdi
        · obtain ⟨rfl, rfl⟩ := here
          rw [setFd_same]
          exact .inl (by decide : (-1 : Int) < 0)
        · rw [setFd_other _ _ _ _ _ _ here]
          exact .inr (.inl rfl)
      · cases done
        exact .refused s op _
  | unlink rdi =>
      rw [called] at done
      exact pathCall_effect s after op rdi ret unlink .unlink (fun _ _ => rfl)
        (fun _ _ _ impossible => by cases impossible) done
  | rename rdi rsi =>
      rw [called] at done
      simp only [sysRename] at done
      split at done
      · obtain ⟨⟨value, fs⟩, taken, rest⟩ := (bind_ok _ _ _).mp done
        cases rest
        refine .changed s op _ (.rename _ _) value fs taken ?_
        intro path data impossible
        cases impossible
      · cases done
        exact .refused s op _
  | mkdir rdi =>
      rw [called] at done
      exact pathCall_effect s after op rdi ret mkdir .mkdir (fun _ _ => rfl)
        (fun _ _ _ impossible => by cases impossible) done

theorem step_ok (w after : World) (op : Op) (ret : Ret) (done : step w op = .ok (ret, after)) :
    ∃ sys, syscall w.sys op = .ok (ret, sys) ∧ after = w.observe op ret sys := by
  obtain ⟨⟨value, sys⟩, taken, rest⟩ := (bind_ok _ _ _).mp done
  cases rest
  exact ⟨sys, taken, rfl⟩

theorem effect_laid {s after : System} {op : Op} {ret : Ret} (effect : Effect s op ret after)
    (laid : Laid s.fs) : Laid after.fs := by
  rcases effect.fs with same | ⟨change, value, taken, _⟩
  · rwa [same]
  · exact step_laid s.fs after.fs change value laid taken

theorem effect_born {s after : System} {op : Op} {ret : Ret} (effect : Effect s op ret after)
    (slot : Nat) (file : (after.fs.nodes slot).typ = .file) :
    (s.fs.nodes slot).typ = .file ∨ ∃ path, Creating s op path ∧ Creates s.fs path slot := by
  rcases effect.fs with same | ⟨change, value, taken, creating⟩
  · rw [same] at file
    exact .inl file
  · rcases step_file s.fs after.fs change value taken slot file with old | ⟨path, data, rfl, creates⟩
    · exact .inl old
    · exact .inr ⟨path, creating path data rfl, creates⟩

theorem effect_file {w : World} {op : Op} {ret : Ret} {after : System}
    (effect : Effect w.sys op ret after) (settled : SlotsSettled w op) (tid fd slot : Nat)
    (named : ((w.sys.threads tid).fds fd).node = slot)
    (file : (after.fs.nodes slot).typ = .file) : (w.sys.fs.nodes slot).typ = .file := by
  rcases effect_born effect slot file with old | ⟨path, creating, creates⟩
  · exact old
  · -- The new file would take a slot that the guard says nobody names.
    obtain ⟨rdi, rsi, called, flag, absolute, missing⟩ := creating
    simp only [SlotsSettled, called] at settled
    exact absurd named (settled flag path slot absolute missing creates tid fd)

theorem bornAfter_le (w : World) (dated : Dated w) (after : System) (slot : Nat) :
    bornAfter w after slot ≤ w.clock := by
  unfold bornAfter
  split
  · exact Nat.le_refl _
  · exact Nat.le_of_lt (dated.past slot)

theorem bornAfter_old (w : World) (after : System) (slot : Nat)
    (old : (w.sys.fs.nodes slot).typ = .file) : bornAfter w after slot = w.birth slot :=
  if_neg fun born => born.1 old

theorem effect_dated {w : World} {op : Op} {ret : Ret} {after : System} (dated : Dated w)
    (effect : Effect w.sys op ret after) : Dated (w.observe op ret after) := by
  refine ⟨fun slot => Nat.lt_succ_of_le (bornAfter_le w dated after slot), ?_⟩
  intro one two fileOne fileTwo same
  change bornAfter w after one = bornAfter w after two at same
  by_cases oldOne : (w.sys.fs.nodes one).typ = .file
  · rw [bornAfter_old w after one oldOne] at same
    by_cases oldTwo : (w.sys.fs.nodes two).typ = .file
    · rw [bornAfter_old w after two oldTwo] at same
      exact dated.apart one two ⟨fileOne.1, oldOne⟩ ⟨fileTwo.1, oldTwo⟩ same
    · rw [bornAfter, if_pos ⟨oldTwo, fileTwo.2⟩] at same
      exact absurd same (Nat.ne_of_lt (dated.past one))
  · rw [bornAfter, if_pos ⟨oldOne, fileOne.2⟩] at same
    by_cases oldTwo : (w.sys.fs.nodes two).typ = .file
    · rw [bornAfter_old w after two oldTwo] at same
      exact absurd same.symm (Nat.ne_of_lt (dated.past two))
    · obtain ⟨_, _, _, _, _, _, freeOne⟩ := (effect_born effect one fileOne.2).resolve_left oldOne
      obtain ⟨_, _, _, _, _, _, freeTwo⟩ := (effect_born effect two fileTwo.2).resolve_left oldTwo
      rw [freeOne, Option.some.injEq] at freeTwo
      exact freeTwo

theorem effect_opened {w : World} {op : Op} {ret : Ret} {after : System}
    (effect : Effect w.sys op ret after) (tid fd : Nat)
    (used : 0 ≤ ((after.threads tid).fds fd).node) :
    openedAfter w op ret after tid fd =
        bornAfter w after ((after.threads tid).fds fd).node.toNat ∨
      (((after.threads tid).fds fd).node = ((w.sys.threads tid).fds fd).node ∧
        openedAfter w op ret after tid fd = w.opened tid fd) := by
  by_cases opening :
    (∃ rdi rsi, op.call = .openFile rdi rsi) ∧ tid = op.tid ∧ (fd : Int) = ret.value
  · obtain ⟨⟨rdi, rsi, called⟩, here⟩ := opening
    rw [openedAfter, called]
    exact .inl (if_pos here)
  · refine .inr ⟨?_, ?_⟩
    · rcases effect.fds tid fd with closed | same | opened
      · omega
      · exact same
      · exact absurd opened opening
    · cases called : op.call with
      | openFile rdi rsi =>
          rw [openedAfter, called]
          exact if_neg fun here => opening ⟨⟨rdi, rsi, called⟩, here⟩
      | _ => rw [openedAfter, called]

theorem step_bound (w : World) (op : Op) (ret : Ret) (after : World) (bound : Bound w)
    (settled : SlotsSettled w op) (done : step w op = .ok (ret, after)) : Bound after := by
  obtain ⟨sys, taken, rfl⟩ := step_ok w after op ret done
  have effect := syscall_effect w.sys sys op ret taken
  refine ⟨effect_laid effect bound.laid, effect_dated bound.dated effect, ?_, ?_⟩
  · intro tid fd used
    change openedAfter w op ret sys tid fd < w.clock + 1
    rcases effect_opened effect tid fd used with now | ⟨node, kept⟩
    · rw [now]
      exact Nat.lt_succ_of_le (bornAfter_le w bound.dated sys _)
    · rw [kept]
      exact Nat.lt_succ_of_lt (bound.past tid fd (node ▸ used))
  · intro tid fd used file
    change bornAfter w sys ((sys.threads tid).fds fd).node.toNat = openedAfter w op ret sys tid fd
    change 0 ≤ ((sys.threads tid).fds fd).node at used
    change IsFile sys.fs ((sys.threads tid).fds fd).node.toNat at file
    rcases effect_opened effect tid fd used with now | ⟨node, kept⟩
    · exact now.symm
    · rw [node] at used file ⊢
      have before := effect_file effect settled tid fd _ (Int.toNat_of_nonneg used).symm file.2
      rw [kept, bornAfter_old w sys _ before]
      exact bound.files tid fd used ⟨file.1, before⟩

/-! The guard asks for no more than it must: an open that creates a file under a
descriptor leaves that descriptor on a file it was not opened on. -/

theorem create_creates (fs after : Fs) (path : Path) (data : List UInt8) (ret : Int) (slot : Nat)
    (creates : Creates fs path slot) (taken : create fs path data = .ok (ret, after)) :
    (after.nodes slot).typ = .file := by
  obtain ⟨parent, leaf, found, absent, free⟩ := creates
  unfold create at taken
  obtain ⟨walked, walk, rest⟩ := (bind_ok _ _ _).mp taken
  rw [found, Except.ok.injEq] at walk
  subst walked
  simp only [absent, allocNode, free] at rest
  rcases storeFile_ok _ _ _ _ _ rest with ⟨_, _, rfl⟩ | ⟨_, _, rfl⟩
  · simp [Fs.attach]
  · simp [Fs.attach, Fs.place]

theorem sysOpen_used (s after : System) (tid : Nat) (user : Nat → UInt8) (rdi rsi : BitVec 64)
    (ret : Ret) (done : sysOpen s tid user rdi rsi = .ok (ret, after)) (other fd : Nat)
    (used : 0 ≤ ((s.threads other).fds fd).node) :
    ((after.threads other).fds fd).node = ((s.threads other).fds fd).node ∧
      ¬ (other = tid ∧ (fd : Int) = ret.value) := by
  have failed : ¬ (other = tid ∧ (fd : Int) = Ret.failed.value) := fun here => by
    have negative : Ret.failed.value = -1 := rfl
    omega
  rcases sysOpen_cases s after tid user rdi rsi ret done with
    ⟨_, rfl, rfl⟩ | ⟨_, id, fs, _, _, ⟨rfl, rfl⟩ | ⟨key, free, rfl, rfl⟩⟩
  · exact ⟨rfl, failed⟩
  · exact ⟨rfl, failed⟩
  · have unused := List.find?_some free
    rw [decide_eq_true_eq] at unused
    have different : ¬ (other = tid ∧ fd = key) := by
      rintro ⟨rfl, rfl⟩
      omega
    rw [setFd_other _ _ _ _ _ _ different]
    exact ⟨rfl, fun here => different ⟨here.1, Int.ofNat_inj.mp here.2⟩⟩

theorem sysOpen_creates (s after : System) (tid : Nat) (user : Nat → UInt8) (rdi rsi : BitVec 64)
    (ret : Ret) (done : sysOpen s tid user rdi rsi = .ok (ret, after)) (path : Path) (slot : Nat)
    (flag : rsi.getLsbD 1 = true) (absolute : absPath user (s.threads tid) rdi.toNat = some path)
    (missing : lookup s.fs path = .ok (-1)) (creates : Creates s.fs path slot) :
    (after.fs.nodes slot).typ = .file := by
  have created : ∀ id fs, openNode s.fs path rsi = .ok (id, fs) → (fs.nodes slot).typ = .file := by
    intro id fs opened
    obtain ⟨found, looked, resolved⟩ := (bind_ok _ _ _).mp opened
    rw [missing, Except.ok.injEq] at looked
    subst found
    rw [if_pos ⟨by decide, flag⟩] at resolved
    exact create_creates s.fs fs path [] id slot creates resolved
  rcases sysOpen_cases s after tid user rdi rsi ret done with
    ⟨nowhere, _⟩ | ⟨_, id, fs, same, opened, ⟨_, rfl⟩ | ⟨_, _, _, rfl⟩⟩
  · rw [absolute] at nowhere
    cases nowhere
  · rw [absolute, Option.some.injEq] at same
    exact created id fs (same ▸ opened)
  · rw [absolute, Option.some.injEq] at same
    exact created id fs (same ▸ opened)

theorem kept_settled (w : World) (op : Op) (ret : Ret) (after : World) (bound : Bound w)
    (done : step w op = .ok (ret, after)) (kept : Bound after) : SlotsSettled w op := by
  obtain ⟨sys, taken, rfl⟩ := step_ok w after op ret done
  unfold SlotsSettled
  cases called : op.call with
  | openFile rdi rsi =>
      intro flag path slot absolute missing creates tid fd named
      rw [syscall, called] at taken
      have used : 0 ≤ ((w.sys.threads tid).fds fd).node := by omega
      obtain ⟨node, other⟩ := sysOpen_used _ _ _ _ _ _ _ taken tid fd used
      have file := sysOpen_creates _ _ _ _ _ _ _ taken path slot flag absolute missing creates
      obtain ⟨_, _, _, _, free⟩ := creates
      obtain ⟨_, inside, empty⟩ := freeSlot_some w.sys.fs slot free
      -- The file is new, so its name is the clock; the descriptor means an older one.
      have born : bornAfter w sys slot = w.clock := if_pos ⟨by simp [empty], file⟩
      have opened : openedAfter w op ret sys tid fd = w.opened tid fd := by
        rw [openedAfter, called]
        exact if_neg other
      have here : ((sys.threads tid).fds fd).node.toNat = slot := by omega
      have same : bornAfter w sys ((sys.threads tid).fds fd).node.toNat =
          openedAfter w op ret sys tid fd :=
        kept.files tid fd (node ▸ used : 0 ≤ ((sys.threads tid).fds fd).node)
          (here ▸ ⟨inside, file⟩ : IsFile sys.fs ((sys.threads tid).fds fd).node.toNat)
      have older := bound.past tid fd used
      rw [here, born, opened] at same
      omega
  | _ => trivial

theorem step_bound_iff (w : World) (op : Op) (ret : Ret) (after : World) (bound : Bound w)
    (done : step w op = .ok (ret, after)) : Bound after ↔ SlotsSettled w op :=
  ⟨kept_settled w op ret after bound done, fun settled => step_bound w op ret after bound settled done⟩

theorem run_bound (start w : World) (fresh : Fresh start) (run : Run step SlotsSettled start w) :
    Bound w :=
  run_invariant step SlotsSettled Bound step_bound run (fresh_bound start fresh)

/-- Bytes come from the contents of a file, also where the sum of offset and length wraps. -/
theorem nodeRead_bytes (fs : Fs) (laid : Laid fs) (id : Int) (off len : Nat) (word : len < 2 ^ 64)
    (n : Int) (bytes : List UInt8) (done : nodeRead fs id off len = .ok (n, bytes))
    (some_ : bytes ≠ []) :
    IsFile fs id.toNat ∧ ∃ all, contents fs id.toNat = some all ∧
      bytes = (all.drop off).take bytes.length := by
  unfold nodeRead at done
  cases found : fileNode fs id with
  | none =>
      rw [found] at done
      cases done
      exact absurd rfl some_
  | some node =>
      obtain ⟨_, inside, typ, rfl⟩ := (fileNode_some fs id node).mp found
      rw [found] at done
      have file : IsFile fs id.toNat := ⟨inside, typ⟩
      have bound := laid.packed.below id.toNat file.used
      have capacity := laid.capacity
      have small : tnPool = 1048576 := rfl
      simp only [extentOf] at bound
      simp only at done
      split at done
      · cases done
        exact absurd rfl some_
      · rename_i start
        obtain ⟨_, checked, rest⟩ := (bind_ok _ _ _).mp done
        obtain ⟨forward, below⟩ := (range_ok _ _ _ _).mp checked
        generalize count : (if (off + len) % 2 ^ 64 > (fs.nodes id.toNat).size
          then (fs.nodes id.toNat).size - off else len) = taken at rest forward below
        cases rest
        -- A sum that wraps would end the range before it starts.
        have fits : off + taken ≤ (fs.nodes id.toNat).size := by
          split at count <;> omega
        refine ⟨file, _, contents_file fs id.toNat file, ?_⟩
        rw [slice_length]
        exact (slice_drop_take fs.pool _ _ off taken fits).symm

theorem nodeWrite_contents (fs after : Fs) (laid : Laid fs) (id : Int) (off : Nat)
    (buf : List UInt8) (ret : Int) (taken : nodeWrite fs id off buf = .ok (ret, after)) (slot : Nat)
    (changed : contents after slot ≠ contents fs slot) : slot = id.toNat ∧ IsFile fs slot := by
  -- A write that was not refused returns the length and updates one slot.
  have here : ret = buf.length → slot = id.toNat := by
    rintro rfl
    obtain ⟨_, _, _, _, update⟩ := write_update fs after id off buf laid taken
    by_contra other
    exact changed (by rw [update, Function.update_of_ne other])
  cases nodeWrite_stepped fs after id off buf ret taken with
  | refused => exact absurd rfl changed
  | overwrote _ _ _ positive inside file => exact ⟨here rfl, here rfl ▸ ⟨inside, file⟩⟩
  | grew _ _ _ positive inside file => exact ⟨here rfl, here rfl ▸ ⟨inside, file⟩⟩

/-- In every run whose creations take slots that no descriptor names any more, names
tell the files apart, a read through a descriptor returns bytes of the file it was
opened on, and a write changes no other. -/
theorem descriptors_keep_their_file (start w : World) (fresh : Fresh start)
    (run : Run step SlotsSettled start w) (op : Op) (ret : Ret) (after : World)
    (done : step w op = .ok (ret, after)) :
    (∀ one two, IsFile w.sys.fs one → IsFile w.sys.fs two → w.birth one = w.birth two →
      one = two) ∧
    (∀ rdi rsi rdx key, op.call = .read rdi rsi rdx key → fdIndex rdi ≠ 0 → ret.bytes ≠ [] →
      ∃ slot all, contents w.sys.fs slot = some all ∧
        w.birth slot = w.opened op.tid (fdIndex rdi) ∧
        ret.bytes = (all.drop ((w.sys.threads op.tid).fds (fdIndex rdi)).pos).take
          ret.bytes.length) ∧
    ∀ rdi rsi rdx, op.call = .write rdi rsi rdx → ∀ slot,
      contents after.sys.fs slot ≠ contents w.sys.fs slot →
      IsFile w.sys.fs slot ∧ w.birth slot = w.opened op.tid (fdIndex rdi) := by
  have bound := run_bound start w fresh run
  obtain ⟨sys, taken, rfl⟩ := step_ok w after op ret done
  rw [syscall] at taken
  refine ⟨bound.dated.apart, ?_, ?_⟩
  · intro rdi rsi rdx key called file some_
    rw [called] at taken
    rcases sysRead_cases w.sys sys op.tid rdi rsi rdx key ret taken with
      ⟨_, nothing | console⟩ | ⟨_, used, read, _⟩
    · exact absurd nothing some_
    · exact absurd console file
    · obtain ⟨isFile, all, held, bytes⟩ := nodeRead_bytes w.sys.fs bound.laid _ _ _ rdx.isLt _ _ read
        some_
      exact ⟨_, all, held, bound.files op.tid (fdIndex rdi) used isFile, bytes⟩
  · intro rdi rsi rdx called slot changed
    rw [called] at taken
    rcases sysWrite_cases w.sys sys op.tid op.user rdi rsi rdx ret taken with
      rfl | ⟨data, n, fs, used, written, rfl⟩
    · exact absurd rfl changed
    · have same : (w.observe op ret ({ w.sys with fs := fs }.advance op.tid (fdIndex rdi)
          ((w.sys.threads op.tid).fds (fdIndex rdi)) n)).sys.fs = fs := advance_fs _ _ _ _ _
      rw [same] at changed
      obtain ⟨rfl, file⟩ := nodeWrite_contents w.sys.fs fs bound.laid _ _ data n written slot changed
      exact ⟨file, bound.files op.tid (fdIndex rdi) used file⟩

/-! Two runs from the same start. -/

def firstWorld : World where
  sys := ⟨emptyFs, fun _ => .zeroed⟩
  clock := 1
  birth := fun _ => 0
  opened := fun _ _ => 0

theorem emptyFs_no_file (slot : Nat) : ¬ IsFile emptyFs slot := by
  rintro ⟨_, file⟩
  simp only [emptyFs, Tmpfs.init] at file
  split at file <;> cases file

theorem firstWorld_fresh : Fresh firstWorld where
  built := emptyFs_reachable
  closed := fun _ _ => (by decide : (-1 : Int) < 0)
  dated := ⟨fun _ => Nat.zero_lt_one, fun one _ file _ _ => absurd file (emptyFs_no_file one)⟩

def sharing : List Op :=
  [⟨1, userText [47, 102], .openFile 4096 2⟩, ⟨1, userText [104, 105], .write 3 4096 2⟩,
    ⟨2, userText [47, 102], .openFile 4096 0⟩, ⟨2, userText [], .read 3 4096 8 0⟩]

theorem sharing_rets : (replay step firstWorld sharing).map Prod.fst =
    .ok [⟨3, []⟩, ⟨2, []⟩, ⟨3, []⟩, ⟨2, [104, 105]⟩] := by
  decide +kernel

theorem descriptors_keep_their_file_shared : ∃ w ret after,
    Run step SlotsSettled firstWorld w ∧
    step w ⟨2, userText [], .read 3 4096 8 0⟩ = .ok (ret, after) ∧ ret.bytes = [104, 105] ∧
    ∃ slot all, contents w.sys.fs slot = some all ∧ w.birth slot = w.opened 2 3 ∧
      ret.bytes = (all.drop ((w.sys.threads 2).fds 3).pos).take ret.bytes.length := by
  obtain ⟨last, replayed⟩ := ok_of_returned _ _ sharing_rets
  obtain ⟨created, create, replayed⟩ := replay_cons replayed
  obtain ⟨written, write, replayed⟩ := replay_cons replayed
  obtain ⟨opened, reopen, replayed⟩ := replay_cons replayed
  obtain ⟨after, read, _⟩ := replay_cons replayed
  -- Nothing is open at first, and the second open creates nothing.
  have unnamed : SlotsSettled firstWorld ⟨1, userText [47, 102], .openFile 4096 2⟩ :=
    fun _ _ slot _ _ _ tid fd named => absurd (firstWorld_fresh.closed tid fd) (by rw [named]; omega)
  have plain : SlotsSettled written ⟨2, userText [47, 102], .openFile 4096 0⟩ :=
    fun flag => absurd flag (by decide)
  have writing : SlotsSettled created ⟨1, userText [104, 105], .write 3 4096 2⟩ := trivial
  have run : Run step SlotsSettled firstWorld opened :=
    ((Relation.ReflTransGen.single ⟨_, _, unnamed, create⟩).tail ⟨_, _, writing, write⟩).tail
      ⟨_, _, plain, reopen⟩
  have kept := descriptors_keep_their_file firstWorld opened firstWorld_fresh run _ _ after read
  exact ⟨opened, _, after, run, read, rfl, kept.2.1 3 4096 8 0 rfl (by decide) (by decide)⟩

/-- Process 1 opens a file that is then unlinked; process 2 gets its slot for a new
file and writes to it. -/
def recycling : List Op :=
  [⟨1, userText [47, 102], .openFile 4096 2⟩, ⟨1, userText [47, 102], .unlink 4096⟩,
    ⟨2, userText [47, 103], .openFile 4096 2⟩, ⟨2, userText [104, 105], .write 3 4096 2⟩]

/-- The descriptor of process 1 then reads what process 2 wrote to the other file. -/
theorem recycled_slot_read_by_old_descriptor : ∃ w ret after, Fresh firstWorld ∧
    Run step (fun _ _ => True) firstWorld w ∧
    step w ⟨1, userText [], .read 3 4096 8 0⟩ = .ok (ret, after) ∧
    ret.bytes = [104, 105] ∧ contents w.sys.fs 1 = some ret.bytes ∧
    w.birth 1 = w.opened 2 3 ∧ w.birth 1 ≠ w.opened 1 3 := by
  have evaluated : (do
      let (_, w) ← replay step firstWorld recycling
      let (ret, _) ← step w ⟨1, userText [], .read 3 4096 8 0⟩
      return (ret, contents w.sys.fs 1, w.birth 1, w.opened 1 3, w.opened 2 3)) =
      Except.ok ((⟨2, [104, 105]⟩ : Ret), some [104, 105], 3, 1, 3) := by
    decide +kernel
  obtain ⟨⟨rets, w⟩, replayed, rest⟩ := (bind_ok _ _ _).mp evaluated
  obtain ⟨⟨ret, after⟩, read, last⟩ := (bind_ok _ _ _).mp rest
  simp only [pure_ok, Except.ok.injEq, Prod.mk.injEq] at last
  obtain ⟨rfl, held, born, first, second⟩ := last
  exact ⟨w, _, after, firstWorld_fresh, replay_run _ _ _ (fun _ _ _ => trivial) _ _ _ replayed, read, rfl, held,
    by rw [born, second], by rw [born, first]; decide⟩

end Shizuku.Syscalls
