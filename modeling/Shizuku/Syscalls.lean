import Shizuku.Sched
import Shizuku.Tmpfs

/-!
The file system calls of `syscall.rs`: open, read, write, close, unlink, rename
and mkdir, on the descriptor tables of the threads and the tmpfs. The memory of
the calling process is a function from addresses to bytes, and what a read stores
there is returned; page faults, the serial console and the terminals are outside
the model, so descriptor 0 delivers a byte `key` of the caller's choice.
-/

namespace Shizuku.Syscalls

open Machine Tmpfs Sched

structure System where
  fs : Fs
  threads : Nat → Thread

structure Ret where
  value : Int
  bytes : List UInt8
  deriving DecidableEq, Repr

def Ret.failed : Ret := ⟨-1, []⟩

def badUaddr (p : Nat) : Bool := p == 0 || decide (0x800000000000 ≤ p)

/-! `core::str::from_utf8`: what may follow a leading byte. -/

def utf8Tail (lead : UInt8) : Option (List (UInt8 × UInt8)) :=
  if lead < 0x80 then some []
  else if 0xC2 ≤ lead ∧ lead ≤ 0xDF then some [(0x80, 0xBF)]
  else if lead = 0xE0 then some [(0xA0, 0xBF), (0x80, 0xBF)]
  else if lead = 0xED then some [(0x80, 0x9F), (0x80, 0xBF)]
  else if 0xE1 ≤ lead ∧ lead ≤ 0xEF then some [(0x80, 0xBF), (0x80, 0xBF)]
  else if lead = 0xF0 then some [(0x90, 0xBF), (0x80, 0xBF), (0x80, 0xBF)]
  else if 0xF1 ≤ lead ∧ lead ≤ 0xF3 then some [(0x80, 0xBF), (0x80, 0xBF), (0x80, 0xBF)]
  else if lead = 0xF4 then some [(0x80, 0x8F), (0x80, 0xBF), (0x80, 0xBF)]
  else none

def validUtf8 : List (UInt8 × UInt8) → List UInt8 → Bool
  | [], [] => true
  | _ :: _, [] => false
  | [], lead :: rest =>
      match utf8Tail lead with
      | none => false
      | some expected => validUtf8 expected rest
  | (low, high) :: expected, byte :: rest =>
      decide (low ≤ byte) && decide (byte ≤ high) && validUtf8 expected rest

def strOr (default bytes : List UInt8) : List UInt8 := if validUtf8 [] bytes then bytes else default

def pathMax : Nat := 256

/-- The bytes before the NUL, if there is one in the first `size`. -/
def copyUstr (user : Nat → UInt8) (uptr size : Nat) : Option (List UInt8) :=
  if badUaddr uptr then none
  else
    let text := ((List.range size).map fun i => user (uptr + i)).takeWhile (· != 0)
    if text.length < size then some text else none

def cwdStr (t : Thread) : List UInt8 := strOr rootPath (t.cwd.takeWhile (· != 0))

/-- `abs_path` followed by `buf_str`: the argument itself, or the argument below
the working directory, cut to fit the buffer. -/
def absPath (user : Nat → UInt8) (t : Thread) (uptr : Nat) : Option Path :=
  match copyUstr user uptr pathMax with
  | none => none
  | some raw =>
      if raw.head? = some slash then some (strOr [] (raw.take (pathMax - 1)))
      else
        let cwd := (cwdStr t).take (pathMax - 1)
        let base := if cwd.length + 1 < pathMax ∧ cwd ≠ [] ∧ cwd.getLast? ≠ some slash
          then cwd ++ [slash] else cwd
        some (strOr [] (base ++ raw.take (pathMax - base.length - 1)))

/-! The descriptor table. -/

/-- `rdi as i32 as usize` -/
def fdIndex (rdi : BitVec 64) : Nat := ((rdi.setWidth 32).signExtend 64).toNat

def fdGet (t : Thread) (fd : Nat) : Option Ufd :=
  if ufdFirst ≤ fd ∧ fd < ufdMax ∧ 0 ≤ (t.fds fd).node then some (t.fds fd) else none

def System.setFd (s : System) (tid fd : Nat) (u : Ufd) : System :=
  let t := s.threads tid
  let changed : Thread := { t with fds := fun key => if key = fd then u else t.fds key }
  { s with threads := fun key => if key = tid then changed else s.threads key }

def freeFd (t : Thread) : Option Nat :=
  (List.range' ufdFirst (ufdMax - ufdFirst)).find? fun fd => decide ((t.fds fd).node < 0)

def System.advance (s : System) (tid fd : Nat) (u : Ufd) (n : Int) : System :=
  if 0 < n then s.setFd tid fd { u with pos := (u.pos + n.toNat) % 2 ^ 64 } else s

/-! The calls. -/

def sysWrite (s : System) (tid : Nat) (user : Nat → UInt8) (rdi rsi rdx : BitVec 64) :
    Outcome (Ret × System) :=
  if badUaddr rsi.toNat ∧ 0 < rdx.toNat then .ok (.failed, s)
  else
    let len := min rdx.toNat (1 <<< 20)
    if fdIndex rdi = 1 ∨ fdIndex rdi = 2 then .ok (⟨len, []⟩, s)
    else
      match fdGet (s.threads tid) (fdIndex rdi) with
      | none => .ok (.failed, s)
      | some u => do
          let data := (List.range len).map fun i => user (rsi.toNat + i)
          let (n, fs) ← nodeWrite s.fs u.node u.pos data
          return (⟨n, []⟩, { s with fs := fs }.advance tid (fdIndex rdi) u n)

def sysRead (s : System) (tid : Nat) (rdi rsi rdx : BitVec 64) (key : UInt8) :
    Outcome (Ret × System) :=
  if badUaddr rsi.toNat then .ok (.failed, s)
  else if fdIndex rdi = 0 then .ok (⟨1, [key]⟩, s)
  else
    match fdGet (s.threads tid) (fdIndex rdi) with
    | none => .ok (.failed, s)
    | some u => do
        let (n, bytes) ← nodeRead s.fs u.node u.pos rdx.toNat
        return (⟨n, bytes⟩, s.advance tid (fdIndex rdi) u n)

/-- The node of a path, made if it is missing and `O_CREAT` (bit 1 of the flags) is set. -/
def openNode (fs : Fs) (path : Path) (flags : BitVec 64) : Outcome (Int × Fs) := do
  let found ← lookup fs path
  if found < 0 ∧ flags.getLsbD 1 then create fs path [] else return (found, fs)

def sysOpen (s : System) (tid : Nat) (user : Nat → UInt8) (rdi rsi : BitVec 64) :
    Outcome (Ret × System) :=
  match absPath user (s.threads tid) rdi.toNat with
  | none => .ok (.failed, s)
  | some path => do
      let (id, fs) ← openNode s.fs path rsi
      let s := { s with fs := fs }
      if id < 0 ∨ nodeType fs id ≠ .file then return (.failed, s)
      match freeFd (s.threads tid) with
      | none => return (.failed, s)
      | some fd => return (⟨fd, []⟩, s.setFd tid fd ⟨id, 0⟩)

def sysClose (s : System) (tid : Nat) (rdi : BitVec 64) : Ret × System :=
  let fd := fdIndex rdi
  if ufdFirst ≤ fd ∧ fd < ufdMax then
    (⟨0, []⟩, s.setFd tid fd { (s.threads tid).fds fd with node := -1 })
  else (.failed, s)

def pathCall (s : System) (tid : Nat) (user : Nat → UInt8) (rdi : BitVec 64)
    (call : Fs → Path → Outcome (Int × Fs)) : Outcome (Ret × System) :=
  match absPath user (s.threads tid) rdi.toNat with
  | none => .ok (.failed, s)
  | some path => do
      let (value, fs) ← call s.fs path
      return (⟨value, []⟩, { s with fs := fs })

def sysMkdir (s : System) (tid : Nat) (user : Nat → UInt8) (rdi : BitVec 64) :
    Outcome (Ret × System) :=
  pathCall s tid user rdi mkdir

def sysUnlink (s : System) (tid : Nat) (user : Nat → UInt8) (rdi : BitVec 64) :
    Outcome (Ret × System) :=
  pathCall s tid user rdi unlink

def sysRename (s : System) (tid : Nat) (user : Nat → UInt8) (rdi rsi : BitVec 64) :
    Outcome (Ret × System) :=
  match absPath user (s.threads tid) rdi.toNat, absPath user (s.threads tid) rsi.toNat with
  | some oldp, some newp => do
      let (value, fs) ← rename s.fs oldp newp
      return (⟨value, []⟩, { s with fs := fs })
  | _, _ => .ok (.failed, s)

inductive Call where
  | read (rdi rsi rdx : BitVec 64) (key : UInt8)
  | write (rdi rsi rdx : BitVec 64)
  | openFile (rdi rsi : BitVec 64)
  | close (rdi : BitVec 64)
  | unlink (rdi : BitVec 64)
  | rename (rdi rsi : BitVec 64)
  | mkdir (rdi : BitVec 64)
  deriving DecidableEq

structure Op where
  tid : Nat
  user : Nat → UInt8
  call : Call

def syscall (s : System) (op : Op) : Outcome (Ret × System) :=
  match op.call with
  | .read rdi rsi rdx key => sysRead s op.tid rdi rsi rdx key
  | .write rdi rsi rdx => sysWrite s op.tid op.user rdi rsi rdx
  | .openFile rdi rsi => sysOpen s op.tid op.user rdi rsi
  | .close rdi => .ok (sysClose s op.tid rdi)
  | .unlink rdi => sysUnlink s op.tid op.user rdi
  | .rename rdi rsi => sysRename s op.tid op.user rdi rsi
  | .mkdir rdi => sysMkdir s op.tid op.user rdi

def userText (text : List UInt8) (address : Nat) : UInt8 := text.getD (address - 4096) 0

end Shizuku.Syscalls
