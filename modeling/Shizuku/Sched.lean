import Shizuku.Vmm

/-!
The thread table and the round-robin scheduler of `sched.rs`. A context switch
saves the live trap frame in the table and loads another one; CR3 and the TSS
stack pointer are registers of the model. A thread has all the fields of the
source; the console output and the interrupt flag are outside the model.
-/

namespace Shizuku.Sched

open Machine Pmm Vmm

def schedMaxThreads : Nat := 32
def threadKstackSize : Nat := 4 * pageSize
def timesliceTicks : Nat := 5
def ufdMax : Nat := 8
def ufdFirst : Nat := 3

inductive ThreadState where
  | unused | runnable | zombie
  deriving DecidableEq, Repr

structure IrqFrame where
  r15 : Nat
  r14 : Nat
  r13 : Nat
  r12 : Nat
  r11 : Nat
  r10 : Nat
  r9 : Nat
  r8 : Nat
  rbp : Nat
  rdi : Nat
  rsi : Nat
  rdx : Nat
  rcx : Nat
  rbx : Nat
  rax : Nat
  vector : Nat
  err : Nat
  rip : Nat
  cs : Nat
  rflags : Nat
  rsp : Nat
  ss : Nat
  deriving DecidableEq, Repr

def IrqFrame.zeroed : IrqFrame :=
  ⟨0, 0, 0, 0, 0, 0, 0, 0, 0, 0, 0, 0, 0, 0, 0, 0, 0, 0, 0, 0, 0, 0⟩

/-- `node` is a tmpfs node id, -1 for a free descriptor. -/
structure Ufd where
  node : Int
  pos : Nat
  deriving DecidableEq, Repr

def Ufd.free : Ufd := ⟨-1, 0⟩

structure Thread where
  tid : Int
  name : List UInt8
  state : ThreadState
  frame : IrqFrame
  space : Nat
  kstackTop : Nat
  kstackPa : Nat
  isUser : Bool
  fds : Nat → Ufd
  cwd : List UInt8
  brk : Nat
  exitStatus : Int
  vt : Int

def textField (size : Nat) (text : List UInt8) : List UInt8 :=
  text.take (size - 1) ++ List.replicate (size - min text.length (size - 1)) 0

def Thread.zeroed : Thread where
  tid := 0
  name := List.replicate 16 0
  state := .unused
  frame := .zeroed
  space := 0
  kstackTop := 0
  kstackPa := 0
  isUser := false
  fds := fun _ => .free
  cwd := List.replicate 96 0
  brk := 0
  exitStatus := 0
  vt := -1

def Thread.setName (thread : Thread) (name : List UInt8) : Thread :=
  { thread with name := textField 16 name }

def Thread.setCwd (thread : Thread) (cwd : List UInt8) : Thread :=
  { thread with cwd := textField 96 cwd }

structure Kernel where
  mm : Mm
  threads : Nat → Thread
  nrThreads : Nat
  currentIdx : Nat
  lastSlice : Nat
  cr3 : Nat
  rsp0 : Nat
  kthreadTrampoline : Nat

def Kernel.setThread (k : Kernel) (slot : Nat) (thread : Thread) : Kernel :=
  { k with threads := fun key => if key = slot then thread else k.threads key }

def Kernel.setPmm (k : Kernel) (pmm : Pmm.State) : Kernel := { k with mm := { k.mm with pmm := pmm } }

def rootPath : List UInt8 := [47]
def kernelName : List UInt8 := [107, 101, 114, 110, 101, 108]

def init (k : Kernel) : Kernel :=
  let boot := { Thread.zeroed.setName kernelName with
    tid := 0
    state := .runnable
    space := k.mm.kernelSpace }
  { k.setThread 0 (boot.setCwd rootPath) with
    nrThreads := 1
    currentIdx := 0 }

def unusedSlot (k : Kernel) : Option Nat :=
  (List.range schedMaxThreads).find? fun slot => (k.threads slot).state == .unused

def stackTop (k : Kernel) (pa : Nat) : Nat := (pa + k.mm.hhdmOffset + threadKstackSize) % 2 ^ 64

def Kernel.growTable (k : Kernel) (slot : Nat) : Kernel :=
  if k.nrThreads ≤ slot then { k with nrThreads := slot + 1 } else k

def kthreadFrame (k : Kernel) (top f arg : Nat) : IrqFrame :=
  { IrqFrame.zeroed with
    rip := k.kthreadTrampoline
    cs := 0x08
    ss := 0x10
    rflags := 0x202
    rsp := top
    rbx := f
    rdi := arg }

def kthreadCreate (k : Kernel) (name : List UInt8) (f arg : Nat) : Outcome (Int × Kernel) :=
  match unusedSlot k with
  | none => .ok (-1, k)
  | some slot => do
      let (pa, pmm) ← allocPages k.mm.pmm (threadKstackSize / pageSize) pageSize
      if pa = 0 then return (-1, k.setPmm pmm)
      let top := stackTop k pa
      let thread := { Thread.zeroed with
        tid := slot
        state := .runnable
        space := k.mm.kernelSpace
        kstackTop := top
        kstackPa := pa
        frame := kthreadFrame k top f arg }
      return (slot, ((k.setPmm pmm).setThread slot (thread.setName name)).growTable slot)

/-- The slot is runnable from here on, without a stack, a space or a frame. -/
def allocThreadSlot (k : Kernel) (name : List UInt8) : Int × Kernel :=
  match unusedSlot k with
  | none => (-1, k)
  | some slot =>
      let thread := { Thread.zeroed.setCwd rootPath with tid := slot, state := .runnable }
      (slot, (k.setThread slot (thread.setName name)).growTable slot)

def userFrame (entry userRsp : Nat) : IrqFrame :=
  { IrqFrame.zeroed with
    rip := entry
    cs := 0x20 ||| 3
    ss := 0x18 ||| 3
    rsp := userRsp
    rflags := 0x202 }

def threadCreateUser (k : Kernel) (name : List UInt8) (entry userRsp space : Nat) :
    Outcome (Int × Kernel) :=
  match allocThreadSlot k name with
  | (.negSucc _, k) => .ok (-1, k)
  | (.ofNat slot, k) => do
      let (pa, pmm) ← allocPages k.mm.pmm (threadKstackSize / pageSize) pageSize
      -- The slot taken above is not given back.
      if pa = 0 then return (-1, k.setPmm pmm)
      let thread := { k.threads slot with
        space := space
        isUser := true
        kstackTop := stackTop k pa
        kstackPa := pa
        frame := userFrame entry userRsp }
      return (slot, (k.setPmm pmm).setThread slot thread)

def pickNext (k : Kernel) : Nat :=
  match ((List.range schedMaxThreads).map fun i => (k.currentIdx + (i + 1)) % schedMaxThreads).find?
      fun idx => (k.threads idx).state == .runnable with
  | some idx => idx
  | none => k.currentIdx

/-- Saves `f` for the current thread and returns the frame of thread `target`. -/
def switchTo (k : Kernel) (f : IrqFrame) (target : Nat) : IrqFrame × Kernel :=
  let cur := k.currentIdx
  let saved : Kernel := { k.setThread cur { k.threads cur with frame := f } with currentIdx := target }
  let nt : Thread := saved.threads target
  let spaced : Kernel :=
    if nt.space ≠ 0 ∧ nt.space ≠ (saved.threads cur).space then { saved with cr3 := nt.space }
    else saved
  (nt.frame, if nt.kstackTop ≠ 0 then { spaced with rsp0 := nt.kstackTop } else spaced)

def schedTick (k : Kernel) (f : IrqFrame) : IrqFrame × Kernel :=
  if k.lastSlice + 1 < timesliceTicks then (f, { k with lastSlice := k.lastSlice + 1 })
  else
    let reset := { k with lastSlice := 0 }
    let next := pickNext reset
    if next = reset.currentIdx then (f, reset) else switchTo reset f next

def schedYield (k : Kernel) (f : IrqFrame) : IrqFrame × Kernel :=
  schedTick { k with lastSlice := timesliceTicks } f

def schedThreadExit (k : Kernel) (f : IrqFrame) : IrqFrame × Kernel :=
  schedYield (k.setThread k.currentIdx { k.threads k.currentIdx with state := .zombie }) f

/-- `sys_exit` with the status in `rdi`, taken as an `i32`; `f` is the frame that `int 32` saves. -/
def sysExit (k : Kernel) (status : Int) (f : IrqFrame) : IrqFrame × Kernel :=
  schedThreadExit
    (k.setThread k.currentIdx { k.threads k.currentIdx with exitStatus := status }) f

def stackPages (pa : Nat) : List Nat :=
  (List.range (threadKstackSize / pageSize)).map fun i => pa + i * pageSize

/-- What a zombie held goes back to the allocator: its space, if it is a user
thread with one of its own, and its kernel stack. -/
def freeThread (mm : Mm) (t : Thread) : Mm :=
  let left := if t.isUser ∧ t.space ≠ 0 ∧ t.space ≠ mm.kernelSpace then destroySpace mm t.space
    else mm
  if t.kstackPa ≠ 0 then { left with pmm := (stackPages t.kstackPa).foldl freePage left.pmm }
  else left

def schedReap (k : Kernel) (tid : Nat) : Outcome Kernel := do
  index schedMaxThreads tid
  if (k.threads tid).state ≠ .zombie then return k
  return { k with mm := freeThread k.mm (k.threads tid) }.setThread tid .zeroed

end Shizuku.Sched
