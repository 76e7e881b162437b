import Shizuku.ContextSwitches
import Shizuku.StackWords

/-!
Interrupt entry and return, after the stubs of `asm.rs`. The processor pushes the
interrupted context, the stub its vector and, where the processor has none, an error code,
and `isr_common` the general registers; the handler gets the address of all this as an
`IrqFrame`. What the handler leaves there is popped again. The address of the stub and the
flags it runs with, which `iretq` replaces, are left out.
-/

namespace Shizuku.Interrupts

open ByteMemory WordMemory StackWords Machine Sched

inductive Reg where
  | rax | rbx | rcx | rdx | rsi | rdi | rbp | r8 | r9 | r10 | r11 | r12 | r13 | r14 | r15
  deriving DecidableEq, Repr

@[ext] structure Cpu where
  reg : Reg → BitVec 64
  rip : BitVec 64
  cs : BitVec 64
  rflags : BitVec 64
  rsp : BitVec 64
  ss : BitVec 64

structure Processor where
  cpu : Cpu
  mem : Nat → UInt8

inductive Operand where
  | imm (value : BitVec 64)
  | reg (r : Reg)

inductive Instr where
  | push (source : Operand)
  | pop (target : Reg)
  | movRdiRsp
  | addRsp (count : BitVec 64)
  | iretq

def Cpu.read (c : Cpu) : Operand → BitVec 64
  | .imm value => value
  | .reg r => c.reg r

def push (p : Processor) (value : BitVec 64) : Processor :=
  let sp := p.cpu.rsp - 8
  ⟨{ p.cpu with rsp := sp }, write64 p.mem sp.toNat value.toNat⟩

def stackWord (p : Processor) (index : Nat) : BitVec 64 :=
  BitVec.ofNat 64 (read64 p.mem (p.cpu.rsp.toNat + 8 * index))

/-- `iretq` loads whatever frame it finds and never faults, so a thread without a context
returns to its zero frame, where the processor would raise an exception. -/
def exec (p : Processor) : Instr → Processor
  | .push source => push p (p.cpu.read source)
  | .pop target => { p with cpu := { p.cpu with
      reg := Function.update p.cpu.reg target (stackWord p 0)
      rsp := p.cpu.rsp + 8 } }
  | .movRdiRsp => { p with cpu := { p.cpu with reg := Function.update p.cpu.reg .rdi p.cpu.rsp } }
  | .addRsp count => { p with cpu := { p.cpu with rsp := p.cpu.rsp + count } }
  | .iretq => { p with cpu := { p.cpu with
      rip := stackWord p 0
      cs := stackWord p 1
      rflags := stackWord p 2
      rsp := stackWord p 3
      ss := stackWord p 4 } }

def run (p : Processor) (code : List Instr) : Processor := code.foldl exec p

theorem run_append (p : Processor) (first second : List Instr) :
    run p (first ++ second) = run (run p first) second := List.foldl_append

/-- The exceptions for which the processor pushes an error code. -/
def errorVectors : List (BitVec 64) := [8, 10, 11, 12, 13, 14, 17, 21, 29, 30]

/-- `ISR_ERR` and `ISR_NOERR` -/
def isrStub (vector : BitVec 64) : List Instr :=
  if vector ∈ errorVectors then [.push (.imm vector)] else [.push (.imm 0), .push (.imm vector)]

def isrCommon : List Instr :=
  [.push (.reg .rax), .push (.reg .rbx), .push (.reg .rcx), .push (.reg .rdx), .push (.reg .rsi),
    .push (.reg .rdi), .push (.reg .rbp), .push (.reg .r8), .push (.reg .r9), .push (.reg .r10),
    .push (.reg .r11), .push (.reg .r12), .push (.reg .r13), .push (.reg .r14), .push (.reg .r15),
    .movRdiRsp]

def isrReturn : List Instr :=
  [.pop .r15, .pop .r14, .pop .r13, .pop .r12, .pop .r11, .pop .r10, .pop .r9, .pop .r8, .pop .rbp,
    .pop .rdi, .pop .rsi, .pop .rdx, .pop .rcx, .pop .rbx, .pop .rax, .addRsp 16, .iretq]

def Ring3 (c : Cpu) : Prop := c.cs &&& 3 = 3

instance (c : Cpu) : Decidable (Ring3 c) := inferInstanceAs (Decidable (_ = _))

def alignDown (sp : BitVec 64) : BitVec 64 := sp - sp % 16

/-- Where the processor starts to push: on the stack of the task segment when it comes from
ring 3, at a multiple of 16. -/
def entryTop (c : Cpu) (rsp0 : BitVec 64) : BitVec 64 :=
  alignDown (if Ring3 c then rsp0 else c.rsp)

def kernelCs : BitVec 64 := 0x08

def deliver (rsp0 vector err : BitVec 64) (p : Processor) : Processor :=
  let c := p.cpu
  let values := [c.ss, c.rsp, c.rflags, c.cs, c.rip] ++ if vector ∈ errorVectors then [err] else []
  values.foldl push { p with cpu := { c with cs := kernelCs, rsp := entryTop c rsp0 } }

def enter (rsp0 vector err : BitVec 64) (p : Processor) : Processor :=
  run (deliver rsp0 vector err p) (isrStub vector ++ isrCommon)

def leave (p : Processor) : Processor := run p isrReturn

def frameWords (f : IrqFrame) : List Nat :=
  [f.r15, f.r14, f.r13, f.r12, f.r11, f.r10, f.r9, f.r8, f.rbp, f.rdi, f.rsi, f.rdx, f.rcx, f.rbx,
    f.rax, f.vector, f.err, f.rip, f.cs, f.rflags, f.rsp, f.ss]

def frameOf : List Nat → IrqFrame
  | [r15, r14, r13, r12, r11, r10, r9, r8, rbp, rdi, rsi, rdx, rcx, rbx, rax, vector, err, rip, cs,
      rflags, rsp, ss] =>
      ⟨r15, r14, r13, r12, r11, r10, r9, r8, rbp, rdi, rsi, rdx, rcx, rbx, rax, vector, err, rip, cs,
        rflags, rsp, ss⟩
  | _ => .zeroed

def frameAt (mem : Nat → UInt8) (addr : Nat) : IrqFrame := frameOf (words mem addr 22)

/-- The handler's writes through its `&mut IrqFrame`. -/
def storeFrame (mem : Nat → UInt8) (addr : Nat) (f : IrqFrame) : Nat → UInt8 :=
  pushAll mem (addr + 176) (frameWords f).reverse

def Cpu.pushed (c : Cpu) (vector err : BitVec 64) : List (BitVec 64) :=
  [c.ss, c.rsp, c.rflags, c.cs, c.rip, err, vector, c.reg .rax, c.reg .rbx, c.reg .rcx, c.reg .rdx,
    c.reg .rsi, c.reg .rdi, c.reg .rbp, c.reg .r8, c.reg .r9, c.reg .r10, c.reg .r11, c.reg .r12,
    c.reg .r13, c.reg .r14, c.reg .r15]

def Cpu.frame (c : Cpu) (vector err : BitVec 64) : IrqFrame :=
  frameOf ((c.pushed vector err).map BitVec.toNat).reverse

def contextOf (f : IrqFrame) : Cpu where
  reg
    | .rax => BitVec.ofNat 64 f.rax
    | .rbx => BitVec.ofNat 64 f.rbx
    | .rcx => BitVec.ofNat 64 f.rcx
    | .rdx => BitVec.ofNat 64 f.rdx
    | .rsi => BitVec.ofNat 64 f.rsi
    | .rdi => BitVec.ofNat 64 f.rdi
    | .rbp => BitVec.ofNat 64 f.rbp
    | .r8 => BitVec.ofNat 64 f.r8
    | .r9 => BitVec.ofNat 64 f.r9
    | .r10 => BitVec.ofNat 64 f.r10
    | .r11 => BitVec.ofNat 64 f.r11
    | .r12 => BitVec.ofNat 64 f.r12
    | .r13 => BitVec.ofNat 64 f.r13
    | .r14 => BitVec.ofNat 64 f.r14
    | .r15 => BitVec.ofNat 64 f.r15
  rip := BitVec.ofNat 64 f.rip
  cs := BitVec.ofNat 64 f.cs
  rflags := BitVec.ofNat 64 f.rflags
  rsp := BitVec.ofNat 64 f.rsp
  ss := BitVec.ofNat 64 f.ss

theorem ofNat_toNat (value : BitVec 64) : BitVec.ofNat 64 value.toNat = value := by simp

theorem contextOf_frame (c : Cpu) (vector err : BitVec 64) : contextOf (c.frame vector err) = c := by
  ext1
  · funext r
    cases r <;> exact ofNat_toNat _
  all_goals exact ofNat_toNat _

theorem contextOf_rax (f : IrqFrame) (value : BitVec 64) :
    contextOf { f with rax := value.toNat } =
      { contextOf f with reg := Function.update (contextOf f).reg .rax value } := by
  ext1
  · funext r
    cases r with
    | rax => exact ofNat_toNat value
    | _ => rfl
  all_goals rfl

theorem contextOf_words (f : IrqFrame) :
    contextOf (frameOf ((frameWords f).map (· % 2 ^ 64))) = contextOf f := by
  -- Words keep the low 64 bits, and so does a context.
  have low (value : Nat) : BitVec.ofNat 64 (value % 2 ^ 64) = BitVec.ofNat 64 value :=
    BitVec.eq_of_toNat_eq (by simp only [BitVec.toNat_ofNat, Nat.mod_mod])
  ext1
  · funext r
    cases r <;> exact low _
  all_goals exact low _

theorem frameAt_storeFrame (mem : Nat → UInt8) (addr : Nat) (f : IrqFrame) :
    contextOf (frameAt (storeFrame mem addr f) addr) = contextOf f := by
  have count : (frameWords f).reverse.length = 22 := by simp [frameWords]
  have stored := words_pushAll mem (addr + 176) (frameWords f).reverse (by omega)
  rw [List.map_reverse, List.reverse_reverse, count, Nat.add_sub_cancel] at stored
  rw [frameAt, storeFrame, stored, contextOf_words]

theorem storeFrame_outside (mem : Nat → UInt8) (addr : Nat) (f : IrqFrame) (place : Nat)
    (outside : place < addr ∨ addr + 176 ≤ place) : storeFrame mem addr f place = mem place := by
  have count : (frameWords f).reverse.length = 22 := by simp [frameWords]
  exact pushAll_outside mem (addr + 176) _ (by omega) place (by omega)

theorem sub_toNat (sp : BitVec 64) (room : 8 ≤ sp.toNat) : (sp - 8).toNat = sp.toNat - 8 := by
  bv_omega

theorem push_all (values : List (BitVec 64)) (p : Processor)
    (room : 8 * values.length ≤ p.cpu.rsp.toNat) :
    values.foldl push p =
      ⟨{ p.cpu with rsp := BitVec.ofNat 64 (p.cpu.rsp.toNat - 8 * values.length) },
        pushAll p.mem p.cpu.rsp.toNat (values.map BitVec.toNat)⟩ := by
  induction values generalizing p with
  | nil => simp [pushAll]
  | cons value rest ih =>
      simp only [List.length_cons] at room
      have lower : (push p value).cpu.rsp.toNat = p.cpu.rsp.toNat - 8 :=
        sub_toNat p.cpu.rsp (by omega)
      rw [List.foldl_cons, ih _ (by omega), lower]
      simp only [push, List.map_cons, pushAll, List.length_cons, Nat.sub_sub, sub_toNat p.cpu.rsp
        (show 8 ≤ p.cpu.rsp.toNat by omega), show 8 + 8 * rest.length = 8 * (rest.length + 1) by omega]

theorem read_pushes (values : List (BitVec 64)) (p : Processor) (source : Operand) :
    (values.foldl push p).cpu.read source = p.cpu.read source := by
  -- Pushing does not change what is pushed later.
  induction values generalizing p with
  | nil => rfl
  | cons value rest ih =>
      rw [List.foldl_cons, ih]
      cases source <;> rfl

theorem run_pushes (sources : List Operand) (p : Processor) :
    run p (sources.map Instr.push) = (sources.map p.cpu.read).foldl push p := by
  induction sources generalizing p with
  | nil => rfl
  | cons source rest ih =>
      have same (other : Operand) := read_pushes [p.cpu.read source] p other
      simp only [run, List.map_cons, List.foldl_cons, exec, List.foldl_nil] at ih same ⊢
      rw [ih, List.map_congr_left fun other _ => same other]

def pushedOperands (vector : BitVec 64) : List Operand :=
  (if vector ∈ errorVectors then [.imm vector] else [.imm 0, .imm vector]) ++
    [.reg .rax, .reg .rbx, .reg .rcx, .reg .rdx, .reg .rsi, .reg .rdi, .reg .rbp, .reg .r8, .reg .r9,
      .reg .r10, .reg .r11, .reg .r12, .reg .r13, .reg .r14, .reg .r15]

def errorCode (vector err : BitVec 64) : BitVec 64 := if vector ∈ errorVectors then err else 0

theorem stub_pushes (vector : BitVec 64) :
    isrStub vector ++ isrCommon = (pushedOperands vector).map Instr.push ++ [.movRdiRsp] := by
  unfold isrStub pushedOperands
  split <;> rfl

section Entry
variable (rsp0 vector err : BitVec 64) (p : Processor) (room : 176 ≤ (entryTop p.cpu rsp0).toNat)
include room

theorem enter_eq :
    (enter rsp0 vector err p).mem = pushAll p.mem (entryTop p.cpu rsp0).toNat
        ((p.cpu.pushed vector (errorCode vector err)).map BitVec.toNat) ∧
      (enter rsp0 vector err p).cpu.rsp = BitVec.ofNat 64 ((entryTop p.cpu rsp0).toNat - 176) := by
  have whole : enter rsp0 vector err p = exec ((p.cpu.pushed vector (errorCode vector err)).foldl push
      { p with cpu := { p.cpu with cs := kernelCs, rsp := entryTop p.cpu rsp0 } }) .movRdiRsp := by
    rw [enter, stub_pushes, run_append, run_pushes, deliver]
    rw [List.map_congr_left fun source _ => read_pushes _ _ source, ← List.foldl_append]
    unfold pushedOperands errorCode
    by_cases coded : vector ∈ errorVectors <;> simp only [coded, if_true, if_false] <;> rfl
  have count : (p.cpu.pushed vector (errorCode vector err)).length = 22 := rfl
  rw [whole, push_all _ _ (by rw [count]; exact room), count]
  simp only [exec, and_self]

theorem enter_rsp :
    (enter rsp0 vector err p).cpu.rsp.toNat = (entryTop p.cpu rsp0).toNat - 176 := by
  have word := (entryTop p.cpu rsp0).isLt
  rw [(enter_eq rsp0 vector err p room).2, BitVec.toNat_ofNat]
  exact Nat.mod_eq_of_lt (by omega)

theorem enter_frame :
    frameAt (enter rsp0 vector err p).mem ((entryTop p.cpu rsp0).toNat - 176) =
      p.cpu.frame vector (errorCode vector err) := by
  have pushed := words_pushAll p.mem (entryTop p.cpu rsp0).toNat
    ((p.cpu.pushed vector (errorCode vector err)).map BitVec.toNat) (by rw [List.length_map]; exact room)
  have whole : ((p.cpu.pushed vector (errorCode vector err)).map BitVec.toNat).map (· % 2 ^ 64) =
      (p.cpu.pushed vector (errorCode vector err)).map BitVec.toNat := by
    rw [List.map_map]
    exact List.map_congr_left fun value _ => Nat.mod_eq_of_lt value.isLt
  have count : ((p.cpu.pushed vector (errorCode vector err)).map BitVec.toNat).length = 22 := rfl
  rw [whole, count] at pushed
  rw [(enter_eq rsp0 vector err p room).1, frameAt, pushed, Cpu.frame]

theorem enter_outside (place : Nat)
    (outside : place < (entryTop p.cpu rsp0).toNat - 176 ∨ (entryTop p.cpu rsp0).toNat ≤ place) :
    (enter rsp0 vector err p).mem place = p.mem place := by
  rw [(enter_eq rsp0 vector err p room).1]
  exact pushAll_outside _ _ _ room place outside

end Entry

/-! ### Return -/

def assign (reg : Reg → BitVec 64) : List Reg → List Nat → Reg → BitVec 64
  | target :: targets, value :: values =>
      assign (Function.update reg target (BitVec.ofNat 64 value)) targets values
  | _, _ => reg

theorem run_pops (targets : List Reg) (p : Processor)
    (room : p.cpu.rsp.toNat + 8 * targets.length < 2 ^ 64) :
    run p (targets.map Instr.pop) = { p with cpu := { p.cpu with
      reg := assign p.cpu.reg targets (words p.mem p.cpu.rsp.toNat targets.length)
      rsp := BitVec.ofNat 64 (p.cpu.rsp.toNat + 8 * targets.length) } } := by
  induction targets generalizing p with
  | nil => simp [run, assign]
  | cons target rest ih =>
      simp only [List.length_cons] at room
      have higher : (p.cpu.rsp + 8).toNat = p.cpu.rsp.toNat + 8 := by bv_omega
      have later := ih (exec p (.pop target)) (by simp only [exec, higher]; omega)
      simp only [run, List.map_cons, List.foldl_cons] at later ⊢
      rw [later]
      simp only [exec, higher, stackWord, words, assign, List.length_cons, Nat.mul_zero, Nat.add_zero,
        Nat.add_assoc, show 8 + 8 * rest.length = 8 * (rest.length + 1) by omega]

theorem leave_eq (p : Processor) (room : p.cpu.rsp.toNat + 176 < 2 ^ 64) :
    leave p = ⟨contextOf (frameAt p.mem p.cpu.rsp.toNat), p.mem⟩ := by
  have split : isrReturn = ([.r15, .r14, .r13, .r12, .r11, .r10, .r9, .r8, .rbp, .rdi, .rsi, .rdx,
      .rcx, .rbx, .rax] : List Reg).map Instr.pop ++ [.addRsp 16, .iretq] := rfl
  rw [leave, split, run_append, run_pops _ _ (by simp only [List.length_cons, List.length_nil]; omega)]
  have higher : (BitVec.ofNat 64 (p.cpu.rsp.toNat + 8 * 15) + 16).toNat = p.cpu.rsp.toNat + 136 := by
    bv_omega
  simp only [run, List.foldl_cons, List.foldl_nil, exec, stackWord, List.length_cons, List.length_nil,
    Nat.reduceAdd, higher, frameAt, words, Nat.add_assoc, Nat.reduceMul, Nat.add_zero, Nat.zero_add]
  congr 1
  ext1
  · funext r
    cases r <;> rfl
  all_goals rfl

end Shizuku.Interrupts
