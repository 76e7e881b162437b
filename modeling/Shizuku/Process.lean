import Shizuku.Elf
import Shizuku.Sched

/-!
Processes: `spawn_elf` of `proc.rs`, which builds a space, loads the image, sets
up the user stack with the arguments and creates the thread, and `sys_sbrk` of
`syscall.rs`, which grows the heap of the current thread.
-/

namespace Shizuku.Process

open ByteMemory WordMemory Machine Pmm Vmm Elf Sched

def userStackTop : Nat := 0x700000000000
def userStackPages : Nat := 4
def userHeapBase : Nat := 0x600000000000
def userHeapMax : Nat := 64 <<< 20
def argMax : Nat := 16

def dataFlags : Nat := pteUs ||| pteRw ||| pteNx

def mapDataPage (space : Nat) (mm : Mm) (va : Nat) : Bool × Mm :=
  let (pa, pmm) := allocPage mm.pmm
  if pa = 0 then (false, { mm with pmm := pmm })
  else
    match map { mm with pmm := pmm } space va pa dataFlags with
    | (false, mm) => (false, mm)
    | (true, mm) => (true, zeroTable mm pa)

def stackVas : List Nat :=
  (List.range userStackPages).map fun i => userStackTop - (userStackPages - i) * pageSize

/-- Writes bytes at `dst` of an inactive space, one page after the other. -/
def ustackWrite (mm : Mm) (space dst : Nat) (src : List UInt8) : Bool × Mm :=
  if nonempty : src = [] then (true, mm)
  else
    let pa := translate mm space dst
    if pa = 0 then (false, mm)
    else
      let chunk := min (pageSize - dst % pageSize) src.length
      ustackWrite { mm with mem := blit mm.mem pa (src.take chunk) } space
        ((dst + chunk) % 2 ^ 64) (src.drop chunk)
  termination_by src.length
  decreasing_by
    have positive := List.length_pos_iff.mpr nonempty
    have offset : dst % pageSize < pageSize := Nat.mod_lt _ (by decide)
    rw [List.length_drop]
    omega

/-- The argument strings, last one first, each with its NUL, from `sp` down. -/
def pushArgs (space : Nat) : Mm → List (List UInt8) → Nat → List Nat → Option (Nat × List Nat) × Mm
  | mm, [], sp, pointers => (some (sp, pointers), mm)
  | mm, bytes :: rest, sp, pointers =>
      let sp := (sp + 2 ^ 64 - (bytes.length + 1)) % 2 ^ 64
      match ustackWrite mm space sp bytes with
      | (false, mm) => (none, mm)
      | (true, mm) =>
          match ustackWrite mm space ((sp + bytes.length) % 2 ^ 64) [0] with
          | (false, mm) => (none, mm)
          | (true, mm) => pushArgs space mm rest sp (sp :: pointers)

/-- `[argc][argv0..argvN][NULL]` -/
def entryFrame (pointers : List Nat) : List UInt8 :=
  (pointers.length :: pointers ++ [0]).flatMap (toBytes 8)

def pushFrame (mm : Mm) (space sp : Nat) (pointers : List Nat) : Option Nat × Mm :=
  let block := ((pointers.length + 2) * 8 + 15) / 16 * 16
  let sp := (sp / 16 * 16 + 2 ^ 64 - block) % 2 ^ 64
  match ustackWrite mm space sp (entryFrame pointers) with
  | (false, mm) => (none, mm)
  | (true, mm) => (some sp, mm)

def pushArgv (mm : Mm) (space : Nat) (argv : List (List UInt8)) : Option Nat × Mm :=
  match pushArgs space mm (argv.take argMax).reverse userStackTop [] with
  | (none, mm) => (none, mm)
  | (some (sp, pointers), mm) => pushFrame mm space sp pointers

def buildUser (mm : Mm) (space : Nat) (image : Image) (argv : List (List UInt8)) :
    Option (Nat × Nat) × Mm :=
  match elfLoad mm space image with
  | (entry, mm) =>
      if entry = 0 then (none, mm)
      else
        match forEach (mapDataPage space) mm stackVas with
        | (false, mm) => (none, mm)
        | (true, mm) =>
            match pushArgv mm space argv with
            | (none, mm) => (none, mm)
            | (some sp, mm) => (some (entry, sp), mm)

/-- The new thread id, or -1; every failure after the first destroys the space. -/
def spawnElf (k : Kernel) (name : List UInt8) (image : Image) (argv : List (List UInt8)) :
    Outcome (Int × Kernel) :=
  match newSpace k.mm with
  | (space, mm) =>
      if space = 0 then .ok (-1, { k with mm := mm })
      else
        match buildUser mm space image argv with
        | (none, mm) => .ok (-1, { k with mm := destroySpace mm space })
        | (some (entry, sp), mm) => do
            let (tid, k) ← threadCreateUser { k with mm := mm } name entry sp space
            if tid < 0 then return (-1, { k with mm := destroySpace k.mm space })
            let t := k.threads tid.toNat
            return (tid, k.setThread tid.toNat { t with brk := userHeapBase })

def toI64 (x : Nat) : Int := if x < 2 ^ 63 then x else (x : Int) - 2 ^ 64

/-- The values of `va` in the heap loop: from the old break, rounded up, to the new one. -/
def heapPages (old new : Nat) : List Nat :=
  let start := pageDown ((old + pageSize - 1) % 2 ^ 64)
  (List.range ((new - start + pageSize - 1) / pageSize)).map fun i => start + i * pageSize

/-- `rdi` is the increment as the register holds it. -/
def sysSbrk (k : Kernel) (rdi : Nat) : Int × Kernel :=
  let t := k.threads k.currentIdx
  let old := t.brk
  if rdi = 0 then (toI64 old, k)
  else
    let new := (old + rdi) % 2 ^ 64
    if new < old ∨ userHeapMax < (new + 2 ^ 64 - userHeapBase) % 2 ^ 64 then (-1, k)
    else
      match forEach (mapDataPage t.space) k.mm (heapPages old new) with
      | (false, mm) => (toI64 old - 1, { k with mm := mm })
      | (true, mm) => (toI64 old, { k with mm := mm }.setThread k.currentIdx { t with brk := new })

end Shizuku.Process
