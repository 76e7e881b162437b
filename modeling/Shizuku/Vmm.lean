import Shizuku.Pmm
import Shizuku.PointerForest
import Shizuku.WordMemory

/-!
Four-level paging as `mm/vmm.rs` does it. Physical memory is a byte array that
the kernel reaches through the direct map, so `pa_to_va` and the raw pointers of
the source become plain physical addresses; a page table is 512 little-endian
words in one page. The direct map is taken to stay as it is: a mapping that replaces
part of it redirects the kernel's own stores, which the model does not follow. The TLB
and `invlpg` are outside the model.
-/

namespace Shizuku.Vmm

open ByteMemory WordMemory Pmm

def pteP : Nat := 1 <<< 0
def pteRw : Nat := 1 <<< 1
def pteUs : Nat := 1 <<< 2
def ptePs : Nat := 1 <<< 7
def pteNx : Nat := 1 <<< 63
def pteAddrMask : Nat := 0x000FFFFFFFFFF000

structure Mm where
  pmm : Pmm.State
  mem : Nat → UInt8
  kernelSpace : Nat
  hhdmOffset : Nat

def entry (mem : Nat → UInt8) (tbl idx : Nat) : Nat := read64 mem (tbl + 8 * idx)

def Mm.setEntry (mm : Mm) (tbl idx value : Nat) : Mm :=
  { mm with mem := write64 mm.mem (tbl + 8 * idx) value }

/-- `write_bytes(pa_to_va(pa), 0, PAGE_SIZE)`, which `zero_table` and the loaders share. -/
def zeroTable (mm : Mm) (pa : Nat) : Mm := { mm with mem := fill mm.mem pa pageSize 0 }

def tableIndex (va lvl : Nat) : Nat := (va >>> (12 + (lvl - 1) * 9)) &&& 0x1FF

/-- The loop of `walk`, `count` levels above `level`. -/
def walkFrom (va : Nat) (create : Bool) (level : Nat) : Nat → Mm → Nat → Option Nat × Mm
  | 0, mm, tbl => (some tbl, mm)
  | count + 1, mm, tbl =>
      let lvl := level + count + 1
      let idx := tableIndex va lvl
      let e := entry mm.mem tbl idx
      if e &&& pteP = 0 then
        if create then
          let (np, pmm) := allocPage mm.pmm
          if np = 0 then (none, { mm with pmm := pmm })
          else
            let linked := (zeroTable { mm with pmm := pmm } np).setEntry tbl idx
              (np ||| pteP ||| pteRw ||| pteUs)
            walkFrom va create level count linked (entry linked.mem tbl idx &&& pteAddrMask)
        else (none, mm)
      else if e &&& ptePs ≠ 0 ∧ 1 < lvl then (none, mm)
      else walkFrom va create level count mm (e &&& pteAddrMask)

def walk (mm : Mm) (space va : Nat) (create : Bool) (level : Nat) : Option Nat × Mm :=
  walkFrom va create level (4 - level) mm space

def map (mm : Mm) (space va pa flags : Nat) : Bool × Mm :=
  match walk mm space va true 1 with
  | (none, walked) => (false, walked)
  | (some pt, walked) =>
      (true, walked.setEntry pt (tableIndex va 1) ((pa &&& pteAddrMask) ||| flags ||| pteP))

def unmap (mm : Mm) (space va : Nat) : Bool × Mm :=
  match walk mm space va false 1 with
  | (none, walked) => (false, walked)
  | (some pt, walked) =>
      if entry walked.mem pt (tableIndex va 1) &&& pteP = 0 then (false, walked)
      else (true, walked.setEntry pt (tableIndex va 1) 0)

/-- Physical address of `va` including the page offset, 0 if unmapped. -/
def translate (mm : Mm) (space va : Nat) : Nat :=
  match (walk mm space va false 1).1 with
  | none => 0
  | some pt =>
      let e := entry mm.mem pt (tableIndex va 1)
      if e &&& pteP = 0 then 0 else (e &&& pteAddrMask) + (va &&& (pageSize - 1))

def shareHighHalf (mm : Mm) (source target : Nat) : Mm :=
  { mm with mem := blit mm.mem (target + 8 * 256) (slice mm.mem (source + 8 * 256) (8 * 256)) }

/-- `cr3` is the table the boot loader left in the register. -/
def init (mm : Mm) (cr3 : Nat) : Mm :=
  let (nl4, pmm) := allocPage mm.pmm
  { shareHighHalf (zeroTable { mm with pmm := pmm } nl4) (cr3 &&& pteAddrMask) nl4 with
    kernelSpace := nl4 }

def newSpace (mm : Mm) : Nat × Mm :=
  let (nl4, pmm) := allocPage mm.pmm
  if nl4 = 0 then (0, { mm with pmm := pmm })
  else (nl4, shareHighHalf (zeroTable { mm with pmm := pmm } nl4) mm.kernelSpace nl4)

/-! The four nested loops of `destroy_space`, innermost first. They read tables
and write only the bitmap. -/

def destroyL1 (mem : Nat → UInt8) (pmm : Pmm.State) (l1 : Nat) : Pmm.State :=
  (List.range 512).foldl (fun pmm i1 =>
    if entry mem l1 i1 &&& pteP ≠ 0 then freePage pmm (entry mem l1 i1 &&& pteAddrMask)
    else pmm) pmm

def destroyL2 (mem : Nat → UInt8) (pmm : Pmm.State) (l2 : Nat) : Pmm.State :=
  (List.range 512).foldl (fun pmm i2 =>
    if entry mem l2 i2 &&& pteP = 0 ∨ entry mem l2 i2 &&& ptePs ≠ 0 then pmm
    else freePage (destroyL1 mem pmm (entry mem l2 i2 &&& pteAddrMask))
      (entry mem l2 i2 &&& pteAddrMask)) pmm

def destroyL3 (mem : Nat → UInt8) (pmm : Pmm.State) (l3 : Nat) : Pmm.State :=
  (List.range 512).foldl (fun pmm i3 =>
    if entry mem l3 i3 &&& pteP = 0 ∨ entry mem l3 i3 &&& ptePs ≠ 0 then pmm
    else freePage (destroyL2 mem pmm (entry mem l3 i3 &&& pteAddrMask))
      (entry mem l3 i3 &&& pteAddrMask)) pmm

def destroyL4 (mem : Nat → UInt8) (pmm : Pmm.State) (l4 : Nat) : Pmm.State :=
  (List.range 256).foldl (fun pmm i4 =>
    if entry mem l4 i4 &&& pteP = 0 then pmm
    else freePage (destroyL3 mem pmm (entry mem l4 i4 &&& pteAddrMask))
      (entry mem l4 i4 &&& pteAddrMask)) pmm

/-- Frees the user-side tables and the mapped user pages (entries 0..255). -/
def destroySpace (mm : Mm) (space : Nat) : Mm :=
  { mm with pmm := freePage (destroyL4 mm.mem mm.pmm space) space }

def selftestVa : Nat := 0x40000000

/-- The checks decide only what is logged. Where `map` fails, the store through the
address faults: `none`. The tables of the walk stay behind. -/
def selftest (mm : Mm) : Option Mm :=
  let space := mm.kernelSpace
  let (pa, pmm) := allocPage mm.pmm
  match map { mm with pmm := pmm } space selftestVa pa pteRw with
  | (false, _) => none
  | (true, mm) =>
      let stored := { mm with mem := write64 mm.mem (translate mm space selftestVa) 0xDEADBEEF12345678 }
      let (_, mm) := unmap stored space selftestVa
      some { mm with pmm := freePage mm.pmm pa }

end Shizuku.Vmm
