import Shizuku.Vmm

/-!
The ELF loader of `proc/elf.rs`. The loader reads headers and segment bytes
through raw pointers into the image without a bounds check; `byte` therefore has
a value at every 64-bit offset, and what lies outside `len` is whatever the kernel
has there, taken as fixed while one image is loaded.
-/

namespace Shizuku.Elf

open ByteMemory WordMemory Pmm Vmm

structure Image where
  len : Nat
  byte : Nat → UInt8

def Image.field (image : Image) (off size : Nat) : Nat :=
  ofBytes ((List.range size).map fun i => image.byte ((off + i) % 2 ^ 64))

def ptLoad : Nat := 1
def pfX : Nat := 1
def pfW : Nat := 2

/-! `Elf64Ehdr`: the fields that the loader reads, at their offsets. -/

def ehdrSize : Nat := 64
def eType (image : Image) : Nat := image.field 16 2
def eMachine (image : Image) : Nat := image.field 18 2
def eEntry (image : Image) : Nat := image.field 24 8
def ePhoff (image : Image) : Nat := image.field 32 8
def ePhentsize (image : Image) : Nat := image.field 54 2
def ePhnum (image : Image) : Nat := image.field 56 2

/-- `Elf64Phdr` without `p_paddr` and `p_align`, which nothing reads. -/
structure Phdr where
  pType : Nat
  pFlags : Nat
  pOffset : Nat
  pVaddr : Nat
  pFilesz : Nat
  pMemsz : Nat
  deriving DecidableEq, Repr

def phdr (image : Image) (i : Nat) : Phdr :=
  let phOff := (ePhoff image + i * ePhentsize image) % 2 ^ 64
  { pType := image.field phOff 4
    pFlags := image.field (phOff + 4) 4
    pOffset := image.field (phOff + 8) 8
    pVaddr := image.field (phOff + 16) 8
    pFilesz := image.field (phOff + 32) 8
    pMemsz := image.field (phOff + 40) 8 }

/-- Long enough, magic, 64-bit little-endian, ET_EXEC for x86-64. -/
def headerOk (image : Image) : Bool :=
  decide (ehdrSize ≤ image.len) &&
    image.byte 0 == 0x7F && image.byte 1 == 69 && image.byte 2 == 76 && image.byte 3 == 70 &&
    image.byte 4 == 2 && image.byte 5 == 1 &&
    eType image == 2 && eMachine image == 62

def elfFlagsToPte (pf : Nat) : Nat :=
  let f := pteUs
  let f := if pf &&& pfW ≠ 0 then f ||| pteRw else f
  if pf &&& pfX = 0 then f ||| pteNx else f

def mapSegmentPage (mm : Mm) (space va pteFlags : Nat) : Bool × Mm :=
  let (pa, pmm) := allocPage mm.pmm
  if pa = 0 then (false, { mm with pmm := pmm })
  else map (zeroTable { mm with pmm := pmm } pa) space va pa pteFlags

def forEach {Item : Type} (body : Mm → Item → Bool × Mm) : Mm → List Item → Bool × Mm
  | mm, [] => (true, mm)
  | mm, item :: rest =>
      match body mm item with
      | (false, mm) => (false, mm)
      | (true, mm) => forEach body mm rest

/-- `x & !(PAGE_SIZE - 1)` -/
def pageDown (x : Nat) : Nat := x / pageSize * pageSize

/-- The values of `va` in the page loop of one segment; the end may wrap at 2^64. -/
def segmentPages (ph : Phdr) : List Nat :=
  let start := pageDown ph.pVaddr
  let stop := pageDown ((ph.pVaddr + ph.pMemsz + pageSize - 1) % 2 ^ 64)
  (List.range ((stop - start) / pageSize)).map fun i => start + i * pageSize

def copyOverlap (mm : Mm) (space : Nat) (image : Image) (ph : Phdr) (va : Nat) : Mm :=
  let segEnd := (ph.pVaddr + ph.pFilesz) % 2 ^ 64
  let cLo := max va ph.pVaddr
  let cHi := min ((va + pageSize) % 2 ^ 64) segEnd
  if cLo < cHi then
    let dst := translate mm space va + (cLo - va)
    let src := ph.pOffset + (cLo - ph.pVaddr)
    let bytes := (List.range (cHi - cLo)).map fun i => image.byte ((src + i) % 2 ^ 64)
    { mm with mem := blit mm.mem dst bytes }
  else mm

def loadPage (space : Nat) (image : Image) (ph : Phdr) (mm : Mm) (va : Nat) : Bool × Mm :=
  match mapSegmentPage mm space va (elfFlagsToPte ph.pFlags) with
  | (false, mm) => (false, mm)
  | (true, mm) => (true, copyOverlap mm space image ph va)

def loadSegment (space : Nat) (image : Image) (mm : Mm) (ph : Phdr) : Bool × Mm :=
  if ph.pType ≠ ptLoad ∨ ph.pMemsz = 0 then (true, mm)
  else forEach (loadPage space image ph) mm (segmentPages ph)

/-- The entry address, or 0 on failure. -/
def elfLoad (mm : Mm) (space : Nat) (image : Image) : Nat × Mm :=
  if headerOk image then
    match forEach (loadSegment space image) mm ((List.range (ePhnum image)).map (phdr image)) with
    | (false, mm) => (0, mm)
    | (true, mm) => (eEntry image, mm)
  else (0, mm)

end Shizuku.Elf
