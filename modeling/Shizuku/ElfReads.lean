import Shizuku.PageOwnership

/-!
What the loader reads. It takes program headers and segment bytes from raw
pointers; here are the offsets into the image that it dereferences, field by field
and byte by byte, in the order of the loops. No check compares them with the length
of the image: how far the loader gets is decided by the free memory alone.
-/

namespace Shizuku.Process

open ByteMemory WordMemory Machine Pmm Vmm Elf Sched

/-- `size` bytes from `off` on; pointer arithmetic wraps. -/
def span (off size : Nat) : List Nat := (List.range size).map fun i => (off + i) % 2 ^ 64

def phOffset (image : Image) (i : Nat) : Nat := (ePhoff image + i * ePhentsize image) % 2 ^ 64

def traceOf {Item Event : Type} (body : Mm → Item → Bool × Mm) (events : Mm → Item → List Event) :
    Mm → List Item → List Event
  | _, [] => []
  | mm, item :: rest =>
      events mm item ++
        match body mm item with
        | (false, _) => []
        | (true, mm) => traceOf body events mm rest

/-- How many rounds of a loop come before the one that fails. -/
def rounds {Item : Type} (body : Mm → Item → Bool × Mm) : Mm → List Item → Nat
  | _, [] => 0
  | mm, item :: rest =>
      match body mm item with
      | (false, _) => 0
      | (true, mm) => rounds body mm rest + 1

/-- The program headers whose turn comes, each with the number of its pages for which
there was memory. -/
def turns (mm : Mm) (space : Nat) (image : Image) : List (Nat × Nat) :=
  traceOf (fun mm i => loadSegment space image mm (phdr image i))
    (fun mm i => [(i, rounds (loadPage space image (phdr image i)) mm (headerPages (phdr image i)))]) mm
    (List.range (ePhnum image))

section Loops
variable {Item Event Mark : Type} {body : Mm → Item → Bool × Mm} {events : Mm → Item → List Event}
  (mark : Mm → Item → Mark) (mm : Mm) (items : List Item)

end Loops

section Segments
variable {space : Nat} {image : Image} {mm : Mm} {off : Nat}

end Segments

/-- How many file bytes fall into the first pages of a segment. -/
def copied (ph : Phdr) (count : Nat) : Nat :=
  min ((ph.pVaddr + ph.pFilesz) % 2 ^ 64) (pageDown ph.pVaddr + count * pageSize) - ph.pVaddr

section Copies
variable {off va : Nat} {ph : Phdr} {count : Nat} (fits : count ≤ (segmentPages ph).length)
include fits

end Copies

section Inside
variable {image : Image} {i count : Nat}

end Inside

end Shizuku.Process
