import Shizuku.ByteMemory
import Shizuku.Machine

/-!
The in-RAM filesystem of `fs/tmpfs.rs`: a fixed table of nodes and a bump
allocated byte pool. Paths are the bytes of the `&str` argument; `None` and the
`-1` of the private walkers are both `none`, the `-1` of the public calls stays
an integer. The table and the pool are total functions whose accesses carry the
bounds check of the array they stand for. Offsets, sizes and node ids are
naturals: every store to a `u32` or `u16` field follows a check that bounds it.
-/

namespace Shizuku.Tmpfs

open ByteMemory Machine

def vfsNameMax : Nat := 24
def tnMax : Nat := 192
def tnPool : Nat := 1024 * 1024

inductive VnType where
  | free | file | dir
  deriving DecidableEq, Repr

structure TNode where
  name : List UInt8
  typ : VnType
  parent : Nat
  off : Nat
  size : Nat
  deriving DecidableEq, Repr

def TNode.free : TNode := ⟨List.replicate vfsNameMax 0, .free, 0, 0, 0⟩

structure Fs where
  nodes : Nat → TNode
  pool : Nat → UInt8
  poolUsed : Nat

abbrev Path := List UInt8

def Fs.setNode (fs : Fs) (id : Nat) (node : TNode) : Fs :=
  { fs with nodes := fun key => if key = id then node else fs.nodes key }

def nodeAt (fs : Fs) (id : Nat) : Outcome TNode := do
  index tnMax id
  return fs.nodes id

def nameBytes (name : List UInt8) : List UInt8 := name.takeWhile (· != 0)

/-- What the copy-and-pad of `alloc_node` and `rename` leaves in the name field. -/
def nameField (name : List UInt8) : List UInt8 :=
  let count := min name.length (vfsNameMax - 1)
  name.take count ++ List.replicate (vfsNameMax - count) 0

/-! Path resolution. The walkers keep the unread bytes instead of an index. -/

def slash : UInt8 := 47
def dot : List UInt8 := [46]
def dotDot : List UInt8 := [46, 46]

def slots : List Nat := List.range' 1 (tnMax - 1)

def childOf (fs : Fs) (parent : Nat) (name : List UInt8) : Option Nat :=
  slots.find? fun id =>
    (fs.nodes id).typ != .free && (fs.nodes id).parent == parent &&
      nameBytes (fs.nodes id).name == name

def skipSlashes (bytes : List UInt8) : List UInt8 := bytes.dropWhile (· == slash)

def component (bytes : List UInt8) : List UInt8 := bytes.takeWhile (· != slash)

def afterComponent (bytes : List UInt8) : List UInt8 := bytes.dropWhile (· != slash)

theorem skipSlashes_length (bytes : List UInt8) : (skipSlashes bytes).length ≤ bytes.length :=
  (List.dropWhile_sublist _).length_le

theorem afterComponent_length (bytes : List UInt8) (present : skipSlashes bytes ≠ []) :
    (afterComponent (skipSlashes bytes)).length < bytes.length := by
  -- What follows a component is shorter, since the component is not empty.
  have shorter := skipSlashes_length bytes
  cases rest : skipSlashes bytes with
  | nil => exact absurd rest present
  | cons byte tail =>
      have head := List.head_dropWhile_not (· == slash) present
      have notSlash : (byte == slash) = false := by
        simpa [skipSlashes, show bytes.dropWhile (· == slash) = byte :: tail from rest] using head
      have drops : afterComponent (byte :: tail) = afterComponent tail := by
        simp [afterComponent, bne, notSlash]
      have tailLength : (afterComponent tail).length ≤ tail.length :=
        (List.dropWhile_sublist _).length_le
      rw [rest] at shorter
      rw [drops]
      simp only [List.length_cons] at shorter
      omega

def resolveFrom (fs : Fs) (cur : Nat) (bytes : List UInt8) : Outcome (Option Nat) :=
  if stop : skipSlashes bytes = [] then .ok (some cur)
  else
    let comp := component (skipSlashes bytes)
    let rest := afterComponent (skipSlashes bytes)
    have : (afterComponent (skipSlashes bytes)).length < bytes.length :=
      afterComponent_length bytes stop
    if comp = dot then resolveFrom fs cur rest
    else if comp = dotDot then
      if cur ≠ 0 then do
        let node ← nodeAt fs cur
        resolveFrom fs node.parent rest
      else resolveFrom fs cur rest
    else if vfsNameMax ≤ comp.length then .ok none
    else do
      let node ← nodeAt fs cur
      if node.typ ≠ .dir then .ok none
      else
        match childOf fs cur comp with
        | none => .ok none
        | some next => resolveFrom fs next rest
termination_by bytes.length

def resolve (fs : Fs) (path : Path) : Outcome (Option Nat) :=
  match path with
  | [] => .ok none
  | first :: bytes => if first ≠ slash then .ok none else resolveFrom fs 0 bytes

/-- The source pads the leaf to `[u8; VFS_NAME_MAX]` and returns its length; the
callers only use that prefix, which is the component itself. -/
def resolveParentFrom (fs : Fs) (cur : Nat) (bytes : List UInt8) :
    Outcome (Option (Nat × List UInt8)) :=
  if stop : skipSlashes bytes = [] then .ok none
  else
    let comp := component (skipSlashes bytes)
    let rest := skipSlashes (afterComponent (skipSlashes bytes))
    have : (skipSlashes (afterComponent (skipSlashes bytes))).length < bytes.length :=
      Nat.lt_of_le_of_lt (skipSlashes_length _) (afterComponent_length bytes stop)
    if rest = [] then
      if comp = [] ∨ vfsNameMax ≤ comp.length then .ok none
      else if comp = dot ∨ comp = dotDot then .ok none
      else .ok (some (cur, comp))
    else if comp = dot then resolveParentFrom fs cur rest
    else if comp = dotDot then
      if cur ≠ 0 then do
        let node ← nodeAt fs cur
        resolveParentFrom fs node.parent rest
      else resolveParentFrom fs cur rest
    else if vfsNameMax ≤ comp.length then .ok none
    else do
      let node ← nodeAt fs cur
      if node.typ ≠ .dir then .ok none
      else
        match childOf fs cur comp with
        | none => .ok none
        | some next => resolveParentFrom fs next rest
termination_by bytes.length

def resolveParent (fs : Fs) (path : Path) : Outcome (Option (Nat × List UInt8)) :=
  match path with
  | [] => .ok none
  | first :: bytes => if first ≠ slash then .ok none else resolveParentFrom fs 0 bytes

def freeSlot (fs : Fs) : Option Nat := slots.find? fun id => (fs.nodes id).typ == .free

def Fs.attach (fs : Fs) (id parent : Nat) (name : List UInt8) (typ : VnType) : Fs :=
  fs.setNode id
    { name := nameField name
      typ := if typ = .file then .file else .dir
      parent := parent
      off := fs.poolUsed
      size := 0 }

def allocNode (fs : Fs) (parent : Nat) (name : List UInt8) (typ : VnType) : Option Nat × Fs :=
  match freeSlot fs with
  | none => (none, fs)
  | some id => (some id, fs.attach id parent name typ)

/-! Public API. -/

def init (fs : Fs) : Fs :=
  { fs with
    nodes := fun id => if id = 0 then { TNode.free with typ := .dir } else TNode.free
    poolUsed := 0 }

def mkdir (fs : Fs) (path : Path) : Outcome (Int × Fs) := do
  match ← resolveParent fs path with
  | none => return (-1, fs)
  | some (parent, leaf) =>
      if (childOf fs parent leaf).isSome then return (-1, fs)
      else
        match allocNode fs parent leaf .dir with
        | (none, after) => return (-1, after)
        | (some _, after) => return (0, after)

def Fs.place (fs : Fs) (id : Nat) (data : List UInt8) : Fs :=
  { fs.setNode id { fs.nodes id with off := fs.poolUsed, size := data.length } with
    pool := blit fs.pool fs.poolUsed data
    poolUsed := fs.poolUsed + data.length }

def storeFile (fs : Fs) (id : Nat) (data : List UInt8) : Outcome (Int × Fs) :=
  if fs.poolUsed + data.length > tnPool then .ok (-1, fs)
  else do
    range tnPool fs.poolUsed (fs.poolUsed + data.length)
    index tnMax id
    return (id, fs.place id data)

def create (fs : Fs) (path : Path) (data : List UInt8) : Outcome (Int × Fs) := do
  match ← resolveParent fs path with
  | none => return (-1, fs)
  | some (parent, leaf) =>
      match childOf fs parent leaf with
      | none =>
          match allocNode fs parent leaf .file with
          | (none, after) => return (-1, after)
          | (some id, after) => storeFile after id data
      | some id =>
          let node ← nodeAt fs id
          if node.typ ≠ .file then return (-1, fs) else storeFile fs id data

/-- The pool bytes leak, and the slot keeps its parent, offset and size. -/
def Fs.detach (fs : Fs) (id : Nat) : Fs :=
  fs.setNode id { fs.nodes id with typ := .free }

def unlink (fs : Fs) (path : Path) : Outcome (Int × Fs) := do
  match ← resolve fs path with
  | none => return (-1, fs)
  | some id =>
      if id = 0 then return (-1, fs)
      else
        let node ← nodeAt fs id
        if node.typ ≠ .file then return (-1, fs) else return (0, fs.detach id)

def Fs.move (fs : Fs) (id parent : Nat) (name : List UInt8) : Fs :=
  fs.setNode id { fs.nodes id with parent := parent, name := nameField name }

def rename (fs : Fs) (oldp newp : Path) : Outcome (Int × Fs) := do
  match ← resolve fs oldp with
  | none => return (-1, fs)
  | some id =>
      if id = 0 then return (-1, fs)
      else
        match ← resolveParent fs newp with
        | none => return (-1, fs)
        | some (parent, leaf) =>
            if (childOf fs parent leaf).isSome then return (-1, fs)
            else
              index tnMax id
              return (0, fs.move id parent leaf)

def fileNode (fs : Fs) (id : Int) : Option TNode :=
  if id ≤ 0 ∨ tnMax ≤ id.toNat then none
  else if (fs.nodes id.toNat).typ ≠ .file then none
  else some (fs.nodes id.toNat)

/-- The return value and the bytes stored at the front of the caller's buffer of
`bufLen` bytes. The `usize` sums wrap, as the release build computes them. -/
def nodeRead (fs : Fs) (id : Int) (off bufLen : Nat) : Outcome (Int × List UInt8) :=
  match fileNode fs id with
  | none => .ok (-1, [])
  | some node =>
      if off > node.size then .ok (0, [])
      else do
        let len := if (off + bufLen) % 2 ^ 64 > node.size then node.size - off else bufLen
        range tnPool ((node.off + off) % 2 ^ 64) ((node.off + off + len) % 2 ^ 64)
        return (len, slice fs.pool (node.off + off) len)

def Fs.relocate (fs : Fs) (id need : Nat) : Fs :=
  { fs.setNode id { fs.nodes id with off := fs.poolUsed, size := need } with
    pool := blit fs.pool fs.poolUsed (slice fs.pool (fs.nodes id).off (fs.nodes id).size)
    poolUsed := fs.poolUsed + need }

def Fs.overwrite (fs : Fs) (id off : Nat) (buf : List UInt8) : Fs :=
  { fs with pool := blit fs.pool ((fs.nodes id).off + off) buf }

def storeAt (fs : Fs) (id off : Nat) (buf : List UInt8) : Outcome (Int × Fs) := do
  range tnPool ((fs.nodes id).off + off) ((fs.nodes id).off + off + buf.length)
  return (buf.length, fs.overwrite id off buf)

/-- No sparse files: `off` must not lie beyond the end. A write that extends the
file moves it to the pool top first. -/
def nodeWrite (fs : Fs) (id : Int) (off : Nat) (buf : List UInt8) : Outcome (Int × Fs) :=
  match fileNode fs id with
  | none => .ok (-1, fs)
  | some node =>
      if off > node.size then .ok (-1, fs)
      else
        let need := off + buf.length
        if need > node.size then
          if fs.poolUsed + need > tnPool then .ok (-1, fs)
          else do
            range tnPool node.off (node.off + node.size)
            range tnPool fs.poolUsed (fs.poolUsed + node.size)
            storeAt (fs.relocate id.toNat need) id.toNat off buf
        else storeAt fs id.toNat off buf

def lookup (fs : Fs) (path : Path) : Outcome Int := do
  match ← resolve fs path with
  | none => return -1
  | some id => return id

def nodeType (fs : Fs) (id : Int) : VnType :=
  if id < 0 ∨ tnMax ≤ id.toNat then .free else (fs.nodes id.toNat).typ

def pathType (fs : Fs) (path : Path) : Outcome VnType := do
  match ← resolve fs path with
  | none => return .free
  | some id =>
      let node ← nodeAt fs id
      return node.typ

def pathSize (fs : Fs) (path : Path) : Outcome Int := do
  match ← resolve fs path with
  | none => return -1
  | some id =>
      let node ← nodeAt fs id
      if node.typ ≠ .file then return -1 else return node.size

def readPath (fs : Fs) (path : Path) (off bufLen : Nat) : Outcome (Int × List UInt8) := do
  let id ← lookup fs path
  nodeRead fs id off bufLen

end Shizuku.Tmpfs
