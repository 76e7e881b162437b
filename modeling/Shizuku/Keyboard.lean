import Shizuku.Vterm

/-!
The keyboard of `kbd.rs` together with the terminals it may type into. A scancode of set 1
becomes a character, which goes to the terminal that has the keyboard or, without one, to
the kernel's own ring. The serial console injects characters into the same ring.
-/

namespace Shizuku.Terminals

open Machine RingQueue

def kbdBuf : Nat := 128

/-- The entries from 64 on are zero, and no scancode selects them. -/
def unshifted : List UInt8 :=
  [0, 27, 49, 50, 51, 52, 53, 54, 55, 56, 57, 48, 45, 61, 8, 9, 113, 119, 101, 114, 116, 121,
   117, 105, 111, 112, 91, 93, 10, 0, 97, 115, 100, 102, 103, 104, 106, 107, 108, 59, 39, 96,
   0, 92, 122, 120, 99, 118, 98, 110, 109, 44, 46, 47, 0, 42, 0, 32, 0, 0, 0, 0, 0, 0]

def shifted : List UInt8 :=
  [0, 27, 33, 64, 35, 36, 37, 94, 38, 42, 40, 41, 95, 43, 8, 9, 81, 87, 69, 82, 84, 89, 85,
   73, 79, 80, 123, 125, 10, 0, 65, 83, 68, 70, 71, 72, 74, 75, 76, 58, 34, 126, 0, 124, 90,
   88, 67, 86, 66, 78, 77, 60, 62, 63, 0, 42, 0, 32, 0, 0, 0, 0, 0, 0]

inductive Key where
  | shift (down : Bool)
  | ignored
  | function (number : Int)
  | char (c : UInt8)
  deriving DecidableEq

def decodeKey (shift : Bool) (sc : UInt8) : Key :=
  if sc = 0x2A ∨ sc = 0x36 then .shift true
  else if sc = 0xAA ∨ sc = 0xB6 then .shift false
  else if sc &&& 0x80 ≠ 0 then .ignored
  else if 128 ≤ sc.toNat then .ignored
  else if sc = 0x3B then .function 1
  else
    let idx := sc.toNat
    let c := if idx < 64 then (if shift then shifted else unshifted).getD idx 0 else 0
    if c = 0 then .ignored else .char c

/-- The statics of the two modules. `buf` stands for the array with `HEAD` and `TAIL`, and
`fnHook` says whether a hook for function keys is set. -/
structure Console where
  vt : Vterms
  buf : RingBuffer UInt8
  shift : Bool
  routeVt : Int
  fnHook : Bool

def Console.boot : Console where
  vt := .boot
  buf := ⟨fun _ => 0, 0, 0⟩
  shift := false
  routeVt := -1
  fnHook := false

def pushChar (s : Console) (c : UInt8) : Outcome Console := do
  let buf ← s.buf.push kbdBuf c
  return { s with buf := buf }

def getchar (s : Console) : Outcome (Int × Console) := do
  let read ← s.buf.pop kbdBuf
  return (asI32 read.1, { s with buf := read.2 })

def kbdOnScancode (s : Console) (sc : UInt8) : Outcome (Option Int × Console) :=
  match decodeKey s.shift sc with
  | .shift down => .ok (none, { s with shift := down })
  | .ignored => .ok (none, s)
  | .function number => .ok (if s.fnHook then some number else none, s)
  | .char c =>
      if 0 ≤ s.routeVt then do
        let vt ← s.vt.push s.routeVt c
        return (none, { s with vt := vt })
      else do
        -- The source repeats the body of `push_char` here.
        let next ← pushChar s c
        return (none, next)

/-- `route` is the window manager giving the keyboard to a terminal, and `hooks` its
initialisation. -/
inductive Op where
  | create
  | putc (id : Nat) (c : UInt8)
  | push (id : Int) (c : UInt8)
  | getc (id : Nat)
  | scancode (sc : UInt8)
  | getchar
  | pushChar (c : UInt8)
  | route (vt : Int)
  | hooks

def step (s : Console) : Op → Outcome (Int × Console)
  | .create => .ok (s.vt.create.1, { s with vt := s.vt.create.2 })
  | .putc id c => do
      let put ← s.vt.putcVt id c
      return (0, { s with vt := put.2 })
  | .push id c => do
      let vt ← s.vt.push id c
      return (0, { s with vt := vt })
  | .getc id => do
      let read ← s.vt.getc id
      return (read.1, { s with vt := read.2 })
  | .scancode sc => do
      let typed ← kbdOnScancode s sc
      return (0, typed.2)
  | .getchar => Terminals.getchar s
  | .pushChar c => do
      let next ← Terminals.pushChar s c
      return (0, next)
  | .route vt => .ok (0, { s with routeVt := vt })
  | .hooks => .ok (0, { s with vt := { s.vt with dirtyHook := true }, fnHook := true })

inductive Port where
  | kernel
  | vterm (id : Nat)
  deriving DecidableEq

def Console.ring (s : Console) : Port → RingBuffer UInt8
  | .kernel => s.buf
  | .vterm id => (s.vt.terms id).inq

def Console.Live (s : Console) : Port → Prop
  | .kernel => True
  | .vterm id => id < vtMax ∧ (s.vt.terms id).used = true

def Console.target (s : Console) : Port :=
  if 0 ≤ s.routeVt then .vterm s.routeVt.toNat else .kernel

def offered (s : Console) (op : Op) (port : Port) : Option UInt8 :=
  match op with
  | .push id c => if 0 ≤ id ∧ port = .vterm id.toNat then some c else none
  | .pushChar c => if port = .kernel then some c else none
  | .scancode sc =>
      match decodeKey s.shift sc with
      | .char c => if port = s.target then some c else none
      | _ => none
  | _ => none

def readsFrom (op : Op) (port : Port) : Bool :=
  match op with
  | .getc id => decide (port = .vterm id)
  | .getchar => decide (port = .kernel)
  | _ => false

end Shizuku.Terminals
