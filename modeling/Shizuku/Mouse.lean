import Shizuku.Surface

/-!
The PS/2 mouse of `gui/mouse.rs`. The interrupt handler takes one byte at a time and moves
the pointer after every third. The protocol has nine bits for each movement, the ninth
being a sign bit in the first byte; the handler takes the eighth for the sign.
-/

namespace Shizuku.Gui

structure Mouse where
  x : Int
  y : Int
  buttons : UInt8
  cycle : UInt8
  packet : Nat → UInt8

def asI8 (b : UInt8) : Int := if b.toNat < 128 then b.toNat else b.toNat - 256

/-- Below zero first, then past the size, which is a `u32` taken for an `i32`. -/
def keepOn (size : Nat) (z : Int) : Int :=
  let z := if z < 0 then 0 else z
  if i32 size ≤ z then i32 (i32 size - 1) else z

def irqHandler (w h : Nat) (m : Mouse) (b : UInt8) : Mouse :=
  let idx := m.cycle.toNat % 3
  let packet := fun i => if i = idx then b else m.packet i
  if idx = 0 ∧ b &&& 0x08 = 0 then { m with packet := packet, cycle := 0 }
  else
    let cycle := m.cycle + 1
    if cycle < 3 then { m with packet := packet, cycle := cycle }
    else
      let dx := if packet 0 &&& 0x40 ≠ 0 then 0 else asI8 (packet 1)
      let dy := if packet 0 &&& 0x80 ≠ 0 then 0 else asI8 (packet 2)
      { x := keepOn w (i32 (m.x + dx))
        y := keepOn h (i32 (m.y - dy))
        buttons := packet 0 &&& 0x07
        cycle := 0
        packet := packet }

structure Packet where
  flags : UInt8
  dx : UInt8
  dy : UInt8

def Packet.bytes (p : Packet) : List UInt8 := [p.flags, p.dx, p.dy]

def nineBits (sign : Prop) [Decidable sign] (low : UInt8) : Int :=
  if sign then low.toNat - 256 else low.toNat

def Packet.right (p : Packet) : Int :=
  if p.flags &&& 0x40 ≠ 0 then 0 else nineBits (p.flags &&& 0x10 ≠ 0) p.dx

def Packet.up (p : Packet) : Int :=
  if p.flags &&& 0x80 ≠ 0 then 0 else nineBits (p.flags &&& 0x20 ≠ 0) p.dy

structure Pointer where
  x : Int
  y : Int
  buttons : UInt8
  deriving DecidableEq

def Mouse.pointer (m : Mouse) : Pointer := ⟨m.x, m.y, m.buttons⟩

def onScreen (size : Nat) (z : Int) : Int := max 0 (min z (size - 1))

def Pointer.move (w h : Nat) (at_ : Pointer) (p : Packet) : Pointer where
  x := onScreen w (at_.x + p.right)
  y := onScreen h (at_.y - p.up)
  buttons := p.flags &&& 0x07

structure Readings (read true_ : Int) : Prop where
  low : -128 ≤ read ∧ -256 ≤ true_
  high : read ≤ 128 ∧ true_ ≤ 256
  signs : read = true_ ∨ (read ≤ 0 ∧ 0 < true_) ∨ (true_ < 0 ∧ 0 ≤ read)

structure Exact (size : Nat) (read true_ : Int) : Prop where
  small : size < 2 ^ 31
  sum : (size : Int) - 1 + true_ < 2 ^ 31
  same : size = 1 ∨ read = true_

instance (size : Nat) (read true_ : Int) : Decidable (Exact size read true_) :=
  decidable_of_iff (size < 2 ^ 31 ∧ (size : Int) - 1 + true_ < 2 ^ 31 ∧ (size = 1 ∨ read = true_))
    ⟨fun ⟨one, two, three⟩ => ⟨one, two, three⟩, fun ⟨one, two, three⟩ => ⟨one, two, three⟩⟩

section Axis
variable {size : Nat} {read true_ start : Int}

theorem keepOn_eq (positive : 1 ≤ size) (small : size < 2 ^ 31) (z : Int) :
    keepOn size z = onScreen size z := by
  unfold keepOn onScreen
  rw [i32_eq (by omega) (by omega), i32_eq (by omega) (by omega)]
  simp only
  split <;> split <;> omega

theorem Exact.agrees (fits : Exact size read true_) (positive : 1 ≤ size)
    (readings : Readings read true_) (low : 0 ≤ start) (high : start < size ∨ start ≤ 640) :
    keepOn size (i32 (start + read)) = onScreen size (start + true_) := by
  obtain ⟨small, sum, same⟩ := fits
  have above := readings.high
  have below := readings.low
  rw [keepOn_eq positive small]
  rcases same with one | same
  · unfold onScreen
    omega
  · rw [same, i32_eq (by omega) (by omega)]

theorem exact_of_agrees (positive : 1 ≤ size) (bounded : size < 2 ^ 32)
    (readings : Readings read true_)
    (first : keepOn size (i32 (0 + read)) = onScreen size (0 + true_))
    (last : keepOn size (i32 (size - 1 + read)) = onScreen size (size - 1 + true_)) :
    Exact size read true_ := by
  -- Where the handler goes wrong, if it does: at one end of the screen.
  obtain ⟨below, above, signs⟩ := readings
  have small : size < 2 ^ 31 := by
    -- A size from 2^31 on is negative as an `i32`, and then the clamp moves even position 0.
    by_contra large
    unfold keepOn onScreen i32 at first
    simp only at first
    split at first <;> split at first <;> omega
  rw [keepOn_eq positive small, i32_eq (by omega) (by omega)] at first
  rw [keepOn_eq positive small] at last
  unfold onScreen i32 at *
  exact ⟨small, by omega, by omega⟩

end Axis

def Packet.readRight (p : Packet) : Int := if p.flags &&& 0x40 ≠ 0 then 0 else asI8 p.dx

def Packet.readUp (p : Packet) : Int := if p.flags &&& 0x80 ≠ 0 then 0 else asI8 p.dy

def Packet.Synced (p : Packet) : Prop := p.flags &&& 0x08 ≠ 0

theorem irqHandler_packet (w h : Nat) {m : Mouse} (ready : m.cycle = 0) {p : Packet}
    (synced : p.Synced) :
    (p.bytes.foldl (irqHandler w h) m).cycle = 0 ∧
      (p.bytes.foldl (irqHandler w h) m).pointer =
        ⟨keepOn w (i32 (m.x + p.readRight)), keepOn h (i32 (m.y - p.readUp)), p.flags &&& 0x07⟩ := by
  obtain ⟨x, y, buttons, cycle, packet⟩ := m
  obtain ⟨flags, dx, dy⟩ := p
  simp only at ready
  subst ready
  simp only [Packet.Synced] at synced
  have first : irqHandler w h ⟨x, y, buttons, 0, packet⟩ flags =
      ⟨x, y, buttons, 1, fun i => if i = 0 then flags else packet i⟩ := by
    simp [irqHandler, synced]
  have second (packet : Nat → UInt8) : irqHandler w h ⟨x, y, buttons, 1, packet⟩ dx =
      ⟨x, y, buttons, 2, fun i => if i = 1 then dx else packet i⟩ := by
    simp [irqHandler]
  simp only [Packet.bytes, List.foldl_cons, List.foldl_nil, first, second]
  constructor <;> simp [irqHandler, Mouse.pointer, Packet.readRight, Packet.readUp]

section Movement
variable (over_ sign : Prop) [Decidable over_] [Decidable sign] (b : UInt8)

theorem asI8_readings :
    Readings (if over_ then 0 else asI8 b) (if over_ then 0 else nineBits sign b) := by
  have byte := b.toNat_lt
  by_cases dropped : over_
  · simp only [dropped, if_true]
    exact ⟨by decide, by decide, .inl rfl⟩
  · simp only [dropped, if_false]
    unfold asI8 nineBits
    constructor <;> split <;> split <;> omega

theorem asI8_eq_iff : (if over_ then 0 else asI8 b) = (if over_ then 0 else nineBits sign b) ↔
    over_ ∨ (sign ↔ 128 ≤ b.toNat) := by
  have byte := b.toNat_lt
  by_cases dropped : over_
  · simp [dropped]
  · simp only [dropped, if_false, false_or]
    unfold asI8 nineBits
    by_cases set_ : sign
    · simp only [set_, if_true, true_iff]
      split <;> omega
    · simp only [set_, if_false, false_iff]
      split <;> omega

end Movement

theorem Readings.neg {read true_ : Int} (readings : Readings read true_) :
    Readings (-read) (-true_) := by
  obtain ⟨below, above, signs⟩ := readings
  exact ⟨by omega, by omega, by omega⟩

theorem right_readings (p : Packet) : Readings p.readRight p.right := asI8_readings _ _ _

theorem up_readings (p : Packet) : Readings p.readUp p.up := asI8_readings _ _ _

/-- The packets that are read as they are meant: unless the screen is a line, the sign bit
is the highest bit of the movement or the overflow bit is set. On screens close to the
limits of `i32` the sums have to stay in range. -/
structure Decodable (w h : Nat) (p : Packet) : Prop where
  wide : w < 2 ^ 31
  tall : h < 2 ^ 31
  across : (w : Int) - 1 + p.right < 2 ^ 31
  down : (h : Int) - 1 - p.up < 2 ^ 31
  right : w = 1 ∨ p.flags &&& 0x40 ≠ 0 ∨ (p.flags &&& 0x10 ≠ 0 ↔ 128 ≤ p.dx.toNat)
  up : h = 1 ∨ p.flags &&& 0x80 ≠ 0 ∨ (p.flags &&& 0x20 ≠ 0 ↔ 128 ≤ p.dy.toNat)

theorem readRight_eq_iff (p : Packet) : p.readRight = p.right ↔
    p.flags &&& 0x40 ≠ 0 ∨ (p.flags &&& 0x10 ≠ 0 ↔ 128 ≤ p.dx.toNat) :=
  asI8_eq_iff _ _ _

theorem readUp_eq_iff (p : Packet) : p.readUp = p.up ↔
    p.flags &&& 0x80 ≠ 0 ∨ (p.flags &&& 0x20 ≠ 0 ↔ 128 ≤ p.dy.toNat) :=
  asI8_eq_iff _ _ _

theorem decodable_iff (w h : Nat) (p : Packet) :
    Decodable w h p ↔ Exact w p.readRight p.right ∧ Exact h (-p.readUp) (-p.up) := by
  have mirrored : -p.readUp = -p.up ↔ p.readUp = p.up := neg_inj
  constructor
  · rintro ⟨wide, tall, across, down, right, up⟩
    refine ⟨⟨wide, across, right.imp_right (readRight_eq_iff p).mpr⟩, tall, by omega, ?_⟩
    rw [mirrored]
    exact up.imp_right (readUp_eq_iff p).mpr
  · rintro ⟨⟨wide, across, right⟩, tall, down, up⟩
    rw [mirrored] at up
    exact ⟨wide, tall, across, by omega, right.imp_right (readRight_eq_iff p).mp,
      up.imp_right (readUp_eq_iff p).mp⟩

/-! ### Streams -/

/-- Between packets, where the driver may have put the pointer: on the screen, or at most
at the position that `init` sets. -/
structure Resting (w h : Nat) (m : Mouse) : Prop where
  ready : m.cycle = 0
  x : 0 ≤ m.x ∧ (m.x < w ∨ m.x ≤ 640)
  y : 0 ≤ m.y ∧ (m.y < h ∨ m.y ≤ 400)

theorem onScreen_range {size : Nat} (positive : 1 ≤ size) (z : Int) :
    0 ≤ onScreen size z ∧ onScreen size z < size := by
  unfold onScreen
  omega

section Screen
variable {w h : Nat} (wide : 1 ≤ w ∧ w < 2 ^ 32) (tall : 1 ≤ h ∧ h < 2 ^ 32)
include wide tall

theorem Decodable.moves {m : Mouse} (resting : Resting w h m) {p : Packet} (synced : p.Synced)
    (decodable : Decodable w h p) :
    (p.bytes.foldl (irqHandler w h) m).pointer = m.pointer.move w h p ∧
      Resting w h (p.bytes.foldl (irqHandler w h) m) := by
  obtain ⟨ready, moved⟩ := irqHandler_packet w h resting.ready synced
  obtain ⟨across, down⟩ := (decodable_iff w h p).mp decodable
  have x := across.agrees wide.1 (right_readings p) resting.x.1 resting.x.2
  have y := down.agrees tall.1 (up_readings p).neg resting.y.1 (resting.y.2.imp_right (by omega))
  have same : (p.bytes.foldl (irqHandler w h) m).pointer = m.pointer.move w h p := by
    rw [moved, x, Int.sub_eq_add_neg, y]
    rfl
  have atX := congrArg Pointer.x same
  have atY := congrArg Pointer.y same
  simp only [Mouse.pointer, Pointer.move] at atX atY
  refine ⟨same, ready, ?_, ?_⟩
  · rw [atX]
    exact ⟨(onScreen_range wide.1 _).1, .inl (onScreen_range wide.1 _).2⟩
  · rw [atY]
    exact ⟨(onScreen_range tall.1 _).1, .inl (onScreen_range tall.1 _).2⟩

theorem stream_moves (stream : List Packet) {m : Mouse} (resting : Resting w h m)
    (each : ∀ p ∈ stream, p.Synced ∧ Decodable w h p) :
    ((stream.flatMap Packet.bytes).foldl (irqHandler w h) m).pointer =
      stream.foldl (Pointer.move w h) m.pointer := by
  induction stream generalizing m with
  | nil => rfl
  | cons p stream ih =>
      obtain ⟨synced, decodable⟩ := each p List.mem_cons_self
      obtain ⟨same, next⟩ := decodable.moves wide tall resting synced
      rw [List.flatMap_cons, List.foldl_append, List.foldl_cons, ← same]
      exact ih next fun later member => each later (List.mem_cons_of_mem _ member)

theorem decodable_of_moves {p : Packet} (synced : p.Synced)
    (moves : ∀ m, Resting w h m →
      (p.bytes.foldl (irqHandler w h) m).pointer = m.pointer.move w h p) : Decodable w h p := by
  -- The corners of the screen are enough to tell the readings apart.
  have at_ (x y : Int) (inX : 0 ≤ x ∧ x < w) (inY : 0 ≤ y ∧ y < h) :
      keepOn w (i32 (x + p.readRight)) = onScreen w (x + p.right) ∧
        keepOn h (i32 (y + -p.readUp)) = onScreen h (y + -p.up) := by
    have resting : Resting w h ⟨x, y, 0, 0, fun _ => 0⟩ :=
      ⟨rfl, ⟨inX.1, .inl inX.2⟩, inY.1, .inl inY.2⟩
    have same := (irqHandler_packet w h resting.ready synced).2.symm.trans (moves _ resting)
    exact ⟨congrArg Pointer.x same, congrArg Pointer.y same⟩
  obtain ⟨left, top⟩ := at_ 0 0 (by omega) (by omega)
  obtain ⟨right, bottom⟩ := at_ (w - 1) (h - 1) (by omega) (by omega)
  exact (decodable_iff w h p).mpr ⟨exact_of_agrees wide.1 wide.2 (right_readings p) left right,
    exact_of_agrees tall.1 tall.2 (up_readings p).neg top bottom⟩

end Screen

/-- On any screen: all streams made of some packets move the pointer as the protocol says,
from every position, exactly if each of these packets is decodable. -/
theorem mouse_streams_iff (w h : Nat) (wide : 1 ≤ w ∧ w < 2 ^ 32) (tall : 1 ≤ h ∧ h < 2 ^ 32)
    (packets : List Packet) (synced : ∀ p ∈ packets, p.Synced) :
    (∀ (stream : List Packet) (m : Mouse), (∀ p ∈ stream, p ∈ packets) → Resting w h m →
      ((stream.flatMap Packet.bytes).foldl (irqHandler w h) m).pointer =
        stream.foldl (Pointer.move w h) m.pointer) ↔
    ∀ p ∈ packets, Decodable w h p := by
  constructor
  · intro moves p member
    apply decodable_of_moves wide tall (synced p member)
    intro m resting
    have single := moves [p] m (fun q listed => List.mem_singleton.mp listed ▸ member) resting
    simpa using single
  · intro decodable stream m listed resting
    exact stream_moves wide tall stream resting fun p member =>
      ⟨synced p (listed p member), decodable p (listed p member)⟩

theorem mouse_streams_iff_slow :
    (([⟨0x08, 20, 5⟩, ⟨0x18, 251, 0⟩].flatMap Packet.bytes).foldl (irqHandler 1280 800)
        ⟨640, 400, 0, 0, fun _ => 0⟩).pointer =
      [⟨0x08, 20, 5⟩, ⟨0x18, 251, 0⟩].foldl (Pointer.move 1280 800) ⟨640, 400, 0⟩ := by
  have decodable : ∀ p ∈ [(⟨0x08, 20, 5⟩ : Packet), ⟨0x18, 251, 0⟩], Decodable 1280 800 p := by
    simp only [List.mem_cons, List.not_mem_nil, or_false, forall_eq_or_imp, forall_eq]
    constructor <;> constructor <;> decide
  have synced : ∀ p ∈ [(⟨0x08, 20, 5⟩ : Packet), ⟨0x18, 251, 0⟩], p.Synced := by
    simp only [List.mem_cons, List.not_mem_nil, or_false, forall_eq_or_imp, forall_eq, Packet.Synced]
    decide
  have resting : Resting 1280 800 ⟨640, 400, 0, 0, fun _ => 0⟩ := ⟨rfl, by decide, by decide⟩
  exact (mouse_streams_iff 1280 800 (by decide) (by decide) _ synced).mpr decodable _ _
    (fun _ member => member) resting

/-- A movement by 200 counts to the right goes 56 to the left. -/
theorem fast_movement_goes_back :
    (⟨0x08, 200, 0⟩ : Packet).Synced ∧ Resting 1280 800 ⟨640, 400, 0, 0, fun _ => 0⟩ ∧
    ((Packet.bytes ⟨0x08, 200, 0⟩).foldl (irqHandler 1280 800) ⟨640, 400, 0, 0, fun _ => 0⟩).pointer =
      ⟨584, 400, 0⟩ ∧
    Pointer.move 1280 800 ⟨640, 400, 0⟩ ⟨0x08, 200, 0⟩ = ⟨840, 400, 0⟩ := by
  refine ⟨by unfold Packet.Synced; decide, ?_, by decide, by decide⟩
  exact ⟨rfl, by decide, by decide⟩

end Shizuku.Gui
