import Shizuku.RingQueue

/-!
The virtual terminals of `vterm.rs`: a grid of characters with a write position, and a
ring of typed characters. The table has four of them, and `create` hands out the first
one that is not in use.
-/

namespace Shizuku.Terminals

open Machine RingQueue

def vtMax : Nat := 4
def vtRows : Nat := 14
def vtCols : Nat := 56
def vtInq : Nat := 128

def space : UInt8 := 32
def lineFeed : UInt8 := 10
def carriageReturn : UInt8 := 13

abbrev Grid := Nat → Nat → UInt8

/-- `inq` stands for the array together with `inq_head` and `inq_tail`. -/
structure Vterm where
  used : Bool
  grid : Grid
  row : Nat
  col : Nat
  inq : RingBuffer UInt8

def Vterm.empty : Vterm where
  used := false
  grid := fun _ _ => space
  row := 0
  col := 0
  inq := ⟨fun _ => 0, 0, 0⟩

/-- `dirtyHook` says whether the window manager has set its hook. -/
structure Vterms where
  terms : Nat → Vterm
  consoleUp : Bool
  dirtyHook : Bool

def Vterms.boot : Vterms := ⟨fun _ => .empty, false, false⟩

def Vterms.set (t : Vterms) (id : Nat) (v : Vterm) : Vterms :=
  { t with terms := fun i => if i = id then v else t.terms i }

@[simp] theorem Vterms.set_same (t : Vterms) (id : Nat) (v : Vterm) : (t.set id v).terms id = v :=
  if_pos rfl

theorem Vterms.set_other (t : Vterms) {id i : Nat} (v : Vterm) (other : i ≠ id) :
    (t.set id v).terms i = t.terms i :=
  if_neg other

def Vterms.create (t : Vterms) : Int × Vterms :=
  match (List.range vtMax).find? fun i => !(t.terms i).used with
  | none => (-1, t)
  | some i =>
      ((i : Int), { t.set i { Vterm.empty with used := true } with
        consoleUp := t.consoleUp || decide (i = 0) })

def setRow (grid : Grid) (r : Nat) (line : Nat → UInt8) : Grid :=
  fun i => if i = r then line else grid i

def shiftRow (grid : Grid) (r : Nat) : Grid := setRow grid r (grid (r + 1))

def scroll (v : Vterm) : Vterm :=
  let grid := (List.range (vtRows - 1)).foldl shiftRow v.grid
  { v with grid := setRow grid (vtRows - 1) fun _ => space, row := vtRows - 1 }

def nextRow (v : Vterm) : Vterm :=
  let v := { v with row := v.row + 1, col := 0 }
  if vtRows ≤ v.row then scroll v else v

def Vterm.store (v : Vterm) (c : UInt8) : Vterm :=
  { v with
    grid := setRow v.grid v.row fun k => if k = v.col then c else v.grid v.row k
    col := v.col + 1 }

def Vterm.put (v : Vterm) (c : UInt8) : Outcome Vterm :=
  if c = lineFeed then .ok (nextRow v)
  else do
    index vtRows v.row
    index (vtCols + 1) v.col
    let v := v.store c
    return if vtCols ≤ v.col then nextRow v else v

def Vterms.putcVt (t : Vterms) (id : Nat) (c : UInt8) : Outcome (Option Nat × Vterms) :=
  if vtMax ≤ id ∨ (t.terms id).used = false then .ok (none, t)
  else if c = carriageReturn then .ok (none, t)
  else do
    let v ← (t.terms id).put c
    return (if t.dirtyHook then some id else none, t.set id v)

def Vterms.push (t : Vterms) (id : Int) (c : UInt8) : Outcome Vterms :=
  if id < 0 ∨ vtMax ≤ id.toNat ∨ (t.terms id.toNat).used = false then .ok t
  else do
    let inq ← (t.terms id.toNat).inq.push vtInq c
    return t.set id.toNat { t.terms id.toNat with inq := inq }

def asI32 : Option UInt8 → Int
  | none => -1
  | some c => c.toNat

def Vterms.getc (t : Vterms) (id : Nat) : Outcome (Int × Vterms) :=
  if vtMax ≤ id ∨ (t.terms id).used = false then .ok (-1, t)
  else do
    let read ← (t.terms id).inq.pop vtInq
    return (asI32 read.1, t.set id { t.terms id with inq := read.2 })

def Vterms.row (t : Vterms) (id r : Nat) : Option (List UInt8) :=
  if vtMax ≤ id ∨ vtRows ≤ r then none
  else some ((List.range vtCols).map ((t.terms id).grid r))

theorem create_cases (t : Vterms) :
    t.create = (-1, t) ∨ ∃ i < vtMax, (t.terms i).used = false ∧
      t.create = ((i : Int), { t.set i { Vterm.empty with used := true } with
        consoleUp := t.consoleUp || decide (i = 0) }) := by
  unfold Vterms.create
  cases found : (List.range vtMax).find? fun i => !(t.terms i).used with
  | none => exact .inl rfl
  | some i =>
      have free := List.find?_some found
      have inside := List.mem_range.mp (List.mem_of_find?_eq_some found)
      exact .inr ⟨i, inside, by simpa using free, rfl⟩

theorem create_fresh {t after : Vterms} {id : Nat} (created : t.create = ((id : Int), after)) :
    id < vtMax ∧ after.terms id = { Vterm.empty with used := true } := by
  rcases create_cases t with full | ⟨i, inside, _, given⟩
  · rw [full, Prod.mk.injEq] at created
    omega
  · rw [given, Prod.mk.injEq, Int.natCast_inj] at created
    obtain ⟨rfl, rfl⟩ := created
    exact ⟨inside, t.set_same _ _⟩

theorem setRow_same (grid : Grid) (r : Nat) (line : Nat → UInt8) : setRow grid r line r = line :=
  if_pos rfl

theorem setRow_other (grid : Grid) {r i : Nat} (line : Nat → UInt8) (other : i ≠ r) :
    setRow grid r line i = grid i :=
  if_neg other

theorem shiftRows (grid : Grid) (n r : Nat) :
    (List.range n).foldl shiftRow grid r = if r < n then grid (r + 1) else grid r := by
  induction n generalizing r with
  | zero => rfl
  | succ n ih =>
      rw [List.range_succ, List.foldl_append]
      change setRow _ n _ r = _
      by_cases last : r = n
      · -- The row below has not been overwritten yet.
        subst r
        rw [setRow_same, ih, if_neg (by omega), if_pos (by omega)]
      · rw [setRow_other _ _ last, ih]
        by_cases below : r < n
        · rw [if_pos below, if_pos (by omega)]
        · rw [if_neg below, if_neg (by omega)]

theorem scroll_grid (v : Vterm) (r : Nat) (inside : r < vtRows) :
    (scroll v).grid r = if r + 1 < vtRows then v.grid (r + 1) else fun _ => space := by
  have rows : vtRows = 14 := rfl
  change setRow _ (vtRows - 1) _ r = _
  by_cases last : r = vtRows - 1
  · rw [last, setRow_same, if_neg (by omega)]
  · rw [setRow_other _ _ last, shiftRows, if_pos (by omega), if_pos (by omega)]

theorem nextRow_stays (v : Vterm) (room : v.row + 1 < vtRows) :
    nextRow v = { v with row := v.row + 1, col := 0 } :=
  if_neg (Nat.not_le.mpr room)

theorem nextRow_scrolls (v : Vterm) (full : vtRows ≤ v.row + 1) :
    nextRow v = scroll { v with row := v.row + 1, col := 0 } :=
  if_pos full

theorem nextRow_cursor (v : Vterm) :
    (nextRow v).row < vtRows ∧ (nextRow v).col = 0 := by
  by_cases room : v.row + 1 < vtRows
  · rw [nextRow_stays v room]
    exact ⟨room, rfl⟩
  · rw [nextRow_scrolls v (by omega)]
    exact ⟨Nat.sub_one_lt (by decide), rfl⟩

theorem nextRow_input (v : Vterm) : (nextRow v).inq = v.inq ∧ (nextRow v).used = v.used := by
  -- Output leaves the typed characters alone.
  unfold nextRow
  simp only
  split <;> exact ⟨rfl, rfl⟩

structure Vterm.Steady (v : Vterm) : Prop where
  row : v.row < vtRows
  col : v.col < vtCols

theorem put_lineFeed (v : Vterm) : v.put lineFeed = .ok (nextRow v) := rfl

theorem put_char {v : Vterm} (steady : v.Steady) {c : UInt8} (plain : c ≠ lineFeed) :
    v.put c = .ok (if vtCols ≤ (v.store c).col then nextRow (v.store c) else v.store c) := by
  have inRow := (index_ok vtRows v.row ()).mpr steady.row
  have inCol := (index_ok (vtCols + 1) v.col ()).mpr (Nat.lt_succ_of_lt steady.col)
  simp only [Vterm.put, if_neg plain, inRow, inCol, ok_bind, pure_ok]

theorem put_steady {v : Vterm} (steady : v.Steady) (c : UInt8) :
    ∃ after, v.put c = .ok after ∧ after.Steady ∧ after.inq = v.inq ∧ after.used = v.used := by
  have moved (w : Vterm) : (nextRow w).Steady := by
    obtain ⟨row, col⟩ := nextRow_cursor w
    exact ⟨row, by rw [col]; decide⟩
  by_cases broken : c = lineFeed
  · subst c
    exact ⟨nextRow v, put_lineFeed v, moved v, nextRow_input v⟩
  · refine ⟨_, put_char steady broken, ?_⟩
    split
    · exact ⟨moved _, nextRow_input (v.store c)⟩
    · rename_i room
      exact ⟨⟨steady.row, Nat.not_le.mp room⟩, rfl, rfl⟩

end Shizuku.Terminals
