import Mathlib.Data.List.GetD
import Shizuku.Vterm

/-!
What a terminal shows. The text is laid out in rows without any bound on their number;
the grid has the last fourteen of them. The row that is being written counts, even while
it is empty.
-/

namespace Shizuku.Terminals

open Machine

/-- A row ends at a break, or as soon as it has `width` characters; `row` is what the
current one has so far. -/
def layOut {Char : Type} [DecidableEq Char] (width : Nat) (stop : Char) (row : List Char) :
    List Char → List (List Char)
  | [] => [row]
  | c :: text =>
      if c = stop then row :: layOut width stop [] text
      else if row.length + 1 < width then layOut width stop (row ++ [c]) text
      else (row ++ [c]) :: layOut width stop [] text

def textRows (bytes : List UInt8) : List (List UInt8) :=
  layOut vtCols lineFeed [] (bytes.filter (· ≠ carriageReturn))

def lastRows (rows : List (List UInt8)) : List (List UInt8) := rows.drop (rows.length - vtRows)

def padRow (row : List UInt8) : List UInt8 := row ++ List.replicate (vtCols - row.length) space

def Vterms.write (t : Vterms) (id : Nat) : List UInt8 → Outcome Vterms
  | [] => .ok t
  | c :: bytes => do
      let put ← t.putcVt id c
      put.2.write id bytes

def cellOf (rows : List (List UInt8)) (r k : Nat) : UInt8 :=
  (rows.getD (rows.length - vtRows + r) []).getD k space

structure Drawn (v : Vterm) (rows : List (List UInt8)) : Prop where
  row : v.row = min (rows.length - 1) (vtRows - 1)
  cells : ∀ r < vtRows, ∀ k < vtCols, v.grid r k = cellOf rows r k

theorem cellOf_blank {rows : List (List UInt8)} {r : Nat} (k : Nat)
    (outside : rows.length ≤ rows.length - vtRows + r) : cellOf rows r k = space := by
  unfold cellOf
  rw [List.getD_eq_default _ _ outside]
  rfl

theorem cellOf_last {front : List (List UInt8)} {row : List UInt8} {r : Nat} (k : Nat)
    (last : (front ++ [row]).length - vtRows + r = front.length) :
    cellOf (front ++ [row]) r k = row.getD k space := by
  unfold cellOf
  rw [last, List.getD_append_right _ _ _ _ (Nat.le_refl _), Nat.sub_self]
  rfl

theorem cellOf_front {front : List (List UInt8)} (row : List UInt8) {r place : Nat} (k : Nat)
    (same : (front ++ [row]).length - vtRows + r = place) (inside : place < front.length) :
    cellOf (front ++ [row]) r k = (front.getD place []).getD k space := by
  unfold cellOf
  rw [same, List.getD_append _ _ _ _ inside]

theorem nextRow_drawn {v : Vterm} {rows : List (List UInt8)} (some_ : rows ≠ [])
    (drawn : Drawn v rows) : Drawn (nextRow v) (rows ++ [[]]) := by
  have count := List.length_pos_iff.mpr some_
  have height : vtRows = 14 := rfl
  have at_ := drawn.row
  have longer : (rows ++ [[]]).length = rows.length + 1 := by simp
  -- Until the grid is full the rows stay where they are, and then all of them move up by one.
  by_cases room : rows.length < vtRows
  · rw [nextRow_stays v (by omega)]
    refine ⟨by simp only; omega, fun r inside k within => ?_⟩
    rw [drawn.cells r inside k within]
    by_cases old : r < rows.length
    · exact (cellOf_front [] k (by omega) (by omega)).symm
    · by_cases new : r = rows.length
      · rw [cellOf_blank k (by omega), cellOf_last k (by omega)]
        rfl
      · rw [cellOf_blank k (by omega), cellOf_blank k (by omega)]
  · rw [nextRow_scrolls v (by omega)]
    refine ⟨by simp only [scroll]; omega, fun r inside k within => ?_⟩
    rw [scroll_grid _ r inside]
    split
    · rw [drawn.cells (r + 1) (by omega) k within]
      exact (cellOf_front [] k (by omega) (by omega)).symm
    · rw [cellOf_last k (by omega)]
      rfl

theorem store_drawn {v : Vterm} {front : List (List UInt8)} {row : List UInt8} (c : UInt8)
    (drawn : Drawn v (front ++ [row])) (col : v.col = row.length) :
    Drawn (v.store c) (front ++ [row ++ [c]]) := by
  have height : vtRows = 14 := rfl
  have at_ := drawn.row
  have count : (front ++ [row]).length = front.length + 1 := by simp
  have count' : (front ++ [row ++ [c]]).length = front.length + 1 := by simp
  refine ⟨by rw [count']; rw [count] at at_; exact at_, fun r inside k within => ?_⟩
  have old := drawn.cells r inside k within
  -- Only the row of the position changes, and in it only the column.
  change setRow v.grid v.row _ r k = _
  by_cases here : r = v.row
  · rw [here, setRow_same, cellOf_last k (by omega)]
    rw [here, cellOf_last k (by omega)] at old
    rw [old, col]
    by_cases last : k = row.length
    · subst k
      simp
    · rw [if_neg last]
      by_cases earlier : k < row.length
      · rw [List.getD_append _ _ _ _ earlier]
      · rw [List.getD_eq_default _ _ (by omega), List.getD_eq_default _ _ (by simp; omega)]
  · rw [setRow_other _ _ here, old]
    by_cases below : front.length + 1 - vtRows + r < front.length
    · rw [cellOf_front row k (by rw [count]) below, cellOf_front (row ++ [c]) k (by rw [count']) below]
    · rw [cellOf_blank k (by omega), cellOf_blank k (by omega)]

structure Shows (v : Vterm) (front : List (List UInt8)) (row : List UInt8) : Prop where
  drawn : Drawn v (front ++ [row])
  col : v.col = row.length
  short : row.length < vtCols
  fits : ∀ line ∈ front, line.length ≤ vtCols

theorem Shows.steady {v : Vterm} {front : List (List UInt8)} {row : List UInt8}
    (shows_ : Shows v front row) : v.Steady where
  row := by
    rw [shows_.drawn.row]
    exact Nat.lt_of_le_of_lt (Nat.min_le_right _ _) (by decide)
  col := shows_.col ▸ shows_.short

theorem empty_shows : Shows { Vterm.empty with used := true } [] [] where
  drawn := ⟨rfl, fun r _ k _ => by cases r <;> rfl⟩
  col := rfl
  short := by decide
  fits := nofun

theorem nextRow_shows {v : Vterm} {front : List (List UInt8)} {row : List UInt8}
    (drawn : Drawn v (front ++ [row])) (short : row.length ≤ vtCols)
    (fits : ∀ line ∈ front, line.length ≤ vtCols) : Shows (nextRow v) (front ++ [row]) [] where
  drawn := nextRow_drawn (by simp) drawn
  col := (nextRow_cursor v).2
  short := by decide
  fits := fun line member => by
    rcases List.mem_append.mp member with old | new
    · exact fits line old
    · exact List.mem_singleton.mp new ▸ short

theorem put_shows {v : Vterm} {front : List (List UInt8)} {row : List UInt8} (c : UInt8)
    (shows_ : Shows v front row) :
    ∃ after front' row', v.put c = .ok after ∧ after.used = v.used ∧ Shows after front' row' ∧
      ∀ text, front ++ layOut vtCols lineFeed row (c :: text) =
        front' ++ layOut vtCols lineFeed row' text := by
  obtain ⟨after, written, _, _, used⟩ := put_steady shows_.steady c
  by_cases broken : c = lineFeed
  · subst c
    cases (put_lineFeed v).symm.trans written
    exact ⟨_, front ++ [row], [], written, used,
      nextRow_shows shows_.drawn (Nat.le_of_lt shows_.short) shows_.fits, fun text => by simp [layOut]⟩
  · have drawn := store_drawn c shows_.drawn shows_.col
    have longer : (row ++ [c]).length = row.length + 1 := by simp
    have col : (v.store c).col = (row ++ [c]).length := by
      rw [longer, ← shows_.col]
      rfl
    have stored := (put_char shows_.steady broken).symm.trans written
    by_cases full : vtCols ≤ (v.store c).col
    · rw [if_pos full] at stored
      cases stored
      refine ⟨_, front ++ [row ++ [c]], [], written, used,
        nextRow_shows drawn (longer ▸ shows_.short) shows_.fits, fun text => ?_⟩
      have ends : ¬ row.length + 1 < vtCols := by omega
      simp [layOut, broken, ends]
    · rw [if_neg full] at stored
      cases stored
      refine ⟨_, front, row ++ [c], written, used,
        ⟨drawn, col, col ▸ Nat.not_le.mp full, shows_.fits⟩, fun text => ?_⟩
      have goes : row.length + 1 < vtCols := by omega
      simp [layOut, broken, goes]

theorem write_shows (bytes : List UInt8) {t : Vterms} {id : Nat} (inside : id < vtMax)
    (used : (t.terms id).used = true) {front : List (List UInt8)} {row : List UInt8}
    (shows_ : Shows (t.terms id) front row) :
    ∃ last front' row', t.write id bytes = .ok last ∧ Shows (last.terms id) front' row' ∧
      front ++ layOut vtCols lineFeed row (bytes.filter (· ≠ carriageReturn)) =
        front' ++ [row'] := by
  induction bytes generalizing t front row with
  | nil => exact ⟨t, front, row, rfl, shows_, rfl⟩
  | cons c bytes ih =>
      have live : ¬ (vtMax ≤ id ∨ (t.terms id).used = false) := by
        rw [used]
        simpa using inside
      by_cases returned : c = carriageReturn
      · obtain ⟨last, front', row', written, later, rows⟩ := ih used shows_
        refine ⟨last, front', row', ?_, later, by simpa [returned] using rows⟩
        simp only [Vterms.write, Vterms.putcVt, if_neg live, if_pos returned, ok_bind]
        exact written
      · obtain ⟨v, front', row', put, same, now, step⟩ := put_shows c shows_
        have shown : Shows ((t.set id v).terms id) front' row' := by
          rw [Vterms.set_same]
          exact now
        obtain ⟨last, front'', row'', written, later, rows⟩ :=
          ih (by rw [Vterms.set_same, same, used]) shown
        refine ⟨last, front'', row'', ?_, later, ?_⟩
        · simp only [Vterms.write, Vterms.putcVt, if_neg live, if_neg returned, put, ok_bind, pure_ok]
          exact written
        · rw [List.filter_cons_of_pos (by simpa using returned), step]
          exact rows

theorem padRow_cells {line : List UInt8} (fits : line.length ≤ vtCols) :
    (List.range vtCols).map (fun k => line.getD k space) = padRow line := by
  unfold padRow
  apply List.ext_getElem
  · simp [Nat.add_sub_cancel' fits]
  · intro k first second
    rw [List.getElem_map, List.getElem_range]
    by_cases inside : k < line.length
    · rw [List.getElem_append_left inside, List.getD_eq_getElem _ _ inside]
    · rw [List.getElem_append_right (by omega), List.getElem_replicate,
        List.getD_eq_default _ _ (by omega)]

theorem Shows.lines {v : Vterm} {front : List (List UInt8)} {row : List UInt8}
    (shows_ : Shows v front row) {r : Nat} (inside : r < vtRows) :
    (List.range vtCols).map (v.grid r) = padRow ((lastRows (front ++ [row])).getD r []) := by
  have shown : (lastRows (front ++ [row])).getD r [] =
      (front ++ [row]).getD ((front ++ [row]).length - vtRows + r) [] := by
    simp [lastRows, List.getD_eq_getElem?_getD]
  rw [shown, ← padRow_cells]
  · apply List.map_congr_left
    intro k member
    exact shows_.drawn.cells r inside k (List.mem_range.mp member)
  · generalize (front ++ [row]).length - vtRows + r = place
    by_cases there : place < (front ++ [row]).length
    · rw [List.getD_eq_getElem _ _ there]
      rcases List.mem_append.mp (List.getElem_mem there) with old | new
      · exact shows_.fits _ old
      · rw [List.mem_singleton.mp new]
        exact Nat.le_of_lt shows_.short
    · rw [List.getD_eq_default _ _ (by omega)]
      exact Nat.zero_le _

/-- Every sequence of bytes can be written to a fresh terminal; the position stays in the
grid, and the grid shows the last rows of the text. -/
theorem written_text_is_shown (before after : Vterms) (id : Nat)
    (created : before.create = ((id : Int), after)) (bytes : List UInt8) :
    ∃ last, after.write id bytes = .ok last ∧
      (last.terms id).row < vtRows ∧ (last.terms id).col < vtCols ∧
      ∀ r < vtRows, last.row id r = some (padRow ((lastRows (textRows bytes)).getD r [])) := by
  obtain ⟨inside, fresh⟩ := create_fresh created
  obtain ⟨last, front, row, written, shows_, rows⟩ :=
    write_shows bytes inside (by rw [fresh]) (fresh ▸ empty_shows)
  refine ⟨last, written, shows_.steady.row, shows_.steady.col, fun r within => ?_⟩
  have live : ¬ (vtMax ≤ id ∨ vtRows ≤ r) := by omega
  have text : textRows bytes = front ++ [row] := rows
  rw [text, ← shows_.lines within]
  exact if_neg live

theorem written_text_is_shown_prompt :
    ∃ last, Vterms.boot.create.2.write 0 [47, 32, 35, 13, 10, 108, 115] = .ok last ∧
      last.row 0 0 = some (padRow [47, 32, 35]) ∧ last.row 0 1 = some (padRow [108, 115]) ∧
      last.row 0 2 = some (padRow []) := by
  obtain ⟨last, written, _, _, rows⟩ := written_text_is_shown Vterms.boot Vterms.boot.create.2 0 rfl
    [47, 32, 35, 13, 10, 108, 115]
  exact ⟨last, written, rows 0 (by decide), rows 1 (by decide), rows 2 (by decide)⟩

end Shizuku.Terminals
