import Mathlib.Data.List.TakeWhile
import Shizuku.Machine
import Shizuku.Scanning

/-!
The line editor and the tokenizer of the shell, `sh.rs`. The line buffer is used again for
every command, so past the terminator it still has the text of longer lines. `tokenize`
puts a NUL after each token into the buffer that it is reading.
-/

namespace Shizuku.Shell

open Machine Scanning

def argMax : Nat := 12

def isBlank (c : UInt8) : Bool := c == 32 || c == 9

/-- The conditions of the loops, with the test of the length in front. -/
def blankAt (buf : List UInt8) (i : Nat) : Bool := (buf[i]?).any isBlank

def wordAt (buf : List UInt8) (i : Nat) : Bool := (buf[i]?).any fun c => c != 0 && !isBlank c

def nonzeroAt (buf : List UInt8) (i : Nat) : Bool := (buf[i]?).any (· != 0)

/-- One round of the outer loop: the span, the buffer and where to go on. -/
def nextToken (buf : List UInt8) (i : Nat) : Option ((Nat × Nat) × List UInt8 × Nat) :=
  let start := scan (blankAt buf) buf.length i
  if nonzeroAt buf start then
    let stop := scan (wordAt buf) buf.length start
    if nonzeroAt buf stop then some ((start, stop), buf.set stop 0, stop + 1)
    else some ((start, stop), buf, stop)
  else none

def tokenizeFrom : Nat → List UInt8 → Nat → List (Nat × Nat) × List UInt8
  | 0, buf, _ => ([], buf)
  | rounds + 1, buf, i =>
      match nextToken buf i with
      | none => ([], buf)
      | some (span, buf, i) =>
          let rest := tokenizeFrom rounds buf i
          (span :: rest.1, rest.2)

def tokenize (buf : List UInt8) : List (Nat × Nat) × List UInt8 := tokenizeFrom (argMax - 1) buf 0

def arguments (buf : List UInt8) : List (List UInt8) :=
  (tokenize buf).1.map fun span => ((tokenize buf).2.drop span.1).take (span.2 - span.1)

structure Edited where
  ret : Int
  buf : List UInt8
  echo : List UInt8
  rest : List UInt8

/-- `n` bytes have been typed so far. Without further input the loop goes on for ever. -/
def readline (buf : List UInt8) (n : Nat) : List UInt8 → Outcome Edited
  | [] => .error .hang
  | c :: input =>
      if c = 10 then do
        index buf.length n
        return ⟨n, buf.set n 0, [10], input⟩
      else if c = 8 ∨ c = 127 then
        if 0 < n then do
          let line ← readline buf (n - 1) input
          return { line with echo := 8 :: 32 :: 8 :: line.echo }
        else readline buf n input
      else if c = 4 ∧ n = 0 then .ok ⟨-1, buf, [], input⟩
      else if n + 1 < buf.length then do
        index buf.length n
        let line ← readline (buf.set n c) (n + 1) input
        return { line with echo := c :: line.echo }
      else readline buf n input

def textOf (buf : List UInt8) : List UInt8 := buf.takeWhile (· != 0)

/-- The buffer still has the text from `i` on, and `i` is not within a word. -/
structure Ahead (text buf : List UInt8) (i : Nat) : Prop where
  low : i ≤ text.length
  plain : ∀ c ∈ text, c ≠ 0
  same : ∀ k, i ≤ k → k < text.length → buf[k]? = text[k]?
  ended : buf[text.length]? = some 0
  edge : i < text.length → i = 0 ∨ wordAt text (i - 1) = false

theorem wordAt_beyond (text : List UInt8) (k : Nat) (beyond : text.length ≤ k) :
    wordAt text k = false := by
  rw [wordAt, List.getElem?_eq_none beyond]
  rfl

section Reading
variable {text buf : List UInt8} {i : Nat} (ahead : Ahead text buf i)
include ahead

theorem Ahead.inside : text.length < buf.length := (List.getElem?_eq_some_iff.mp ahead.ended).1

theorem Ahead.nonzero {k : Nat} (low : i ≤ k) (high : k < text.length) : nonzeroAt buf k = true := by
  rw [nonzeroAt, ahead.same k low high, List.getElem?_eq_getElem high]
  simpa using ahead.plain text[k] (List.getElem_mem high)

theorem Ahead.terminator : blankAt buf text.length = false ∧ wordAt buf text.length = false ∧
    nonzeroAt buf text.length = false := by
  unfold blankAt wordAt nonzeroAt
  rw [ahead.ended]
  decide

theorem Ahead.word {k : Nat} (low : i ≤ k) (high : k ≤ text.length) : wordAt buf k = wordAt text k := by
  by_cases last : k = text.length
  · rw [last, ahead.terminator.2.1, wordAt_beyond text _ (Nat.le_refl _)]
  · rw [wordAt, wordAt, ahead.same k low (by omega)]

theorem Ahead.blank {k : Nat} (low : i ≤ k) (high : k < text.length) :
    blankAt buf k = !wordAt text k := by
  -- Within the text a byte is a blank or belongs to a word.
  have plain := ahead.plain text[k] (List.getElem_mem high)
  rw [blankAt, wordAt, ahead.same k low high, List.getElem?_eq_getElem high]
  simp [plain]

theorem Ahead.start : ∃ start, i ≤ start ∧ start ≤ text.length ∧
    scan (blankAt buf) buf.length i = start ∧
    (∀ k, i ≤ k → k < start → wordAt text k = false) ∧
    (start < text.length → startsAt (wordAt text) start = true) := by
  have inside := ahead.inside
  obtain ⟨start, low, high, all, free⟩ := exists_stop ahead.low ahead.terminator.1
  have blanks : ∀ k, i ≤ k → k < start → wordAt text k = false := by
    intro k above below
    have blank := all k above below
    rw [ahead.blank above (by omega)] at blank
    simpa using blank
  refine ⟨start, low, high, scan_eq low all free (by omega), blanks, fun more => ?_⟩
  rw [ahead.blank low more] at free
  have here : wordAt text start = true := by simpa using free
  have before : start = 0 ∨ wordAt text (start - 1) = false := by
    by_cases first : start = i
    · rw [first]
      exact ahead.edge (first ▸ more)
    · exact .inr (blanks (start - 1) (by omega) (by omega))
  rw [startsAt, here, Bool.true_and]
  simpa using before

theorem Ahead.stop {start : Nat} (low : i ≤ start) (more : start < text.length)
    (starts : startsAt (wordAt text) start = true) : ∃ stop, start < stop ∧ stop ≤ text.length ∧
    scan (wordAt buf) buf.length start = stop ∧ wordAt text stop = false ∧
    runsFrom (wordAt text) text.length start =
      (start, stop) :: runsFrom (wordAt text) text.length stop := by
  have inside := ahead.inside
  obtain ⟨stop, above, high, all, free⟩ :=
    exists_stop (Nat.le_of_lt more) (wordAt_beyond text text.length (Nat.le_refl _))
  have longer : start < stop := by
    by_contra none_
    have same : stop = start := by omega
    rw [startsAt, Bool.and_eq_true, ← same, free] at starts
    cases starts.1
  refine ⟨stop, longer, high, ?_, free, runsFrom_run more starts longer high all free⟩
  apply scan_eq above
  · intro k first last
    rw [ahead.word (by omega) (by omega)]
    exact all k first last
  · rw [ahead.word (by omega) high]
    exact free
  · omega

theorem Ahead.nextToken :
    (Shell.nextToken buf i = none ∧ runsFrom (wordAt text) text.length i = []) ∨
    ∃ start stop buf' i', Shell.nextToken buf i = some ((start, stop), buf', i') ∧
      i ≤ start ∧ start < stop ∧ stop ≤ i' ∧ Ahead text buf' i' ∧
      runsFrom (wordAt text) text.length i =
        (start, stop) :: runsFrom (wordAt text) text.length i' ∧
      buf'.length = buf.length ∧ buf'[stop]? = some 0 ∧
      (stop < i' ∨ text.length ≤ stop) ∧
      ∀ k, k ≠ stop ∨ text.length ≤ k → buf'[k]? = buf[k]? := by
  obtain ⟨start, low, high, scanned, blanks, starts⟩ := ahead.start
  have skipped : runsFrom (wordAt text) text.length i = runsFrom (wordAt text) text.length start :=
    runsFrom_skip low high fun k above below => by rw [startsAt, blanks k above below, Bool.false_and]
  have inside := ahead.inside
  unfold Shell.nextToken
  rw [scanned, skipped]
  by_cases more : start < text.length
  · right
    obtain ⟨stop, longer, short, scanned', free, run⟩ := ahead.stop low more (starts more)
    simp only [ahead.nonzero low more, if_true, scanned']
    by_cases last : stop = text.length
    · -- The token ends at the terminator, and the next round finds nothing.
      have zero : nonzeroAt buf stop = false := by
        rw [last]
        exact ahead.terminator.2.2
      simp only [zero, Bool.false_eq_true, if_false]
      refine ⟨start, stop, buf, stop, rfl, low, longer, Nat.le_refl _, ?_, run, rfl, ?_,
        .inr (Nat.le_of_eq last.symm), fun _ _ => rfl⟩
      · exact ⟨short, ahead.plain, fun k above below => by omega, ahead.ended, fun below => by omega⟩
      · rw [last]
        exact ahead.ended
    · have inner : stop < text.length := by omega
      simp only [ahead.nonzero (by omega) inner, if_true]
      refine ⟨start, stop, buf.set stop 0, stop + 1, rfl, low, longer, Nat.le_succ _, ?_, ?_,
        List.length_set, List.getElem?_set_self (by omega), .inl (Nat.lt_succ_self _), ?_⟩
      · refine ⟨inner, ahead.plain, fun k above below => ?_, ?_, fun _ => .inr free⟩
        · rw [List.getElem?_set_ne (by omega)]
          exact ahead.same k (by omega) below
        · rw [List.getElem?_set_ne (by omega)]
          exact ahead.ended
      · rw [run]
        congr 1
        apply runsFrom_skip (Nat.le_succ _) inner
        intro k above below
        have same : k = stop := by omega
        rw [same, startsAt, free, Bool.false_and]
      · intro k away
        rw [List.getElem?_set_ne (by omega)]
  · left
    have same : start = text.length := by omega
    rw [same]
    simp only [ahead.terminator.2.2, Bool.false_eq_true, if_false]
    exact ⟨trivial, runsFrom_end _ _⟩

end Reading

structure Tokenized (text buf : List UInt8) (i rounds : Nat)
    (result : List (Nat × Nat) × List UInt8) : Prop where
  spans : result.1 = (runsFrom (wordAt text) text.length i).take rounds
  length : result.2.length = buf.length
  after : ∀ span ∈ result.1, i ≤ span.1 ∧ result.2[span.2]? = some 0 ∧
    ∀ k, span.1 ≤ k → k < span.2 → result.2[k]? = buf[k]?
  kept : ∀ k, k < i ∨ text.length ≤ k → result.2[k]? = buf[k]?

theorem tokenizeFrom_tokenized (rounds : Nat) {text buf : List UInt8} {i : Nat}
    (ahead : Ahead text buf i) : Tokenized text buf i rounds (tokenizeFrom rounds buf i) := by
  induction rounds generalizing buf i with
  | zero => exact ⟨by simp [tokenizeFrom], rfl, nofun, fun _ _ => rfl⟩
  | succ rounds ih =>
      unfold tokenizeFrom
      rcases ahead.nextToken with ⟨found, none_⟩ |
        ⟨start, stop, buf', i', found, low, longer, next, ahead', runs, size, zero, moved, frame⟩
      · rw [found]
        exact ⟨by simp [none_], rfl, nofun, fun _ _ => rfl⟩
      · rw [found]
        obtain ⟨spans, length, after, kept⟩ := ih ahead'
        refine ⟨?_, length.trans size, ?_, fun k away => ?_⟩
        · rw [runs, List.take_succ_cons, ← spans]
        · intro span member
          rcases List.mem_cons.mp member with rfl | later
          · refine ⟨low, ?_, fun k above below => ?_⟩
            · exact (kept stop (by omega)).trans zero
            · exact (kept k (by simp only at below; omega)).trans (frame k (.inl (by
                simp only at below
                omega)))
          · obtain ⟨first, ends, inner⟩ := after span later
            refine ⟨by omega, ends, fun k above below => ?_⟩
            exact (inner k above below).trans (frame k (by omega))
        · exact (kept k (by omega)).trans (frame k (by omega))

theorem textOf_plain (buf : List UInt8) : ∀ c ∈ textOf buf, c ≠ 0 := by
  intro c member
  simpa using List.mem_takeWhile_imp member

theorem textOf_split {buf : List UInt8} (ended : 0 ∈ buf) :
    ∃ stale, buf = textOf buf ++ 0 :: stale := by
  induction buf with
  | nil => cases ended
  | cons c rest ih =>
      by_cases zero : c = 0
      · exact ⟨rest, by simp [textOf, zero]⟩
      · obtain ⟨stale, shape⟩ := ih ((List.mem_cons.mp ended).resolve_left fun same => zero same.symm)
        refine ⟨stale, ?_⟩
        have longer : textOf (c :: rest) = c :: textOf rest := by simp [textOf, zero]
        rw [longer, List.cons_append, ← shape]

theorem textOf_ahead {buf : List UInt8} (ended : 0 ∈ buf) : Ahead (textOf buf) buf 0 := by
  obtain ⟨stale, shape⟩ := textOf_split ended
  have plain := textOf_plain buf
  generalize textOf buf = text at *
  subst buf
  refine ⟨Nat.zero_le _, plain, fun k _ below => ?_, ?_, fun _ => .inl rfl⟩
  · exact List.getElem?_append_left below
  · rw [List.getElem?_append_right (Nat.le_refl _), Nat.sub_self]
    rfl

theorem tokenize_tokenized {buf : List UInt8} (ended : 0 ∈ buf) :
    Tokenized (textOf buf) buf 0 (argMax - 1) (tokenize buf) :=
  tokenizeFrom_tokenized (argMax - 1) (textOf_ahead ended)

theorem arguments_eq {buf : List UInt8} (ended : 0 ∈ buf) :
    arguments buf = ((runsFrom (wordAt (textOf buf)) (textOf buf).length 0).take (argMax - 1)).map
      fun span => ((textOf buf).drop span.1).take (span.2 - span.1) := by
  have ahead := textOf_ahead ended
  obtain ⟨spans, _, after, _⟩ := tokenize_tokenized ended
  unfold arguments
  rw [← spans]
  apply List.map_congr_left
  intro span member
  obtain ⟨_, _, inner⟩ := after span member
  have run : MaximalRun (wordAt (textOf buf)) span := by
    rw [spans] at member
    exact (mem_runsFrom (wordAt_beyond _) span).mp (List.mem_of_mem_take member)
  apply List.ext_getElem?
  intro k
  rw [List.getElem?_take, List.getElem?_take]
  split
  · rename_i short
    have word := run.all (span.1 + k) (by omega) (by omega)
    have inside : span.1 + k < (textOf buf).length := by
      by_contra outside
      rw [wordAt_beyond _ _ (by omega)] at word
      cases word
    rw [List.getElem?_drop, List.getElem?_drop, inner _ (by omega) (by omega),
      ahead.same _ (Nat.zero_le _) inside]
  · rfl

theorem textOf_terminated (typed stale : List UInt8) :
    textOf (typed ++ 0 :: stale) = textOf typed := by
  induction typed with
  | nil => rfl
  | cons c typed ih =>
      unfold textOf at ih ⊢
      by_cases zero : c = 0
      · simp [zero]
      · simp [zero, ih]

/-- The text that the keys leave on a line of `size` bytes. -/
def typedLine (size : Nat) (typed : List UInt8) : List UInt8 → List UInt8
  | [] => typed
  | c :: input =>
      if c = 10 then typed
      else if c = 8 ∨ c = 127 then typedLine size typed.dropLast input
      else if typed.length + 1 < size then typedLine size (typed ++ [c]) input
      else typedLine size typed input

theorem readline_types (input : List UInt8) {buf : List UInt8} {n : Nat} {line : Edited}
    (room : n < buf.length) (done : readline buf n input = .ok line) (entered : 0 ≤ line.ret) :
    ∃ stale, line.buf = typedLine buf.length (buf.take n) input ++ 0 :: stale := by
  -- `n` is the only trace of what is erased: the bytes beyond it stay in the buffer.
  induction input generalizing buf n line with
  | nil => cases done
  | cons c input ih =>
      have taken : (buf.take n).length = n := List.length_take_of_le (Nat.le_of_lt room)
      have checked := (index_ok buf.length n ()).mpr room
      unfold readline at done
      unfold typedLine
      by_cases newline : c = 10
      · simp only [newline, if_true, checked, ok_bind] at done ⊢
        cases done
        exact ⟨_, List.set_eq_take_append_cons_drop.trans (if_pos room)⟩
      simp only [newline, if_false] at done ⊢
      by_cases erases : c = 8 ∨ c = 127
      · simp only [erases, if_true] at done ⊢
        by_cases something : 0 < n
        · simp only [something, if_true] at done
          obtain ⟨before, earlier, last⟩ := (bind_ok _ _ _).mp done
          cases last
          have shorter := ih (by omega) earlier entered
          rwa [List.dropLast_eq_take, taken, List.take_take, Nat.min_eq_left (Nat.sub_le n 1)]
        · obtain rfl : n = 0 := by omega
          exact ih room done entered
      simp only [erases, if_false, taken] at done ⊢
      by_cases closed : c = 4 ∧ n = 0
      · simp only [closed, and_self, if_true] at done
        cases done
        cases entered
      simp only [closed, if_false] at done
      by_cases fits : n + 1 < buf.length
      · simp only [fits, if_true, checked, ok_bind] at done ⊢
        obtain ⟨before, earlier, last⟩ := (bind_ok _ _ _).mp done
        cases last
        have longer := ih (by simpa using fits) earlier entered
        rwa [List.length_set, List.take_set, List.take_succ_eq_append_getElem room,
          List.set_append_right _ _ (by omega), taken, Nat.sub_self] at longer
      · simp only [fits, if_false] at done ⊢
        exact ih room done entered

/-- What `tokenize` finds in a line from `readline` are the words of the text typed, whatever
an older line has left in the buffer. -/
theorem readline_arguments {buf input : List UInt8} {line : Edited} (room : 0 < buf.length)
    (done : readline buf 0 input = .ok line) (entered : 0 ≤ line.ret) :
    arguments line.buf = arguments (typedLine buf.length [] input ++ [0]) := by
  obtain ⟨stale, shape⟩ := readline_types input room done entered
  rw [List.take_zero] at shape
  rw [arguments_eq (by simp [shape]), arguments_eq (by simp), shape, textOf_terminated,
    textOf_terminated]

/-- The spans are the first eleven words before the terminator. Each is followed by a NUL,
the words are as they were, and so is everything from the terminator on. -/
theorem tokenize_finds_words (buf : List UInt8) (ended : 0 ∈ buf) :
    (∃ runs : List (Nat × Nat), (runs.Pairwise fun one two => one.2 < two.1) ∧
      (∀ span, span ∈ runs ↔ MaximalRun (wordAt (textOf buf)) span) ∧
      (tokenize buf).1 = runs.take 11) ∧
    (∀ span ∈ (tokenize buf).1, (tokenize buf).2[span.2]? = some 0 ∧
      ∀ k, span.1 ≤ k → k < span.2 → (tokenize buf).2[k]? = buf[k]?) ∧
    (tokenize buf).2.length = buf.length ∧
    (∀ k, (textOf buf).length ≤ k → (tokenize buf).2[k]? = buf[k]?) ∧
    ∀ other, 0 ∈ other → textOf other = textOf buf → arguments other = arguments buf := by
  obtain ⟨spans, length, after, kept⟩ := tokenize_tokenized ended
  have beyond := wordAt_beyond (textOf buf)
  refine ⟨⟨_, runsFrom_pairwise beyond, mem_runsFrom beyond, spans⟩,
    fun span member => (after span member).2, length, fun k past => kept k (.inr past), ?_⟩
  intro other ended' same
  rw [arguments_eq ended, arguments_eq ended', same]

theorem tokenize_finds_words_stale :
    (tokenize [108, 115, 32, 32, 97, 0, 120, 121]).1 = [(0, 2), (4, 5)] ∧
      (tokenize [108, 115, 32, 32, 97, 0, 120, 121]).2[2]? = some 0 ∧
      arguments [108, 115, 32, 32, 97, 0, 120, 121] = arguments [108, 115, 32, 32, 97, 0] := by
  obtain ⟨_, _, _, _, same⟩ := tokenize_finds_words [108, 115, 32, 32, 97, 0] (by decide)
  obtain ⟨_, ends, _⟩ := tokenize_finds_words [108, 115, 32, 32, 97, 0, 120, 121] (by decide)
  exact ⟨by decide, (ends (0, 2) (by decide)).1, same _ (by decide) (by decide)⟩

end Shizuku.Shell
