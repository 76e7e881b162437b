import Shizuku.Descriptors
import Shizuku.TmpfsTree

/-!
Reading and writing a file in pieces. Between the calls the descriptor keeps the
position, and the node the size; a piece that extends the file moves all of it to
the top of the pool. The length of a read is not capped, and its sum with the
position wraps at 2^64.
-/

namespace Shizuku.Syscalls

open Machine Tmpfs Sched

structure Buffer where
  user : Nat → UInt8
  rsi : BitVec 64
  rdx : BitVec 64
  key : UInt8

def Buffer.read (tid : Nat) (rdi : BitVec 64) (b : Buffer) : Op := ⟨tid, b.user, .read rdi b.rsi b.rdx b.key⟩

def Buffer.write (tid : Nat) (rdi : BitVec 64) (b : Buffer) : Op := ⟨tid, b.user, .write rdi b.rsi b.rdx⟩

def Buffer.len (b : Buffer) : Nat := b.rdx.toNat

def Buffer.bytes (b : Buffer) : List UInt8 := (List.range b.len).map fun i => b.user (b.rsi.toNat + i)

theorem Buffer.bytes_length (b : Buffer) : b.bytes.length = b.len := by simp [Buffer.bytes]

structure OpenAt (s : System) (tid fd : Nat) (node : Int) (pos : Nat) (all : List UInt8) : Prop where
  laid : Laid s.fs
  found : fdGet (s.threads tid) fd = some ⟨node, pos⟩
  positive : 0 < node
  held : contents s.fs node.toNat = some all
  inside : pos ≤ all.length

section Open
variable {s : System} {tid : Nat} {rdi : BitVec 64} {node : Int} {pos : Nat} {all : List UInt8}

theorem found_positive (u : Ufd) (reached : Reachable s.fs)
    (found : fdGet (s.threads tid) (fdIndex rdi) = some u)
    (held : contents s.fs u.node.toNat = some all) : 0 < u.node := by
  -- The root is a directory, so an open file is another node.
  have nonnegative := (fdGet_some _ _ _ found).2
  rcases Int.lt_or_eq_of_le nonnegative with positive | zero
  · exact positive
  · have root : ¬ IsFile s.fs 0 := by
      rintro ⟨_, file⟩
      rw [root_directory s.fs reached] at file
      cases file
    rw [← zero, Int.toNat_zero, contents_none s.fs 0 root] at held
    cases held

theorem openAt_of_found (u : Ufd) (reached : Reachable s.fs)
    (found : fdGet (s.threads tid) (fdIndex rdi) = some u)
    (held : contents s.fs u.node.toNat = some all) (inside : u.pos ≤ all.length) :
    OpenAt s tid (fdIndex rdi) u.node u.pos all :=
  ⟨reachable_laid s.fs reached, found, found_positive u reached found held, held, inside⟩

theorem contents_stored {fs : Fs} {slot : Nat} (laid : Laid fs) (held : contents fs slot = some all) :
    IsFile fs slot ∧ all.length = (fs.nodes slot).size ∧
      (fs.nodes slot).off + (fs.nodes slot).size ≤ tnPool := by
  have file : IsFile fs slot := by
    by_contra other
    rw [contents_none fs slot other] at held
    cases held
  exact ⟨file, contents_length fs slot all held,
    (laid.packed.below slot file.used).trans laid.capacity⟩

theorem found_standard {u : Ufd} (found : fdGet (s.threads tid) (fdIndex rdi) = some u) :
    3 ≤ fdIndex rdi := by
  -- Descriptors 0, 1 and 2 are never in the table.
  unfold fdGet at found
  split at found
  · rename_i inside
    exact inside.1
  · cases found

theorem OpenAt.advance {fs : Fs} {after : List UInt8} (opened : OpenAt s tid (fdIndex rdi) node pos all)
    (laid : Laid fs) (held : contents fs node.toNat = some after) (count : Nat)
    (inside : pos + count ≤ after.length) :
    OpenAt ({ s with fs := fs }.advance tid (fdIndex rdi) ⟨node, pos⟩ count) tid (fdIndex rdi) node
      (pos + count) after := by
  obtain ⟨_, size, below⟩ := contents_stored laid held
  have pool : tnPool = 1048576 := rfl
  have word : (pos + count) % 2 ^ 64 = pos + count := Nat.mod_eq_of_lt (by omega)
  have found := opened.found
  refine ⟨by rw [advance_fs]; exact laid, ?_, opened.positive, by rw [advance_fs]; exact held, inside⟩
  by_cases moved : 0 < (count : Int)
  · simp only [System.advance, moved, ↓reduceIte, Int.toNat_natCast, word]
    unfold fdGet at found ⊢
    rw [setFd_same]
    split at found
    · rename_i listed
      rw [if_pos ⟨listed.1, listed.2.1, opened.positive.le⟩]
    · cases found
  · have none_ : count = 0 := by omega
    rw [System.advance, if_neg moved, none_, Nat.add_zero]
    exact found

theorem read_done (opened : OpenAt s tid (fdIndex rdi) node pos all) (b : Buffer)
    (good : badUaddr b.rsi.toNat = false) (word : pos + b.len < 2 ^ 64) :
    ∃ after, syscall s (b.read tid rdi) =
        .ok (⟨((all.drop pos).take b.len).length, (all.drop pos).take b.len⟩, after) ∧
      after.fs = s.fs ∧
      OpenAt after tid (fdIndex rdi) node (pos + ((all.drop pos).take b.len).length) all := by
  have standard := found_standard opened.found
  have read := read_contents s.fs node.toNat pos b.len all opened.laid
    (by have positive := opened.positive; omega) opened.held (.inr word)
  rw [Int.toNat_of_nonneg opened.positive.le] at read
  have count : min b.len (all.length - pos) = ((all.drop pos).take b.len).length := by simp
  rw [count] at read
  refine ⟨s.advance tid (fdIndex rdi) ⟨node, pos⟩ ((all.drop pos).take b.len).length, ?_,
    advance_fs _ _ _ _ _, ?_⟩
  · simp only [syscall, Buffer.read, sysRead, good, Bool.false_eq_true, ↓reduceIte, opened.found]
    rw [if_neg (by omega), show b.rdx.toNat = b.len from rfl, read]
    rfl
  · refine opened.advance opened.laid opened.held _ ?_
    have inside := opened.inside
    rw [← count]
    omega

theorem read_wraps (opened : OpenAt s tid (fdIndex rdi) node pos all) (b : Buffer)
    (good : badUaddr b.rsi.toNat = false) (wraps : 2 ^ 64 ≤ pos + b.len) :
    syscall s (b.read tid rdi) = .error .range := by
  -- A sum that wraps ends the range before it starts.
  have standard := found_standard opened.found
  have inside := opened.inside
  have word : b.len < 2 ^ 64 := b.rdx.isLt
  have pool : tnPool = 1048576 := rfl
  obtain ⟨file, size, below⟩ := contents_stored opened.laid opened.held
  have open_ : fileNode s.fs node = some (s.fs.nodes node.toNat) :=
    (fileNode_some _ _ _).mpr ⟨opened.positive, file.1, file.2, rfl⟩
  simp only [syscall, Buffer.read, sysRead, good, Bool.false_eq_true, ↓reduceIte, opened.found]
  rw [if_neg (by omega), show b.rdx.toNat = b.len from rfl]
  have uncut : ¬ (pos + b.len) % 2 ^ 64 > (s.fs.nodes node.toNat).size := by omega
  have backward : ¬ (((s.fs.nodes node.toNat).off + pos) % 2 ^ 64 ≤
      ((s.fs.nodes node.toNat).off + pos + b.len) % 2 ^ 64 ∧
      ((s.fs.nodes node.toNat).off + pos + b.len) % 2 ^ 64 ≤ tnPool) := by omega
  simp only [nodeRead, open_, uncut, ↓reduceIte, if_neg (show ¬ pos > (s.fs.nodes node.toNat).size by omega),
    range, if_neg backward]
  rfl

theorem read_beyond (u : Ufd) (reached : Reachable s.fs)
    (found : fdGet (s.threads tid) (fdIndex rdi) = some u)
    (held : contents s.fs u.node.toNat = some all) (beyond : all.length < u.pos) (b : Buffer)
    (good : badUaddr b.rsi.toNat = false) : syscall s (b.read tid rdi) = .ok (⟨0, []⟩, s) := by
  have standard := found_standard found
  obtain ⟨file, size, _⟩ := contents_stored (reachable_laid s.fs reached) held
  have open_ : fileNode s.fs u.node = some (s.fs.nodes u.node.toNat) :=
    (fileNode_some _ _ _).mpr ⟨found_positive u reached found held, file.1, file.2, rfl⟩
  simp only [syscall, Buffer.read, sysRead, good, Bool.false_eq_true, ↓reduceIte, found]
  rw [if_neg (by omega)]
  simp only [nodeRead, open_, if_pos (show u.pos > (s.fs.nodes u.node.toNat).size by omega), ok_bind]
  rfl

/-- A read that copies what is left of the file up to the length asked for, returns
the count and moves on by it. -/
structure ReadExactly (s : System) (tid : Nat) (rdi : BitVec 64) (u : Ufd) (all : List UInt8) (b : Buffer)
    (ret : Ret) (after : System) : Prop where
  bytes : ret.bytes = (all.drop u.pos).take b.len
  count : ret.bytes.length = min b.len (all.length - u.pos)
  value : ret.value = ret.bytes.length
  moved : fdGet (after.threads tid) (fdIndex rdi) = some { u with pos := u.pos + ret.bytes.length }
  kept : after.fs = s.fs

/-- For every open descriptor, inside of the file or beyond its end, and every length. -/
theorem read_any_length_iff (s : System) (reached : Reachable s.fs) (tid : Nat) (rdi : BitVec 64)
    (u : Ufd) (all : List UInt8) (found : fdGet (s.threads tid) (fdIndex rdi) = some u)
    (held : contents s.fs u.node.toNat = some all) (b : Buffer)
    (good : badUaddr b.rsi.toNat = false) :
    (∃ ret after, syscall s (b.read tid rdi) = .ok (ret, after) ∧
      ReadExactly s tid rdi u all b ret after) ↔ (u.pos ≤ all.length → u.pos + b.len < 2 ^ 64) := by
  constructor
  · rintro ⟨ret, after, done, _⟩ inside
    by_contra wraps
    rw [read_wraps (openAt_of_found u reached found held inside) b good (Nat.le_of_not_lt wraps)] at done
    cases done
  · intro fits
    by_cases inside : u.pos ≤ all.length
    · have opened := openAt_of_found u reached found held inside
      obtain ⟨after, done, same, moved⟩ := read_done opened b good (fits inside)
      exact ⟨_, after, done, rfl, by simp, rfl, moved.found, same⟩
    · have done := read_beyond u reached found held (Nat.lt_of_not_le inside) b good
      have nothing : all.drop u.pos = [] := List.drop_eq_nil_of_le (by omega)
      have none_ : all.length - u.pos = 0 := by omega
      exact ⟨_, s, done, by simp [nothing], by simp [none_], rfl, found, rfl⟩

end Open

def pieces : List UInt8 → List Nat → List (List UInt8)
  | _, [] => []
  | ahead, len :: lens => ahead.take len :: pieces (ahead.drop len) lens

/-- No length reaches 2^64 from the position that the calls before it lead to. -/
def NoWrap (pos ahead : Nat) : List Nat → Prop
  | [] => True
  | len :: lens => pos + len < 2 ^ 64 ∧ NoWrap (pos + min len ahead) (ahead - len) lens

structure Consecutive (ahead : List UInt8) (rets : List Ret) : Prop where
  slices : (rets.map Ret.bytes).flatten <+: ahead
  counts : ∀ ret, ret ∈ rets → ret.value = ret.bytes.length
  ends : ∀ before ret later, rets = before ++ ret :: later →
    (ret.value = 0 ↔ (before.map Ret.bytes).flatten = ahead)

def Ret.full (bytes : List UInt8) : Ret := ⟨bytes.length, bytes⟩

theorem pieces_consecutive (ahead : List UInt8) (lens : List Nat) (some_ : ∀ len, len ∈ lens → 1 ≤ len) :
    Consecutive ahead ((pieces ahead lens).map Ret.full) := by
  induction lens generalizing ahead with
  | nil => exact ⟨List.nil_prefix, by simp [pieces], by simp [pieces]⟩
  | cons len lens ih =>
      obtain ⟨slices, counts, ends⟩ := ih (ahead.drop len)
        fun other member => some_ other (List.mem_cons_of_mem len member)
      have positive := some_ len List.mem_cons_self
      have whole := List.take_append_drop len ahead
      simp only [pieces, List.map_cons]
      constructor
      · rw [List.map_cons, List.flatten_cons]
        conv_rhs => rw [← whole]
        exact (List.prefix_append_right_inj (ahead.take len)).mpr slices
      · intro ret member
        rcases List.mem_cons.mp member with rfl | later
        · rfl
        · exact counts ret later
      · intro before ret later split
        cases before with
        | nil =>
            obtain ⟨rfl, _⟩ := List.cons.inj split
            simp only [Ret.full, Int.natCast_eq_zero, List.length_eq_zero_iff, List.take_eq_nil_iff,
              List.map_nil, List.flatten_nil]
            constructor
            · rintro (zero | nothing)
              · omega
              · exact nothing.symm
            · intro nothing
              exact .inr nothing.symm
        | cons first before =>
            obtain ⟨rfl, rest⟩ := List.cons.inj split
            rw [ends before ret later rest, List.map_cons, List.flatten_cons]
            have cancel : (before.map Ret.bytes).flatten = ahead.drop len ↔
                ahead.take len ++ (before.map Ret.bytes).flatten = ahead.take len ++ ahead.drop len :=
              (List.append_right_inj _).symm
            rw [whole] at cancel
            exact cancel

section Sequences
variable {s : System} {tid : Nat} {rdi : BitVec 64} {node : Int} {pos : Nat} {all : List UInt8}

theorem ahead_read (inside : pos ≤ all.length) (len : Nat) :
    let count := ((all.drop pos).take len).length
    count = min len (all.length - pos) ∧ all.length - (pos + count) = all.length - pos - len ∧
      all.drop (pos + count) = (all.drop pos).drop len := by
  have count : ((all.drop pos).take len).length = min len (all.length - pos) := by simp
  simp only [count, List.drop_drop, true_and]
  refine ⟨by omega, ?_⟩
  by_cases short : len ≤ all.length - pos
  · rw [Nat.min_eq_left short]
  · rw [List.drop_eq_nil_of_le (by omega), List.drop_eq_nil_of_le (by omega)]

theorem replay_reads (opened : OpenAt s tid (fdIndex rdi) node pos all) (reads : List Buffer)
    (good : ∀ b, b ∈ reads → badUaddr b.rsi.toNat = false)
    (fits : NoWrap pos (all.length - pos) (reads.map Buffer.len)) :
    ∃ after, replay syscall s (reads.map (Buffer.read tid rdi)) =
      .ok ((pieces (all.drop pos) (reads.map Buffer.len)).map Ret.full, after) ∧ after.fs = s.fs := by
  induction reads generalizing s pos with
  | nil => exact ⟨s, rfl, rfl⟩
  | cons b rest ih =>
      obtain ⟨word, later⟩ := fits
      obtain ⟨next, done, same, moved⟩ := read_done opened b (good b List.mem_cons_self) word
      obtain ⟨count, left, ahead⟩ := ahead_read opened.inside b.len
      rw [← count, ← left] at later
      obtain ⟨after, replayed, kept⟩ := ih moved
        (fun other member => good other (List.mem_cons_of_mem b member)) later
      refine ⟨after, ?_, kept.trans same⟩
      rw [ahead] at replayed
      simp only [List.map_cons, replay, done, ok_bind, replayed, pieces]
      rfl

theorem replay_reads_noWrap (opened : OpenAt s tid (fdIndex rdi) node pos all) (reads : List Buffer)
    (good : ∀ b, b ∈ reads → badUaddr b.rsi.toNat = false) (rets : List Ret) (after : System)
    (done : replay syscall s (reads.map (Buffer.read tid rdi)) = .ok (rets, after)) :
    NoWrap pos (all.length - pos) (reads.map Buffer.len) := by
  induction reads generalizing s pos rets with
  | nil => trivial
  | cons b rest ih =>
      obtain ⟨⟨ret, next⟩, first, onward⟩ := (bind_ok _ _ _).mp done
      obtain ⟨⟨others, last⟩, replayed, same⟩ := (bind_ok _ _ _).mp onward
      cases same
      have word : pos + b.len < 2 ^ 64 := by
        by_contra wraps
        rw [read_wraps opened b (good b List.mem_cons_self) (by omega)] at first
        cases first
      obtain ⟨_, read, _, moved⟩ := read_done opened b (good b List.mem_cons_self) word
      rw [first, Except.ok.injEq, Prod.mk.injEq] at read
      obtain ⟨_, rfl⟩ := read
      have tail := ih moved (fun other member => good other (List.mem_cons_of_mem b member)) others
        replayed
      obtain ⟨count, left, _⟩ := ahead_read opened.inside b.len
      rw [count, ← count, left] at tail
      exact ⟨word, count ▸ tail⟩

theorem splice_splice (bytes first second : List UInt8) (off : Nat) (inside : off ≤ bytes.length) :
    splice (splice bytes off first) (off + first.length) second = splice bytes off (first ++ second) := by
  have front : (bytes.take off ++ first).length = off + first.length := by
    rw [List.length_append, List.length_take, Nat.min_eq_left inside]
  have head : (splice bytes off first).take (off + first.length) = bytes.take off ++ first := by
    rw [splice, ← front, List.take_left]
  have tail : (splice bytes off first).drop (off + first.length + second.length) =
      bytes.drop (off + first.length + second.length) := by
    rw [splice, ← List.drop_drop, ← front, List.drop_left, List.drop_drop, front]
  rw [splice, head, tail, splice, List.length_append, List.append_assoc (bytes.take off), Nat.add_assoc]

theorem splice_length (bytes data : List UInt8) (off : Nat) (inside : off ≤ bytes.length) :
    off + data.length ≤ (splice bytes off data).length := by
  simp only [splice, List.length_append, List.length_take, List.length_drop]
  omega

theorem splice_nothing (bytes : List UInt8) (off : Nat) : splice bytes off [] = bytes := by
  simp [splice]

theorem write_done (opened : OpenAt s tid (fdIndex rdi) node pos all) (b : Buffer)
    (short : b.len ≤ 2 ^ 20) {ret : Ret} {after : System}
    (done : syscall s (b.write tid rdi) = .ok (ret, after)) (succeeded : 0 ≤ ret.value) :
    contents after.fs =
        Function.update (contents s.fs) node.toNat (some (splice all pos b.bytes)) ∧
      OpenAt after tid (fdIndex rdi) node (pos + b.bytes.length) (splice all pos b.bytes) := by
  have standard := found_standard opened.found
  have cap : min b.rdx.toNat (1 <<< 20) = b.len := Nat.min_eq_left short
  unfold syscall Buffer.write sysWrite at done
  dsimp only at done
  split at done
  · cases done
    exact absurd succeeded (by decide)
  rw [if_neg (by omega), opened.found, cap] at done
  obtain ⟨⟨n, fs⟩, taken, rest⟩ := (bind_ok _ _ _).mp done
  change nodeWrite s.fs node pos b.bytes = .ok (n, fs) at taken
  cases rest
  have full : n = b.bytes.length := by
    have stepped := nodeWrite_stepped s.fs fs node pos b.bytes n taken
    cases stepped with
    | refused =>
        dsimp only at succeeded
        omega
    | overwrote => rfl
    | grew => rfl
  subst full
  have laid : Laid fs := step_laid s.fs fs (.nodeWrite node pos b.bytes) _ opened.laid taken
  obtain ⟨bytes, held, _, _, updated⟩ := write_update s.fs fs node pos b.bytes opened.laid taken
  rw [opened.held, Option.some.injEq] at held
  subst bytes
  have stored : contents fs node.toNat = some (splice all pos b.bytes) := by
    rw [updated, Function.update_self]
  refine ⟨by rw [advance_fs]; exact updated, ?_⟩
  exact opened.advance laid stored _ (splice_length all b.bytes pos opened.inside)

theorem replay_writes (opened : OpenAt s tid (fdIndex rdi) node pos all) (writes : List Buffer)
    (short : ∀ b, b ∈ writes → b.len ≤ 2 ^ 20) {rets : List Ret} {after : System}
    (done : replay syscall s (writes.map (Buffer.write tid rdi)) = .ok (rets, after))
    (succeeded : ∀ ret, ret ∈ rets → 0 ≤ ret.value) :
    let data := (writes.map Buffer.bytes).flatten
    contents after.fs = Function.update (contents s.fs) node.toNat (some (splice all pos data)) ∧
      OpenAt after tid (fdIndex rdi) node (pos + data.length) (splice all pos data) := by
  induction writes generalizing s pos all rets with
  | nil =>
      cases done
      simp only [List.map_nil, List.flatten_nil, splice_nothing, ← opened.held, Function.update_eq_self,
        List.length_nil, Nat.add_zero, true_and]
      exact opened
  | cons b rest ih =>
      obtain ⟨⟨ret, next⟩, first, onward⟩ := (bind_ok _ _ _).mp done
      obtain ⟨⟨others, last⟩, replayed, same⟩ := (bind_ok _ _ _).mp onward
      cases same
      obtain ⟨updated, moved⟩ := write_done opened b (short b List.mem_cons_self) first
        (succeeded ret List.mem_cons_self)
      obtain ⟨later, final⟩ := ih moved (fun other member => short other (List.mem_cons_of_mem b member))
        replayed fun other member => succeeded other (List.mem_cons_of_mem ret member)
      have joined := splice_splice all b.bytes (rest.map Buffer.bytes).flatten pos opened.inside
      rw [joined] at later final
      rw [updated, Function.update_idem] at later
      simp only [List.map_cons, List.flatten_cons, List.length_append, ← Nat.add_assoc]
      exact ⟨later, final⟩

end Sequences

/-- An open descriptor at a position inside its file. Reads return consecutive slices
exactly when no length reaches 2^64 from where its call starts. Writes that succeed
leave the same, in one call or in pieces. -/
theorem chunks_do_not_matter (s : System) (reached : Reachable s.fs) (tid : Nat) (rdi : BitVec 64)
    (u : Ufd) (all : List UInt8) (found : fdGet (s.threads tid) (fdIndex rdi) = some u)
    (held : contents s.fs u.node.toNat = some all) (inside : u.pos ≤ all.length) :
    (∀ reads : List Buffer, (∀ b, b ∈ reads → badUaddr b.rsi.toNat = false ∧ 1 ≤ b.len) →
      ((∃ rets after, replay syscall s (reads.map (Buffer.read tid rdi)) = .ok (rets, after) ∧
        after.fs = s.fs ∧ Consecutive (all.drop u.pos) rets) ↔
        NoWrap u.pos (all.length - u.pos) (reads.map Buffer.len))) ∧
    (∀ (whole : Buffer) (writes : List Buffer) (ret : Ret) (rets : List Ret) (one many : System),
      whole.len ≤ 2 ^ 20 → whole.bytes = (writes.map Buffer.bytes).flatten →
      syscall s (whole.write tid rdi) = .ok (ret, one) → 0 ≤ ret.value →
      replay syscall s (writes.map (Buffer.write tid rdi)) = .ok (rets, many) →
      (∀ ret, ret ∈ rets → 0 ≤ ret.value) →
      contents one.fs = contents many.fs ∧
        fdGet (one.threads tid) (fdIndex rdi) = fdGet (many.threads tid) (fdIndex rdi)) := by
  have opened := openAt_of_found u reached found held inside
  constructor
  · intro reads good
    constructor
    · rintro ⟨rets, after, done, _⟩
      exact replay_reads_noWrap opened reads (fun b member => (good b member).1) rets after done
    · intro fits
      obtain ⟨after, done, same⟩ := replay_reads opened reads (fun b member => (good b member).1) fits
      refine ⟨_, after, done, same, pieces_consecutive _ _ fun len member => ?_⟩
      obtain ⟨b, listed, rfl⟩ := List.mem_map.mp member
      exact (good b listed).2
  · intro whole writes ret rets one many short joined first succeeded second allSucceeded
    -- No piece is longer than the whole.
    have pieces : ∀ b, b ∈ writes → b.len ≤ 2 ^ 20 := by
      intro b member
      have listed : b.bytes ∈ writes.map Buffer.bytes := List.mem_map_of_mem member
      have part := (List.sublist_flatten_of_mem listed).length_le
      rw [← joined, b.bytes_length, whole.bytes_length] at part
      omega
    obtain ⟨oneContents, oneOpen⟩ := write_done opened whole short first succeeded
    obtain ⟨manyContents, manyOpen⟩ := replay_writes opened writes pieces second allSucceeded
    rw [← joined] at manyContents manyOpen
    exact ⟨oneContents.trans manyContents.symm, oneOpen.found.trans manyOpen.found.symm⟩

theorem syscall_reachable (s after : System) (op : Op) (ret : Ret) (reached : Reachable s.fs)
    (done : syscall s op = .ok (ret, after)) : Reachable after.fs := by
  rcases (syscall_effect s after op ret done).fs with same | ⟨change, value, taken, _⟩
  · rw [same]
    exact reached
  · exact reachable_step reached taken

def Served (s : System) : Prop := Run syscall (fun _ _ => True) firstWorld.sys s

theorem served_reachable (s : System) (served : Served s) : Reachable s.fs :=
  run_invariant syscall _ (fun s => Reachable s.fs)
    (fun before op ret after reached _ done => syscall_reachable before after op ret reached done)
    served emptyFs_reachable

def twoBytes : List Op :=
  [⟨1, userText [47, 102], .openFile 4096 2⟩, ⟨1, userText [104, 105], .write 3 4096 2⟩,
    ⟨1, userText [47, 102], .openFile 4096 0⟩]

def Buffer.sized (rdx : BitVec 64) : Buffer := ⟨userText [104, 105], 4096, rdx, 0⟩

theorem twoBytes_served : ∃ s, Served s ∧ fdGet (s.threads 1) 4 = some ⟨1, 0⟩ ∧
    contents s.fs 1 = some [104, 105] := by
  have evaluated : (replay syscall firstWorld.sys twoBytes).map
      (fun done => (fdGet (done.2.threads 1) 4, contents done.2.fs 1)) =
      .ok (some ⟨1, 0⟩, some [104, 105]) := by decide +kernel
  obtain ⟨⟨rets, s⟩, replayed, same⟩ := (map_ok _ _ _).mp evaluated
  obtain ⟨found, held⟩ := Prod.mk.inj same
  exact ⟨s, replay_run syscall _ twoBytes (fun _ _ _ => trivial) _ _ _ replayed, found, held⟩

theorem chunks_do_not_matter_two_bytes : ∃ s rets after, Served s ∧
    replay syscall s ([Buffer.sized 1, Buffer.sized 8, Buffer.sized 8].map (Buffer.read 1 4)) =
      .ok (rets, after) ∧ after.fs = s.fs ∧ Consecutive [104, 105] rets := by
  obtain ⟨s, served, found, held⟩ := twoBytes_served
  obtain ⟨rets, after, done, same, consecutive⟩ :=
    ((chunks_do_not_matter s (served_reachable s served) 1 4 ⟨1, 0⟩ [104, 105] found held (by decide)).1
      [Buffer.sized 1, Buffer.sized 8, Buffer.sized 8] (by decide)).mpr (by
        simp [NoWrap, Buffer.len, Buffer.sized])
  exact ⟨s, rets, after, served, done, same, consecutive⟩

theorem read_any_length_two_bytes : ∃ s ret after, Served s ∧
    syscall s ((Buffer.sized 8).read 1 4) = .ok (ret, after) ∧ ret = ⟨2, [104, 105]⟩ ∧
    fdGet (after.threads 1) 4 = some ⟨1, 2⟩ := by
  obtain ⟨s, served, found, held⟩ := twoBytes_served
  obtain ⟨⟨value, bytes⟩, after, done, exactly⟩ := (read_any_length_iff s (served_reachable s served) 1 4
    ⟨1, 0⟩ [104, 105] found held (Buffer.sized 8) (by decide)).mpr (by decide)
  have copied := exactly.bytes
  have counted := exactly.value
  have moved := exactly.moved
  dsimp only at copied counted moved
  subst copied counted
  exact ⟨s, _, after, served, done, rfl, moved⟩

/-- One byte has been read, and the rest is asked for with the largest length: the end of
the range wraps to its start minus one. `sys_read` has then made a slice of more than
`isize::MAX` bytes, which is outside Rust's guarantees: the check of the range panics as
written, and a build optimised on that guarantee may leave the check out. -/
theorem largest_read_panics : ∃ s, Served s ∧ fdGet (s.threads 1) (fdIndex 4) = some ⟨1, 1⟩ ∧
    contents s.fs 1 = some [104, 105] ∧
    syscall s ((Buffer.sized (-1)).read 1 4) = .error .range := by
  obtain ⟨s, served, found, held⟩ := twoBytes_served
  have opened : OpenAt s 1 (fdIndex 4) 1 0 [104, 105] :=
    openAt_of_found ⟨1, 0⟩ (served_reachable s served) found held (by decide)
  obtain ⟨after, done, _, moved⟩ := read_done opened (Buffer.sized 1) (by decide) (by decide)
  exact ⟨after, served.tail ⟨_, _, trivial, done⟩, moved.found, moved.held,
    read_wraps moved (Buffer.sized (-1)) (by decide) (by decide)⟩

/-- Both lengths stay below 2^64 from the first position. The second call starts at 1 and
panics, again with a slice of more than `isize::MAX` bytes, outside Rust's guarantees. -/
theorem long_read_panics : ∃ (s : System) (reads : List Buffer), Served s ∧
    fdGet (s.threads 1) (fdIndex 4) = some ⟨1, 0⟩ ∧
    contents s.fs 1 = some [104, 105] ∧
    (∀ b, b ∈ reads → badUaddr b.rsi.toNat = false ∧ 1 ≤ b.len ∧ 0 + b.len < 2 ^ 64) ∧
    replay syscall s (reads.map (Buffer.read 1 4)) = .error .range := by
  obtain ⟨s, served, found, held⟩ := twoBytes_served
  refine ⟨s, [Buffer.sized 1, Buffer.sized (-1)], served, found, held, by decide, ?_⟩
  have opened : OpenAt s 1 (fdIndex 4) 1 0 [104, 105] :=
    openAt_of_found ⟨1, 0⟩ (served_reachable s served) found held (by decide)
  obtain ⟨after, done, _, moved⟩ := read_done opened (Buffer.sized 1) (by decide) (by decide)
  have panics := read_wraps moved (Buffer.sized (-1)) (by decide) (by decide)
  simp only [List.map_cons, List.map_nil, replay, done, ok_bind, panics]
  rfl

end Shizuku.Syscalls
