import Shizuku.Initrd

/-!
The unpacker with every check that the program or the machine makes: slices of the
archive and of the path buffer are checked against their lengths, sums and products
against 64 bits. Offsets stay numbers here, where the list model keeps the unread part
of the archive. No check ever fails, and the two models agree.
-/

namespace Shizuku.Initrd

open Machine Tmpfs Syscalls ByteMemory

/-- A failed check of the program, or a result that does not fit into a `u64`. -/
inductive Fault where
  | panic (cause : Panic) | overflow
  deriving DecidableEq, Repr

abbrev Guarded (Result : Type) := Except Fault Result

def checked {Result : Type} (outcome : Outcome Result) : Guarded Result :=
  outcome.mapError .panic

def word (n : Nat) : Guarded Nat := if n < 2 ^ 64 then .ok n else .error .overflow

/-- A Rust slice has at most `isize::MAX` bytes. -/
structure Slice where
  bytes : List UInt8
  short : bytes.length < 2 ^ 63

def octalWord (v : Nat) : List UInt8 → Guarded Nat
  | [] => .ok v
  | b :: rest =>
      if b = 0 ∨ b < 48 ∨ 55 < b then .ok v
      else do
        let shifted ← word (v * 8)
        let sum ← word (shifted + (b.toNat - 48))
        octalWord sum rest

def pathBufSize : Nat := 128

def pathBuffer (name : List UInt8) : Guarded ((Nat → UInt8) × Nat) := do
  checked (index pathBufSize 0)
  let n := min name.length 126
  checked (range pathBufSize 1 (1 + n))
  checked (range name.length 0 n)
  let path := blit (blit (fun _ => 0) 0 [slash]) 1 (name.take n)
  let plen := 1 + n
  if 1 < plen then do
    checked (index pathBufSize (plen - 1))
    return (path, if path (plen - 1) = slash then plen - 1 else plen)
  else return (path, plen)

def ensureParentsIn (path : Nat → UInt8) (fs : Fs) : List Nat → Guarded Fs
  | [] => .ok fs
  | q :: later => do
      checked (index pathBufSize q)
      if path q ≠ slash then ensureParentsIn path fs later
      else do
        checked (range pathBufSize 0 q)
        let fs ← checked (ensureDir fs (slice path 0 q))
        ensureParentsIn path fs later

def unpackFile (base : List UInt8) (fs : Fs) (p fsize : Nat) (path : Nat → UInt8) (plen : Nat) :
    Guarded ((Int × Int) × Fs) := do
  let fs ← ensureParentsIn path fs (List.range' 1 (plen - 1))
  let start ← word (p + 512)
  let stop ← word (start + fsize)
  let dataEnd := min stop base.length
  checked (range base.length start dataEnd)
  let (ret, fs) ← checked (create fs (slice path 0 plen) ((base.drop start).take (dataEnd - start)))
  return ((if 0 ≤ ret then 1 else 0, 0), fs)

def unpackAt (base : List UInt8) (fs : Fs) (p fsize : Nat) (ftype : UInt8) (path : Nat → UInt8)
    (plen : Nat) : Guarded ((Int × Int) × Fs) := do
  checked (range pathBufSize 0 plen)
  if validUtf8 [] (slice path 0 plen) then
    if ftype = 53 then do
      let (ret, fs) ← checked (mkdir fs (slice path 0 plen))
      return ((0, if ret = 0 then 1 else 0), fs)
    else if ftype = 48 ∨ ftype = 0 then unpackFile base fs p fsize path plen
    else return ((0, 0), fs)
  else return ((0, 0), fs)

/-- `p += 512 + (fsize + 511) & !511` -/
def nextHeader (p fsize : Nat) : Guarded Nat := do
  let up ← word (fsize + 511)
  let sum ← word (512 + up)
  word (p + sum / 512 * 512)

def unpackBlock (base : List UInt8) (fs : Fs) (p : Nat) : Guarded ((Int × Int) × Fs × Nat) := do
  let blk := base.drop p
  checked (range blk.length 0 100)
  let name := (strOr [] (blk.take 100)).rdropWhile (· == 0)
  checked (range blk.length 124 136)
  let fsize ← octalWord 0 ((blk.drop 124).take 12)
  checked (index blk.length 156)
  let (path, plen) ← pathBuffer name
  let (counts, fs) ← unpackAt base fs p fsize (blk.getD 156 0) path plen
  let p ← nextHeader p fsize
  return (counts, fs, p)

/-- The loop of `tar_unpack`; `none` if it is not over after `fuel` tests of its condition.
The counters are `i32`, and wrap. -/
def tarLoop (base : List UInt8) : Nat → Fs → BitVec 32 → BitVec 32 → Nat →
    Guarded (Option (BitVec 32 × Fs))
  | 0, _, _, _, _ => .ok none
  | fuel + 1, fs, files, dirs, p => do
      let stop ← word (p + 512)
      if base.length < stop then return some (files + dirs, fs)
      else do
        checked (range base.length p base.length)
        checked (index (base.drop p).length 0)
        if (base.drop p).headD 0 = 0 then return some (files + dirs, fs)
        else do
          let (counts, fs, p) ← unpackBlock base fs p
          tarLoop base fuel fs (files + BitVec.ofInt 32 counts.1) (dirs + BitVec.ofInt 32 counts.2) p

section Guards
variable {First Second : Type}

@[simp] theorem guarded_bind (middle : First) (next : First → Guarded Second) :
    ((Except.ok middle : Guarded First) >>= next) = next middle := rfl

@[simp] theorem guarded_pure (result : First) : (pure result : Guarded First) = .ok result := rfl

@[simp] theorem checked_ok (result : First) : checked (.ok result : Outcome First) = .ok result := rfl

theorem checked_bind (first : Outcome First) (next : First → Outcome Second) :
    checked (first >>= next) = checked first >>= fun middle => checked (next middle) := by
  cases first <;> rfl

end Guards

theorem checked_index {bound position : Nat} (inside : position < bound) :
    checked (index bound position) = .ok () := by
  rw [(index_ok _ _ ()).mpr inside, checked_ok]

theorem checked_range {bound start stop : Nat} (ordered : start ≤ stop) (inside : stop ≤ bound) :
    checked (range bound start stop) = .ok () := by
  rw [(range_ok _ _ _ ()).mpr ⟨ordered, inside⟩, checked_ok]

theorem word_ok {n : Nat} (fits : n < 2 ^ 64) : word n = .ok n := if_pos fits

theorem octalWord_octal (bytes : List UInt8) (v count : Nat) (small : v < 8 ^ count)
    (fits : count + bytes.length ≤ 21) :
    octalWord v bytes = .ok (octal v bytes) ∧ octal v bytes < 8 ^ (count + bytes.length) := by
  -- Each digit adds three bits, and 21 digits fit.
  have grows : 8 ^ count ≤ 8 ^ (count + bytes.length) :=
    Nat.pow_le_pow_right (by decide) (Nat.le_add_right _ _)
  induction bytes generalizing v count with
  | nil => exact ⟨rfl, Nat.lt_of_lt_of_le small grows⟩
  | cons b rest ih =>
      rw [List.length_cons] at fits grows ⊢
      simp only [octalWord, octal]
      by_cases stops : b = 0 ∨ b < 48 ∨ 55 < b
      · rw [if_pos stops, if_pos stops]
        exact ⟨rfl, Nat.lt_of_lt_of_le small grows⟩
      · have digit : b.toNat - 48 < 8 := by
          rw [not_or, not_or, UInt8.lt_iff_toNat_lt, UInt8.lt_iff_toNat_lt] at stops
          simp only [UInt8.reduceToNat] at stops
          omega
        have next : v * 8 + (b.toNat - 48) < 8 ^ (count + 1) := by
          rw [pow_succ]
          omega
        have bound : 8 ^ (count + 1) ≤ 2 ^ 63 :=
          (Nat.pow_le_pow_right (by decide) (by omega : count + 1 ≤ 21)).trans (by decide)
        obtain ⟨same, below⟩ := ih (v * 8 + (b.toNat - 48)) (count + 1) next (by omega)
          (Nat.pow_le_pow_right (by decide) (Nat.le_add_right _ _))
        rw [if_neg stops, if_neg stops, word_ok (by omega), guarded_bind, word_ok (by omega),
          guarded_bind]
        exact ⟨same, by rwa [Nat.add_assoc, Nat.add_comm 1] at below⟩

theorem pathBuffer_path (field : List UInt8) :
    ∃ path plen, pathBuffer ((strOr [] field).rdropWhile (· == 0)) = .ok (path, plen) ∧
      slice path 0 plen = memberPath field ∧ 1 ≤ plen ∧ plen ≤ 127 := by
  unfold memberPath pathBuffer
  generalize (strOr [] field).rdropWhile (· == 0) = name
  dsimp only
  have cut := Nat.min_le_right name.length 126
  have inside := Nat.min_le_left name.length 126
  have length := List.length_take_of_le inside
  generalize min name.length 126 = n at cut inside length ⊢
  have held := slice_append (blit (fun _ => 0) 0 [slash]) 1 (name.take n)
  have first := slice_blit_all (fun _ => (0 : UInt8)) 0 [slash]
  rw [List.length_singleton] at first
  rw [first, length, List.singleton_append] at held
  generalize blit (blit (fun _ => 0) 0 [slash]) 1 (name.take n) = path at held
  rw [checked_index (by decide), checked_range (by omega) (by unfold pathBufSize; omega),
    checked_range (Nat.zero_le n) inside, guarded_bind, guarded_bind, guarded_bind]
  rw [← held, slice_length]
  by_cases named : 1 < 1 + n
  · have last : slice path 0 (1 + n) = slice path 0 n ++ [path n] := by
      rw [Nat.add_comm, slice_snoc, Nat.zero_add]
    rw [if_pos named, checked_index (by unfold pathBufSize; omega), guarded_bind, Nat.add_sub_cancel_left]
    by_cases ends : path n = slash
    · refine ⟨path, n, by rw [if_pos ends, guarded_pure], ?_, by omega, by omega⟩
      rw [last, ends, List.getLast?_concat, if_pos ⟨named, rfl⟩, List.dropLast_concat]
    · refine ⟨path, 1 + n, by rw [if_neg ends, guarded_pure], ?_, by omega, by omega⟩
      rw [if_neg]
      rw [last, List.getLast?_concat, Option.some.injEq]
      exact fun both => ends both.2
  · rw [if_neg named]
    exact ⟨path, 1 + n, rfl, by rw [if_neg (fun both => named both.1)], by omega, by omega⟩

theorem ensureParentsIn_eq (path : Nat → UInt8) (fs : Fs) (q count : Nat)
    (inside : q + count ≤ pathBufSize) :
    ensureParentsIn path fs (List.range' q count) =
      checked (ensureParents fs (slice path 0 q) (slice path q count)) := by
  -- The loop over positions meets what the recursion over the rest of the path meets.
  -- The part of the path before `q` is what the recursion has read, the rest what it has not.
  induction count generalizing fs q with
  | zero => rfl
  | succ count ih =>
      have further : slice path 0 q ++ [path q] = slice path 0 (q + 1) := by
        rw [slice_snoc, Nat.zero_add]
      rw [List.range'_succ, ensureParentsIn, slice_cons, ensureParents,
        checked_index (by omega), guarded_bind, further]
      by_cases plain : path q ≠ slash
      · rw [if_pos plain, if_pos plain]
        exact ih fs (q + 1) (by omega)
      · rw [if_neg plain, if_neg plain, checked_range (Nat.zero_le q) (by omega), guarded_bind,
          checked_bind]
        refine bind_congr fun after => ?_
        exact ih after (q + 1) (by omega)

theorem nextHeader_stride (p fsize : Nat) (fits : p + stride fsize < 2 ^ 64) :
    nextHeader p fsize = .ok (p + stride fsize) := by
  unfold stride at fits ⊢
  rw [nextHeader, word_ok (by omega), guarded_bind, word_ok (by omega), guarded_bind, word_ok fits]

theorem data_cut (base : List UInt8) (start fsize : Nat) :
    (base.drop start).take (min (start + fsize) base.length - start) =
      (base.drop start).take fsize := by
  rw [@List.take_eq_take_min _ (base.drop start) fsize, List.length_drop]
  congr 1
  omega

theorem unpackAt_eq (base : List UInt8) (fs : Fs) (p fsize : Nat) (ftype : UInt8)
    (path : Nat → UInt8) (plen : Nat) (header : p + 512 ≤ base.length)
    (fits : p + 512 + fsize < 2 ^ 64) (named : 1 ≤ plen) (short : plen ≤ pathBufSize) :
    unpackAt base fs p fsize ftype path plen =
      checked (unpackMember fs ftype (slice path 0 plen) ((base.drop (p + 512)).take fsize)) := by
  have front : (slice path 0 plen).take 1 = slice path 0 1 := by
    simpa using slice_drop_take path 0 plen 0 1 (by omega)
  have back : (slice path 0 plen).drop 1 = slice path 1 (plen - 1) := by
    have parts := slice_drop_take path 0 plen 1 (plen - 1) (by omega)
    rwa [List.take_of_length_le (by simp), Nat.zero_add] at parts
  rw [unpackAt, unpackMember, checked_range (Nat.zero_le plen) short, guarded_bind]
  split_ifs
  · rw [checked_bind]
    rfl
  · rw [unpackFile, ensureParentsIn_eq path fs 1 (plen - 1) (by omega), checked_bind, front, back]
    refine bind_congr fun after => ?_
    rw [word_ok (by omega), guarded_bind, word_ok fits, guarded_bind]
    dsimp only
    rw [checked_range (by omega) (by omega), guarded_bind, data_cut, checked_bind]
    rfl
  · rfl
  · rfl

theorem step_reaches {fs : Fs} (reached : Reachable fs) (op : Tmpfs.Op) :
    ∃ ret after, step fs op = .ok (ret, after) ∧ Reachable after := by
  obtain ⟨ret, after, taken⟩ := step_returns fs op (reachable_laid fs reached)
  exact ⟨ret, after, taken, reachable_step reached taken⟩

theorem pathType_returns (fs : Fs) (path : Path) : ∃ typ, pathType fs path = .ok typ := by
  rw [pathType, resolve_namedBy, ok_bind]
  cases named : namedBy fs path with
  | none => exact ⟨.free, rfl⟩
  | some id =>
      exact ⟨(fs.nodes id).typ, by simp [nodeAt_grounded fs id (namedBy_grounded fs path id named)]⟩

theorem ensureDir_reaches {fs : Fs} (reached : Reachable fs) (sub : Path) :
    ∃ after, ensureDir fs sub = .ok after ∧ Reachable after := by
  unfold ensureDir
  obtain ⟨typ, read⟩ := pathType_returns fs sub
  obtain ⟨ret, after, made, kept⟩ := step_reaches reached (.mkdir sub)
  rw [read, ok_bind, show mkdir fs sub = .ok (ret, after) from made]
  split_ifs
  · exact ⟨after, rfl, kept⟩
  · exact ⟨fs, rfl, reached⟩
  · exact ⟨fs, rfl, reached⟩

theorem ensureParents_reaches {fs : Fs} (reached : Reachable fs) (sub : Path) (rest : List UInt8) :
    ∃ after, ensureParents fs sub rest = .ok after ∧ Reachable after := by
  induction rest generalizing fs sub with
  | nil => exact ⟨fs, rfl, reached⟩
  | cons byte rest ih =>
      rw [ensureParents]
      split_ifs
      · exact ih reached (sub ++ [byte])
      · obtain ⟨after, made, kept⟩ := ensureDir_reaches reached sub
        rw [made, ok_bind]
        exact ih kept (sub ++ [byte])

theorem unpackMember_reaches {fs : Fs} (reached : Reachable fs) (ftype : UInt8) (path : Path)
    (data : List UInt8) :
    ∃ counts after, unpackMember fs ftype path data = .ok (counts, after) ∧ Reachable after := by
  unfold unpackMember
  split_ifs
  · obtain ⟨ret, after, made, kept⟩ := step_reaches reached (.mkdir path)
    rw [show mkdir fs path = .ok (ret, after) from made]
    exact ⟨_, after, rfl, kept⟩
  · obtain ⟨above, ensured, between⟩ := ensureParents_reaches reached (path.take 1) (path.drop 1)
    obtain ⟨ret, after, created, kept⟩ := step_reaches between (.create path data)
    rw [ensured, ok_bind, show create above path data = .ok (ret, after) from created]
    exact ⟨_, after, rfl, kept⟩
  · exact ⟨_, fs, rfl, reached⟩
  · exact ⟨_, fs, rfl, reached⟩

/-! ### The whole loop -/

def sizeField (blk : List UInt8) : Nat := octal 0 ((blk.drop 124).take 12)

theorem sizeField_small (blk : List UInt8) :
    octalWord 0 ((blk.drop 124).take 12) = .ok (sizeField blk) ∧ sizeField blk < 2 ^ 36 := by
  have digits : ((blk.drop 124).take 12).length ≤ 12 := List.length_take_le _ _
  obtain ⟨same, below⟩ := octalWord_octal ((blk.drop 124).take 12) 0 0 (by decide) (by omega)
  have bound : 8 ^ (0 + ((blk.drop 124).take 12).length) ≤ 8 ^ 12 :=
    Nat.pow_le_pow_right (by decide) (by omega)
  exact ⟨same, Nat.lt_of_lt_of_le below bound⟩

theorem unpackBlock_reaches (base : Slice) {fs : Fs} (reached : Reachable fs) {p : Nat}
    (header : p + 512 ≤ base.bytes.length) :
    ∃ counts after, Reachable after ∧
      unpackMember fs ((base.bytes.drop p).getD 156 0) (memberPath ((base.bytes.drop p).take 100))
        (((base.bytes.drop p).drop 512).take (sizeField (base.bytes.drop p))) = .ok (counts, after) ∧
      unpackBlock base.bytes fs p =
        .ok (counts, after, p + stride (sizeField (base.bytes.drop p))) := by
  have short := base.short
  have long : 512 ≤ (base.bytes.drop p).length := by
    rw [List.length_drop]
    omega
  obtain ⟨parsed, small⟩ := sizeField_small (base.bytes.drop p)
  obtain ⟨path, plen, built, held, named, fits⟩ := pathBuffer_path ((base.bytes.drop p).take 100)
  obtain ⟨counts, after, unpacked, kept⟩ := unpackMember_reaches reached
    ((base.bytes.drop p).getD 156 0) (memberPath ((base.bytes.drop p).take 100))
    (((base.bytes.drop p).drop 512).take (sizeField (base.bytes.drop p)))
  have member := unpackAt_eq base.bytes fs p (sizeField (base.bytes.drop p))
    ((base.bytes.drop p).getD 156 0) path plen header (by omega) named (by unfold pathBufSize; omega)
  rw [held, ← List.drop_drop, unpacked, checked_ok] at member
  have next := nextHeader_stride p (sizeField (base.bytes.drop p)) (by unfold stride; omega)
  refine ⟨counts, after, kept, unpacked, ?_⟩
  unfold unpackBlock
  dsimp only
  rw [checked_range (by omega) (by omega), guarded_bind, checked_range (by omega) (by omega),
    guarded_bind, parsed, guarded_bind, checked_index (by omega), guarded_bind, built, guarded_bind]
  dsimp only
  rw [member, guarded_bind]
  dsimp only
  rw [next, guarded_bind, guarded_pure]

/-- The offset may lie behind the end of the archive by the length of one member. -/
theorem tarLoop_follows (base : Slice) (fuel : Nat) {fs : Fs} (reached : Reachable fs)
    (files dirs : Int) {p : Nat} (near : p < 2 ^ 63 + 2 ^ 37)
    (enough : (base.bytes.length - p) / 512 < fuel) :
    ∃ total after, Reachable after ∧
      tarUnpack fs files dirs (base.bytes.drop p) = .ok (total, after) ∧
      tarLoop base.bytes fuel fs (BitVec.ofInt 32 files) (BitVec.ofInt 32 dirs) p =
        .ok (some (BitVec.ofInt 32 total, after)) := by
  -- Both models do the same round at `p`; the bound on `p` keeps every sum within 64 bits.
  induction fuel generalizing fs files dirs p with
  | zero => omega
  | succ fuel ih =>
      have short := base.short
      rw [tarUnpack, tarLoop, word_ok (by omega), guarded_bind, List.length_drop]
      by_cases over_ : base.bytes.length < p + 512
      · rw [if_pos over_, if_pos (by omega), ← BitVec.ofInt_add]
        exact ⟨_, fs, reached, rfl, rfl⟩
      rw [if_neg over_, if_neg (by omega), checked_range (by omega) le_rfl, guarded_bind,
        checked_index (by omega), guarded_bind]
      by_cases last : (base.bytes.drop p).headD 0 = 0
      · rw [if_pos last, if_pos last, ← BitVec.ofInt_add]
        exact ⟨_, fs, reached, rfl, rfl⟩
      obtain ⟨counts, next, kept, unpacked, block⟩ := unpackBlock_reaches base reached
        (Nat.not_lt.mp over_)
      have small := (sizeField_small (base.bytes.drop p)).2
      have ahead : 512 ≤ stride (sizeField (base.bytes.drop p)) := by
        unfold stride
        omega
      have bounded : stride (sizeField (base.bytes.drop p)) < 2 ^ 37 := by
        unfold stride
        omega
      obtain ⟨total, after, final, listed, looped⟩ := ih kept (files + counts.1) (dirs + counts.2)
        (p := p + stride (sizeField (base.bytes.drop p))) (by omega) (by omega)
      refine ⟨total, after, final, ?_, ?_⟩
      · rw [if_neg last]
        dsimp only
        rw [← sizeField, unpacked, ok_bind, List.drop_drop, listed]
      · rw [if_neg last, block, guarded_bind]
        dsimp only
        rw [← BitVec.ofInt_add, ← BitVec.ofInt_add, looped]

/-- For every archive the loop ends after at most one round for each 512 bytes, with no
failed check, no overflow and no access outside the node table or the pool; the file
system stays a reachable one. -/
theorem tarUnpack_survives (base : Slice) (fs : Fs) (reached : Reachable fs) :
    ∃ total after, Reachable after ∧ tarUnpack fs 0 0 base.bytes = .ok (total, after) ∧
      ∀ fuel, base.bytes.length / 512 < fuel →
        tarLoop base.bytes fuel fs 0 0 0 = .ok (some (BitVec.ofInt 32 total, after)) := by
  obtain ⟨total, after, kept, listed, _⟩ := tarLoop_follows base (base.bytes.length / 512 + 1) reached
    0 0 (p := 0) (by decide) (by omega)
  refine ⟨total, after, kept, listed, fun fuel enough => ?_⟩
  obtain ⟨again, same, _, relisted, looped⟩ := tarLoop_follows base fuel reached 0 0 (p := 0)
    (by decide) enough
  have equal := relisted.symm.trans listed
  cases equal
  exact looped

def cutArchive : List UInt8 :=
  [46, 46, 47, 97, 47, 102] ++ List.replicate 118 0 ++ List.replicate 12 55 ++
    List.replicate 20 0 ++ 48 :: List.replicate 355 0 ++ [104, 105]

theorem tarUnpack_survives_cut : Reachable emptyFs ∧ ∃ after, Reachable after ∧
    contents after 2 = some [104, 105] ∧
    ∀ fuel, 1 < fuel → tarLoop cutArchive fuel emptyFs 0 0 0 = .ok (some (1, after)) := by
  obtain ⟨total, after, kept, _, looped⟩ :=
    tarUnpack_survives ⟨cutArchive, by decide +kernel⟩ emptyFs emptyFs_reachable
  have length : cutArchive.length / 512 = 1 := by decide +kernel
  have evaluated : (tarLoop cutArchive 2 emptyFs 0 0 0).map
      (Option.map fun done => (done.1, contents done.2 2)) = .ok (some (1, some [104, 105])) := by
    decide +kernel
  rw [looped 2 (by rw [length]; decide)] at evaluated
  simp only [Except.map, Option.map_some, Except.ok.injEq, Option.some.injEq, Prod.mk.injEq] at evaluated
  refine ⟨emptyFs_reachable, after, kept, evaluated.2, fun fuel enough => ?_⟩
  rw [← evaluated.1]
  exact looped fuel (by rw [length]; exact enough)

end Shizuku.Initrd
