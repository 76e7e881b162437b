import Mathlib.Data.List.TakeWhile
import Shizuku.FileChunks
import Shizuku.WorkingDirectory

/-!
`abs_path` on its buffers. The argument is copied into 256 bytes, and then the working
directory, a slash and the argument are copied one behind the other into 256 bytes,
each copy cut to the room that is left. A relative argument that does not fit behind
the working directory is cut without notice.
-/

namespace Shizuku.Syscalls

open ByteMemory Machine Tmpfs Sched

def cString (buf : Nat → UInt8) (size : Nat) : List UInt8 := (slice buf 0 size).takeWhile (· != 0)

/-- The loop of `copy_ustr` with `left` rounds to go, and the look at one more byte. -/
def copyUstrLoop (user : Nat → UInt8) (uptr size : Nat) :
    Nat → Nat → (Nat → UInt8) → Outcome (Int × (Nat → UInt8))
  | 0, i, out =>
      if user (uptr + i) = 0 then do
        index size i
        return (i, blit out i [0])
      else .ok (-1, out)
  | left + 1, i, out =>
      if user (uptr + i) = 0 then do
        index size i
        return (i, blit out i [0])
      else do
        index size i
        copyUstrLoop user uptr size left (i + 1) (blit out i [user (uptr + i)])

def copyUstrInto (user : Nat → UInt8) (uptr size : Nat) (out : Nat → UInt8) :
    Outcome (Int × (Nat → UInt8)) :=
  if badUaddr uptr then .ok (-1, out) else copyUstrLoop user uptr size (size - 1) 0 out

/-- The branch of `abs_path` for an argument that starts with a slash: the buffer and `n`. -/
def absoluteInto (raw : Nat → UInt8) (rawLen size : Nat) (out : Nat → UInt8) :
    Outcome ((Nat → UInt8) × Nat) := do
  let n := min rawLen (size - 1)
  range size 0 n
  range pathMax 0 n
  return (blit out 0 (slice raw 0 n), n)

def relativeInto (cwd : List UInt8) (raw : Nat → UInt8) (rawLen size : Nat) (out : Nat → UInt8) :
    Outcome ((Nat → UInt8) × Nat) := do
  let cn := min cwd.length (size - 1)
  range size 0 cn
  let based := blit out 0 (cwd.take cn)
  let joint := if cn + 1 < size ∧ 0 < cn ∧ based (cn - 1) ≠ slash then [slash] else []
  let n := cn + joint.length
  let rem := min (size - n - 1) rawLen
  range size n (n + rem)
  range pathMax 0 rem
  return (blit (blit based cn joint) n (slice raw 0 rem), n + rem)

def joinInto (cwd : List UInt8) (raw : Nat → UInt8) (rawLen size : Nat) (out : Nat → UInt8) :
    Outcome ((Nat → UInt8) × Nat) :=
  if raw 0 = slash then absoluteInto raw rawLen size out else relativeInto cwd raw rawLen size out

def absPathInto (user : Nat → UInt8) (t : Thread) (uptr size : Nat) (out : Nat → UInt8) :
    Outcome (Int × (Nat → UInt8)) := do
  let (copied, raw) ← copyUstrInto user uptr pathMax fun _ => 0
  if copied < 0 then return (-1, out)
  let (built, n) ← joinInto (cwdStr t) raw (cString raw pathMax).length size out
  index size (size - 1)
  let closed := blit built (size - 1) [0]
  return (0, if n < size then blit closed n [0] else closed)

structure UserString (user : Nat → UInt8) (uptr : Nat) (raw : List UInt8) : Prop where
  bytes : slice user uptr raw.length = raw
  ended : user (uptr + raw.length) = 0
  whole : 0 ∉ raw

/-- The path that is meant: the argument, or the argument below the working directory. -/
def joined (cwd raw : List UInt8) : List UInt8 :=
  if raw.head? = some slash then raw
  else if cwd.getLast? = some slash then cwd ++ raw
  else cwd ++ slash :: raw

section Copies
variable {user : Nat → UInt8} {uptr size : Nat} {raw : List UInt8}

theorem UserString.byte (string : UserString user uptr raw) {i : Nat} (inside : i < raw.length) :
    raw[i]? = some (user (uptr + i)) := by
  conv_lhs => rw [← string.bytes]
  rw [slice_getElem?, if_pos inside]

theorem UserString.nonzero (string : UserString user uptr raw) {i : Nat} (inside : i < raw.length) :
    user (uptr + i) ≠ 0 := by
  intro zero
  apply string.whole
  rw [← zero]
  exact List.mem_of_getElem? (string.byte inside)

theorem copyUstrLoop_ends (string : UserString user uptr raw) (left : Nat) (out : Nat → UInt8)
    (room : raw.length < size) (before : slice out 0 raw.length = raw) :
    ∃ copy, copyUstrLoop user uptr size left raw.length out = .ok (raw.length, copy) ∧
      slice copy 0 raw.length = raw ∧ copy raw.length = 0 := by
  refine ⟨blit out raw.length [0], ?_, ?_, by simp [blit]⟩
  · cases left with
    | zero => simp [copyUstrLoop, string.ended, index, room]
    | succ left => simp [copyUstrLoop, string.ended, index, room]
  · rw [slice_blit_disjoint _ _ _ _ _ (by omega), before]

theorem copyUstrLoop_copies (string : UserString user uptr raw) (left i : Nat) (out : Nat → UInt8)
    (rounds : i + left + 1 = size) (inside : i ≤ raw.length) (before : slice out 0 i = raw.take i) :
    (raw.length < size → ∃ copy, copyUstrLoop user uptr size left i out = .ok (raw.length, copy) ∧
      slice copy 0 raw.length = raw ∧ copy raw.length = 0) ∧
    (size ≤ raw.length → ∃ copy, copyUstrLoop user uptr size left i out = .ok (-1, copy)) := by
  -- one round copies one more byte; at the end of the string both forms of the loop stop
  induction left generalizing i out with
  | zero =>
      constructor
      · intro room
        obtain rfl : i = raw.length := by omega
        exact copyUstrLoop_ends string 0 out room (by rw [before, List.take_length])
      · intro long
        have byte := string.nonzero (show i < raw.length by omega)
        exact ⟨out, by simp [copyUstrLoop, byte]⟩
  | succ left ih =>
      by_cases last : i = raw.length
      · subst last
        refine ⟨fun room => ?_, fun long => absurd long (by omega)⟩
        exact copyUstrLoop_ends string (left + 1) out room (by rw [before, List.take_length])
      · have more : i < raw.length := by omega
        have written := slice_append out i [user (uptr + i)]
        have taken : raw.take (i + 1) = raw.take i ++ [user (uptr + i)] := by
          rw [List.take_add_one, string.byte more, Option.toList_some]
        have round : copyUstrLoop user uptr size (left + 1) i out =
            copyUstrLoop user uptr size left (i + 1) (blit out i [user (uptr + i)]) := by
          simp [copyUstrLoop, string.nonzero more, index, show i < size by omega]
        rw [round]
        apply ih (i + 1) _ (by omega) more
        rw [taken, ← before]
        exact written

theorem copyUstrInto_copies (string : UserString user uptr raw) (good : ¬ badUaddr uptr = true)
    (room : raw.length < pathMax) (out : Nat → UInt8) :
    ∃ copy, copyUstrInto user uptr pathMax out = .ok (raw.length, copy) ∧
      slice copy 0 raw.length = raw ∧ copy raw.length = 0 := by
  have loop := copyUstrLoop_copies string (pathMax - 1) 0 out
    (show 0 + (pathMax - 1) + 1 = pathMax from rfl) (Nat.zero_le _) (by simp [slice])
  rw [copyUstrInto, if_neg good]
  exact loop.1 room

theorem copyUstrInto_refuses (string : UserString user uptr raw)
    (refused : badUaddr uptr = true ∨ pathMax ≤ raw.length) (out : Nat → UInt8) :
    ∃ copy, copyUstrInto user uptr pathMax out = .ok (-1, copy) := by
  by_cases bad : badUaddr uptr = true
  · exact ⟨out, by rw [copyUstrInto, if_pos bad]⟩
  · have loop := copyUstrLoop_copies string (pathMax - 1) 0 out
      (show 0 + (pathMax - 1) + 1 = pathMax from rfl) (Nat.zero_le _) (by simp [slice])
    rw [copyUstrInto, if_neg bad]
    exact loop.2 (refused.resolve_left bad)

theorem UserString.copied (string : UserString user uptr raw) :
    copyUstr user uptr pathMax =
      if badUaddr uptr = true ∨ pathMax ≤ raw.length then none else some raw := by
  unfold copyUstr
  by_cases bad : badUaddr uptr = true
  · rw [if_pos bad, if_pos (.inl bad)]
  by_cases long : pathMax ≤ raw.length
  · have nonzero : ((List.range pathMax).map fun i => user (uptr + i)).takeWhile (· != 0) =
        (List.range pathMax).map fun i => user (uptr + i) := by
      apply List.takeWhile_eq_self_iff.mpr
      intro byte member
      obtain ⟨i, low, rfl⟩ := List.mem_map.mp member
      exact bne_iff_ne.mpr (string.nonzero (Nat.lt_of_lt_of_le (List.mem_range.mp low) long))
    rw [if_neg bad, nonzero, if_pos (Or.inr long)]
    simp
  · have held : slice (fun i => user (uptr + i)) 0 raw.length = raw := by
      conv_rhs => rw [← string.bytes]
      simp [slice]
    have text := takeWhile_slice held string.ended (Nat.lt_of_not_le long) string.whole
    simp only [slice, Nat.zero_add] at text
    rw [if_neg bad, if_neg (not_or.mpr ⟨bad, long⟩), text]
    exact if_pos (Nat.lt_of_not_le long)

end Copies

def cutBase (cwd : List UInt8) : List UInt8 :=
  if cwd ≠ [] ∧ cwd.getLast? ≠ some slash then cwd ++ [slash] else cwd

def cutPath (cwd raw : List UInt8) : List UInt8 :=
  if raw.head? = some slash then raw
  else cutBase cwd ++ raw.take (pathMax - 1 - (cutBase cwd).length)

theorem cutBase_length (cwd : List UInt8) : (cutBase cwd).length ≤ cwd.length + 1 := by
  unfold cutBase
  split
  · simp
  · omega

theorem slice_taken {mem : Nat → UInt8} {text : List UInt8} (held : slice mem 0 text.length = text)
    {n : Nat} (inside : n ≤ text.length) : slice mem 0 n = text.take n := by
  have part := slice_drop_take mem 0 text.length 0 n (by omega)
  rw [held] at part
  exact part.symm

theorem head_slice {mem : Nat → UInt8} {text : List UInt8} (held : slice mem 0 text.length = text)
    (ended : text = [] → mem 0 = 0) : mem 0 = slash ↔ text.head? = some slash := by
  cases text with
  | nil =>
      rw [ended rfl]
      decide
  | cons byte rest =>
      have first : (slice mem 0 (byte :: rest).length)[0]? = some byte := by rw [held]; rfl
      rw [slice_getElem?, if_pos (by simp)] at first
      cases first
      simp

theorem cutPath_whole {cwd raw : List UInt8} (base : 0 ∉ cwd) (whole : 0 ∉ raw) :
    0 ∉ cutPath cwd raw := by
  have start : (0 : UInt8) ∉ cutBase cwd := by
    unfold cutBase
    split
    · simp [base, slash]
    · exact base
  unfold cutPath
  split
  · exact whole
  · intro member
    rcases List.mem_append.mp member with front | back
    · exact start front
    · exact whole (List.mem_of_mem_take back)

section Joining
variable {copy : Nat → UInt8} (out : Nat → UInt8) {cwd raw : List UInt8}

theorem absoluteInto_holds (held : slice copy 0 raw.length = raw) (room : raw.length < pathMax) :
    ∃ built, absoluteInto copy raw.length pathMax out = .ok (built, raw.length) ∧
      slice built 0 raw.length = raw := by
  have all : min raw.length (pathMax - 1) = raw.length := by omega
  refine ⟨blit out 0 raw, ?_, slice_blit_all out 0 raw⟩
  simp only [absoluteInto, all, held]
  rw [range, if_pos (by omega)]
  rfl

theorem joint_base (short : cwd.length ≤ 95) :
    cwd ++ (if cwd.length + 1 < pathMax ∧ 0 < cwd.length ∧
      blit out 0 cwd (cwd.length - 1) ≠ slash then [slash] else []) = cutBase cwd := by
  -- The test for a slash looks at the byte that was just copied.
  unfold cutBase
  by_cases nothing : cwd = []
  · simp [nothing]
  · have bytes := List.length_pos_iff.mpr nothing
    have last : blit out 0 cwd (cwd.length - 1) = slash ↔ cwd.getLast? = some slash := by
      have byte := blit_inside out 0 cwd (cwd.length - 1) (by omega)
      rw [Nat.zero_add] at byte
      rw [byte, List.getLast?_eq_getElem?, List.getElem?_eq_getElem (by omega), Option.some.injEq]
    have room : cwd.length + 1 < pathMax := by
      simp only [pathMax]
      omega
    simp only [room, bytes, last, nothing, true_and, ne_eq, not_false_eq_true]
    split
    · rfl
    · rw [List.append_nil]

theorem relativeInto_holds (held : slice copy 0 raw.length = raw) (room : raw.length < pathMax)
    (short : cwd.length ≤ 95) :
    ∃ built n, relativeInto cwd copy raw.length pathMax out = .ok (built, n) ∧ n < pathMax ∧
      slice built 0 n = cutBase cwd ++ raw.take (pathMax - 1 - (cutBase cwd).length) := by
  have joint := joint_base out short
  have cn : min cwd.length (pathMax - 1) = cwd.length := by
    simp only [pathMax]
    omega
  simp only [relativeInto, cn, List.take_length]
  generalize (if cwd.length + 1 < pathMax ∧ 0 < cwd.length ∧
    blit out 0 cwd (cwd.length - 1) ≠ slash then [slash] else []) = slashes at joint ⊢
  have sized := congrArg List.length joint
  have fits := cutBase_length cwd
  rw [List.length_append] at sized
  have rest : pathMax - (cutBase cwd).length - 1 = pathMax - 1 - (cutBase cwd).length := by omega
  have own : slice copy 0 (min (pathMax - 1 - (cutBase cwd).length) raw.length) =
      raw.take (pathMax - 1 - (cutBase cwd).length) := by
    rw [slice_taken held (Nat.min_le_right _ _), ← List.take_eq_take_min]
  have count : (raw.take (pathMax - 1 - (cutBase cwd).length)).length =
      min (pathMax - 1 - (cutBase cwd).length) raw.length := List.length_take
  rw [sized, rest, own, ← count]
  generalize raw.take (pathMax - 1 - (cutBase cwd).length) = tail at count ⊢
  have inside : (cutBase cwd).length + tail.length < pathMax := by
    simp only [pathMax] at *
    omega
  refine ⟨blit (blit (blit out 0 cwd) cwd.length slashes) (cutBase cwd).length tail,
    (cutBase cwd).length + tail.length, ?_, inside, ?_⟩
  · rw [range, if_pos (by omega), range, if_pos (by omega), range, if_pos (by omega)]
    rfl
  · rw [slice_append, ← sized, slice_append, slice_blit_all, joint]

theorem joinInto_holds (held : slice copy 0 raw.length = raw) (room : raw.length < pathMax)
    (ended : copy raw.length = 0) (short : cwd.length ≤ 95) :
    ∃ built n, joinInto cwd copy raw.length pathMax out = .ok (built, n) ∧ n < pathMax ∧
      slice built 0 n = cutPath cwd raw := by
  have first := head_slice held fun nothing => by rw [nothing] at ended; exact ended
  unfold joinInto cutPath
  by_cases absolute : raw.head? = some slash
  · rw [if_pos (first.mpr absolute), if_pos absolute]
    obtain ⟨built, done, whole⟩ := absoluteInto_holds out held room
    exact ⟨built, raw.length, done, room, whole⟩
  · rw [if_neg (fun starts => absolute (first.mp starts)), if_neg absolute]
    exact relativeInto_holds out held room short

end Joining

section Calls
variable {user : Nat → UInt8} {t : Thread} {uptr : Nat} {raw : List UInt8}

theorem absPathInto_joins (string : UserString user uptr raw) (good : ¬ badUaddr uptr = true)
    (room : raw.length < pathMax) (short : (cwdStr t).length ≤ 95) (out : Nat → UInt8) :
    ∃ after, absPathInto user t uptr pathMax out = .ok (0, after) ∧
      cString after pathMax = cutPath (cwdStr t) raw := by
  obtain ⟨copy, copied, held, ended⟩ := copyUstrInto_copies string good room fun _ => 0
  obtain ⟨built, n, joins, inside, text⟩ := joinInto_holds out held room ended short
  have whole : cString copy pathMax = raw := takeWhile_slice held ended room string.whole
  refine ⟨blit (blit built (pathMax - 1) [0]) n [0], ?_, ?_⟩
  · have positive : ¬ (raw.length : Int) < 0 := by omega
    simp only [absPathInto, copied, ok_bind, if_neg positive, whole, joins, if_pos inside]
    rfl
  · apply takeWhile_slice ?_ (by simp [blit]) inside (cutPath_whole (cwdStr_text t).1 string.whole)
    rw [slice_blit_disjoint _ _ _ _ _ (by omega), slice_blit_disjoint _ _ _ _ _ (by omega), text]

theorem absPathInto_refuses (string : UserString user uptr raw)
    (refused : badUaddr uptr = true ∨ pathMax ≤ raw.length) (out : Nat → UInt8) :
    absPathInto user t uptr pathMax out = .ok (-1, out) := by
  obtain ⟨copy, copied⟩ := copyUstrInto_refuses string refused fun _ => 0
  simp only [absPathInto, copied, ok_bind]
  rfl

theorem absPath_cut (string : UserString user uptr raw) (short : (cwdStr t).length ≤ 95) :
    absPath user t uptr = if badUaddr uptr = true ∨ pathMax ≤ raw.length then none
      else some (strOr [] (cutPath (cwdStr t) raw)) := by
  unfold absPath
  rw [string.copied]
  by_cases refused : badUaddr uptr = true ∨ pathMax ≤ raw.length
  · rw [if_pos refused, if_pos refused]
  · have room : raw.length < pathMax := by omega
    have all : raw.take (pathMax - 1) = raw := List.take_of_length_le (by omega)
    have cwd : (cwdStr t).take (pathMax - 1) = cwdStr t :=
      List.take_of_length_le (by simp only [pathMax]; omega)
    have slashed : (cwdStr t).length + 1 < pathMax := by
      simp only [pathMax]
      omega
    rw [if_neg refused, if_neg refused]
    simp only [all, cwd, slashed, true_and, cutPath, cutBase, Nat.sub_right_comm _ _ 1]
    split
    · rfl
    · rfl

end Calls

/-- Either the call fails or the buffer holds all of the path that is meant, and
the calls that take a path act on that path. -/
structure ExactOrFails (user : Nat → UInt8) (t : Thread) (uptr : Nat) (raw : List UInt8) : Prop where
  buffer : ∀ out, ∃ ret after, absPathInto user t uptr pathMax out = .ok (ret, after) ∧
    (ret = 0 → cString after pathMax = joined (cwdStr t) raw)
  served : ∀ path, absPath user t uptr = some path → path = strOr [] (joined (cwdStr t) raw)

theorem joined_base {cwd raw : List UInt8} (relative : ¬ raw.head? = some slash) (given : cwd ≠ []) :
    joined cwd raw = cutBase cwd ++ raw := by
  unfold joined cutBase
  by_cases slashed : cwd.getLast? = some slash
  · rw [if_neg relative, if_pos slashed, if_neg (fun both => both.2 slashed)]
  · rw [if_neg relative, if_neg slashed, if_pos ⟨given, slashed⟩]
    simp

theorem cutPath_joined_iff (cwd raw : List UInt8) (short : cwd.length ≤ 95) :
    cutPath cwd raw = joined cwd raw ↔
      raw.head? = some slash ∨ (cwd ≠ [] ∧ (joined cwd raw).length < pathMax) := by
  by_cases absolute : raw.head? = some slash
  · exact iff_of_true (by rw [cutPath, joined, if_pos absolute, if_pos absolute]) (.inl absolute)
  rw [or_iff_right absolute, cutPath, if_neg absolute]
  by_cases nothing : cwd = []
  · -- no slash is put before an argument that stands alone
    refine iff_of_false (fun same => ?_) (fun both => both.1 nothing)
    have sizes := congrArg List.length same
    simp [nothing, cutBase, joined, absolute] at sizes
    omega
  · have fits := cutBase_length cwd
    rw [joined_base absolute nothing, List.append_cancel_left_eq, List.take_eq_self_iff,
      List.length_append]
    simp only [nothing, ne_eq, not_false_eq_true, true_and, pathMax]
    omega

/-- The path is exact if and only if it fits the buffer behind the working directory. -/
theorem absPath_exact_iff (user : Nat → UInt8) (t : Thread) (uptr : Nat) (raw : List UInt8)
    (string : UserString user uptr raw) (short : (cwdStr t).length ≤ 95) :
    ExactOrFails user t uptr raw ↔
      badUaddr uptr = true ∨ pathMax ≤ raw.length ∨ raw.head? = some slash ∨
        (cwdStr t ≠ [] ∧ (joined (cwdStr t) raw).length < pathMax) := by
  rw [← or_assoc]
  by_cases refused : badUaddr uptr = true ∨ pathMax ≤ raw.length
  · refine iff_of_true ⟨fun out => ?_, fun path given => ?_⟩ (.inl refused)
    · exact ⟨-1, out, absPathInto_refuses string refused out, by simp⟩
    · rw [absPath_cut string short, if_pos refused] at given
      cases given
  · obtain ⟨good, room⟩ := not_or.mp refused
    have joins := absPathInto_joins string good (Nat.lt_of_not_le room) short
    rw [or_iff_right refused, ← cutPath_joined_iff _ _ short]
    constructor
    · intro exact_
      obtain ⟨after, done, text⟩ := joins fun _ => 0
      obtain ⟨ret, final, again, whole⟩ := exact_.buffer fun _ => 0
      rw [done] at again
      cases again
      rw [← text, whole rfl]
    · intro same
      refine ⟨fun out => ?_, fun path given => ?_⟩
      · obtain ⟨after, done, text⟩ := joins out
        exact ⟨0, after, done, fun _ => text.trans same⟩
      · rw [absPath_cut string short, if_neg refused, same, Option.some.injEq] at given
        exact given.symm

theorem userText_string (text : List UInt8) (whole : 0 ∉ text) :
    UserString (userText text) 4096 text where
  bytes := by
    apply List.ext_getElem?
    intro index
    rw [slice_getElem?]
    by_cases inside : index < text.length
    · simp [userText, inside]
    · simp [inside]
  ended := by simp [userText]
  whole := whole

def inRoot : Thread := Thread.zeroed.setCwd rootPath

theorem absPath_exact_short : ExactOrFails (userText [102, 103]) inRoot 4096 [102, 103] ∧
    joined (cwdStr inRoot) [102, 103] = [47, 102, 103] := by
  have cwd : cwdStr inRoot = rootPath := by decide
  refine ⟨(absPath_exact_iff _ inRoot 4096 [102, 103] (userText_string _ (by decide)) ?_).mpr ?_,
    by rw [cwd]; rfl⟩
  · rw [cwd]
    decide
  · rw [cwd]
    exact .inr (.inr (.inr ⟨by decide, by decide⟩))

/-- 126 times `./` and then `fgh`, 255 bytes in all. -/
def longName : List UInt8 := (List.replicate 126 [46, 47]).flatten ++ [102, 103, 104]

/-- In `/` there is a file `fg` and none of the name `fgh`. A process unlinks `fgh` by a
long name, the last byte is cut off, and `fg` is gone. -/
theorem cut_name_unlinked : ∃ s after,
    Run syscall (fun _ _ => True) ⟨emptyFs, fun _ => inRoot⟩ s ∧ cwdStr (s.threads 1) = rootPath ∧
    UserString (userText longName) 4096 longName ∧
    (∃ out, absPathInto (userText longName) (s.threads 1) 4096 pathMax (fun _ => 0) = .ok (0, out) ∧
      cString out pathMax = (joined rootPath longName).take 255) ∧
    ¬ ExactOrFails (userText longName) (s.threads 1) 4096 longName ∧
    lookup s.fs (joined rootPath longName) = .ok (-1) ∧ lookup s.fs [47, 102, 103] = .ok 1 ∧
    syscall s ⟨1, userText longName, .unlink 4096⟩ = .ok (⟨0, []⟩, after) ∧
    lookup after.fs [47, 102, 103] = .ok (-1) := by
  have string := userText_string longName (by decide)
  have evaluated : (do
      let made ← replay syscall ⟨emptyFs, fun _ => inRoot⟩
        [⟨1, userText [102, 103], .openFile 4096 2⟩]
      let unlinked ← syscall made.2 ⟨1, userText longName, .unlink 4096⟩
      let named ← lookup made.2.fs (joined rootPath longName)
      let there ← lookup made.2.fs [47, 102, 103]
      let gone ← lookup unlinked.2.fs [47, 102, 103]
      return (unlinked.1, cwdStr (made.2.threads 1), named, there, gone)) =
      Except.ok ((⟨0, []⟩ : Ret), rootPath, -1, 1, -1) := by
    decide +kernel
  obtain ⟨⟨rets, s⟩, replayed, rest⟩ := (bind_ok _ _ _).mp evaluated
  obtain ⟨⟨ret, after⟩, unlinked, rest⟩ := (bind_ok _ _ _).mp rest
  obtain ⟨named, looked, rest⟩ := (bind_ok _ _ _).mp rest
  obtain ⟨there, found, rest⟩ := (bind_ok _ _ _).mp rest
  obtain ⟨gone, missing, last⟩ := (bind_ok _ _ _).mp rest
  simp only [pure_ok, Except.ok.injEq, Prod.mk.injEq] at last
  obtain ⟨rfl, cwd, rfl, rfl, rfl⟩ := last
  have short : (cwdStr (s.threads 1)).length ≤ 95 := by
    rw [cwd]
    decide
  obtain ⟨out, joins, text⟩ := absPathInto_joins string (by decide) (by decide +kernel) short fun _ => 0
  have cut : cutPath rootPath longName = (joined rootPath longName).take 255 := by decide +kernel
  rw [cwd, cut] at text
  refine ⟨s, after, replay_run _ _ _ (fun _ _ _ => trivial) _ _ _ replayed, cwd, string,
    ⟨out, joins, text⟩, ?_, looked, found, unlinked, missing⟩
  intro exact_
  obtain ⟨ret, final, again, whole⟩ := exact_.buffer fun _ => 0
  rw [joins] at again
  cases again
  have same := (whole rfl).symm.trans text
  rw [cwd] at same
  exact absurd same (by decide +kernel)

end Shizuku.Syscalls
