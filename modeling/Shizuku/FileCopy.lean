import Shizuku.OpenFailures

/-!
The program `cp`, over the calls of the kernel: two `stat`s, two `open`s and a loop of
reads of 512 bytes and writes of what came. The destination is opened without being cut
to nothing first, so the copy is laid over what was there.

Each call is given the memory it reads: the argument in the place it has in the stack
frame, and anything elsewhere. The messages on descriptor 2 change nothing and are left out.
-/

namespace Shizuku.Syscalls

open ByteMemory Machine Tmpfs Sched

/-! ### The program -/

def nodeSize (fs : Fs) (id : Int) : Nat :=
  if id < 0 ∨ tnMax ≤ id.toNat then 0 else (fs.nodes id.toNat).size

/-- The values of `VN_FREE`, `VN_FILE` and `VN_DIR`. -/
def vnCode : VnType → Nat
  | .free => 0
  | .file => 1
  | .dir => 2

structure Ustat where
  size : Nat
  typ : Nat

def sysStat (s : System) (tid : Nat) (user : Nat → UInt8) (rdi rsi : BitVec 64) (st : Ustat) :
    Outcome (Int × Ustat) :=
  if badUaddr rsi.toNat then .ok (-1, st)
  else
    match absPath user (s.threads tid) rdi.toNat with
    | none => .ok (-1, st)
    | some path => do
        let id ← lookup s.fs path
        if id < 0 then return (-1, st)
        return (0, ⟨nodeSize s.fs id, vnCode (nodeType s.fs id)⟩)

structure Frame where
  mem : Nat → UInt8
  sp : BitVec 64
  dp : BitVec 64
  st : BitVec 64
  buf : BitVec 64
  valid : ∀ address ∈ [sp, dp, st, buf], badUaddr address.toNat = false

def Frame.holding (f : Frame) (address : BitVec 64) (bytes : List UInt8) : Nat → UInt8 :=
  blit f.mem address.toNat bytes

def cstr (size : Nat) (s : List UInt8) : List UInt8 := textField size s

/-- The loop, for at most `fuel` rounds: `rc` and the system when it is left. -/
def cpLoop (f : Frame) (tid : Nat) (rin rout : Int) : Nat → System → Outcome (Option (Int × System))
  | 0, _ => .ok none
  | fuel + 1, s => do
      let (n, s) ← syscall s ⟨tid, f.mem, .read (.ofInt 64 rin) f.buf 512 0⟩
      if n.value ≤ 0 then return some (0, s)
      let (put, s) ← syscall s
        ⟨tid, f.holding f.buf n.bytes, .write (.ofInt 64 rout) f.buf (.ofInt 64 n.value)⟩
      if put.value ≠ n.value then return some (1, s)
      cpLoop f tid rin rout fuel s

def cpClose (tid : Nat) (rin rout : Int) (s : System) : System :=
  (sysClose (sysClose s tid (.ofInt 64 rin)).2 tid (.ofInt 64 rout)).2

def cp (f : Frame) (tid : Nat) (src dst : List UInt8) (fuel : Nat) (s : System) :
    Outcome (Option (Int × System)) := do
  let sp := f.holding f.sp (cstr 256 src)
  let dp := f.holding f.dp (cstr 256 dst)
  let (found, st) ← sysStat s tid sp f.sp f.st ⟨0, 0⟩
  if found < 0 ∨ st.typ ≠ 1 then return some (1, s)
  let (rin, s) ← sysOpen s tid sp f.sp 0
  if rin.value < 0 then return some (1, s)
  let (found, st) ← sysStat s tid dp f.dp f.st st
  if found = 0 ∧ st.typ ≠ 1 then return some (1, s)
  let (rout, s) ← sysOpen s tid dp f.dp (1 ||| 2)
  if rout.value < 0 then return some (1, s)
  let result ← cpLoop f tid rin.value rout.value fuel s
  return result.map fun (rc, s) => (rc, cpClose tid rin.value rout.value s)

section Kept
variable {s after : System} {tid fd : Nat} {node : Int} {pos : Nat} {all : List UInt8}

theorem OpenAt.kept (opened : OpenAt s tid fd node pos all) (laid : Laid after.fs)
    (same : (after.threads tid).fds fd = (s.threads tid).fds fd)
    (held : contents after.fs node.toNat = some all) : OpenAt after tid fd node pos all where
  laid := laid
  found := by
    have found := opened.found
    unfold fdGet at found ⊢
    rwa [same]
  positive := opened.positive
  held := held
  inside := opened.inside

theorem advance_other (s : System) (tid fd other : Nat) (u : Ufd) (n : Int) (different : other ≠ fd) :
    ((s.advance tid fd u n).threads tid).fds other = (s.threads tid).fds other := by
  unfold System.advance
  split
  · exact setFd_other _ _ _ _ _ _ fun both => different both.2
  · rfl

theorem read_others {rdi : BitVec 64} {b : Buffer} {ret : Ret}
    (done : syscall s (b.read tid rdi) = .ok (ret, after)) (different : fd ≠ fdIndex rdi) :
    (after.threads tid).fds fd = (s.threads tid).fds fd := by
  rcases sysRead_cases s after tid rdi b.rsi b.rdx b.key ret done with ⟨rfl, _⟩ | ⟨_, _, _, rfl⟩
  · rfl
  · exact advance_other _ _ _ _ _ _ different

theorem write_others {rdi : BitVec 64} {b : Buffer} {ret : Ret}
    (done : syscall s (b.write tid rdi) = .ok (ret, after)) :
    (∀ other, other ≠ fdIndex rdi → (after.threads tid).fds other = (s.threads tid).fds other) ∧
      ∀ path, resolve after.fs path = resolve s.fs path := by
  rcases sysWrite_cases s after tid b.user rdi b.rsi b.rdx ret done with
    rfl | ⟨data, n, fs, _, written, rfl⟩
  · exact ⟨fun _ _ => rfl, fun _ => rfl⟩
  · refine ⟨fun other different => advance_other { s with fs := fs } _ _ _ _ _ different, fun path => ?_⟩
    rw [advance_fs]
    exact resolve_written written path

theorem write_returns (laid : Laid s.fs) (tid : Nat) (b : Buffer) (rdi : BitVec 64) :
    ∃ ret after, syscall s (b.write tid rdi) = .ok (ret, after) := by
  simp only [syscall, Buffer.write, sysWrite]
  split
  · exact ⟨_, _, rfl⟩
  split
  · exact ⟨_, _, rfl⟩
  cases fdGet (s.threads tid) (fdIndex rdi) with
  | none => exact ⟨_, _, rfl⟩
  | some u =>
      obtain ⟨n, fs, written⟩ := nodeWrite_returns s.fs u.node u.pos
        ((List.range (min b.rdx.toNat (1 <<< 20))).map fun i => b.user (b.rsi.toNat + i)) laid
      simp only [written, ok_bind]
      exact ⟨_, _, rfl⟩

end Kept

structure Copying (s : System) (tid : Nat) (rin rout : Int) (source dest : Int) (pos : Nat)
    (all cur : List UInt8) : Prop where
  reading : OpenAt s tid (fdIndex (.ofInt 64 rin)) source pos all
  writing : OpenAt s tid (fdIndex (.ofInt 64 rout)) dest pos cur
  apart : fdIndex (.ofInt 64 rin) ≠ fdIndex (.ofInt 64 rout)

theorem rest_of_chunk (all : List UInt8) (pos count : Nat) :
    (all.drop pos).take count ++ all.drop (pos + ((all.drop pos).take count).length) = all.drop pos := by
  rw [List.length_take, List.length_drop, ← List.drop_drop]
  by_cases inside : count ≤ all.length - pos
  · rw [Nat.min_eq_left inside, List.take_append_drop]
  · have none_ : (all.drop pos).drop (all.length - pos) = [] :=
      List.drop_eq_nil_of_le (by rw [List.length_drop])
    rw [Nat.min_eq_right (by omega), List.take_of_length_le (by rw [List.length_drop]; omega), none_,
      List.append_nil]

theorem splice_own (all : List UInt8) (pos count : Nat) :
    splice all pos ((all.drop pos).take count) = all := by
  rw [splice, List.append_assoc, rest_of_chunk, List.take_append_drop]

section Loop
variable {f : Frame} {s : System} {tid : Nat} {rin rout source dest : Int} {pos : Nat}
  {all cur : List UInt8}

theorem Copying.read (copying : Copying s tid rin rout source dest pos all cur) (f : Frame) :
    ∃ read, syscall s ⟨tid, f.mem, .read (.ofInt 64 rin) f.buf 512 0⟩ =
        .ok (⟨((all.drop pos).take 512).length, (all.drop pos).take 512⟩, read) ∧
      read.fs = s.fs ∧
      OpenAt read tid (fdIndex (.ofInt 64 rin)) source (pos + ((all.drop pos).take 512).length) all ∧
      OpenAt read tid (fdIndex (.ofInt 64 rout)) dest pos cur := by
  have valid : badUaddr f.buf.toNat = false := f.valid f.buf (by simp)
  obtain ⟨_, size, below⟩ := contents_stored copying.reading.laid copying.reading.held
  have pool : tnPool = 1048576 := rfl
  have inside := copying.reading.inside
  obtain ⟨read, got, same, reading⟩ := read_done copying.reading ⟨f.mem, f.buf, 512, 0⟩ valid (by
    change pos + 512 < 2 ^ 64
    omega)
  refine ⟨read, got, same, reading, ?_⟩
  exact copying.writing.kept reading.laid (read_others got copying.apart.symm)
    (by rw [same]; exact copying.writing.held)

def Frame.outgoing (f : Frame) (chunk : List UInt8) : Buffer :=
  ⟨f.holding f.buf chunk, f.buf, .ofInt 64 chunk.length, 0⟩

theorem outgoing_bytes (f : Frame) (chunk : List UInt8) (short : chunk.length ≤ 512) :
    (f.outgoing chunk).len = chunk.length ∧ (f.outgoing chunk).bytes = chunk := by
  have length : (f.outgoing chunk).len = chunk.length := by
    change (BitVec.ofInt 64 (chunk.length : Int)).toNat = chunk.length
    rw [BitVec.toNat_ofInt]
    omega
  refine ⟨length, ?_⟩
  rw [Buffer.bytes, length]
  exact slice_blit_all f.mem f.buf.toNat chunk

theorem Copying.written {read next : System} {put : Ret} {chunk : List UInt8}
    (apart : fdIndex (.ofInt 64 rin) ≠ fdIndex (.ofInt 64 rout))
    (reading : OpenAt read tid (fdIndex (.ofInt 64 rin)) source (pos + chunk.length) all)
    (writing : OpenAt read tid (fdIndex (.ofInt 64 rout)) dest pos cur)
    (own : splice all pos chunk = all) (short : chunk.length ≤ 512)
    (done : syscall read ((f.outgoing chunk).write tid (.ofInt 64 rout)) = .ok (put, next))
    (full : put.value = chunk.length) :
    Copying next tid rin rout source dest (pos + chunk.length) all (splice cur pos chunk) ∧
      ∀ path, resolve next.fs path = resolve read.fs path := by
  obtain ⟨count, bytes⟩ := outgoing_bytes f chunk short
  obtain ⟨updated, moved⟩ := write_done writing (f.outgoing chunk) (by omega) done (by omega)
  obtain ⟨others, names⟩ := write_others done
  rw [bytes] at updated moved
  refine ⟨⟨reading.kept moved.laid (others _ apart) ?_, moved, apart⟩, names⟩
  rw [updated]
  by_cases same : source.toNat = dest.toNat
  · have equal := reading.held
    rw [same, writing.held, Option.some.injEq] at equal
    rw [same, Function.update_self, equal, own]
  · rw [Function.update_of_ne same]
    exact reading.held

theorem cpLoop_round (copying : Copying s tid rin rout source dest pos all cur) (fuel : Nat) :
    (all.drop pos = [] ∧ ∃ after, cpLoop f tid rin rout (fuel + 1) s = .ok (some (0, after)) ∧
      after.fs = s.fs) ∨
    (∃ after, cpLoop f tid rin rout (fuel + 1) s = .ok (some (1, after))) ∨
    ∃ next, cpLoop f tid rin rout (fuel + 1) s = cpLoop f tid rin rout fuel next ∧
      pos < pos + ((all.drop pos).take 512).length ∧
      Copying next tid rin rout source dest (pos + ((all.drop pos).take 512).length) all
        (splice cur pos ((all.drop pos).take 512)) ∧
      ∀ path, resolve next.fs path = resolve s.fs path := by
  obtain ⟨read, got, same, reading, writing⟩ := copying.read f
  have short : ((all.drop pos).take 512).length ≤ 512 := List.length_take_le _ _
  have own := splice_own all pos 512
  simp only [cpLoop, got, ok_bind]
  by_cases ended : all.drop pos = []
  · exact .inl ⟨ended, read, by simp [ended], same⟩
  have some_ : 0 < ((all.drop pos).take 512).length := by
    rw [List.length_take]
    exact Nat.lt_min.mpr ⟨by decide, List.length_pos_iff.mpr ended⟩
  generalize (all.drop pos).take 512 = chunk at *
  rw [if_neg (by omega)]
  obtain ⟨put, next, done⟩ := write_returns reading.laid tid (f.outgoing chunk) (.ofInt 64 rout)
  have taken : syscall read ⟨tid, f.holding f.buf chunk,
      .write (.ofInt 64 rout) f.buf (.ofInt 64 chunk.length)⟩ = .ok (put, next) := done
  simp only [taken, ok_bind]
  by_cases full : put.value = chunk.length
  · obtain ⟨onward, names⟩ := Copying.written copying.apart reading writing own short done full
    refine .inr (.inr ⟨next, if_neg (not_not.mpr full), by omega, onward, fun path => ?_⟩)
    rw [names, same]
  · exact .inr (.inl ⟨next, if_pos full⟩)

theorem cpLoop_returns (fuel : Nat) (copying : Copying s tid rin rout source dest pos all cur)
    (enough : all.length < pos + fuel) : ∃ rc after,
      cpLoop f tid rin rout fuel s = .ok (some (rc, after)) := by
  -- The loop ends: the source has an end.
  induction fuel generalizing s pos cur with
  | zero =>
      have inside := copying.reading.inside
      omega
  | succ fuel ih =>
      rcases cpLoop_round copying fuel (f := f) with
        ⟨_, after, done, _⟩ | ⟨after, done⟩ | ⟨next, onward, more, copied, _⟩
      · exact ⟨0, after, done⟩
      · exact ⟨1, after, done⟩
      · rw [onward]
        exact ih copied (by omega)

/-- What was before in the destination is overwritten from `pos` on with the rest of the source. -/
theorem cpLoop_copies (fuel : Nat) (copying : Copying s tid rin rout source dest pos all cur)
    {after : System} (done : cpLoop f tid rin rout fuel s = .ok (some (0, after))) :
    contents after.fs dest.toNat = some (splice cur pos (all.drop pos)) ∧
      ∀ path, resolve after.fs path = resolve s.fs path := by
  induction fuel generalizing s pos cur with
  | zero => cases done
  | succ fuel ih =>
      rcases cpLoop_round copying fuel (f := f) with
        ⟨ended, last, stopped, same⟩ | ⟨last, failed⟩ | ⟨next, onward, _, copied, names⟩
      · rw [stopped] at done
        cases done
        rw [ended, splice_nothing, same]
        exact ⟨copying.writing.held, fun _ => rfl⟩
      · rw [failed] at done
        cases done
      · rw [onward] at done
        obtain ⟨held, later⟩ := ih copied done
        refine ⟨?_, fun path => (later path).trans (names path)⟩
        rw [held, splice_splice cur _ _ pos copying.writing.inside, rest_of_chunk]

end Loop

theorem fdIndex_small (fd : Nat) (low : fd ≤ 7) : fdIndex (.ofInt 64 (fd : Int)) = fd := by
  have all : ∀ fd < 8, fdIndex (.ofInt 64 ((fd : Nat) : Int)) = fd := by decide
  exact all fd (by omega)

theorem Opened.contents {fs after : Fs} {path other : Path} {flags : BitVec 64} {id : Int} {node : Nat}
    (laid : Laid fs) (opened : Opened fs path flags id after) (file : IsFile fs node)
    (there : resolve fs other = .ok (some node)) : contents after node = contents fs node := by
  cases opened with
  | found | missing => rfl
  | created parent leaf slot lost flag parents absent free =>
      obtain ⟨_, inside, unused⟩ := freeSlot_some fs slot free
      have different : node ≠ slot := by
        rintro rfl
        exact file.used.2 unused
      rw [created_update fs slot parent leaf [] laid inside, Function.update_of_ne different]
  | emptied parent leaf slot lost flag parents child hidden =>
      have different : node ≠ slot := by
        rintro rfl
        exact hidden_child lost parents child there
      rw [place_update fs slot [] laid hidden, Function.update_of_ne different]

section Opens
variable {s after : System} {tid : Nat} {user : Nat → UInt8} {rdi rsi : BitVec 64} {ret : Ret}

theorem sysOpen_returns (reached : Reachable s.fs) (tid : Nat) (user : Nat → UInt8) (rdi rsi : BitVec 64) :
    ∃ ret after, sysOpen s tid user rdi rsi = .ok (ret, after) := by
  cases absolute : absPath user (s.threads tid) rdi.toNat with
  | none => exact ⟨.failed, s, by simp only [sysOpen, absolute]⟩
  | some path =>
      obtain ⟨id, fs, done, _⟩ := openNode_opened s.fs (reachable_laid s.fs reached) path rsi
      exact ⟨_, _, sysOpen_opened absolute done⟩

structure Serves (s : System) (tid : Nat) (user : Nat → UInt8) (rdi rsi : BitVec 64) (ret : Ret)
    (after : System) (path : Path) (id : Nat) (all : List UInt8) : Prop where
  absolute : absPath user (s.threads tid) rdi.toNat = some path
  opened : Opened s.fs path rsi id after.fs
  standing : OpenAt after tid (fdIndex (.ofInt 64 ret.value)) id 0 all
  free : ((s.threads tid).fds (fdIndex (.ofInt 64 ret.value))).node < 0
  others : ∀ fd, fd ≠ fdIndex (.ofInt 64 ret.value) →
    (after.threads tid).fds fd = (s.threads tid).fds fd
  cwd : (after.threads tid).cwd = (s.threads tid).cwd

theorem sysOpen_serves (reached : Reachable s.fs)
    (done : sysOpen s tid user rdi rsi = .ok (ret, after)) (served : ¬ ret.value < 0) :
    ∃ path id all, Serves s tid user rdi rsi ret after path id all := by
  have later := syscall_reachable s after ⟨tid, user, .openFile rdi rsi⟩ ret reached done
  cases absolute : absPath user (s.threads tid) rdi.toNat with
  | none =>
      simp only [sysOpen, absolute, Except.ok.injEq, Prod.mk.injEq] at done
      exact absurd (by rw [← done.1]; decide) served
  | some path =>
      obtain ⟨id, fs, found, opened⟩ := openNode_opened s.fs (reachable_laid s.fs reached) path rsi
      rw [sysOpen_opened absolute found, Except.ok.injEq] at done
      split at done
      · cases done
        exact absurd (by decide) served
      rename_i node
      obtain ⟨positive, file⟩ := not_or.mp node
      cases free : freeFd (s.threads tid) with
      | none =>
          rw [free] at done
          cases done
          exact absurd (by decide) served
      | some fd =>
          rw [free] at done
          cases done
          obtain ⟨low, high, unused⟩ := freeFd_some free
          obtain ⟨slot, rfl⟩ := Int.eq_ofNat_of_zero_le (Int.not_lt.mp positive)
          have isFile := nodeType_file.mp (not_not.mp file)
          have index := fdIndex_small fd high
          have entry : ((({ s with fs := fs }.setFd tid fd ⟨slot, 0⟩).threads tid).fds fd) = ⟨slot, 0⟩ :=
            setFd_same _ _ _ _
          have listed : fdGet (({ s with fs := fs }.setFd tid fd ⟨slot, 0⟩).threads tid)
              (fdIndex (.ofInt 64 (fd : Int))) = some ⟨slot, 0⟩ := by
            rw [index, fdGet, entry, if_pos ⟨low, Nat.lt_succ_of_le high, Int.not_lt.mp positive⟩]
          refine ⟨path, slot, _, absolute, opened,
            openAt_of_found ⟨slot, 0⟩ later listed (contents_file fs slot isFile) (Nat.zero_le _), ?_,
            fun other different => ?_, ?_⟩
          · rw [index]
            exact unused
          · rw [index] at different
            exact setFd_other _ _ _ _ _ _ fun both => different both.2
          · simp [System.setFd]

end Opens

theorem absPath_cwd (user : Nat → UInt8) (t other : Thread) (uptr : Nat) (same : other.cwd = t.cwd) :
    absPath user other uptr = absPath user t uptr := by
  have cwds : cwdStr other = cwdStr t := by rw [cwdStr, cwdStr, same]
  unfold absPath
  rw [cwds]

theorem sysStat_returns (s : System) (tid : Nat) (user : Nat → UInt8) (rdi rsi : BitVec 64) (st : Ustat) :
    ∃ ret after, sysStat s tid user rdi rsi st = .ok (ret, after) := by
  unfold sysStat
  split
  · exact ⟨_, _, rfl⟩
  split
  · exact ⟨_, _, rfl⟩
  rename_i path _
  simp only [lookup, resolve_namedBy, ok_bind]
  cases namedBy s.fs path with
  | none => exact ⟨_, _, rfl⟩
  | some id => exact ⟨_, _, rfl⟩

theorem Opened.plain {fs after : Fs} {path : Path} {id : Nat} (opened : Opened fs path 0 (id : Int) after) :
    after = fs ∧ resolve fs path = .ok (some id) := by
  generalize node : (id : Int) = found at opened
  cases opened with
  | found other there =>
      obtain rfl : id = other := Int.ofNat_inj.mp node
      exact ⟨rfl, there⟩
  | missing => omega
  | created _ _ _ _ flag | emptied _ _ _ _ flag => cases flag

structure Starts (f : Frame) (tid : Nat) (src dst : List UInt8) (s : System) (rin rout : Int)
    (opened : System) (source dest : Path) (id new : Nat) (all cur : List UInt8) : Prop where
  from_ : absPath (f.holding f.sp (cstr 256 src)) (s.threads tid) f.sp.toNat = some source
  there : resolve s.fs source = .ok (some id)
  held : contents s.fs id = some all
  onto : absPath (f.holding f.dp (cstr 256 dst)) (s.threads tid) f.dp.toNat = some dest
  opening : Opened s.fs dest (1 ||| 2) new opened.fs
  copying : Copying opened tid rin rout id new 0 all cur

theorem Serves.starts {f : Frame} {tid : Nat} {src dst : List UInt8} {s first opened : System}
    {rin rout : Ret} {source dest : Path} {id new : Nat} {all cur : List UInt8}
    (reads : Serves s tid (f.holding f.sp (cstr 256 src)) f.sp 0 rin first source id all)
    (reached : Reachable first.fs) (same : first.fs = s.fs) (there : resolve s.fs source = .ok (some id))
    (writes : Serves first tid (f.holding f.dp (cstr 256 dst)) f.dp (1 ||| 2) rout opened dest new cur) :
    Starts f tid src dst s rin.value rout.value opened source dest id new all cur := by
  have held : contents first.fs id = some all := reads.standing.held
  have file := (contents_stored reads.standing.laid held).1
  have apart : fdIndex (.ofInt 64 rin.value) ≠ fdIndex (.ofInt 64 rout.value) := by
    intro equal
    have unused := writes.free
    obtain ⟨entry, used⟩ := fdGet_some _ _ _ reads.standing.found
    rw [← equal, ← entry] at unused
    omega
  have kept := writes.opened.contents (reachable_laid _ reached) file (same ▸ there)
  refine ⟨reads.absolute, there, same ▸ held, ?_, same ▸ writes.opened, ?_, writes.standing, apart⟩
  · rw [← absPath_cwd _ _ _ _ reads.cwd]
    exact writes.absolute
  · exact reads.standing.kept writes.standing.laid (writes.others _ apart) (kept.trans held)

theorem cp_starts (f : Frame) (tid : Nat) (src dst : List UInt8) (s : System) (reached : Reachable s.fs) :
    (∃ after, ∀ fuel, cp f tid src dst fuel s = .ok (some (1, after))) ∨
    ∃ rin rout opened source dest id new all cur,
      Starts f tid src dst s rin rout opened source dest id new all cur ∧
      ∀ fuel, cp f tid src dst fuel s = (cpLoop f tid rin rout fuel opened).map
        (Option.map fun result => (result.1, cpClose tid rin rout result.2)) := by
  obtain ⟨found, st, stat⟩ := sysStat_returns s tid (f.holding f.sp (cstr 256 src)) f.sp f.st ⟨0, 0⟩
  simp only [cp, stat, ok_bind]
  by_cases noFile : found < 0 ∨ st.typ ≠ 1
  · exact .inl ⟨s, fun fuel => if_pos noFile⟩
  simp only [if_neg noFile]
  obtain ⟨rin, first, open1⟩ := sysOpen_returns reached tid (f.holding f.sp (cstr 256 src)) f.sp 0
  simp only [open1, ok_bind]
  by_cases noSource : rin.value < 0
  · exact .inl ⟨first, fun fuel => if_pos noSource⟩
  simp only [if_neg noSource]
  obtain ⟨source, id, all, reads⟩ := sysOpen_serves reached open1 noSource
  obtain ⟨same, there⟩ := reads.opened.plain
  have still : Reachable first.fs := same ▸ reached
  obtain ⟨again, st', stat2⟩ := sysStat_returns first tid (f.holding f.dp (cstr 256 dst)) f.dp f.st st
  simp only [stat2, ok_bind]
  by_cases noPlace : again = 0 ∧ st'.typ ≠ 1
  · exact .inl ⟨first, fun fuel => if_pos noPlace⟩
  simp only [if_neg noPlace]
  obtain ⟨rout, opened, open2⟩ := sysOpen_returns still tid (f.holding f.dp (cstr 256 dst)) f.dp (1 ||| 2)
  simp only [open2, ok_bind]
  by_cases noDest : rout.value < 0
  · exact .inl ⟨opened, fun fuel => if_pos noDest⟩
  simp only [if_neg noDest]
  obtain ⟨dest, new, cur, writes⟩ := sysOpen_serves still open2 noDest
  refine .inr ⟨rin.value, rout.value, opened, source, dest, id, new, all, cur, ?_, fun fuel => ?_⟩
  · exact reads.starts (same ▸ reached) same there writes
  · cases cpLoop f tid rin.value rout.value fuel opened <;> rfl

/-! ### The copy -/

def Copied (before after : Fs) (source dest : Path) : Prop :=
  ∃ (id new : Nat) (all : List UInt8), lookup before source = .ok id ∧ contents before id = some all ∧
    lookup after dest = .ok new ∧ contents after new = some all

/-- A destination that is there is not longer than the source, and one that is not there
gets its place in a directory. -/
structure NothingBehind (fs : Fs) (source dest : Path) : Prop where
  shorter : ∀ (id new : Nat) (all old : List UInt8), lookup fs source = .ok id → contents fs id = some all →
    lookup fs dest = .ok new → contents fs new = some old → old.length ≤ all.length
  inside : lookup fs dest = .ok (-1) → ∀ parent leaf,
    resolveParent fs dest = .ok (some (parent, leaf)) → (fs.nodes parent).typ = .dir

theorem close_fs (s : System) (tid : Nat) (rdi : BitVec 64) : (sysClose s tid rdi).2.fs = s.fs := by
  unfold sysClose
  dsimp only
  split <;> rfl

theorem splice_whole (cur all : List UInt8) : splice cur 0 all = all ↔ cur.length ≤ all.length := by
  rw [splice, List.take_zero, List.nil_append, Nat.zero_add, List.append_right_eq_self,
    List.drop_eq_nil_iff]

theorem Opened.leads {fs after : Fs} {path : Path} {flags : BitVec 64} {id : Int} {node : Nat}
    (clean : 0 ∉ path) (opened : Opened fs path flags id after)
    (there : resolve after path = .ok (some node)) : (node : Int) = id := by
  cases opened with
  | found slot found =>
      rw [found] at there
      cases there
      rfl
  | missing lost =>
      rw [lost] at there
      cases there
  | created parent leaf slot lost flag parents absent free =>
      rw [resolve_created clean parents absent free, Except.ok.injEq] at there
      split at there
      · cases there
        rfl
      · cases there
  | emptied parent leaf slot lost =>
      rw [resolve_place, lost] at there
      cases there

theorem behind_missing {fs : Fs} {source dest : Path} {parent : Nat} {leaf : List UInt8}
    (lost : resolve fs dest = .ok none) (parents : resolveParent fs dest = .ok (some (parent, leaf))) :
    NothingBehind fs source dest ↔ (fs.nodes parent).typ = .dir := by
  constructor
  · intro behind
    exact behind.inside (lookup_lost.mpr lost) parent leaf parents
  · intro dir
    constructor
    · intro id new all old _ _ there
      rw [lookup_there, lost] at there
      cases there
    · intro _ above name same
      rw [parents] at same
      cases same
      exact dir

section Result
variable {f : Frame} {tid : Nat} {src dst : List UInt8} {s opened after : System} {rin rout : Int}
  {source dest : Path} {id new : Nat} {all cur : List UInt8}

theorem Starts.copied_iff (clean : 0 ∉ dest)
    (starts : Starts f tid src dst s rin rout opened source dest id new all cur)
    (held : contents after.fs new = some (splice cur 0 all))
    (names : ∀ path, resolve after.fs path = resolve opened.fs path) :
    Copied s.fs after.fs source dest ↔
      cur.length ≤ all.length ∧ resolve opened.fs dest = .ok (some new) := by
  rw [← splice_whole]
  constructor
  · rintro ⟨node, place, bytes, found, had, leads, has⟩
    rw [lookup_there, starts.there] at found
    cases found
    rw [starts.held] at had
    cases had
    rw [lookup_there, names] at leads
    obtain rfl : place = new := Int.ofNat_inj.mp (starts.opening.leads clean leads)
    rw [held, Option.some.injEq] at has
    exact ⟨has, leads⟩
  · rintro ⟨whole, leads⟩
    rw [whole] at held
    exact ⟨id, new, all, lookup_there.mpr starts.there, starts.held,
      lookup_there.mpr ((names dest).trans leads), held⟩

theorem Starts.behind_iff (clean : 0 ∉ dest)
    (starts : Starts f tid src dst s rin rout opened source dest id new all cur) :
    NothingBehind s.fs source dest ↔
      cur.length ≤ all.length ∧ resolve opened.fs dest = .ok (some new) := by
  have now : contents opened.fs new = some cur := starts.copying.writing.held
  have opening := starts.opening
  generalize node : (new : Int) = slot at opening
  generalize opened.fs = fs at opening now ⊢
  cases opening with
  | found other there =>
      obtain rfl : new = other := Int.ofNat_inj.mp node
      refine ⟨fun behind => ⟨?_, there⟩, fun fits => ⟨?_, ?_⟩⟩
      · exact behind.shorter id new all cur (lookup_there.mpr starts.there) starts.held
          (lookup_there.mpr there) now
      · intro first second one two found had leads has
        rw [lookup_there, starts.there] at found
        rw [lookup_there, there] at leads
        cases found
        cases leads
        rw [starts.held] at had
        rw [now] at has
        cases had
        cases has
        exact fits.1
      · intro lost
        rw [lookup_lost, there] at lost
        cases lost
  | missing => omega
  | created parent leaf other lost flag parents absent free =>
      obtain rfl : new = other := Int.ofNat_inj.mp node
      have inside := (freeSlot_some s.fs new free).2.1
      rw [place_contents _ new [] ⟨inside, by simp [Fs.attach]⟩] at now
      cases now
      rw [behind_missing lost parents, resolve_created clean parents absent free]
      simp
  | emptied parent leaf other lost flag parents child file =>
      -- the parent is no directory, or the path would lead to this child
      obtain rfl : new = other := Int.ofNat_inj.mp node
      rw [behind_missing lost parents, resolve_place, lost]
      refine iff_of_false (fun dir => ?_) (by simp)
      rw [resolve_below s.fs dest parent leaf parents, if_pos dir, child] at lost
      cases lost

end Result

/-- `cp` comes to an end, and if it returns 0 the copy is exact in just these cases. -/
theorem cp_copies_iff (s : System) (reached : Reachable s.fs) (tid : Nat) (f : Frame)
    (src dst : List UInt8) :
    (∃ enough, ∀ fuel, enough ≤ fuel → ∃ rc after,
      cp f tid src dst fuel s = .ok (some (rc, after))) ∧
    ∀ fuel after, cp f tid src dst fuel s = .ok (some (0, after)) → ∃ source dest,
      absPath (f.holding f.sp (cstr 256 src)) (s.threads tid) f.sp.toNat = some source ∧
      absPath (f.holding f.dp (cstr 256 dst)) (s.threads tid) f.dp.toNat = some dest ∧
      (Copied s.fs after.fs source dest ↔ NothingBehind s.fs source dest) := by
  rcases cp_starts f tid src dst s reached with
    ⟨last, failed⟩ | ⟨rin, rout, opened, source, dest, id, new, all, cur, starts, runs⟩
  · refine ⟨⟨0, fun fuel _ => ⟨1, last, failed fuel⟩⟩, fun fuel after done => ?_⟩
    rw [failed fuel] at done
    cases done
  · refine ⟨⟨all.length + 1, fun fuel enough => ?_⟩, fun fuel after done => ?_⟩
    · obtain ⟨rc, final, returned⟩ := cpLoop_returns (f := f) fuel starts.copying (by omega)
      exact ⟨rc, cpClose tid rin rout final, by rw [runs, returned]; rfl⟩
    · rw [runs] at done
      obtain ⟨result, looped, same⟩ := (map_ok _ _ _).mp done
      obtain ⟨⟨rc, final⟩, rfl, pair⟩ := Option.map_eq_some_iff.mp same
      obtain ⟨rfl, rfl⟩ := Prod.mk.inj pair
      obtain ⟨held, names⟩ := cpLoop_copies fuel starts.copying looped
      have closed : (cpClose tid rin rout final).fs = final.fs := by rw [cpClose, close_fs, close_fs]
      have clean := (absPath_text _ _ _ dest starts.onto).1
      refine ⟨source, dest, starts.from_, starts.onto, ?_⟩
      rw [starts.behind_iff clean]
      apply starts.copied_iff clean
      · rw [closed]
        exact held
      · rw [closed]
        exact names

theorem absPath_absolute {user : Nat → UInt8} {t : Thread} {uptr : Nat} (raw : List UInt8)
    (copied : copyUstr user uptr pathMax = some raw) (absolute : raw.head? = some slash)
    (text : strOr [] (raw.take (pathMax - 1)) = raw) : absPath user t uptr = some raw := by
  simp only [absPath, copied]
  rw [if_pos absolute, text]

def stackFrame : Frame where
  mem := fun _ => 0
  sp := 4096
  dp := 8192
  st := 12288
  buf := 16384
  valid := by simp [badUaddr]

def twoFiles (bytes : List UInt8) : List Op :=
  [⟨1, userText [47, 97], .openFile 4096 2⟩, ⟨1, userText [104, 105], .write 3 4096 2⟩,
    ⟨1, userText [47, 98], .openFile 4096 2⟩, ⟨1, userText bytes, .write 4 4096 (.ofNat 64 bytes.length)⟩,
    ⟨1, userText [], .close 3⟩, ⟨1, userText [], .close 4⟩]

structure Shown where
  source : Option Nat
  held : Option (List UInt8)
  dest : Option Nat
  old : Option (List UInt8)
  deriving DecidableEq

def shown (fs : Fs) : Shown :=
  ⟨namedBy fs [47, 97], contents fs 1, namedBy fs [47, 98], contents fs 2⟩

def copyOver (bytes : List UInt8) : Outcome (Shown × Option (Int × Shown)) := do
  let (_, s) ← replay syscall firstWorld.sys (twoFiles bytes)
  let result ← cp stackFrame 1 [47, 97] [47, 98] 3 s
  return (shown s.fs, result.map fun done => (done.1, shown done.2.fs))

theorem copyOver_ok {bytes : List UInt8} {before later : Shown}
    (copied : copyOver bytes = .ok (before, some (0, later))) : ∃ s after, Served s ∧
      shown s.fs = before ∧ cp stackFrame 1 [47, 97] [47, 98] 3 s = .ok (some (0, after)) ∧
      shown after.fs = later := by
  obtain ⟨⟨rets, s⟩, replayed, rest⟩ := (bind_ok _ _ _).mp copied
  obtain ⟨result, done, last⟩ := (bind_ok _ _ _).mp rest
  simp only [pure_ok, Except.ok.injEq, Prod.mk.injEq, Option.map_eq_some_iff] at last
  obtain ⟨start, ⟨rc, after⟩, rfl, rfl, final⟩ := last
  exact ⟨s, after, replay_run _ _ _ (fun _ _ _ => trivial) _ _ _ replayed, start, done, final⟩

theorem cp_copies_over_shorter : ∃ s after, Served s ∧ contents s.fs 1 = some [104, 105] ∧
    contents s.fs 2 = some [120] ∧ cp stackFrame 1 [47, 97] [47, 98] 3 s = .ok (some (0, after)) ∧
    Copied s.fs after.fs [47, 97] [47, 98] := by
  have evaluated : copyOver [120] = .ok (⟨some 1, some [104, 105], some 2, some [120]⟩,
      some (0, ⟨some 1, some [104, 105], some 2, some [104, 105]⟩)) := by decide +kernel
  obtain ⟨s, after, served, before, done, _⟩ := copyOver_ok evaluated
  simp only [shown, Shown.mk.injEq] at before
  obtain ⟨source, held, dest, old⟩ := before
  obtain ⟨from_, onto, one, two, copied⟩ :=
    (cp_copies_iff s (served_reachable s served) 1 stackFrame [47, 97] [47, 98]).2 3 after done
  rw [absPath_absolute [47, 97] (by decide +kernel) rfl (by decide)] at one
  rw [absPath_absolute [47, 98] (by decide +kernel) rfl (by decide)] at two
  cases one
  cases two
  refine ⟨s, after, served, held, old, done, copied.mpr ⟨?_, fun lost => ?_⟩⟩
  · intro id new all bytes first had second has
    rw [lookup_there, resolve_namedBy, source] at first
    rw [lookup_there, resolve_namedBy, dest] at second
    cases first
    cases second
    rw [held] at had
    rw [old] at has
    cases had
    cases has
    decide
  · rw [lookup_lost, resolve_namedBy, dest] at lost
    cases lost

/-- Three bytes at the destination: the third one stays. -/
theorem longer_destination_keeps_its_end : ∃ s after, Served s ∧
    lookup s.fs [47, 97] = .ok 1 ∧ contents s.fs 1 = some [104, 105] ∧
    cp stackFrame 1 [47, 97] [47, 98] 3 s = .ok (some (0, after)) ∧
    lookup after.fs [47, 98] = .ok 2 ∧ contents after.fs 2 = some [104, 105, 122] := by
  have evaluated : copyOver [120, 121, 122] =
      .ok (⟨some 1, some [104, 105], some 2, some [120, 121, 122]⟩,
        some (0, ⟨some 1, some [104, 105], some 2, some [104, 105, 122]⟩)) := by decide +kernel
  obtain ⟨s, after, served, before, done, later⟩ := copyOver_ok evaluated
  simp only [shown, Shown.mk.injEq] at before later
  exact ⟨s, after, served, lookup_there.mpr (by rw [resolve_namedBy, before.1]), before.2.1, done,
    lookup_there.mpr (by rw [resolve_namedBy, later.2.2.1]), later.2.2.2⟩

end Shizuku.Syscalls
