import Shizuku.PageOwnership
import Shizuku.UserStack
import Shizuku.WorkingDirectory

/-!
The arguments of a process: `spawn_elf` lays them out on the user stack, and
`_start`, `umain_shim` and `arg_str` of the user library read them back. The two
share nothing but the layout: the strings top-down from the top of the stack, and
below them, at a multiple of 16, the frame `[argc][argv0..argvN][NULL]`.
-/

namespace Shizuku.Process

open ByteMemory WordMemory PointerForest Machine Pmm Vmm Elf Sched Syscalls

/-- What a load of the process finds, nothing where no page is mapped. -/
def userByte (mm : Mm) (space va : Nat) : Option UInt8 :=
  let pa := translate mm space va
  if pa = 0 then none else some (mm.mem pa)

def userWord (read : Nat → Option UInt8) (addr : Nat) : Option Nat :=
  ((List.range 8).mapM fun i => read (addr + i)).map ofBytes

structure Args where
  argc : Int
  argv : Nat
  deriving DecidableEq, Repr

/-- `_start` passes `[rsp]` and `rsp + 8` on; `umain_shim` takes the former as an `i32`. -/
def start (read : Nat → Option UInt8) (rsp : Nat) : Option Args := do
  let rdi ← userWord read rsp
  return ⟨(BitVec.ofNat 32 rdi).toInt, rsp + 8⟩

def Args.len (args : Args) : Nat := (args.argc % 2 ^ 64).toNat

/-- The bytes from `p` on up to the first NUL; the loop has no bound of its own. -/
def untilNul (read : Nat → Option UInt8) : Nat → Nat → Option (List UInt8)
  | 0, _ => none
  | fuel + 1, p => do
      let byte ← read p
      if byte = 0 then return []
      return byte :: (← untilNul read fuel (p + 1))

def argStr (read : Nat → Option UInt8) (fuel : Nat) (args : Args) (i : Nat) : Option (List UInt8) :=
  if args.len ≤ i then some []
  else do
    let p ← userWord read (args.argv + 8 * i)
    if p = 0 then return []
    return strOr [] (← untilNul read fuel p)

section Reading
variable {read : Nat → Option UInt8} {mem : Nat → UInt8}

theorem userWord_read64 (addr : Nat)
    (mapped : ∀ place, addr ≤ place → place < addr + 8 → read place = some (mem place)) :
    userWord read addr = some (read64 mem addr) := by
  have each : ∀ indices : List Nat, (∀ i, i ∈ indices → i < 8) →
      indices.mapM (fun i => read (addr + i)) = some (indices.map fun i => mem (addr + i)) := by
    intro indices bounded
    induction indices with
    | nil => rfl
    | cons i rest ih =>
        have bound := bounded i List.mem_cons_self
        rw [List.mapM_cons, mapped (addr + i) (by omega) (by omega),
          ih fun other member => bounded other (List.mem_cons_of_mem _ member)]
        rfl
  rw [userWord, each _ fun i member => List.mem_range.mp member]
  rfl

theorem untilNul_text (text : List UInt8) (clean : 0 ∉ text) (fuel p : Nat)
    (enough : text.length < fuel)
    (bytes : ∀ i byte, (text ++ [0])[i]? = some byte → read (p + i) = some byte) :
    untilNul read fuel p = some text := by
  induction text generalizing fuel p with
  | nil =>
      obtain ⟨fuel, rfl⟩ := Nat.exists_eq_succ_of_ne_zero (by simp at enough; omega : fuel ≠ 0)
      have first := bytes 0 0 rfl
      rw [Nat.add_zero] at first
      simp [untilNul, first]
  | cons byte rest ih =>
      obtain ⟨fuel, rfl⟩ := Nat.exists_eq_succ_of_ne_zero (by simp at enough; omega : fuel ≠ 0)
      rw [List.length_cons] at enough
      rw [List.mem_cons, not_or] at clean
      have first := bytes 0 byte rfl
      rw [Nat.add_zero] at first
      have others := ih clean.2 fuel (p + 1) (by omega) fun i other here => by
        rw [Nat.add_assoc, Nat.add_comm 1 i]
        exact bytes (i + 1) other here
      have nonzero : ¬ byte = 0 := fun zero => clean.1 zero.symm
      simp [untilNul, first, nonzero, others]

end Reading

/-- The strings one behind the other, each with its NUL, and where each begins. -/
def packed (strings : List (List UInt8)) : List UInt8 := strings.flatMap (· ++ [0])

def pointersAt : Nat → List (List UInt8) → List Nat
  | _, [] => []
  | sp, bytes :: rest => sp :: pointersAt (sp + bytes.length + 1) rest

def frameBlock (argc : Nat) : Nat := ((argc + 2) * 8 + 15) / 16 * 16

/-- The strings, rounded up, and the frame take no more than the stack pages. -/
def FitsStack (argv : List (List UInt8)) : Prop :=
  ((packed (argv.take argMax)).length + 15) / 16 * 16 + frameBlock (argv.take argMax).length ≤
    userStackPages * pageSize

@[simp] theorem packed_nil : packed [] = [] := rfl

@[simp] theorem packed_cons (bytes : List UInt8) (rest : List (List UInt8)) :
    packed (bytes :: rest) = (bytes ++ [0]) ++ packed rest := List.flatMap_cons

@[simp] theorem packed_append (first second : List (List UInt8)) :
    packed (first ++ second) = packed first ++ packed second := List.flatMap_append

@[simp] theorem pointersAt_length (sp : Nat) (strings : List (List UInt8)) :
    (pointersAt sp strings).length = strings.length := by
  induction strings generalizing sp with
  | nil => rfl
  | cons bytes rest ih => simp [pointersAt, ih]

theorem pointersAt_string (mem : Nat → UInt8) (sp : Nat) (strings : List (List UInt8))
    (laid : slice mem sp (packed strings).length = packed strings) (i p : Nat) (bytes : List UInt8)
    (pointer : (pointersAt sp strings)[i]? = some p) (string : strings[i]? = some bytes) :
    slice mem p (bytes.length + 1) = bytes ++ [0] ∧ sp ≤ p ∧
      p + (bytes.length + 1) ≤ sp + (packed strings).length := by
  induction strings generalizing sp i with
  | nil => cases string
  | cons first rest ih =>
      rw [packed_cons, List.length_append, List.length_append, List.length_singleton] at laid ⊢
      have front := slice_drop_take mem sp (first.length + 1 + (packed rest).length) 0
        (first.length + 1) (by omega)
      have back := slice_drop_take mem sp (first.length + 1 + (packed rest).length)
        (first.length + 1) (packed rest).length (by omega)
      rw [laid] at front back
      cases i with
      | zero =>
          simp only [pointersAt, List.getElem?_cons_zero, Option.some.injEq] at pointer string
          subst p bytes
          refine ⟨?_, le_rfl, by omega⟩
          rw [List.drop_zero, List.take_left' (by simp)] at front
          exact front.symm
      | succ i =>
          simp only [pointersAt, List.getElem?_cons_succ] at pointer string
          rw [List.drop_left' (by simp), List.take_length] at back
          obtain ⟨here, low, high⟩ := ih (sp + first.length + 1) back.symm i pointer string
          exact ⟨here, by omega, by omega⟩

def stringExtents (pointers : List Nat) (strings : List (List UInt8)) : List Extent :=
  List.zipWith (fun p bytes => ⟨p, bytes.length + 1⟩) pointers strings

theorem stringExtents_apart (sp : Nat) (strings : List (List UInt8)) :
    (∀ extent, extent ∈ stringExtents (pointersAt sp strings) strings →
        sp ≤ extent.off ∧ extent.off + extent.size ≤ sp + (packed strings).length) ∧
      (stringExtents (pointersAt sp strings) strings).Pairwise
        fun first second => Disjoint first.cells second.cells := by
  induction strings generalizing sp with
  | nil => simp [stringExtents, pointersAt]
  | cons bytes rest ih =>
      obtain ⟨bounds, apart⟩ := ih (sp + bytes.length + 1)
      simp only [stringExtents, pointersAt, List.zipWith_cons_cons, packed_cons, List.length_append,
        List.length_singleton] at bounds apart ⊢
      refine ⟨fun extent member => ?_, List.pairwise_cons.mpr ⟨fun extent member => ?_, apart⟩⟩
      · rcases List.mem_cons.mp member with rfl | later
        · exact ⟨le_rfl, by simp only; omega⟩
        · have bound := bounds extent later
          omega
      · have bound := bounds extent member
        rw [Set.disjoint_left]
        intro place first second
        rw [mem_cells] at first second
        simp only at first
        omega

section Pushing
variable {mm : Mm} {live held : Set Nat} {space : Nat}

theorem packed_reverse_length (strings : List (List UInt8)) :
    (packed strings.reverse).length = (packed strings).length := by
  induction strings with
  | nil => rfl
  | cons bytes rest ih =>
      rw [List.reverse_cons, packed_append, List.length_append, ih]
      simp only [packed_cons, packed_nil, List.append_nil, List.length_append]
      omega

theorem pushString_laid (window : Window mm live held space) (bytes : List UInt8) (sp len : Nat)
    (low : stackBase ≤ sp) (high : sp + (bytes.length + 1) + len ≤ userStackTop) :
    ∃ middle after, ustackWrite mm space sp bytes = (true, middle) ∧
      ustackWrite middle space (sp + bytes.length) [0] = (true, after) ∧
      Window after live held space ∧
      slice (stackMem after space) sp (bytes.length + 1 + len) =
        (bytes ++ [0]) ++ slice (stackMem mm space) (sp + (bytes.length + 1)) len := by
  obtain ⟨middle, first, halfway, text⟩ := ustackWrite_window window sp bytes low (by omega)
  obtain ⟨after, second, done, nul⟩ := ustackWrite_window halfway (sp + bytes.length) [0]
    (by omega) (by rw [List.length_singleton]; omega)
  refine ⟨middle, after, first, second, done, ?_⟩
  have together : ∀ va, InStack va → stackMem after space va =
      blit (stackMem mm space) sp (bytes ++ [0]) va := by
    intro va inside
    rw [nul va inside, blit_congr _ _ _ _ va (text va inside), blit_append]
  have front := slice_blit_front (stackMem mm space) sp len (bytes ++ [0])
  rw [List.length_append, List.length_singleton] at front
  rw [← front]
  apply slice_congr
  intro va above below
  exact together va ⟨by omega, by omega⟩

theorem pushArgs_laid (strings done : List (List UInt8)) (sp : Nat)
    (window : Window mm live held space)
    (room : stackBase + (packed strings).length ≤ sp)
    (top : sp + (packed done).length = userStackTop)
    (laid : slice (stackMem mm space) sp (packed done).length = packed done) :
    ∃ after, pushArgs space mm strings sp (pointersAt sp done) =
        (some (sp - (packed strings).length,
          pointersAt (sp - (packed strings).length) (strings.reverse ++ done)), after) ∧
      Window after live held space ∧
      slice (stackMem after space) (sp - (packed strings).length)
        (packed (strings.reverse ++ done)).length = packed (strings.reverse ++ done) := by
  induction strings generalizing mm sp done with
  | nil => exact ⟨mm, rfl, window, laid⟩
  | cons bytes rest ih =>
      have size : (packed (bytes :: rest)).length = bytes.length + 1 + (packed rest).length := by
        simp only [packed_cons, List.length_append, List.length_singleton]
      rw [size] at room
      have end_ : userStackTop < 2 ^ 64 := by decide
      have moved := wrapping_sub sp (bytes.length + 1) (by omega) (by omega)
      have back : sp - (bytes.length + 1) + bytes.length + 1 = sp := by omega
      obtain ⟨middle, pushed, first, second, kept, text⟩ := pushString_laid window bytes
        (sp - (bytes.length + 1)) (packed done).length (by omega) (by omega)
      have pointers : (sp - (bytes.length + 1)) :: pointersAt sp done =
          pointersAt (sp - (bytes.length + 1)) (bytes :: done) := by
        rw [pointersAt, back]
      have longer : (packed (bytes :: done)).length = bytes.length + 1 + (packed done).length := by
        simp only [packed_cons, List.length_append, List.length_singleton]
      obtain ⟨after, others, final, all⟩ := ih (bytes :: done) (sp - (bytes.length + 1)) kept
        (by omega) (by omega) (by
          rw [longer, text, Nat.sub_add_cancel (by omega), laid, packed_cons])
      have order : (bytes :: rest).reverse ++ done = rest.reverse ++ bytes :: done := by simp
      have place : sp - (packed (bytes :: rest)).length =
          sp - (bytes.length + 1) - (packed rest).length := by omega
      rw [order, place]
      refine ⟨after, ?_, final, all⟩
      rw [pushArgs, moved]
      simp only [first, Nat.mod_eq_of_lt (show sp - (bytes.length + 1) + bytes.length < 2 ^ 64 by
        omega), second, pointers]
      exact others

theorem pushFrame_laid (window : Window mm live held space) (sp : Nat) (pointers : List Nat)
    (room : stackBase + frameBlock pointers.length ≤ sp / 16 * 16) (top : sp ≤ userStackTop) :
    ∃ after, pushFrame mm space sp pointers =
        (some (sp / 16 * 16 - frameBlock pointers.length), after) ∧
      Window after live held space ∧
      slice (stackMem after space) (sp / 16 * 16 - frameBlock pointers.length)
        (entryFrame pointers).length = entryFrame pointers ∧
      ∀ len, sp + len ≤ userStackTop →
        slice (stackMem after space) sp len = slice (stackMem mm space) sp len := by
  have length := entryFrame_length pointers
  have end_ : userStackTop < 2 ^ 64 := by decide
  have size : 8 * (pointers.length + 2) ≤ frameBlock pointers.length := by
    unfold frameBlock
    omega
  have moved := wrapping_sub (sp / 16 * 16) (frameBlock pointers.length) (by omega) (by omega)
  obtain ⟨after, written, kept, bytes⟩ := ustackWrite_window window
    (sp / 16 * 16 - frameBlock pointers.length) (entryFrame pointers) (by omega) (by omega)
  refine ⟨after, ?_, kept, ?_, fun len inside => ?_⟩
  · rw [frameBlock] at moved written ⊢
    simp only [pushFrame, moved, written]
  · refine (slice_congr _ _ _ _ fun va above below => ?_).trans
      (slice_blit_all (stackMem mm space) (sp / 16 * 16 - frameBlock pointers.length)
        (entryFrame pointers))
    exact bytes va ⟨by omega, by omega⟩
  · apply slice_congr
    intro va above below
    rw [bytes va ⟨by omega, by omega⟩, blit_outside _ _ _ va (.inr (by omega))]

def stringBase (argv : List (List UInt8)) : Nat :=
  userStackTop - (packed (argv.take argMax)).length

def entryRsp (argv : List (List UInt8)) : Nat :=
  stringBase argv / 16 * 16 - frameBlock (argv.take argMax).length

structure Laid (mem : Nat → UInt8) (argv : List (List UInt8)) : Prop where
  strings : slice mem (stringBase argv) (packed (argv.take argMax)).length = packed (argv.take argMax)
  frame : slice mem (entryRsp argv) (8 * ((argv.take argMax).length + 2)) =
    entryFrame (pointersAt (stringBase argv) (argv.take argMax))

theorem FitsStack.bounds {argv : List (List UInt8)} (fits : FitsStack argv) :
    stackBase ≤ entryRsp argv ∧ entryRsp argv % 16 = 0 ∧
      entryRsp argv + frameBlock (argv.take argMax).length = stringBase argv / 16 * 16 ∧
      stringBase argv + (packed (argv.take argMax)).length = userStackTop ∧
      8 * ((argv.take argMax).length + 2) ≤ frameBlock (argv.take argMax).length := by
  have base : stackBase = 0x6FFFFFFFC000 := by decide
  have top : userStackTop = 0x700000000000 := rfl
  have pages : userStackPages * pageSize = 16384 := by decide
  simp only [FitsStack, frameBlock, pages] at fits
  simp only [entryRsp, stringBase, frameBlock, base, top]
  omega

theorem pushArgv_laid (window : Window mm live held space) (argv : List (List UInt8)) (fits : FitsStack argv) :
    ∃ after, pushArgv mm space argv = (some (entryRsp argv), after) ∧
      Window after live held space ∧ Laid (stackMem after space) argv := by
  obtain ⟨low, _, below, top, _⟩ := fits.bounds
  have length := packed_reverse_length (argv.take argMax)
  obtain ⟨middle, pushed, kept, strings⟩ := pushArgs_laid (argv.take argMax).reverse [] userStackTop
    window (by rw [length]; omega) rfl rfl
  rw [length, List.reverse_reverse, List.append_nil] at pushed strings
  rw [← stringBase] at pushed strings
  have count := pointersAt_length (stringBase argv) (argv.take argMax)
  obtain ⟨after, framed, final, frame, rest⟩ := pushFrame_laid kept (stringBase argv)
    (pointersAt (stringBase argv) (argv.take argMax)) (by rw [count]; omega) (by omega)
  rw [entryFrame_length, count] at frame
  rw [count] at framed
  refine ⟨after, ?_, final, ⟨(rest _ (by omega)).trans strings, frame⟩⟩
  rw [pushArgv]
  simp only [show pointersAt userStackTop [] = [] from rfl] at pushed
  simp only [pushed, framed]
  rfl

theorem buildUser_laid (image : Image) (argv : List (List UInt8)) {after : Mm} {level : Nat → Nat}
    {entry rsp : Nat} (guarded : Guarded mm live held level) (alive : space ∈ live) (fits : FitsStack argv)
    (done : buildUser mm space image argv = (some (entry, rsp), after)) :
    rsp = entryRsp argv ∧ ∃ more, Window after live more space ∧ Laid (stackMem after space) argv := by
  obtain ⟨valid, _, loaded, stacked, loading, stacking, pushing⟩ := buildUser_some done
  obtain ⟨more, later, kept⟩ := imageItems_guarded valid alive guarded loading
  obtain ⟨built, pushed, still, laid⟩ := pushArgv_laid (stack_window kept.owned alive stacking) argv fits
  obtain ⟨same, rfl⟩ := Prod.mk.inj (pushing.symm.trans pushed)
  exact ⟨Option.some.inj same, more, still, laid⟩

end Pushing

/-! ### What the process finds -/

/-- The arguments as the user library sees them, through the loads of the process. -/
structure Handed (read : Nat → Option UInt8) (rsp : Nat) (argv : List (List UInt8)) : Prop where
  aligned : rsp % 16 = 0
  started : start read rsp = some ⟨(min argv.length argMax : Nat), rsp + 8⟩
  strings : ∀ fuel, userStackPages * pageSize ≤ fuel → ∀ i,
    argStr read fuel ⟨(min argv.length argMax : Nat), rsp + 8⟩ i = some ((argv.take argMax).getD i [])
  /-- The pointer array ends with NULL, and the strings lie where it says: apart
  from each other and above the frame. -/
  layout : ∃ pointers : List Nat, pointers.length = min argv.length argMax ∧
    (∀ i, i < pointers.length → userWord read (rsp + 8 + 8 * i) = pointers[i]?) ∧
    userWord read (rsp + 8 + 8 * pointers.length) = some 0 ∧
    (⟨rsp, 8⟩ :: ⟨rsp + 8, frameBlock pointers.length - 8⟩ ::
      stringExtents pointers (argv.take argMax)).Pairwise
        (fun first second => Disjoint first.cells second.cells) ∧
    ∀ extent, extent ∈ (⟨rsp, 8⟩ : Extent) :: ⟨rsp + 8, frameBlock pointers.length - 8⟩ ::
      stringExtents pointers (argv.take argMax) → ∀ va, va ∈ extent.cells → InStack va
  array : 8 + 8 * (min argv.length argMax + 1) ≤ frameBlock (min argv.length argMax)
  mapped : ∀ va, InStack va → read va ≠ none

section Handing
variable {read : Nat → Option UInt8} {mem : Nat → UInt8} {argv : List (List UInt8)}

theorem frame_words (fits : FitsStack argv) (laid : Laid mem argv)
    (agree : ∀ va, InStack va → read va = some (mem va)) (i word : Nat) (small : word < 2 ^ 64)
    (here : ((argv.take argMax).length :: pointersAt (stringBase argv) (argv.take argMax) ++ [0])[i]? =
      some word) : userWord read (entryRsp argv + 8 * i) = some word := by
  obtain ⟨low, _, below, top, size⟩ := fits.bounds
  have bound := (List.getElem?_eq_some_iff.mp here).1
  have count := pointersAt_length (stringBase argv) (argv.take argMax)
  simp only [List.cons_append, List.length_cons, List.length_append, count, List.length_nil] at bound
  have frame := laid.frame
  rw [entryFrame, count] at frame
  have value := read64_words mem (entryRsp argv) _ i word (by
    rw [← frame]
    congr 1
    simp [count]) here
  rw [Nat.mod_eq_of_lt small] at value
  rw [← value]
  exact userWord_read64 _ fun va above under => agree va ⟨by omega, by omega⟩

theorem argc_count (argv : List (List UInt8)) :
    (argv.take argMax).length = min argv.length argMax ∧ (argv.take argMax).length ≤ 16 := by
  rw [List.length_take, Nat.min_comm]
  exact ⟨rfl, Nat.min_le_right _ _⟩

theorem handed_started (fits : FitsStack argv) (laid : Laid mem argv)
    (agree : ∀ va, InStack va → read va = some (mem va)) :
    start read (entryRsp argv) = some ⟨(min argv.length argMax : Nat), entryRsp argv + 8⟩ := by
  obtain ⟨count, few⟩ := argc_count argv
  have word := frame_words fits laid agree 0 (argv.take argMax).length (by omega) rfl
  rw [Nat.mul_zero, Nat.add_zero] at word
  rw [count] at word few
  have same : (BitVec.ofNat 32 (min argv.length argMax)).toNat = min argv.length argMax := by
    rw [BitVec.toNat_ofNat, Nat.mod_eq_of_lt (by omega)]
  have narrow := BitVec.toInt_eq_toNat_of_lt (x := BitVec.ofNat 32 (min argv.length argMax))
    (by omega)
  rw [same] at narrow
  simp only [start, word, Option.bind_eq_bind, Option.bind_some, narrow, Option.pure_def]

theorem handed_pointer (fits : FitsStack argv) (laid : Laid mem argv)
    (agree : ∀ va, InStack va → read va = some (mem va)) (i p : Nat) (bytes : List UInt8)
    (pointer : (pointersAt (stringBase argv) (argv.take argMax))[i]? = some p)
    (string : (argv.take argMax)[i]? = some bytes) :
    userWord read (entryRsp argv + 8 + 8 * i) = some p ∧ 0 < p ∧
      slice mem p (bytes.length + 1) = bytes ++ [0] ∧ stackBase ≤ p ∧
      p + (bytes.length + 1) ≤ userStackTop := by
  obtain ⟨low, _, below, top, _⟩ := fits.bounds
  have base : stackBase = 0x6FFFFFFFC000 := by decide
  have end_ : userStackTop = 0x700000000000 := rfl
  have inside := (List.getElem?_eq_some_iff.mp pointer).1
  obtain ⟨text, above, under⟩ := pointersAt_string mem (stringBase argv) (argv.take argMax)
    laid.strings i p bytes pointer string
  have word := frame_words fits laid agree (i + 1) p (by omega) (by
    rw [List.cons_append, List.getElem?_cons_succ, List.getElem?_append_left inside, pointer])
  rw [show entryRsp argv + 8 * (i + 1) = entryRsp argv + 8 + 8 * i by omega] at word
  exact ⟨word, by omega, text, by omega, by omega⟩

theorem handed_string (fits : FitsStack argv) (clean : ∀ bytes, bytes ∈ argv → Text bytes)
    (laid : Laid mem argv) (agree : ∀ va, InStack va → read va = some (mem va)) (fuel : Nat)
    (enough : userStackPages * pageSize ≤ fuel) (i : Nat) :
    argStr read fuel ⟨(min argv.length argMax : Nat), entryRsp argv + 8⟩ i =
      some ((argv.take argMax).getD i []) := by
  obtain ⟨count, few⟩ := argc_count argv
  have end_ : userStackTop = stackBase + userStackPages * pageSize := by decide
  have len : Args.len ⟨(min argv.length argMax : Nat), entryRsp argv + 8⟩ =
      (argv.take argMax).length := by
    rw [count] at few
    simp only [Args.len, count]
    omega
  rw [argStr, len, List.getD_eq_getElem?_getD]
  by_cases inside : i < (argv.take argMax).length
  · have string := List.getElem?_eq_getElem inside
    have pointerHere : i < (pointersAt (stringBase argv) (argv.take argMax)).length := by
      rwa [pointersAt_length]
    have pointer := List.getElem?_eq_getElem pointerHere
    generalize (argv.take argMax)[i] = bytes at string
    generalize (pointersAt (stringBase argv) (argv.take argMax))[i] = p at pointer
    obtain ⟨word, positive, text, low, high⟩ := handed_pointer fits laid agree i p bytes pointer string
    have valid := clean bytes (List.mem_of_mem_take (List.mem_of_getElem? string))
    have found : untilNul read fuel p = some bytes := by
      refine untilNul_text bytes valid.1 fuel p (by omega) fun j byte here => ?_
      have bound := (List.getElem?_eq_some_iff.mp here).1
      rw [List.length_append, List.length_singleton] at bound
      rw [← text, slice_getElem?, if_pos bound, Option.some.injEq] at here
      rw [agree (p + j) ⟨by omega, by omega⟩, here]
    rw [if_neg (by omega)]
    simp [word, Nat.ne_of_gt positive, found, strOr, valid.2, string]
  · rw [if_pos (by omega), List.getElem?_eq_none (by omega)]
    rfl

theorem handed (fits : FitsStack argv) (clean : ∀ bytes, bytes ∈ argv → Text bytes)
    (laid : Laid mem argv) (agree : ∀ va, InStack va → read va = some (mem va)) :
    Handed read (entryRsp argv) argv := by
  obtain ⟨low, aligned, below, top, size⟩ := fits.bounds
  obtain ⟨count, few⟩ := argc_count argv
  have total := pointersAt_length (stringBase argv) (argv.take argMax)
  obtain ⟨bounds, apart⟩ := stringExtents_apart (stringBase argv) (argv.take argMax)
  refine ⟨aligned, handed_started fits laid agree, handed_string fits clean laid agree,
    ⟨pointersAt (stringBase argv) (argv.take argMax), total.trans count, fun i inside => ?_, ?_, ?_,
      ?_⟩, by rw [← count]; omega, fun va inside => by rw [agree va inside]; simp⟩
  · have pointer := List.getElem?_eq_getElem inside
    rw [total] at inside
    rw [pointer]
    exact (handed_pointer fits laid agree i _ _ pointer (List.getElem?_eq_getElem inside)).1
  · rw [show entryRsp argv + 8 + 8 * (pointersAt (stringBase argv) (argv.take argMax)).length =
        entryRsp argv + 8 * ((pointersAt (stringBase argv) (argv.take argMax)).length + 1) by omega]
    refine frame_words fits laid agree _ 0 (by decide) ?_
    rw [List.cons_append, List.getElem?_cons_succ, List.getElem?_append_right le_rfl, Nat.sub_self]
    rfl
  · -- The frame lies below the strings, and its first word below the rest of it.
    rw [total]
    refine List.pairwise_cons.mpr ⟨fun extent member => ?_,
      List.pairwise_cons.mpr ⟨fun extent member => ?_, apart⟩⟩
    · rw [Set.disjoint_left]
      intro va first second
      rw [mem_cells] at first second
      simp only at first
      rcases List.mem_cons.mp member with rfl | string
      · simp only at second
        omega
      · have bound := bounds extent string
        omega
    · have bound := bounds extent member
      rw [Set.disjoint_left]
      intro va first second
      rw [mem_cells] at first second
      simp only at first
      omega
  · rw [total]
    intro extent member va inside
    rw [mem_cells] at inside
    rcases List.mem_cons.mp member with rfl | member
    · simp only at inside
      exact ⟨by omega, by omega⟩
    · rcases List.mem_cons.mp member with rfl | string
      · simp only at inside
        exact ⟨by omega, by omega⟩
      · have bound := bounds extent string
        exact ⟨by omega, by omega⟩

end Handing

theorem spawnElf_succeeded (k after : Kernel) (name : List UInt8) (image : Image)
    (argv : List (List UInt8)) (tid : Int) (done : spawnElf k name image argv = .ok (tid, after))
    (success : 0 ≤ tid) :
    ∃ space fresh entry rsp built, newSpace k.mm = (space, fresh) ∧ space ≠ 0 ∧
      buildUser fresh space image argv = (some (entry, rsp), built) ∧
      (after.threads tid.toNat).space = space ∧ (after.threads tid.toNat).frame.rsp = rsp ∧
      (after.threads tid.toNat).brk = userHeapBase ∧ ∃ first, FreeRun built.pmm first 4 ∧
        after.mm = { built with pmm := takeAll built.pmm ((List.range 4).map (first + ·)) } := by
  unfold spawnElf at done
  cases made : newSpace k.mm with
  | mk space fresh =>
      rw [made] at done
      by_cases zero : space = 0
      · simp only [zero, ↓reduceIte, Except.ok.injEq, Prod.mk.injEq] at done
        omega
      · simp only [zero, ↓reduceIte] at done
        cases building : buildUser fresh space image argv with
        | mk result built =>
            rw [building] at done
            cases result with
            | none =>
                simp only [Except.ok.injEq, Prod.mk.injEq] at done
                omega
            | some pair =>
                obtain ⟨entry, rsp⟩ := pair
                refine ⟨space, fresh, entry, rsp, built, rfl, zero, building, ?_⟩
                obtain ⟨⟨given, final⟩, created, outcome⟩ :=
                  threadCreateUser_created { k with mm := built } name entry rsp space
                simp only [created, ok_bind] at done
                cases outcome with
                | noSlot =>
                    simp only [show ((-1 : Int) < 0) from by decide, ↓reduceIte, pure_ok,
                      Except.ok.injEq, Prod.mk.injEq] at done
                    omega
                | noStack slot pmm =>
                    simp only [show ((-1 : Int) < 0) from by decide, ↓reduceIte, pure_ok,
                      Except.ok.injEq, Prod.mk.injEq] at done
                    omega
                | created slot first _ _ _ run =>
                    have proper : ¬ ((slot : Int) < 0) := by omega
                    simp only [proper, ↓reduceIte, pure_ok, Except.ok.injEq, Prod.mk.injEq] at done
                    obtain ⟨rfl, rfl⟩ := done
                    rw [Int.toNat_natCast, setThread_same, growTable_threads, setThread_same]
                    exact ⟨rfl, rfl, rfl, first, run, by simp [Kernel.setThread, Kernel.setPmm]⟩

theorem HighKept.refl (k : Kernel) : HighKept k k.mm :=
  ⟨rfl, fun _ _ _ _ _ => rfl, fun _ _ _ _ _ => rfl⟩

theorem step_highKept (k : Kernel) (op : Op) (ret : Int) (after : Kernel) (own : Ownership k)
    (allowed : Allowed k op) (done : step k op = .ok (ret, after)) :
    ∃ mm, HighKept k mm ∧ after.mm.mem = mm.mem ∧ after.mm.kernelSpace = mm.kernelSpace := by
  have unchanged : after.mm = k.mm →
      ∃ mm, HighKept k mm ∧ after.mm.mem = mm.mem ∧ after.mm.kernelSpace = mm.kernelSpace :=
    fun same => ⟨k.mm, .refl k, by rw [same], by rw [same]⟩
  cases step_called own allowed done with
  | spawn outcome =>
      cases outcome with
      | noSpace => exact unchanged rfl
      | failed space built gone _ isBuilt => exact ⟨built, built_highKept own isBuilt, rfl, rfl⟩
      | noStack space built gone slot _ isBuilt => exact ⟨built, built_highKept own isBuilt, rfl, rfl⟩
      | spawned space built gone slot _ entry rsp _ isBuilt _ _ _ _ shape =>
          rw [shape, growTable_mm]
          exact ⟨built, built_highKept own isBuilt, rfl, rfl⟩
  | heap _ outcome =>
      cases outcome with
      | unchanged => exact unchanged rfl
      | exhausted mm gone building => exact ⟨mm, building_highKept own building, rfl, rfl⟩
      | grown new mm gone _ _ building => exact ⟨mm, building_highKept own building, rfl, rfl⟩
  | create outcome =>
      cases outcome with
      | noSlot => exact unchanged rfl
      | noStack slot pmm => exact ⟨k.mm, .refl k, rfl, rfl⟩
      | created slot first =>
          rw [growTable_mm]
          exact ⟨k.mm, .refl k, rfl, rfl⟩
  | quiet mm _ => exact unchanged mm
  | @reaped tid _ _ _ shape =>
      obtain ⟨_, _, _, memory, _⟩ := freeThread_spec own tid
      rw [shape]
      refine ⟨k.mm, .refl k, memory, ?_⟩
      simp only [Kernel.setThread, freeThread, destroySpace]
      split <;> split <;> rfl

theorem oneLevel_congr {before after : Nat → UInt8} {root other : Nat}
    (walks : ∀ path, path ≠ [] → High path →
      follow (plainChild after) other path = follow (plainChild before) root path)
    (levels : OneLevel before root) : OneLevel after other := by
  intro path way tbl nonempty another high alsoHigh reached alsoReached
  rw [walks path nonempty high] at reached
  rw [walks way another alsoHigh] at alsoReached
  exact levels path way tbl nonempty another high alsoHigh reached alsoReached

theorem run_kernelTables (start k : Kernel) (booted : Sched.Booted start)
    (levels : OneLevel start.mm.mem start.mm.kernelSpace) (run : Run step Allowed start k) :
    KernelTables k.mm := by
  have kept : Ownership k ∧ OneLevel k.mm.mem k.mm.kernelSpace := by
    refine run_invariant step Allowed
      (fun k => Ownership k ∧ OneLevel k.mm.mem k.mm.kernelSpace) ?_ run
      ⟨init_ownership start booted, levels⟩
    intro before op ret after own allowed done
    obtain ⟨mm, high, memory, kernel⟩ := step_highKept before op ret after own.1 allowed done
    refine ⟨(step_ownership before op ret after own.1 allowed done).1, ?_⟩
    rw [memory, kernel, high.kernel]
    exact oneLevel_congr (high_follow (high.entries _ (kernel_live before)) high.tables) own.2
  obtain ⟨page, used⟩ := kept.1.owned.root_page _ (kernel_live k)
  exact ⟨page.aligned, used, fun tbl table => (kept.1.owned.apart tbl (.inr table)).2.1, kept.2⟩

/-- The arguments survive spawning: wherever the frames of the stack lie, the new process
finds the first `argMax` strings of `argv`. That holds of images in the high half too, as
long as they leave the direct map alone, which the model takes to stay. -/
theorem argv_survives_spawning (k after : Kernel) (name : List UInt8) (image : Image)
    (argv : List (List UInt8)) (tid : Int) (tables : KernelTables k.mm)
    (clean : ∀ bytes, bytes ∈ argv → Text bytes) (fits : FitsStack argv)
    (done : spawnElf k name image argv = .ok (tid, after)) (success : 0 ≤ tid) :
    Handed (userByte after.mm (after.threads tid.toNat).space)
      (after.threads tid.toNat).frame.rsp argv := by
  obtain ⟨space, fresh, entry, rsp, built, made, nonzero, building, hasSpace, hasRsp, _, first, _, final⟩ :=
    spawnElf_succeeded k after name image argv tid done success
  have memory : after.mm.mem = built.mem := by rw [final]
  obtain ⟨rfl, more, window, laid⟩ :=
    buildUser_laid image argv (newSpace_alone tables made nonzero) rfl fits building
  rw [hasSpace, hasRsp]
  refine handed fits clean laid fun va inside => ?_
  obtain ⟨frame, _, page, _, target⟩ := window.frame inside
  have positive := page.nonzero
  have same : translate after.mm space va = translate built space va := by
    rw [Vmm.translate, Vmm.translate, walk_reads, walk_reads, memory]
  rw [userByte, same, memory, stackMem]
  exact if_neg (by omega)

theorem blank_oneLevel : OneLevel (Vmm.init (blankMachine (-2)) (2 ^ 29)).mem
    (Vmm.init (blankMachine (-2)) (2 ^ 29)).kernelSpace := by
  refine oneLevel_congr (init_booted _ _ blankMachine_wide).2.1 fun path other tbl nonempty _ _ _ reached => ?_
  cases path with
  | nil => exact absurd rfl nonempty
  | cons index rest =>
      have blank : entry (blankMachine (-2)).mem (2 ^ 29 &&& pteAddrMask) index = 0 :=
        read64_zeroed _ _ fun _ _ _ => rfl
      rw [follow_cons, plainChild, blank] at reached
      cases reached

theorem argv_survives_spawning_two_words :
    ∃ start after, Sched.Booted start ∧ KernelTables start.mm ∧
      FitsStack [[115, 104], [45, 99]] ∧
      spawnElf start [] (smallImage 0x400000) [[115, 104], [45, 99]] = .ok (1, after) ∧
      Handed (userByte after.mm (after.threads 1).space) (after.threads 1).frame.rsp
        [[115, 104], [45, 99]] := by
  have limine := blankMachine_wide
  have booted := bootedKernel_booted _ _ limine
  have levels := blank_oneLevel
  have returned : (spawnElf (bootedKernel (Vmm.init (blankMachine (-2)) (2 ^ 29))) []
      (smallImage 0x400000) [[115, 104], [45, 99]]).map Prod.fst = .ok 1 := by decide +kernel
  generalize Vmm.init (blankMachine (-2)) (2 ^ 29) = mm at booted levels returned
  obtain ⟨after, done⟩ := ok_of_returned _ _ returned
  have tables := run_kernelTables (bootedKernel mm) (bootedKernel mm) booted levels
    Relation.ReflTransGen.refl
  have fits : FitsStack [[115, 104], [45, 99]] := by
    unfold FitsStack
    decide
  have clean : ∀ bytes ∈ [[115, 104], [45, 99]], Text bytes := by decide
  exact ⟨_, after, booted, tables, fits, done,
    argv_survives_spawning _ after [] _ _ 1 tables clean fits done (by decide)⟩

end Shizuku.Process
