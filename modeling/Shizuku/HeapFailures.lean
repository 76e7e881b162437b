import Shizuku.Malloc

/-!
Heap calls that do not move the break. A break outside of its window is refused
before anything happens. When memory runs out in the loop, the pages mapped so far
and their tables stay, and the answer is the old break minus one.
-/

namespace Shizuku.Process

open Machine Pmm Vmm Elf Sched

/-- A thread that is about to call `sys_sbrk`: a process spawned from any image and
alone since then, or any process of a booted system. -/
inductive HeapCaller : Kernel → Prop where
  | alone (k spawned current : Kernel) (name : List UInt8) (image : Image) (argv : List (List UInt8))
      (tid : Int) (tables : KernelTables k.mm) (zero : ¬ Free k.mm.pmm 0) (short : ShortArgs argv)
      (done : spawnElf k name image argv = .ok (tid, spawned)) (success : 0 ≤ tid)
      (run : Run step (Alone tid.toNat) spawned current) (turn : current.currentIdx = tid.toNat) :
      HeapCaller current
  | together (start current : Kernel) (booted : Sched.Booted start)
      (run : Run step Allowed start current)
      (user : (current.threads current.currentIdx).isUser = true) : HeapCaller current

theorem HeapCaller.owner {k : Kernel} (caller : HeapCaller k) : HeapOwner k.currentIdx k := by
  cases caller with
  | alone base spawned current name image argv tid tables zero short done success run turn =>
      rw [turn]
      exact run_invariant step _ (HeapOwner tid.toNat) (alone_step tid.toNat) run
        (spawned_heapOwner base spawned name image argv tid tables short done success)
  | together start current booted run user =>
      obtain ⟨own, heaps⟩ := run_heaps start k booted run
      exact (running_guards k.currentIdx).owner k ⟨own, heaps, user⟩

/-- A call that does not extend the break reports it by a negative value and leaves
the break, every translation and the free pages as they were. -/
def FailsAtomically (k : Kernel) (rdi : Nat) : Prop :=
  ¬ (k.threads k.currentIdx).brk < ((sysSbrk k rdi).2.threads k.currentIdx).brk →
    (sysSbrk k rdi).1 < 0 ∧
    ((sysSbrk k rdi).2.threads k.currentIdx).brk = (k.threads k.currentIdx).brk ∧
    (∀ space va, translate (sysSbrk k rdi).2.mm space va = translate k.mm space va) ∧
    ∀ page, Free (sysSbrk k rdi).2.mm.pmm page ↔ Free k.mm.pmm page

/-- If the new break is in its window, the free pages cover the new pages and the
tables that these lack. -/
def Provided (k : Kernel) (rdi : Nat) : Prop :=
  (k.threads k.currentIdx).brk + rdi ≤ userHeapBase + userHeapMax →
    pagesNeeded k.mm.mem (k.threads k.currentIdx).space
      (heapPages (k.threads k.currentIdx).brk ((k.threads k.currentIdx).brk + rdi)) ≤ freeCount k.mm.pmm

/-- The stores of `sys_sbrk` go through the direct map, which the model takes to stay as it
was at boot, whatever image the caller has. -/
theorem sbrk_fails_atomically_iff (k : Kernel) (caller : HeapCaller k) (rdi : Nat)
    (word : rdi < 2 ^ 64) (positive : 0 < toI64 rdi) : FailsAtomically k rdi ↔ Provided k rdi := by
  have owner := caller.owner
  have window := owner.window
  have nonzero : rdi ≠ 0 := by
    rintro rfl
    exact absurd positive (by decide)
  by_cases inside : (k.threads k.currentIdx).brk + rdi ≤ userHeapBase + userHeapMax
  · obtain ⟨live, held, owned, alive⟩ := owner.owned
    have supply := heapLoop_supplied owned alive window ⟨Nat.le_add_right_of_le window.1, inside⟩
    unfold FailsAtomically Provided
    cases loop : forEach (mapDataPage (k.threads k.currentIdx).space) k.mm
        (heapPages (k.threads k.currentIdx).brk ((k.threads k.currentIdx).brk + rdi)) with
    | mk ok after =>
        rw [loop] at supply
        rw [sysSbrk_looped window nonzero inside loop]
        cases ok with
        | true =>
            refine ⟨fun _ _ => supply.mp rfl, fun _ still => absurd ?_ still⟩
            rw [if_pos rfl, setThread_same]
            exact Nat.lt_add_of_pos_right (Nat.pos_of_ne_zero nonzero)
        | false =>
            -- The old break minus one is an address, not an error.
            have signed := break_toI64 window
            have base : userHeapBase = 0x600000000000 := rfl
            have low := window.1
            constructor
            · intro atomic
              have negative := (atomic (Nat.lt_irrefl _)).1
              rw [if_neg (by decide)] at negative
              omega
            · intro provided
              exact absurd (supply.mpr (provided inside)) Bool.false_ne_true
  · unfold FailsAtomically Provided
    rw [sysSbrk_refused window nonzero word (Nat.lt_of_not_le inside)]
    refine ⟨fun _ within => absurd within inside, fun _ _ => ?_⟩
    exact ⟨Int.negSucc_lt_zero 0, rfl, fun _ _ => rfl, fun _ => Iff.rfl⟩

theorem spawned_ticked {start born : Kernel} {ret : Int}
    (shape : spawnElf start [] (smallImage 0x400000) [] = .ok (ret, born)) (count : Nat) :
    Run step Allowed start (ticked born count) := by
  induction count with
  | zero =>
      have allowed : Allowed start (.spawnElf [] (smallImage 0x400000) []) :=
        ⟨smallImage_low, fun bytes member => by cases member⟩
      exact .single ⟨.spawnElf [] (smallImage 0x400000) [], ret, allowed, shape⟩
  | succ count ih => exact ih.tail ⟨.tick .zeroed, 0, trivial, rfl⟩

theorem sbrk_fails_atomically_large : ∃ k, HeapCaller k ∧ (sysSbrk k (2 ^ 40)).1 = -1 ∧
    ∀ page, Free (sysSbrk k (2 ^ 40)).2.mm.pmm page ↔ Free k.mm.pmm page := by
  have booted := bootedKernel_booted _ _ blankMachine_wide
  have evaluated : ((spawnElf (bootedKernel (Vmm.init (blankMachine (-2)) (2 ^ 29))) []
      (smallImage 0x400000) []).map fun result =>
        (result.1, ((ticked result.2 5).threads (ticked result.2 5).currentIdx).isUser,
          ((ticked result.2 5).threads (ticked result.2 5).currentIdx).brk,
          (sysSbrk (ticked result.2 5) (2 ^ 40)).1,
          ((sysSbrk (ticked result.2 5) (2 ^ 40)).2.threads (ticked result.2 5).currentIdx).brk)) =
      .ok (1, true, userHeapBase, -1, userHeapBase) := by decide +kernel
  generalize Vmm.init (blankMachine (-2)) (2 ^ 29) = mm at booted evaluated
  obtain ⟨⟨ret, born⟩, shape, values⟩ := (map_ok _ _ _).mp evaluated
  simp only [Prod.mk.injEq] at values
  obtain ⟨rfl, user, brk, answer, still⟩ := values
  have caller := HeapCaller.together _ _ booted (spawned_ticked shape 5) user
  generalize ticked born 5 = k at *
  have provided : Provided k (2 ^ 40) := by
    intro inside
    rw [brk] at inside
    exact absurd inside (by decide)
  have atomic := (sbrk_fails_atomically_iff k caller (2 ^ 40) (by decide) (by decide)).mpr provided
  exact ⟨k, caller, answer, (atomic (by rw [still, brk]; exact Nat.lt_irrefl _)).2.2.2⟩

def traces (k : Kernel) (rdi number : Nat) : (Int × Nat × Nat) × Nat × Nat × Bool × Bool :=
  (((sysSbrk k rdi).1, ((sysSbrk k rdi).2.threads k.currentIdx).brk, (k.threads k.currentIdx).brk),
    translate k.mm (k.threads k.currentIdx).space userHeapBase,
    translate (sysSbrk k rdi).2.mm (k.threads k.currentIdx).space userHeapBase,
    decide (Free k.mm.pmm number), decide (Free (sysSbrk k rdi).2.mm.pmm number))

/-- Four pages are free and two are wanted: the first is mapped with three tables, the
second has no frame. The answer is an address, and the first page stays. -/
theorem sbrk_keeps_half : ∃ k, HeapCaller k ∧ (sysSbrk k 8192).1 = userHeapBase - 1 ∧
    ((sysSbrk k 8192).2.threads k.currentIdx).brk = (k.threads k.currentIdx).brk ∧
    translate k.mm (k.threads k.currentIdx).space userHeapBase = 0 ∧
    translate (sysSbrk k 8192).2.mm (k.threads k.currentIdx).space userHeapBase ≠ 0 ∧
    Free k.mm.pmm 21 ∧ ¬ Free (sysSbrk k 8192).2.mm.pmm 21 := by
  have booted := bootedKernel_booted _ _
    (blankMachine_limine (2 ^ 22 - 2) (by decide) 1 (by decide) (by decide))
  have evaluated : ((spawnElf (bootedKernel (Vmm.init (blankMachine (2 ^ 22 - 2)) (2 ^ 29))) []
      (smallImage 0x400000) []).map fun result =>
        (((ticked result.2 5).threads (ticked result.2 5).currentIdx).isUser,
          traces (ticked result.2 5) 8192 21)) =
      .ok (true, (userHeapBase - 1, userHeapBase, userHeapBase), 0, 18 * pageSize, true, false) := by
    decide +kernel
  generalize Vmm.init (blankMachine (2 ^ 22 - 2)) (2 ^ 29) = mm at booted evaluated
  obtain ⟨⟨ret, born⟩, shape, values⟩ := (map_ok _ _ _).mp evaluated
  have run := spawned_ticked shape 5
  dsimp only at values
  generalize ticked born 5 = k at run values
  simp only [traces, Prod.mk.injEq, decide_eq_true_eq, decide_eq_false_iff_not] at values
  obtain ⟨user, ⟨answer, brk, same⟩, before, after, free, taken⟩ := values
  exact ⟨k, .together _ k booted run user, answer, brk.trans same.symm, before,
    by rw [after]; decide, free, taken⟩

end Shizuku.Process
