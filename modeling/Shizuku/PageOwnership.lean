import Shizuku.Holdings

/-!
Page ownership over whole runs: `Ownership` from boot on, and from it that every
physical page has at most one owner and that no page is freed twice.
-/

namespace Shizuku.Process

open ByteMemory WordMemory PointerForest Machine Pmm Vmm Elf Sched

inductive Op where
  | spawnElf (name : List UInt8) (image : Image) (argv : List (List UInt8))
  | sbrk (rdi : Nat)
  | kthreadCreate (name : List UInt8) (f arg : Nat)
  | threadExit (f : IrqFrame)
  | sysExit (status : Int) (f : IrqFrame)
  | reap (tid : Nat)
  | tick (f : IrqFrame)

def step (k : Kernel) : Op → Outcome (Int × Kernel)
  | .spawnElf name image argv => spawnElf k name image argv
  | .sbrk rdi => .ok (sysSbrk k rdi)
  | .kthreadCreate name f arg => kthreadCreate k name f arg
  | .threadExit f => .ok (0, (schedThreadExit k f).2)
  | .sysExit status f => .ok (0, (sysExit k status f).2)
  | .reap tid => do return (0, ← schedReap k tid)
  | .tick f => .ok (0, (schedTick k f).2)

def Allowed (k : Kernel) : Op → Prop
  | .spawnElf _ image argv => LowImage image ∧ ShortArgs argv
  | .sbrk _ => (k.threads k.currentIdx).isUser = true
  | _ => True

instance Allowed.decidable (k : Kernel) : (op : Op) → Decidable (Allowed k op)
  | .spawnElf _ image argv => inferInstanceAs (Decidable
      ((∀ va, va ∈ loadVas image → tableIndex va 4 < 256) ∧ ∀ bytes, bytes ∈ argv → bytes.length < 2 ^ 42))
  | .sbrk _ => inferInstanceAs (Decidable ((k.threads k.currentIdx).isUser = true))
  | .kthreadCreate _ _ _ | .threadExit _ | .sysExit _ _ | .reap _ | .tick _ => isTrue trivial

def Idle (_ : Kernel) : Op → Prop
  | .tick _ | .threadExit _ | .sysExit _ _ => True
  | _ => False

theorem idle_step {k after : Kernel} {op : Op} {ret : Int} (idle : Idle k op)
    (done : step k op = .ok (ret, after)) :
    after.mm = k.mm ∧ ∀ slot, SameHolding (k.threads slot) (after.threads slot) := by
  cases op with
  | tick f =>
      cases done
      exact schedTick_holdings k f
  | threadExit f =>
      cases done
      exact schedThreadExit_holdings k f
  | sysExit status f =>
      cases done
      exact sysExit_holdings k status f
  | spawnElf _ _ _ | kthreadCreate _ _ _ | reap _ | sbrk _ => exact idle.elim

/-- What an allowed call does. Exits, ticks and a reap of a thread that is no zombie leave all memory
with its owners. -/
inductive Called (k : Kernel) : Op → Int → Kernel → Prop where
  | spawn {name : List UInt8} {image : Image} {argv : List (List UInt8)} {ret : Int} {after : Kernel}
      (outcome : Spawned (liveSpaces k) (heldPages k) k name image (ret, after)) :
      Called k (.spawnElf name image argv) ret after
  | heap {rdi : Nat} {ret : Int} {after : Kernel} (call : sysSbrk k rdi = (ret, after))
      (outcome : Grown k (k.threads k.currentIdx) (ret, after)) : Called k (.sbrk rdi) ret after
  | create {name : List UInt8} {f arg : Nat} {ret : Int} {after : Kernel}
      (outcome : KthreadCreated k name f arg (ret, after)) : Called k (.kthreadCreate name f arg) ret after
  | quiet {op : Op} {ret : Int} {after : Kernel} (mm : after.mm = k.mm)
      (same : ∀ slot, SameHolding (k.threads slot) (after.threads slot)) : Called k op ret after
  | reaped {tid : Nat} {ret : Int} {after : Kernel} (call : schedReap k tid = .ok after)
      (shape : after = { k with mm := freeThread k.mm (k.threads tid) }.setThread tid .zeroed) :
      Called k (.reap tid) ret after

theorem step_called {k after : Kernel} {op : Op} {ret : Int} (own : Ownership k) (allowed : Allowed k op)
    (done : step k op = .ok (ret, after)) : Called k op ret after := by
  cases op with
  | spawnElf name image argv =>
      obtain ⟨result, equal, outcome⟩ := spawnElf_spawned k name image argv own.owned (kernel_live k)
        allowed.1 allowed.2
      rw [step, equal, Except.ok.injEq] at done
      exact .spawn (done ▸ outcome)
  | sbrk rdi =>
      have call : sysSbrk k rdi = (ret, after) := Except.ok.inj done
      exact .heap call (call ▸ sysSbrk_grown own rdi allowed)
  | kthreadCreate name f arg =>
      obtain ⟨result, equal, outcome⟩ := kthreadCreate_created k name f arg
      rw [step, equal, Except.ok.injEq] at done
      exact .create (done ▸ outcome)
  | threadExit _ | sysExit _ _ | tick _ =>
      obtain ⟨mm, same⟩ := idle_step (by trivial) done
      exact .quiet mm same
  | reap tid =>
      obtain ⟨reaped, call, rest⟩ := (bind_ok _ _ _).mp done
      cases rest
      rcases schedReap_cases k _ tid call with ⟨_, _, rfl⟩ | ⟨_, _, shape⟩
      · exact .quiet rfl fun _ => .refl _
      · exact .reaped call shape

theorem step_ownership (k : Kernel) (op : Op) (ret : Int) (after : Kernel) (own : Ownership k)
    (allowed : Allowed k op) (done : step k op = .ok (ret, after)) :
    Ownership after ∧ after.mm.pmm.badFrees = k.mm.pmm.badFrees := by
  cases step_called own allowed done with
  | spawn outcome => exact spawned_ownership own _ _ ret after outcome
  | @heap rdi _ _ call _ =>
      have kept := sysSbrk_ownership own rdi allowed
      rwa [call] at kept
  | create outcome => exact kthreadCreated_ownership own _ _ _ ret after outcome
  | quiet mm same => exact ⟨own.same_holdings mm same, by rw [mm]⟩
  | reaped call _ => exact schedReap_ownership own _ call

theorem init_ownership (k : Kernel) (booted : Sched.Booted k) : Ownership k := by
  obtain ⟨pre, cr3, before, limine, started, fresh, rfl⟩ := booted
  have owned := (started_owned limine started).1
  have nothing : ∀ slot, (Sched.init before).threads slot = .zeroed ∨
      ((Sched.init before).threads slot).isUser = false ∧
        ((Sched.init before).threads slot).kstackPa = 0 ∧
        ((Sched.init before).threads slot).state = .runnable := by
    intro slot
    by_cases boot : slot = 0
    · subst slot
      exact .inr ⟨rfl, rfl, rfl⟩
    · exact .inl ((setThread_other before 0 slot _ boot).trans (fresh slot))
  have noSpace : ∀ slot, ownSpace ((Sched.init before).threads slot) = none := by
    intro slot
    rcases nothing slot with zeroed | ⟨user, _, _⟩
    · rw [zeroed]
      rfl
    · rw [ownSpace, user]
      rfl
  have noStack : ∀ slot, ownStack ((Sched.init before).threads slot) = [] := by
    intro slot
    rcases nothing slot with zeroed | ⟨_, stack, _⟩
    · rw [zeroed]
      rfl
    · rw [ownStack, if_pos stack]
  have live : ∀ space, space ∈ liveSpaces (Sched.init before) → space = before.mm.kernelSpace := by
    rintro space (root | ⟨slot, mine⟩)
    · exact root
    · rw [noSpace] at mine
      cases mine
  constructor
  · refine (owned.live_mono live).held_mono fun page member => ?_
    rcases member with ⟨slot, mine⟩ | table
    · rw [noStack] at mine
      cases mine
    · exact table
  · intro slot page mine
    rw [noStack] at mine
    cases mine
  · intro slot other page mine
    rw [noStack] at mine
    cases mine
  · intro slot mine
    rw [noSpace] at mine
    cases mine
  · intro slot other space mine
    rw [noSpace] at mine
    cases mine
  · exact fun slot _ => ⟨noSpace slot, noStack slot⟩
  · intro space alive idx _ _
    rw [live space alive]
    rfl
  · intro slot user
    have mine := noSpace slot
    rw [ownSpace, if_pos user] at mine
    cases mine

theorem run_ownership (start k : Kernel) (booted : Sched.Booted start) (run : Run step Allowed start k) :
    Ownership k ∧ k.mm.pmm.badFrees = start.mm.pmm.badFrees := by
  refine run_invariant step Allowed
    (fun k => Ownership k ∧ k.mm.pmm.badFrees = start.mm.pmm.badFrees) ?_ run
    ⟨init_ownership start booted, rfl⟩
  intro before op ret after kept allowed done
  obtain ⟨own, bad⟩ := step_ownership before op ret after kept.1 allowed done
  exact ⟨own, bad.trans kept.2⟩

/-- `KERNEL_SPACE`, and the spaces of the user threads that are not `Unused`. -/
def LiveSpace (k : Kernel) (space : Nat) : Prop :=
  space = k.mm.kernelSpace ∨ ∃ slot, slot < schedMaxThreads ∧ (k.threads slot).state ≠ .unused ∧
    (k.threads slot).isUser = true ∧ (k.threads slot).space = space

/-- The bitmap, a page table or a frame of the low half of a live space, named by
its path, the tables of the high half, which all spaces share, or a kernel stack. -/
inductive Owner where
  | free
  | table (space : Nat) (path : List Nat)
  | frame (space : Nat) (path : List Nat)
  | kernelHalf
  | stack (slot index : Nat)

def Owns (k : Kernel) (page : Nat) : Owner → Prop
  | .free => FreeAt k.mm.pmm page
  | .table space path => LiveSpace k space ∧ Low path ∧ path.length < 4 ∧
      view k.mm.mem space path = some page
  | .frame space path => LiveSpace k space ∧ Low path ∧ path.length = 4 ∧
      view k.mm.mem space path = some page
  | .kernelHalf => HighTable k.mm.mem k.mm.kernelSpace page
  | .stack slot index => slot < schedMaxThreads ∧ (k.threads slot).state ≠ .unused ∧
      (k.threads slot).kstackPa ≠ 0 ∧ index < 4 ∧
      page = (k.threads slot).kstackPa + index * pageSize

theorem LiveSpace.live {k : Kernel} {space : Nat} (alive : LiveSpace k space) :
    space ∈ liveSpaces k := by
  rcases alive with root | ⟨slot, _, _, user, mine⟩
  · exact .inl root
  · exact .inr ⟨slot, by rw [ownSpace, if_pos user, mine]⟩

theorem stack_member (t : Thread) (index : Nat) (stack : t.kstackPa ≠ 0) (bound : index < 4) :
    t.kstackPa + index * pageSize ∈ ownStack t := by
  rw [ownStack, if_neg stack]
  exact List.mem_map.mpr ⟨index, List.mem_range.mpr bound, rfl⟩

inductive Kind (k : Kernel) (page : Nat) : Owner → Prop
  | free : FreeAt k.mm.pmm page → Kind k page .free
  | node (owner : Owner) (space : Nat) (path : List Nat) :
      (owner = .table space path ∧ path.length < 4 ∨ owner = .frame space path ∧ path.length = 4) →
      Named (liveSpaces k) space path → view k.mm.mem space path = some page → Kind k page owner
  | kernelHalf : HighTable k.mm.mem k.mm.kernelSpace page → Kind k page .kernelHalf
  | stack (slot index : Nat) : page ∈ ownStack (k.threads slot) →
      page = (k.threads slot).kstackPa + index * pageSize → Kind k page (.stack slot index)

theorem Owns.kind {k : Kernel} {page : Nat} {owner : Owner} (owns : Owns k page owner) :
    Kind k page owner := by
  cases owner with
  | free => exact .free owns
  | table space path =>
      obtain ⟨alive, low, short, reached⟩ := owns
      exact .node _ space path (.inl ⟨rfl, short⟩) ⟨alive.live, low⟩ reached
  | frame space path =>
      obtain ⟨alive, low, deep, reached⟩ := owns
      exact .node _ space path (.inr ⟨rfl, deep⟩) ⟨alive.live, low⟩ reached
  | kernelHalf => exact .kernelHalf owns
  | stack slot index =>
      obtain ⟨_, _, stack, bound, place⟩ := owns
      exact .stack slot index (place ▸ stack_member _ index stack bound) place

theorem Ownership.unique {k : Kernel} (own : Ownership k) (page : Nat) (owner other : Owner)
    (first : Kind k page owner) (second : Kind k page other) : owner = other := by
  have owned := own.owned
  -- Held pages, which are those of stacks and of the high half, are not free and in no tree.
  have freeOnly : ∀ owner, Kind k page owner → FreeAt k.mm.pmm page → owner = .free := by
    intro owner kind free
    cases kind with
    | free _ => rfl
    | node _ space path _ named reached => exact absurd free (owned.valid _ _ _ named reached).2
    | kernelHalf table => exact absurd free (owned.apart page (.inr table)).2.1
    | stack slot index member _ => exact absurd free (owned.apart page (.inl ⟨slot, member⟩)).2.1
  have treeOnly : page ∈ heldPages k → ∀ space path, Named (liveSpaces k) space path →
      view k.mm.mem space path ≠ some page := fun member => (owned.apart page member).2.2
  cases first with
  | free free => exact (freeOnly other second free).symm
  | node _ space path shape named reached =>
      cases second with
      | free free => exact absurd free (owned.valid _ _ _ named reached).2
      | node _ another way otherShape otherNamed otherReached =>
          obtain ⟨rfl, rfl⟩ := owned.unshared _ _ _ _ _ named otherNamed reached otherReached
          rcases shape with ⟨rfl, short⟩ | ⟨rfl, deep⟩ <;>
            rcases otherShape with ⟨rfl, otherShort⟩ | ⟨rfl, otherDeep⟩
          · rfl
          · omega
          · omega
          · rfl
      | kernelHalf table => exact absurd reached (treeOnly (.inr table) space path named)
      | stack slot index member _ => exact absurd reached (treeOnly (.inl ⟨slot, member⟩) space path named)
  | kernelHalf table =>
      cases second with
      | free free => exact freeOnly _ (.kernelHalf table) free
      | node _ space path _ named reached => exact absurd reached (treeOnly (.inr table) space path named)
      | kernelHalf _ => rfl
      | stack slot index member _ => exact absurd table (own.stack slot page member).2
  | stack slot index member place =>
      cases second with
      | free free => exact freeOnly _ (.stack slot index member place) free
      | node _ space path _ named reached =>
          exact absurd reached (treeOnly (.inl ⟨slot, member⟩) space path named)
      | kernelHalf table => exact absurd table (own.stack slot page member).2
      | stack another position otherMember otherPlace =>
          obtain rfl := own.stackApart slot another page member otherMember
          have same : index = position := by
            simp only [pageSize] at place otherPlace
            omega
          rw [same]

/-- No page has two owners and no owned page is free, in any state reached by
spawns, heap calls, thread creations, exits, reaps and ticks; and no `freePage`
was rejected on the way. -/
theorem pages_have_one_owner (start k : Kernel) (booted : Sched.Booted start)
    (run : Run step Allowed start k) :
    (∀ page owner other, Owns k page owner → Owns k page other → owner = other) ∧
      k.mm.pmm.badFrees = start.mm.pmm.badFrees := by
  obtain ⟨own, bad⟩ := run_ownership start k booted run
  exact ⟨fun page owner other first second => own.unique page owner other first.kind second.kind, bad⟩

/-- A program of one page: headers only, entered at `vaddr`, mapped there. -/
def smallImage (vaddr : Nat) : Image where
  len := 120
  byte := fun place =>
    let header := [0x7F, 69, 76, 70, 2, 1] ++ List.replicate 10 0 ++ toBytes 2 2 ++ toBytes 2 62 ++
      toBytes 4 1 ++ toBytes 8 vaddr ++ toBytes 8 64 ++ toBytes 8 0 ++ toBytes 4 0 ++
      toBytes 2 64 ++ toBytes 2 56 ++ toBytes 2 1 ++ List.replicate 6 0
    let segment := toBytes 4 ptLoad ++ toBytes 4 5 ++ toBytes 8 0 ++ toBytes 8 vaddr ++
      toBytes 8 0 ++ toBytes 8 120 ++ toBytes 8 pageSize ++ toBytes 8 pageSize
    (header ++ segment).getD place 0

theorem smallImage_low : LowImage (smallImage 0x400000) := by
  unfold LowImage
  decide +kernel

theorem smallImage_spawns : (spawnElf (bootedKernel (Vmm.init (blankMachine (-2)) (2 ^ 29))) []
    (smallImage 0x400000) []).map Prod.fst = .ok 1 := by
  decide +kernel

theorem pages_have_one_owner_spawned :
    ∃ start k, Sched.Booted start ∧ Run step Allowed start k ∧ (k.threads 1).state = .runnable ∧
      ∀ page owner other, Owns k page owner → Owns k page other → owner = other := by
  have limine := blankMachine_wide
  have booted := bootedKernel_booted _ _ limine
  have returned := smallImage_spawns
  generalize Vmm.init (blankMachine (-2)) (2 ^ 29) = mm at booted returned
  obtain ⟨k, done⟩ := ok_of_returned _ _ returned
  have allowed : Allowed (bootedKernel mm) (.spawnElf [] (smallImage 0x400000) []) :=
    ⟨smallImage_low, fun bytes member => by cases member⟩
  have run : Run step Allowed (bootedKernel mm) k :=
    Relation.ReflTransGen.single ⟨.spawnElf [] (smallImage 0x400000) [], 1, allowed, done⟩
  have table : (k.threads 1).state = .runnable := by
    obtain ⟨result, equal, outcome⟩ := spawnElf_spawned _ [] (smallImage 0x400000) []
      (init_ownership _ booted).owned (kernel_live _) allowed.1 allowed.2
    rw [done, Except.ok.injEq] at equal
    subst result
    generalize one : (1 : Int) = ret at outcome
    cases outcome with
    | noSpace _ => cases one
    | failed => cases one
    | noStack => cases one
    | spawned space after gone slot start entry userRsp final _ _ _ _ _ shape =>
        have here : slot = 1 := by omega
        subst slot
        rw [shape, growTable_threads, setThread_same]
        rfl
  exact ⟨_, k, booted, run, table, (pages_have_one_owner _ k booted run).1⟩

end Shizuku.Process
