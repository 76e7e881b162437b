import Shizuku.AddressSpaces

/-!
What `destroy_space` gives back, told from the history of the space. An account of
one space records the pages its walks took from the allocator and the frame last
mapped at each page; the calls on other spaces go on in between. The tables say the
same as the account at every point, so the four loops free the root, the recorded
tables and the recorded frames. What the high half leads to stays out of reach of
all calls.
-/

namespace Shizuku.Vmm

open ByteMemory WordMemory PointerForest Pmm Machine

def lowTables (mem : Nat → UInt8) (space : Nat) : Set Nat :=
  { page | ∃ path, Low path ∧ path ≠ [] ∧ path.length ≤ 3 ∧ view mem space path = some page }

theorem inTree_iff (mem : Nat → UInt8) (space page : Nat) :
    InTree mem space page ↔ page = space ∨ page ∈ lowTables mem space ∨
      ∃ path, Low path ∧ path.length = 4 ∧ view mem space path = some page := by
  constructor
  · rintro ⟨path, low, reached⟩
    by_cases root : path = []
    · rw [root, view_nil, Option.some.injEq] at reached
      exact .inl reached.symm
    · by_cases table : path.length ≤ 3
      · exact .inr (.inl ⟨path, low, root, table, reached⟩)
      · have short := low.short
        exact .inr (.inr ⟨path, low, by omega, reached⟩)
  · rintro (rfl | ⟨path, low, _, _, reached⟩ | ⟨path, low, _, reached⟩)
    · exact ⟨[], low_nil, rfl⟩
    · exact ⟨path, low, reached⟩
    · exact ⟨path, low, reached⟩

theorem frame_path (path : List Nat) (low : Low path) (deep : path.length = 4) :
    ∃ number, number < 2 ^ 35 ∧ path = full (number * pageSize) := by
  obtain ⟨a, b, c, d, rfl⟩ := List.length_eq_four.mp deep
  have first := low.half a rfl
  have second := low.bounded b (by simp)
  have third := low.bounded c (by simp)
  have last := low.bounded d (by simp)
  refine ⟨((a * 512 + b) * 512 + c) * 512 + d, by omega, ?_⟩
  simp only [full, front, indices, List.cons_append, List.nil_append, List.cons.injEq, and_true,
    tableIndex_mod, pageSize]
  omega

/-- A change to the tree of `space`: new tables come from the allocator, and no frame
changes except at `place`. -/
structure Edited (live : Set Nat) (space : Nat) (place : List Nat) (mm after : Mm) : Prop where
  others : ∀ root path, Named live root path → root ≠ space →
    view after.mem root path = view mm.mem root path
  tables : ∀ page, page ∈ lowTables after.mem space ↔ page ∈ lowTables mm.mem space ∨
    Page page ∧ FreeAt mm.pmm page ∧ ¬ FreeAt after.pmm page
  frames : ∀ path, Low path → path.length = 4 → path ≠ place →
    view after.mem space path = view mm.mem space path
  free : ∀ page, page % pageSize = 0 → FreeAt after.pmm page → FreeAt mm.pmm page
  bytes : ∀ page, page % pageSize = 0 → ¬ FreeAt mm.pmm page → ¬ InTree mm.mem space page →
    SamePage mm.mem after.mem page
  high : ∀ root, root ∈ live → ∀ idx, 256 ≤ idx → idx < 512 →
    entry after.mem root idx = entry mm.mem root idx
  kernel : after.kernelSpace = mm.kernelSpace

theorem freeAt_page {mm : Mm} {live held : Set Nat} (owned : Owned mm live held) {page : Nat}
    (aligned : page % pageSize = 0) (free : FreeAt mm.pmm page) : Page page := by
  have isPage := free_page owned _ free
  rwa [Nat.div_mul_cancel (Nat.dvd_of_mod_eq_zero aligned)] at isPage

section Edits
variable {live held : Set Nat} {space va tbl value : Nat} {place trail : List Nat}
  {mm middle after : Mm}

theorem Building.edited (building : Building live held space mm after ∅)
    (extended : Extended live space trail mm.mem after.mem) (shallow : trail.length < 4) :
    Edited live space [] mm after where
  others root path named different := by
    cases reached : view mm.mem root path with
    | some node => exact extended.kept root path node named reached
    | none =>
        by_contra present
        exact different (extended.only root path named reached present).1
  tables page := by
    have ledger := building.ledger page
    constructor
    · rintro ⟨path, low, nonempty, short, reached⟩
      have named : Named live space path := ⟨building.alive, low⟩
      have used := (building.owned.valid space path page named reached)
      rcases ledger.mpr (.inr (.inl ⟨path, low, reached⟩)) with ⟨free, isPage⟩ | ⟨way, wayLow, before⟩
      · exact .inr ⟨isPage, free, used.2⟩
      · -- Names that lead to one page are one name, so the page was at this path before.
        have wayNamed : Named live space way := ⟨building.alive, wayLow⟩
        have same := (building.owned.unshared space path space way page named wayNamed reached
          (extended.kept space way page wayNamed before)).2
        exact .inl ⟨path, low, nonempty, short, same ▸ before⟩
    · rintro (⟨path, low, nonempty, short, reached⟩ | ⟨isPage, free, used⟩)
      · exact ⟨path, low, nonempty, short,
          extended.kept space path page ⟨building.alive, low⟩ reached⟩
      · have fresh : ¬ InTree mm.mem space page := by
          rintro ⟨path, low, reached⟩
          exact (building.start.valid space path page ⟨building.alive, low⟩ reached).2 free
        rcases ledger.mp (.inl ⟨free, isPage⟩) with ⟨still, _⟩ | inTree | lost
        · exact absurd still used
        · rcases (inTree_iff _ _ _).mp inTree with root | table | ⟨path, low, deep, reached⟩
          · exact absurd ⟨[], low_nil, by rw [root, view_nil]⟩ fresh
          · exact table
          · rw [extended.frame shallow space path ⟨building.alive, low⟩ deep] at reached
            exact absurd ⟨path, low, reached⟩ fresh
        · cases lost
  frames path low deep _ := extended.frame shallow space path ⟨building.alive, low⟩ deep
  free page aligned free := by
    have isPage := freeAt_page building.owned aligned free
    rcases (building.ledger page).mpr (.inl ⟨free, isPage⟩) with before | ⟨path, low, reached⟩
    · exact before.1
    · have kept := extended.kept space path page ⟨building.alive, low⟩ reached
      exact absurd free (building.owned.valid space path page ⟨building.alive, low⟩ kept).2
  bytes page := building.keeps page
  high root alive idx above below := by
    by_cases same : root = space
    · rw [same]
      exact building.high idx above below
    · obtain ⟨isPage, used⟩ := building.start.root_page root alive
      refine (building.keeps root isPage.aligned used ?_).entry idx below
      rintro ⟨path, low, reached⟩
      exact same (building.start.unshared root [] space path root ⟨alive, low_nil⟩
        ⟨building.alive, low⟩ rfl reached).1
  kernel := building.kernel

theorem Owned.edited_store (owned : Owned mm live held) (alive : space ∈ live)
    (below : va < 2 ^ 47) (reached : view mm.mem space (front va) = some tbl)
    (word : value < 2 ^ 64) :
    Edited live space (full va) mm (mm.setEntry tbl (tableIndex va 1) value) ∧
      view (mm.setEntry tbl (tableIndex va 1) value).mem space (full va) = entryChild value := by
  have low := low_full va (tableIndex_low va below)
  have named : Named live space (front va ++ [tableIndex va 1]) := ⟨alive, low⟩
  have tableNamed := named_closed live space (front va) [tableIndex va 1] named
  have stored := view_store owned named reached word fun rest longer belongs =>
    (beyond_leaf (front_length va) rest longer belongs).elim
  have table := (owned.valid space (front va) tbl tableNamed reached).1
  have outside := setEntry_outside mm.mem tbl (tableIndex va 1) value (tableIndex_lt va 1)
  have shorter : ∀ path, Low path → path.length ≤ 3 →
      view (write64 mm.mem (tbl + 8 * tableIndex va 1) value) space path = view mm.mem space path := by
    intro path pathLow short
    rw [stored space path ⟨alive, pathLow⟩, if_neg]
    rintro ⟨_, rfl⟩
    simp at short
  refine ⟨⟨?_, ?_, ?_, fun _ _ free => free, ?_, ?_, rfl⟩, ?_⟩
  · intro root path member different
    rw [Mm.setEntry_mem, stored root path member, if_neg fun same => different same.1]
  · intro page
    have unchanged : ¬ (Page page ∧ FreeAt mm.pmm page ∧ ¬ FreeAt mm.pmm page) := by tauto
    rw [Mm.setEntry_pmm, or_iff_left unchanged, Mm.setEntry_mem]
    constructor
    · rintro ⟨path, pathLow, nonempty, short, found⟩
      exact ⟨path, pathLow, nonempty, short, by rw [← shorter path pathLow short, found]⟩
    · rintro ⟨path, pathLow, nonempty, short, found⟩
      exact ⟨path, pathLow, nonempty, short, by rw [shorter path pathLow short, found]⟩
  · intro path pathLow _ different
    rw [Mm.setEntry_mem, stored space path ⟨alive, pathLow⟩, if_neg fun same => different same.2]
  · intro page aligned _ stranger
    refine samePage_of_outside _ _ tbl page table.aligned aligned ?_ outside
    rintro rfl
    exact stranger ⟨front va, tableNamed.2, reached⟩
  · intro root rootAlive idx _ bound
    refine (samePage_of_outside _ _ tbl root table.aligned
      (owned.root_page root rootAlive).1.aligned ?_ outside).entry idx bound
    rintro rfl
    have same := (owned.unshared root [] space (front va) root ⟨rootAlive, low_nil⟩ tableNamed rfl
      reached).2
    simp [front, indices] at same
  · rw [Mm.setEntry_mem, stored space (full va) ⟨alive, low⟩, if_pos ⟨rfl, rfl⟩]

theorem Edited.trans (left : Edited live space [] mm middle)
    (right : Edited live space place middle after) : Edited live space place mm after where
  others root path named different :=
    (right.others root path named different).trans (left.others root path named different)
  tables page := by
    have back : Page page → FreeAt middle.pmm page → FreeAt mm.pmm page := fun isPage =>
      left.free page isPage.aligned
    have forth : Page page → FreeAt after.pmm page → FreeAt middle.pmm page := fun isPage =>
      right.free page isPage.aligned
    rw [right.tables page, left.tables page]
    tauto
  frames path low deep other := by
    have nonempty : path ≠ [] := by
      rintro rfl
      simp at deep
    exact (right.frames path low deep other).trans (left.frames path low deep nonempty)
  free page aligned free := left.free page aligned (right.free page aligned free)
  bytes page aligned used stranger := by
    refine (left.bytes page aligned used stranger).trans (right.bytes page aligned ?_ ?_)
    · exact fun free => used (left.free page aligned free)
    · intro inTree
      rcases (inTree_iff _ _ _).mp inTree with root | table | ⟨path, low, deep, reached⟩
      · exact stranger ((inTree_iff _ _ _).mpr (.inl root))
      · rcases (left.tables page).mp table with old | ⟨_, free, _⟩
        · exact stranger ((inTree_iff _ _ _).mpr (.inr (.inl old)))
        · exact used free
      · have nonempty : path ≠ [] := by
          rintro rfl
          simp at deep
        rw [left.frames path low deep nonempty] at reached
        exact stranger ⟨path, low, reached⟩
  high root alive idx above below :=
    (right.high root alive idx above below).trans (left.high root alive idx above below)
  kernel := right.kernel.trans left.kernel

theorem map_edited (owned : Owned mm live held) (alive : space ∈ live) (pa flags : Nat)
    (below : va < 2 ^ 47) (args : LeafArgs pa flags) :
    ∃ ok mapped, map mm space va pa flags = (ok, mapped) ∧
      Edited live space (full va) mm mapped ∧
      view mapped.mem space (full va) = if ok then some pa else view mm.mem space (full va) := by
  obtain ⟨walked, done, extended, outcome⟩ :=
    map_cases (Building.refl owned alive) va pa flags (tableIndex_low va below) args
  have walk := done.edited extended (by simp)
  rcases outcome with ⟨failed, _⟩ | ⟨last, mapped, reached, _, _⟩
  · refine ⟨false, walked, failed, { walk with frames := fun path low deep _ => ?_ }, ?_⟩
    · exact extended.frame (by simp) space path ⟨alive, low⟩ deep
    · exact extended.frame (by simp) space (full va) ⟨alive, low_full va (tableIndex_low va below)⟩
        (by simp [full])
  · obtain ⟨bits, word⟩ := leaf_bits args
    obtain ⟨store, set⟩ := done.owned.edited_store alive below reached word
    exact ⟨true, _, mapped, walk.trans store, set.trans bits⟩

theorem unmap_edited (owned : Owned mm live held) (alive : space ∈ live) (below : va < 2 ^ 47) :
    Edited live space (full va) mm (unmap mm space va).2 ∧
      (unmap mm space va).2.pmm = mm.pmm ∧
      view (unmap mm space va).2.mem space (full va) = none := by
  rcases unmap_cases owned space va alive (tableIndex_low va below) with
    ⟨refused, absent⟩ | ⟨tbl, frame, reached, present, cleared⟩
  · rw [refused]
    exact ⟨⟨fun _ _ _ _ => rfl, fun page => by tauto, fun _ _ _ _ => rfl, fun _ _ free => free,
      fun _ _ _ _ _ _ _ => rfl, fun _ _ _ _ _ => rfl, rfl⟩, rfl, absent⟩
  · rw [cleared]
    obtain ⟨store, set⟩ := owned.edited_store alive below reached (by decide : 0 < 2 ^ 64)
    exact ⟨store, rfl, set⟩

theorem newSpace_views (owned : Owned mm live held) (kernel : mm.kernelSpace ∈ live)
    (made : newSpace mm = (space, after)) (nonzero : space ≠ 0) :
    ¬ FreeAt after.pmm space ∧ FreeAt mm.pmm space ∧ Page space ∧
      after.kernelSpace = mm.kernelSpace ∧
      (∀ root path, Named live root path → view after.mem root path = view mm.mem root path) ∧
      (∀ path, Low path → path ≠ [] → view after.mem space path = none) ∧
      (∀ idx, 256 ≤ idx → idx < 512 → entry after.mem space idx = entry mm.mem mm.kernelSpace idx) ∧
      ∀ other, other % pageSize = 0 → other ≠ space → SamePage mm.mem after.mem other := by
  rcases newSpace_cases owned kernel with ⟨nothing, _⟩ | ⟨page, mem, free, got, _, low, high, outside⟩
  · rw [nothing, Prod.mk.injEq] at made
    exact absurd made.1.symm nonzero
  · rw [got, Prod.mk.injEq] at made
    obtain ⟨rfl, rfl⟩ := made
    have isPage := free_page owned page free
    have same : ∀ other, other % pageSize = 0 → other ≠ page * pageSize → SamePage mm.mem mem other :=
      fun other aligned different =>
        samePage_of_outside _ _ _ other isPage.aligned aligned different outside
    refine ⟨?_, ?_, isPage, rfl, ?_, ?_, high, same⟩
    · rw [FreeAt, Nat.mul_div_cancel page (by decide), free_take]
      exact fun still => still.2 rfl
    · rw [FreeAt, Nat.mul_div_cancel page (by decide)]
      exact free
    · apply view_same
      intro root path tbl named _ reached
      obtain ⟨tablePage, used⟩ := owned.valid root path tbl named reached
      refine same tbl tablePage.aligned ?_
      rintro rfl
      rw [FreeAt, Nat.mul_div_cancel page (by decide)] at used
      exact used free
    · intro path pathLow nonempty
      cases path with
      | nil => exact absurd rfl nonempty
      | cons index rest =>
          apply view_cons_none
          rw [child, low index (pathLow.half index rfl)]
          rfl

end Edits

def footprint (vm : VmState) : Set Nat :=
  { page | page % pageSize = 0 ∧ FreeAt vm.mm.pmm page ∨
    (∃ root, root ∈ vm.live ∧ InTree vm.mm.mem root page) ∨ page ∈ vm.frames }

structure Confined (vm after : VmState) : Prop where
  pages : ∀ page, page ∈ footprint after → page ∈ footprint vm
  bytes : ∀ page, page % pageSize = 0 → page ∉ footprint vm → SamePage vm.mm.mem after.mm.mem page
  high : ∀ root, root ∈ after.live → ∃ source, source ∈ vm.live ∧
    ∀ idx, 256 ≤ idx → idx < 512 → entry after.mm.mem root idx = entry vm.mm.mem source idx
  kernel : after.mm.kernelSpace = vm.mm.kernelSpace

section Calls
variable {vm after : VmState} {space va ret : Nat}

theorem Edited.confined (edited : Edited vm.live space (full va) vm.mm after.mm)
    (alive : space ∈ vm.live) (sameLive : after.live = vm.live) (low : Low (full va))
    (frames : ∀ page, page ∈ after.frames ∨ view after.mm.mem space (full va) = some page →
      page ∈ vm.frames ∨ view vm.mm.mem space (full va) = some page) : Confined vm after := by
  have reachable : ∀ page, page ∈ vm.frames ∨ view vm.mm.mem space (full va) = some page →
      page ∈ footprint vm := by
    rintro page (loose | mapped)
    · exact .inr (.inr loose)
    · exact .inr (.inl ⟨space, alive, full va, low, mapped⟩)
  refine ⟨?_, ?_, ?_, edited.kernel⟩
  · rintro page (⟨aligned, free⟩ | ⟨root, rootAlive, inTree⟩ | loose)
    · exact .inl ⟨aligned, edited.free page aligned free⟩
    · rw [sameLive] at rootAlive
      by_cases same : root = space
      · subst root
        rcases (inTree_iff _ _ _).mp inTree with root | table | ⟨path, pathLow, deep, reached⟩
        · exact .inr (.inl ⟨space, alive, (inTree_iff _ _ _).mpr (.inl root)⟩)
        · rcases (edited.tables page).mp table with old | ⟨isPage, free, _⟩
          · exact .inr (.inl ⟨space, alive, (inTree_iff _ _ _).mpr (.inr (.inl old))⟩)
          · exact .inl ⟨isPage.aligned, free⟩
        · by_cases here : path = full va
          · exact reachable page (frames page (.inr (here ▸ reached)))
          · rw [edited.frames path pathLow deep here] at reached
            exact .inr (.inl ⟨space, alive, path, pathLow, reached⟩)
      · obtain ⟨path, pathLow, reached⟩ := inTree
        rw [edited.others root path ⟨rootAlive, pathLow⟩ same] at reached
        exact .inr (.inl ⟨root, rootAlive, path, pathLow, reached⟩)
    · exact reachable page (frames page (.inl loose))
  · intro page aligned stranger
    refine edited.bytes page aligned (fun free => stranger (.inl ⟨aligned, free⟩)) fun inTree => ?_
    exact stranger (.inr (.inl ⟨space, alive, inTree⟩))
  · intro root rootAlive
    rw [sameLive] at rootAlive
    exact ⟨root, rootAlive, edited.high root rootAlive⟩

theorem confined_of_mem (sameMem : after.mm.mem = vm.mm.mem)
    (sameKernel : after.mm.kernelSpace = vm.mm.kernelSpace)
    (fewer : ∀ root, root ∈ after.live → root ∈ vm.live)
    (pages : ∀ page, (page % pageSize = 0 ∧ FreeAt after.mm.pmm page) ∨ page ∈ after.frames →
      page ∈ footprint vm) : Confined vm after := by
  refine ⟨?_, fun page _ _ place _ _ => by rw [sameMem],
    fun root alive => ⟨root, fewer root alive, ?_⟩, sameKernel⟩
  · rintro page (free | ⟨root, alive, inTree⟩ | loose)
    · exact pages page (.inl free)
    · rw [sameMem] at inTree
      exact .inr (.inl ⟨root, fewer root alive, inTree⟩)
    · exact pages page (.inr loose)
  · intro idx _ _
    rw [sameMem]

theorem Confined.refl (vm : VmState) : Confined vm vm :=
  confined_of_mem rfl rfl (fun _ alive => alive) fun _ kept => kept.imp id .inr

theorem newSpace_confined (owned : Owned vm.mm vm.live vm.frames) (kernel : vm.mm.kernelSpace ∈ vm.live)
    {mm : Mm} (made : newSpace vm.mm = (space, mm)) (nonzero : space ≠ 0)
    (fewer : ∀ page, FreeAt mm.pmm page → FreeAt vm.mm.pmm page) :
    Confined vm { vm with mm := mm, live := insert space vm.live } := by
  obtain ⟨_, fresh, isPage, sameKernel, views, blank, high, bytes⟩ :=
    newSpace_views owned kernel made nonzero
  have here : space ∈ footprint vm := .inl ⟨isPage.aligned, fresh⟩
  refine ⟨?_, fun page aligned stranger => ?_, ?_, sameKernel⟩
  · rintro page (⟨aligned, still⟩ | ⟨root, rfl | alive, path, low, reached⟩ | loose)
    · exact .inl ⟨aligned, fewer page still⟩
    · by_cases empty : path = []
      · rw [empty, view_nil, Option.some.injEq] at reached
        exact reached ▸ here
      · rw [blank path low empty] at reached
        cases reached
    · rw [views root path ⟨alive, low⟩] at reached
      exact .inr (.inl ⟨root, alive, path, low, reached⟩)
    · exact .inr (.inr loose)
  · exact bytes page aligned fun equal => stranger (equal ▸ here)
  · rintro root (rfl | alive)
    · exact ⟨vm.mm.kernelSpace, kernel, high⟩
    · obtain ⟨rootPage, used⟩ := owned.root_page root alive
      refine ⟨root, alive, fun idx _ below => (bytes root rootPage.aligned ?_).entry idx below⟩
      rintro rfl
      exact used fresh

theorem allocPage_confined (owned : Owned vm.mm vm.live vm.frames)
    (done : step vm .allocPage = .ok (ret, after)) : Confined vm after := by
  rcases allocPage_cases vm.mm.pmm with ⟨nothing, _⟩ | ⟨page, free, _, taken⟩
  · simp only [step, nothing, ↓reduceIte, Except.ok.injEq, Prod.mk.injEq] at done
    obtain ⟨_, rfl⟩ := done
    exact .refl vm
  · have isPage := free_page owned page free
    simp only [step, taken, isPage.nonzero, ↓reduceIte, Except.ok.injEq, Prod.mk.injEq] at done
    obtain ⟨_, rfl⟩ := done
    refine confined_of_mem rfl rfl (fun _ alive => alive) fun other => ?_
    rintro (⟨aligned, still⟩ | rfl | loose)
    · exact .inl ⟨aligned, ((free_take _ _ _).mp still).1⟩
    · refine .inl ⟨isPage.aligned, ?_⟩
      rw [FreeAt, Nat.mul_div_cancel page (by decide)]
      exact free
    · exact .inr (.inr loose)

theorem freePage_confined {pa : Nat} (owned : Owned vm.mm vm.live vm.frames) (isPage : Page pa)
    (mine : pa ∈ vm.frames) (done : step vm (.freePage pa) = .ok (ret, after)) : Confined vm after := by
  simp only [step, Except.ok.injEq, Prod.mk.injEq] at done
  obtain ⟨_, rfl⟩ := done
  have released := (owned.release pa mine isPage).1
  refine confined_of_mem rfl rfl (fun _ alive => alive) fun page => ?_
  rintro (⟨aligned, free⟩ | loose)
  · dsimp only [FreeAt] at free
    rw [released, free_release _ _ _ isPage.inside] at free
    rcases free with old | same
    · exact .inl ⟨aligned, old⟩
    · have equal : page = pa := by
        rw [← isPage.number, ← same, Nat.div_mul_cancel (Nat.dvd_of_mod_eq_zero aligned)]
      exact .inr (.inr (equal ▸ mine))
  · exact .inr (.inr loose.1)

theorem map_confined {target va pa flags : Nat} (owned : Owned vm.mm vm.live vm.frames) (isPage : Page pa)
    (allowed : Allowed vm (.map target va pa flags))
    (done : step vm (.map target va pa flags) = .ok (ret, after)) : Confined vm after := by
  obtain ⟨alive, below, mine, plain, word⟩ := allowed
  obtain ⟨ok, mapped, result, edited, frame⟩ := map_edited owned alive pa flags below
    (isPage.leafArgs plain word)
  simp only [step, result, Except.ok.injEq, Prod.mk.injEq] at done
  obtain ⟨_, rfl⟩ := done
  refine edited.confined alive rfl (low_full va (tableIndex_low va below)) fun page => ?_
  dsimp only
  rw [frame]
  cases ok with
  | false => exact id
  | true =>
      rintro (⟨old, _⟩ | new)
      · exact old
      · exact .inl (Option.some.inj new ▸ mine)

theorem unmap_confined {target va : Nat} (owned : Owned vm.mm vm.live vm.frames)
    (allowed : Allowed vm (.unmap target va)) (done : step vm (.unmap target va) = .ok (ret, after)) :
    Confined vm after := by
  obtain ⟨alive, below⟩ := allowed
  obtain ⟨edited, _, frame⟩ := unmap_edited owned alive below
  simp only [step, Except.ok.injEq, Prod.mk.injEq] at done
  obtain ⟨_, rfl⟩ := done
  refine edited.confined alive rfl (low_full va (tableIndex_low va below)) fun page => ?_
  dsimp only
  rw [frame]
  rintro (old | new)
  · exact old
  · cases new

theorem destroySpace_confined {target : Nat} (owned : Owned vm.mm vm.live vm.frames)
    (alive : target ∈ vm.live) (done : step vm (.destroySpace target) = .ok (ret, after)) :
    Confined vm after := by
  simp only [step, Except.ok.injEq, Prod.mk.injEq] at done
  obtain ⟨_, rfl⟩ := done
  obtain ⟨freed, _⟩ := owned.destroy target alive
  refine confined_of_mem rfl rfl (fun _ alive => alive.1) fun page => ?_
  rintro (⟨aligned, free⟩ | loose)
  · rcases (freed _).mp free with old | inTree
    · exact .inl ⟨aligned, old⟩
    · rw [Nat.div_mul_cancel (Nat.dvd_of_mod_eq_zero aligned)] at inTree
      exact .inr (.inl ⟨target, alive, inTree⟩)
  · exact .inr (.inr loose)

theorem step_confined (op : Op) (sound : Sound vm) (allowed : Allowed vm op)
    (done : step vm op = .ok (ret, after)) : Confined vm after := by
  obtain ⟨owned, kernel, pages⟩ := sound
  cases op with
  | allocPage => exact allocPage_confined owned done
  | freePage pa => exact freePage_confined owned (pages pa allowed) allowed done
  | newSpace =>
      rcases newSpace_cases owned kernel with ⟨nothing, _⟩ | ⟨page, mem, free, made, _⟩
      · simp only [step, nothing, ↓reduceIte, Except.ok.injEq, Prod.mk.injEq] at done
        obtain ⟨_, rfl⟩ := done
        exact .refl vm
      · have isPage := free_page owned page free
        simp only [step, made, isPage.nonzero, ↓reduceIte, Except.ok.injEq, Prod.mk.injEq] at done
        obtain ⟨_, rfl⟩ := done
        exact newSpace_confined owned kernel made isPage.nonzero
          fun other still => ((free_take _ _ _).mp still).1
  | map target va pa flags => exact map_confined owned (pages pa allowed.2.2.1) allowed done
  | unmap target va => exact unmap_confined owned allowed done
  | destroySpace target => exact destroySpace_confined owned allowed.1 done

end Calls

/-- The state against the one it started from: no more pages, the boot loader's tables
untouched, and one high half in all spaces. -/
structure Rooted (start vm : VmState) : Prop where
  sound : Sound vm
  pages : ∀ page, page ∈ footprint vm → page ∈ footprint start
  tables : ∀ tbl, HighTable start.mm.mem start.mm.kernelSpace tbl →
    SamePage start.mm.mem vm.mm.mem tbl
  high : ∀ root, root ∈ vm.live → ∀ idx, 256 ≤ idx → idx < 512 →
    entry vm.mm.mem root idx = entry start.mm.mem start.mm.kernelSpace idx
  kernel : vm.mm.kernelSpace = start.mm.kernelSpace

theorem booted_pages (start : VmState) (booted : Booted start) :
    (∀ tbl, HighTable start.mm.mem start.mm.kernelSpace tbl → tbl ∉ footprint start) ∧
      ∀ page, page ∈ footprint start → page = start.mm.kernelSpace ∨ FreeAt start.mm.pmm page := by
  -- What the kernel starts from: the boot loader's tables are nobody's pages, and the kernel's
  -- own space is empty below.
  obtain ⟨pre, cr3, limine, rfl⟩ := booted
  obtain ⟨owned, _, low⟩ := init_booted pre cr3 limine
  generalize init pre cr3 = mm at *
  constructor
  · rintro tbl table (⟨_, free⟩ | ⟨root, alive, path, pathLow, reached⟩ | loose)
    · exact (owned.apart tbl table).2.1 free
    · exact (owned.apart tbl table).2.2 root path ⟨alive, pathLow⟩ reached
    · cases loose
  · rintro page (⟨_, free⟩ | ⟨root, rfl, path, pathLow, reached⟩ | loose)
    · exact .inr free
    · cases path with
      | nil =>
          rw [view_nil, Option.some.injEq] at reached
          exact .inl reached.symm
      | cons index rest =>
          have none_ : child mm.mem mm.kernelSpace index = none := by
            rw [child, low index (pathLow.half index rfl)]
            rfl
          rw [view_cons_none _ _ _ _ none_] at reached
          cases reached
    · cases loose

theorem run_rooted (start vm : VmState) (booted : Booted start) (run : Run step Allowed start vm) :
    Rooted start vm := by
  refine run_invariant step Allowed (Rooted start) ?_ run ?_
  · intro before op ret after rooted allowed done
    have confined := step_confined op rooted.sound allowed done
    refine ⟨step_sound before op ret after rooted.sound allowed done, ?_, ?_, ?_,
      confined.kernel.trans rooted.kernel⟩
    · exact fun page member => rooted.pages page (confined.pages page member)
    · intro tbl table
      refine (rooted.tables tbl table).trans (confined.bytes tbl table.aligned fun member => ?_)
      exact (booted_pages start booted).1 tbl table (rooted.pages tbl member)
    · intro root alive idx above below
      obtain ⟨source, known, same⟩ := confined.high root alive
      rw [same idx above below, rooted.high source known idx above below]
  · refine ⟨booted_sound start booted, fun _ member => member, fun _ _ _ _ _ => rfl, ?_, rfl⟩
    obtain ⟨pre, cr3, _, rfl⟩ := booted
    generalize init pre cr3 = mm
    rintro root rfl idx _ _
    rfl

/-! ### The account of one space -/

/-- `tables` are the pages that the walks on the space took from the allocator, and
`mapped` is the frame last mapped at each page number and not unmapped since. -/
structure Account where
  vm : VmState
  tables : Set Nat
  mapped : Nat → Option Nat

def Account.record (space : Nat) (a : Account) (vm : VmState) (ret : Nat) : Op → Account
  | .map target va pa _ =>
      if target = space then
        { vm
          tables := a.tables ∪
            { page | Page page ∧ FreeAt a.vm.mm.pmm page ∧ ¬ FreeAt vm.mm.pmm page }
          mapped := if ret = 0 then a.mapped
            else Function.update a.mapped (va / pageSize) (some pa) }
      else { a with vm }
  | .unmap target va =>
      if target = space then { a with vm, mapped := Function.update a.mapped (va / pageSize) none }
      else { a with vm }
  | _ => { a with vm }

def accountStep (space : Nat) (a : Account) (op : Op) : Outcome (Nat × Account) :=
  (step a.vm op).map fun (ret, vm) => (ret, a.record space vm ret op)

def Tracked (space : Nat) (a : Account) (op : Op) : Prop :=
  Allowed a.vm op ∧ op ≠ .destroySpace space

structure Accounted (space : Nat) (a : Account) : Prop where
  alive : space ∈ a.vm.live
  other : space ≠ a.vm.mm.kernelSpace
  tables : ∀ page, page ∈ a.tables ↔ page ∈ lowTables a.vm.mm.mem space
  mapped : ∀ number, a.mapped number =
    if number < 2 ^ 35 then view a.vm.mm.mem space (full (number * pageSize)) else none

section Accounts
variable {vm after : VmState} {a : Account} {space va ret : Nat}

theorem accountStep_ok {op : Op} (done : step a.vm op = .ok (ret, after)) :
    accountStep space a op = .ok (ret, a.record space after ret op) := by
  rw [accountStep, done]
  rfl

theorem step_alive (op : Op) (alive : space ∈ vm.live) (kept : op ≠ .destroySpace space)
    (done : step vm op = .ok (ret, after)) : space ∈ after.live := by
  cases op with
  | newSpace =>
      cases made : newSpace vm.mm with
      | mk fresh mm =>
          simp only [step, made, Except.ok.injEq, Prod.mk.injEq] at done
          obtain ⟨_, rfl⟩ := done
          by_cases zero : fresh = 0
          · simpa only [zero, ↓reduceIte] using alive
          · simp only [zero, ↓reduceIte]
            exact .inr alive
  | destroySpace target =>
      simp only [step, Except.ok.injEq, Prod.mk.injEq] at done
      obtain ⟨_, rfl⟩ := done
      exact ⟨alive, fun same => kept (by rw [Set.mem_singleton_iff.mp same])⟩
  | _ =>
      simp only [step, Except.ok.injEq, Prod.mk.injEq] at done
      obtain ⟨_, rfl⟩ := done
      exact alive

theorem step_elsewhere (op : Op) (sound : Sound vm) (allowed : Allowed vm op)
    (alive : space ∈ vm.live) (notMap : ∀ va pa flags, op ≠ .map space va pa flags)
    (notUnmap : ∀ va, op ≠ .unmap space va) (done : step vm op = .ok (ret, after))
    (path : List Nat) (low : Low path) :
    view after.mm.mem space path = view vm.mm.mem space path := by
  cases op with
  | newSpace =>
      cases made : newSpace vm.mm with
      | mk fresh mm =>
          simp only [step, made, Except.ok.injEq, Prod.mk.injEq] at done
          obtain ⟨rfl, rfl⟩ := done
          by_cases zero : fresh = 0
          · rcases newSpace_cases sound.owned sound.kernel with ⟨nothing, _⟩ | ⟨page, _, free, got, _⟩
            · cases nothing.symm.trans made
              rfl
            · rw [got, Prod.mk.injEq] at made
              exact absurd (made.1.trans zero) (free_page sound.owned page free).nonzero
          · exact (newSpace_views sound.owned sound.kernel made zero).2.2.2.2.1 space path ⟨alive, low⟩
  | map target va pa flags =>
      obtain ⟨targetAlive, below, mine, plain, word⟩ := allowed
      obtain ⟨ok, mapped, result, edited, _⟩ := map_edited sound.owned targetAlive pa flags below
        ((sound.pages pa mine).leafArgs plain word)
      simp only [step, result, Except.ok.injEq, Prod.mk.injEq] at done
      obtain ⟨_, rfl⟩ := done
      refine edited.others space path ⟨alive, low⟩ fun same => ?_
      exact notMap va pa flags (by rw [same])
  | unmap target va =>
      obtain ⟨targetAlive, below⟩ := allowed
      simp only [step, Except.ok.injEq, Prod.mk.injEq] at done
      obtain ⟨_, rfl⟩ := done
      refine (unmap_edited sound.owned targetAlive below).1.others space path ⟨alive, low⟩ fun same => ?_
      exact notUnmap va (by rw [same])
  | _ =>
      simp only [step, Except.ok.injEq, Prod.mk.injEq] at done
      obtain ⟨_, rfl⟩ := done
      rfl

theorem Edited.mapped {live : Set Nat} {mm mm' : Mm} {frame : Option Nat}
    (edited : Edited live space (full va) mm mm') (below : va < 2 ^ 47)
    (here : view mm'.mem space (full va) = frame) {before : Nat → Option Nat}
    (known : ∀ number, before number =
      if number < 2 ^ 35 then view mm.mem space (full (number * pageSize)) else none)
    (number : Nat) :
    Function.update before (va / pageSize) frame number =
      if number < 2 ^ 35 then view mm'.mem space (full (number * pageSize)) else none := by
  have place := page_number_below va below
  by_cases same : number = va / pageSize
  · rw [same, Function.update_self, if_pos place, full_page va below, here]
  · rw [Function.update_of_ne same, known number]
    split
    · rename_i small
      have wide := page_below number small
      refine (edited.frames _ (low_full _ (tableIndex_low _ wide)) (by simp [full]) fun equal => ?_).symm
      rw [full_inj _ _ (by omega) (by omega), Nat.mul_div_cancel _ (by decide)] at equal
      exact same equal
    · rfl

theorem Accounted.elsewhere (accounted : Accounted space a) (alive : space ∈ vm.live)
    (kernel : vm.mm.kernelSpace = a.vm.mm.kernelSpace)
    (views : ∀ path, Low path → view vm.mm.mem space path = view a.vm.mm.mem space path) :
    Accounted space { a with vm } := by
  refine ⟨alive, kernel ▸ accounted.other, fun page => ?_, fun number => ?_⟩
  · rw [accounted.tables page]
    constructor
    · rintro ⟨path, low, nonempty, short, reached⟩
      exact ⟨path, low, nonempty, short, (views path low).trans reached⟩
    · rintro ⟨path, low, nonempty, short, reached⟩
      exact ⟨path, low, nonempty, short, (views path low).symm.trans reached⟩
  · dsimp only
    rw [accounted.mapped number]
    split
    · rename_i small
      exact (views _ (low_full _ (tableIndex_low _ (page_below number small)))).symm
    · rfl

theorem account_step (op : Op) {next : Account} (sound : Sound a.vm) (accounted : Accounted space a)
    (tracked : Tracked space a op) (done : accountStep space a op = .ok (ret, next)) :
    step a.vm op = .ok (ret, next.vm) ∧ Accounted space next := by
  obtain ⟨⟨value, vm⟩, stepped, same⟩ := (map_ok _ _ _).mp done
  rw [Prod.mk.injEq] at same
  obtain ⟨rfl, rfl⟩ := same
  have alive := step_alive op accounted.alive tracked.2 stepped
  have kernel := (step_confined op sound tracked.1 stepped).kernel
  have elsewhere : (∀ va pa flags, op ≠ .map space va pa flags) → (∀ va, op ≠ .unmap space va) →
      Accounted space { a with vm } := fun notMap notUnmap =>
    accounted.elsewhere alive kernel
      (step_elsewhere op sound tracked.1 accounted.alive notMap notUnmap stepped)
  cases op with
  | map target va pa flags =>
      by_cases same : target = space
      · subst target
        obtain ⟨⟨_, below, mine, plain, word⟩, _⟩ := tracked
        obtain ⟨ok, mapped, result, edited, frame⟩ := map_edited sound.owned accounted.alive pa flags
          below ((sound.pages pa mine).leafArgs plain word)
        simp only [step, result, Except.ok.injEq, Prod.mk.injEq] at stepped
        obtain ⟨rfl, rfl⟩ := stepped
        refine ⟨by simp only [step, result, Account.record, ↓reduceIte], ?_⟩
        simp only [Account.record, ↓reduceIte]
        refine ⟨alive, kernel ▸ accounted.other, fun page => ?_, fun number => ?_⟩
        · rw [edited.tables page, ← accounted.tables page]
          rfl
        · cases ok with
          | true => exact edited.mapped below frame accounted.mapped number
          | false =>
              have place := accounted.mapped (va / pageSize)
              rw [if_pos (page_number_below va below), full_page va below] at place
              have still := edited.mapped below (frame.trans place.symm) accounted.mapped number
              rwa [Function.update_eq_self] at still
      · simp only [Account.record, same, ↓reduceIte]
        exact ⟨stepped, elsewhere (fun va pa flags equal => same (by cases equal; rfl))
          fun va equal => by cases equal⟩
  | unmap target va =>
      by_cases same : target = space
      · subst target
        obtain ⟨⟨_, below⟩, _⟩ := tracked
        obtain ⟨edited, pmm, frame⟩ := unmap_edited sound.owned accounted.alive below
        simp only [step, Except.ok.injEq, Prod.mk.injEq] at stepped
        obtain ⟨rfl, rfl⟩ := stepped
        refine ⟨by simp only [step, Account.record, ↓reduceIte], ?_⟩
        simp only [Account.record, ↓reduceIte]
        refine ⟨alive, kernel ▸ accounted.other, fun page => ?_,
          edited.mapped below frame accounted.mapped⟩
        rw [edited.tables page, ← accounted.tables page, pmm]
        tauto
      · simp only [Account.record, same, ↓reduceIte]
        exact ⟨stepped, elsewhere (fun va pa flags equal => by cases equal)
          fun va equal => same (by cases equal; rfl)⟩
  | allocPage => exact ⟨stepped, elsewhere (fun _ _ _ equal => by cases equal) fun _ equal => by cases equal⟩
  | freePage pa => exact ⟨stepped, elsewhere (fun _ _ _ equal => by cases equal) fun _ equal => by cases equal⟩
  | newSpace => exact ⟨stepped, elsewhere (fun _ _ _ equal => by cases equal) fun _ equal => by cases equal⟩
  | destroySpace target =>
      exact ⟨stepped, elsewhere (fun _ _ _ equal => by cases equal) fun _ equal => by cases equal⟩

theorem Accounted.tree (accounted : Accounted space a) (page : Nat) :
    InTree a.vm.mm.mem space page ↔
      page = space ∨ page ∈ a.tables ∨ ∃ number, a.mapped number = some page := by
  rw [inTree_iff, accounted.tables page]
  refine or_congr_right (or_congr_right ⟨?_, ?_⟩)
  · rintro ⟨path, low, deep, reached⟩
    obtain ⟨number, small, rfl⟩ := frame_path path low deep
    exact ⟨number, by rw [accounted.mapped number, if_pos small, reached]⟩
  · rintro ⟨number, mapped⟩
    rw [accounted.mapped number] at mapped
    split at mapped
    · rename_i small
      exact ⟨_, low_full _ (tableIndex_low _ (page_below number small)), by simp [full], mapped⟩
    · cases mapped

theorem new_accounted {made : VmState} (sound : Sound vm)
    (created : step vm .newSpace = .ok (space, made)) (nonzero : space ≠ 0) :
    Accounted space ⟨made, ∅, fun _ => none⟩ := by
  cases result : newSpace vm.mm with
  | mk fresh mm =>
      simp only [step, result, Except.ok.injEq, Prod.mk.injEq] at created
      obtain ⟨rfl, rfl⟩ := created
      obtain ⟨_, free, _, kernel, _, blank, _⟩ :=
        newSpace_views sound.owned sound.kernel result nonzero
      simp only [nonzero, ↓reduceIte]
      refine ⟨.inl rfl, ?_, fun page => ?_, fun number => ?_⟩
      · intro same
        dsimp only at same
        rw [same, kernel] at free
        exact (sound.owned.root_page _ sound.kernel).2 free
      · refine ⟨fun member => member.elim, ?_⟩
        rintro ⟨path, low, nonempty, _, reached⟩
        rw [blank path low nonempty] at reached
        cases reached
      · split
        · rename_i small
          exact (blank _ (low_full _ (tableIndex_low _ (page_below number small)))
            (by simp [full])).symm
        · rfl

theorem run_accounted {start : VmState} {b : Account} (booted : Booted start)
    (reached : Run step Allowed start a.vm) (accounted : Accounted space a)
    (history : Run (accountStep space) (Tracked space) a b) :
    Run step Allowed start b.vm ∧ Accounted space b := by
  refine run_invariant (accountStep space) (Tracked space)
    (fun b => Run step Allowed start b.vm ∧ Accounted space b) ?_ history ⟨reached, accounted⟩
  rintro before op ret after ⟨run, known⟩ tracked done
  obtain ⟨stepped, next⟩ := account_step op (run_sound _ _ booted run) known tracked done
  exact ⟨run.tail ⟨op, ret, tracked.1, stepped⟩, next⟩

end Accounts

/-- From any reachable state a space is created and then used in any way, between any
calls on other spaces, until it is destroyed. The calls of `free_page` that follow are
one for the root, one for each table its walks took and one for each frame that is
still mapped; all are accepted. No table of the high half is among them, nor any page
that was not the allocator's at the start. The other spaces keep their pages and
their translations. -/
theorem destroy_frees_exactly (start vm made : VmState) (space : Nat) (a : Account)
    (booted : Booted start) (run : Run step Allowed start vm)
    (created : step vm .newSpace = .ok (space, made)) (nonzero : space ≠ 0)
    (history : Run (accountStep space) (Tracked space) ⟨made, ∅, fun _ => none⟩ a) :
    ∃ pages : List Nat, pages.Nodup ∧
      (destroySpace a.vm.mm space).pmm = pages.foldl freePage a.vm.mm.pmm ∧
      (∀ page, page ∈ pages ↔
        page = space ∨ page ∈ a.tables ∨ ∃ number, a.mapped number = some page) ∧
      (destroySpace a.vm.mm space).pmm.badFrees = a.vm.mm.pmm.badFrees ∧
      (∀ number, Free (destroySpace a.vm.mm space).pmm number ↔
        Free a.vm.mm.pmm number ∨ number * pageSize ∈ pages) ∧
      (∀ tbl, HighTable a.vm.mm.mem space tbl → tbl ∉ pages) ∧
      (∀ page, page ∈ pages → FreeAt start.mm.pmm page) ∧
      ∀ other, other ∈ a.vm.live → other ≠ space →
        (∀ va, translate (destroySpace a.vm.mm space) other va = translate a.vm.mm other va) ∧
        ∀ page, InTree a.vm.mm.mem other page →
          page ∉ pages ∧ ¬ FreeAt (destroySpace a.vm.mm space).pmm page := by
  have before := run_sound start vm booted run
  obtain ⟨reached, accounted⟩ := run_accounted booted (run.tail ⟨.newSpace, space, trivial, created⟩)
    (new_accounted before created nonzero) history
  have rooted := run_rooted start a.vm booted reached
  obtain ⟨owned, kernel, _⟩ := rooted.sound
  obtain ⟨pages, distinct, tree, shape⟩ := owned.destroy_calls space accounted.alive
  obtain ⟨freed, bad, _, left⟩ := owned.destroy space accounted.alive
  have inFootprint : ∀ page, page ∈ pages → page ∈ footprint start := fun page member =>
    rooted.pages page (.inr (.inl ⟨space, accounted.alive, (tree page).mp member⟩))
  refine ⟨pages, distinct, shape, fun page => (tree page).trans (accounted.tree page), bad,
    fun number => by rw [freed, tree], ?_, ?_, ?_⟩
  · rintro tbl ⟨path, nonempty, high, below⟩ member
    have same := high_follow (rooted.high space accounted.alive) rooted.tables path nonempty high
    exact (booted_pages start booted).1 tbl ⟨path, nonempty, high, same.symm.trans below⟩
      (inFootprint tbl member)
  · intro page member
    refine ((booted_pages start booted).2 page (inFootprint page member)).resolve_left fun same => ?_
    -- The kernel's root is in the tree of the kernel's space only.
    obtain ⟨path, low, found⟩ := (tree page).mp member
    rw [← rooted.kernel] at same
    exact accounted.other (owned.unshared space path _ [] page ⟨accounted.alive, low⟩
      ⟨kernel, low_nil⟩ found (by rw [view_nil, same])).1
  · intro other alive different
    refine ⟨fun va => by rw [translate, translate, walk_reads, walk_reads, destroySpace], ?_⟩
    rintro page ⟨path, low, found⟩
    have used := (left.valid other path page ⟨⟨alive, different⟩, low⟩ found).2
    refine ⟨fun member => ?_, used⟩
    obtain ⟨way, wayLow, also⟩ := (tree page).mp member
    exact different (owned.unshared other path space way page ⟨alive, low⟩
      ⟨accounted.alive, wayLow⟩ found also).1

theorem one_page_history (mm fresh mapped : Mm) (pmm : Pmm.State) (space va pa flags : Nat)
    (made : newSpace mm = (space, fresh)) (nonzero : space ≠ 0)
    (taken : allocPage fresh.pmm = (pa, pmm)) (some_ : pa ≠ 0)
    (done : map { fresh with pmm := pmm } space va pa flags = (true, mapped))
    (below : va < 2 ^ 47) (plain : flags &&& pteAddrMask = 0) (word : flags < 2 ^ 64) :
    ∃ vm a, step ⟨mm, {mm.kernelSpace}, ∅⟩ .newSpace = .ok (space, vm) ∧
      Run (accountStep space) (Tracked space) ⟨vm, ∅, fun _ => none⟩ a ∧
      a.mapped (va / pageSize) = some pa := by
  have first : step ⟨mm, {mm.kernelSpace}, ∅⟩ .newSpace =
      .ok (space, ⟨fresh, insert space {mm.kernelSpace}, ∅⟩) := by
    simp only [step, made, nonzero, ↓reduceIte]
  obtain ⟨middle, shape⟩ : ∃ middle : VmState, middle =
      ⟨{ fresh with pmm := pmm }, insert space {mm.kernelSpace}, insert pa ∅⟩ := ⟨_, rfl⟩
  have second : step ⟨fresh, insert space {mm.kernelSpace}, ∅⟩ .allocPage = .ok (pa, middle) := by
    simp only [step, taken, some_, ↓reduceIte, shape]
  have third : ∃ last, step middle (.map space va pa flags) = .ok (1, last) := by
    simp only [shape, step, done, Bool.toNat_true, Except.ok.injEq, Prod.mk.injEq, true_and, exists_eq']
  have allowed : Allowed middle (.map space va pa flags) := by
    rw [shape]
    exact ⟨.inl rfl, below, .inl rfl, plain, word⟩
  obtain ⟨last, third⟩ := third
  refine ⟨_, Account.record space ⟨middle, ∅, fun _ => none⟩ last 1 (.map space va pa flags), first,
    .tail (.single ⟨.allocPage, pa, ⟨trivial, by simp⟩, accountStep_ok second⟩)
      ⟨.map space va pa flags, 1, ⟨allowed, by simp⟩, accountStep_ok third⟩, ?_⟩
  simp [Account.record]

theorem destroy_frees_exactly_one_page : ∃ start vm a, Booted start ∧
    step start .newSpace = .ok (8192, vm) ∧
    Run (accountStep 8192) (Tracked 8192) ⟨vm, ∅, fun _ => none⟩ a ∧
    ∃ pages : List Nat, pages.Nodup ∧
      (destroySpace a.vm.mm 8192).pmm = pages.foldl freePage a.vm.mm.pmm ∧
      8192 ∈ pages ∧ 12288 ∈ pages := by
  have root : (newSpace (init (blankMachine (-2)) (2 ^ 29))).1 = 8192 := by decide +kernel
  have frame : (allocPage (newSpace (init (blankMachine (-2)) (2 ^ 29))).2.pmm).1 = 12288 := by
    decide +kernel
  have mapped : (map { (newSpace (init (blankMachine (-2)) (2 ^ 29))).2 with
      pmm := (allocPage (newSpace (init (blankMachine (-2)) (2 ^ 29))).2.pmm).2 }
      8192 0x400000 12288 (pteUs ||| pteRw)).1 = true := by decide +kernel
  have booted : Booted ⟨init (blankMachine (-2)) (2 ^ 29),
      {(init (blankMachine (-2)) (2 ^ 29)).kernelSpace}, ∅⟩ :=
    ⟨blankMachine (-2), 2 ^ 29, blankMachine_wide, rfl⟩
  generalize init (blankMachine (-2)) (2 ^ 29) = mm at *
  obtain ⟨vm, a, created, history, known⟩ := one_page_history mm (newSpace mm).2 _
    (allocPage (newSpace mm).2.pmm).2 8192 0x400000 12288 (pteUs ||| pteRw) (by rw [← root])
    (by decide) (by rw [← frame]) (by decide) (by rw [← mapped]) (by decide) (by decide) (by decide)
  obtain ⟨pages, distinct, shape, listed, _⟩ := destroy_frees_exactly _ _ vm 8192 a booted .refl
    created (by decide) history
  exact ⟨_, vm, a, booted, created, history, pages, distinct, shape, (listed 8192).mpr (.inl rfl),
    (listed 12288).mpr (.inr (.inr ⟨_, known⟩))⟩

end Shizuku.Vmm
