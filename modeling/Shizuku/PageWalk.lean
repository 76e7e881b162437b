import Shizuku.PageTables

/-!
What the paging functions do to the forest of page tables. `Building` is the
running account of a series of steps on one space: what was free, or part of its
tree, at the start is now free, part of its tree, or in `lost` (taken and not
linked); pages of anyone else keep their bytes.
-/

namespace Shizuku.Vmm

open ByteMemory WordMemory PointerForest Pmm

def InTree (mem : Nat → UInt8) (space page : Nat) : Prop :=
  ∃ path, Low path ∧ view mem space path = some page

/-- No table of a live space: free, in flight, mapped as a frame, or the kernel's own. -/
def NoTable (mm : Mm) (live : Set Nat) (page : Nat) : Prop :=
  ∀ root path, Named live root path → path.length < 4 → view mm.mem root path ≠ some page

structure Building (live held : Set Nat) (space : Nat) (base mm : Mm) (lost : Set Nat) : Prop where
  alive : space ∈ live
  start : Owned base live held
  owned : Owned mm live (held ∪ lost)
  lostPage : ∀ page, page ∈ lost → Page page
  ledger : ∀ page, FreeAt base.pmm page ∧ Page page ∨ InTree base.mem space page ↔
    FreeAt mm.pmm page ∧ Page page ∨ InTree mm.mem space page ∨ page ∈ lost
  keeps : ∀ page, page % pageSize = 0 → ¬ FreeAt base.pmm page → ¬ InTree base.mem space page →
    SamePage base.mem mm.mem page
  high : ∀ idx, 256 ≤ idx → idx < 512 → entry mm.mem space idx = entry base.mem space idx
  kernel : mm.kernelSpace = base.kernelSpace
  hhdm : mm.hhdmOffset = base.hhdmOffset
  badFrees : mm.pmm.badFrees = base.pmm.badFrees
  counter : drift mm.pmm = drift base.pmm

section Building
variable {live held lost : Set Nat} {space : Nat} {base mm : Mm}

theorem Building.refl (owned : Owned mm live held) (alive : space ∈ live) :
    Building live held space mm mm ∅ where
  alive := alive
  start := owned
  owned := by rwa [Set.union_empty]
  lostPage _ member := member.elim
  ledger page := by simp
  keeps _ _ _ _ := fun _ _ _ => rfl
  high _ _ _ := rfl
  kernel := rfl
  hhdm := rfl
  badFrees := rfl
  counter := rfl

theorem Building.take (building : Building live held space base mm lost) (page : Nat)
    (free : Free mm.pmm page) :
    Building live held space base { mm with pmm := Pmm.take mm.pmm page }
      (insert (page * pageSize) lost) where
  alive := building.alive
  start := building.start
  owned := by
    rw [Set.union_insert]
    exact building.owned.take page free
  lostPage other member := by
    rcases member with rfl | old
    · exact free_page building.owned page free
    · exact building.lostPage other old
  ledger other := by
    rw [building.ledger other]
    have number : FreeAt mm.pmm other ∧ Page other ↔
        FreeAt (Pmm.take mm.pmm page) other ∧ Page other ∨ other = page * pageSize := by
      unfold FreeAt
      rw [free_take]
      constructor
      · rintro ⟨still, isPage⟩
        by_cases same : other / pageSize = page
        · exact .inr (by rw [← same, isPage.number])
        · exact .inl ⟨⟨still, same⟩, isPage⟩
      · rintro (⟨still, isPage⟩ | rfl)
        · exact ⟨still.1, isPage⟩
        · rw [Nat.mul_div_cancel page (by decide)]
          exact ⟨free, free_page building.owned page free⟩
    rw [number, Set.mem_insert_iff]
    tauto
  keeps := building.keeps
  high := building.high
  kernel := building.kernel
  hhdm := building.hhdm
  badFrees := building.badFrees
  counter := (drift_take mm.pmm page free).trans building.counter

theorem Building.stranger (building : Building live held space base mm lost) (page : Nat)
    (used : ¬ FreeAt base.pmm page) (outside : ¬ InTree base.mem space page) :
    ¬ InTree mm.mem space page ∧ page ∉ lost := by
  constructor
  · intro member
    rcases (building.ledger page).mpr (.inr (.inl member)) with free | inside
    · exact used free.1
    · exact outside inside
  · intro member
    rcases (building.ledger page).mpr (.inr (.inr member)) with free | inside
    · exact used free.1
    · exact outside inside

theorem Building.scribble (building : Building live held space base mm lost) (page : Nat)
    (mem : Nat → UInt8)
    (mine : page ∈ lost ∨ ∃ path, Low path ∧ path.length = 4 ∧ view mm.mem space path = some page)
    (outside : ∀ place, place < page ∨ page + pageSize ≤ place → mem place = mm.mem place) :
    Building live held space base { mm with mem := mem } lost ∧
      ∀ root path, Named live root path → view mem root path = view mm.mem root path := by
  have owned := building.owned
  have aligned : page % pageSize = 0 := by
    rcases mine with member | ⟨path, low, _, reached⟩
    · exact (building.lostPage page member).aligned
    · exact (owned.valid space path page ⟨building.alive, low⟩ reached).1.aligned
  have noTable : ∀ root path, Named live root path → path.length < 4 →
      view mm.mem root path ≠ some page := by
    intro root path named short reached
    rcases mine with member | ⟨way, low, deep, frame⟩
    · exact (owned.apart page (.inr member)).2.2 root path named reached
    · obtain ⟨_, same⟩ := owned.unshared _ _ _ _ _ named ⟨building.alive, low⟩ reached frame
      rw [same] at short
      omega
  have tables : ∀ root path tbl, Named live root path → path.length < 4 →
      view mm.mem root path = some tbl → SamePage mm.mem mem tbl := by
    intro root path tbl named short reached
    refine samePage_of_outside mm.mem mem page tbl aligned
      (owned.valid root path tbl named reached).1.aligned ?_ outside
    rintro rfl
    exact noTable root path named short reached
  have views := view_same mm.mem mem live tables
  have rootNamed : Named live space [] := ⟨building.alive, low_nil⟩
  refine ⟨{ building with
    owned := owned.mem_congr mem tables
    ledger := fun other => ?_
    keeps := fun other otherAligned used stranger => ?_
    high := fun idx above inside => ?_ }, views⟩
  · have tree : InTree mem space other ↔ InTree mm.mem space other := by
      constructor
      · rintro ⟨path, low, reached⟩
        exact ⟨path, low, (views space path ⟨building.alive, low⟩).symm.trans reached⟩
      · rintro ⟨path, low, reached⟩
        exact ⟨path, low, (views space path ⟨building.alive, low⟩).trans reached⟩
    rw [building.ledger other, ← tree]
  · refine (building.keeps other otherAligned used stranger).trans
      (samePage_of_outside mm.mem mem page other aligned otherAligned ?_ outside)
    rintro rfl
    obtain ⟨noTree, notLost⟩ := building.stranger other used stranger
    rcases mine with member | ⟨path, low, _, reached⟩
    · exact notLost member
    · exact noTree ⟨path, low, reached⟩
  · rw [(tables space [] space rootNamed (by simp) rfl).entry idx inside]
    exact building.high idx above inside

section Store
variable {tbl slot value : Nat} {path : List Nat}

theorem inTree_store (alive : space ∈ live) (low : Low (path ++ [slot]))
    (views : ∀ start way, Named live start way →
      view (write64 mm.mem (tbl + 8 * slot) value) start way =
        if start = space ∧ way = path ++ [slot] then entryChild value else view mm.mem start way)
    (page : Nat) :
    InTree (write64 mm.mem (tbl + 8 * slot) value) space page ↔ entryChild value = some page ∨
      ∃ way, Low way ∧ way ≠ path ++ [slot] ∧ view mm.mem space way = some page := by
  constructor
  · rintro ⟨way, wayLow, reached⟩
    rw [views space way ⟨alive, wayLow⟩] at reached
    by_cases same : way = path ++ [slot]
    · exact .inl (by simpa [same] using reached)
    · exact .inr ⟨way, wayLow, same, by simpa [same] using reached⟩
  · rintro (linked | ⟨way, wayLow, other, reached⟩)
    · exact ⟨path ++ [slot], low, by rw [views _ _ ⟨alive, low⟩]; simpa using linked⟩
    · exact ⟨way, wayLow, by
        rw [views space way ⟨alive, wayLow⟩]
        simpa [other] using reached⟩

theorem Building.store_ledger (building : Building live held space base mm lost)
    (low : Low (path ++ [slot]))
    (views : ∀ start way, Named live start way →
      view (write64 mm.mem (tbl + 8 * slot) value) start way =
        if start = space ∧ way = path ++ [slot] then entryChild value else view mm.mem start way)
    (fresh : ∀ page, entryChild value = some page → page ∈ lost) (page : Nat) :
    FreeAt base.pmm page ∧ Page page ∨ InTree base.mem space page ↔
      FreeAt mm.pmm page ∧ Page page ∨ InTree (write64 mm.mem (tbl + 8 * slot) value) space page ∨
        (page ∈ lost ∨ view mm.mem space (path ++ [slot]) = some page) ∧ entryChild value ≠ some page := by
  rw [building.ledger page, inTree_store building.alive low views]
  constructor
  · rintro (free | ⟨way, wayLow, reached⟩ | member)
    · exact .inl free
    · by_cases linked : entryChild value = some page
      · exact .inr (.inl (.inl linked))
      · by_cases same : way = path ++ [slot]
        · exact .inr (.inr ⟨.inr (same ▸ reached), linked⟩)
        · exact .inr (.inl (.inr ⟨way, wayLow, same, reached⟩))
    · by_cases linked : entryChild value = some page
      · exact .inr (.inl (.inl linked))
      · exact .inr (.inr ⟨.inl member, linked⟩)
  · rintro (free | (linked | ⟨way, wayLow, _, reached⟩) | ⟨old | was, _⟩)
    · exact .inl free
    · exact .inr (.inr (fresh page linked))
    · exact .inr (.inl ⟨way, wayLow, reached⟩)
    · exact .inr (.inr old)
    · exact .inr (.inl ⟨_, low, was⟩)

theorem Building.store_keeps (building : Building live held space base mm lost)
    (low : Low (path ++ [slot])) (here : view mm.mem space path = some tbl) (page : Nat)
    (aligned : page % pageSize = 0) (used : ¬ FreeAt base.pmm page) (outside : ¬ InTree base.mem space page) :
    SamePage base.mem (write64 mm.mem (tbl + 8 * slot) value) page := by
  have tableNamed := named_closed live space path [slot] ⟨building.alive, low⟩
  refine (building.keeps page aligned used outside).trans
    (samePage_of_outside mm.mem _ tbl page (building.owned.valid space path tbl tableNamed here).1.aligned
      aligned ?_ (setEntry_outside mm.mem tbl slot value (low.bounded slot (by simp))))
  rintro rfl
  exact (building.stranger page used outside).1 ⟨path, tableNamed.2, here⟩

theorem Building.store_high (building : Building live held space base mm lost)
    (low : Low (path ++ [slot])) (here : view mm.mem space path = some tbl) (idx : Nat)
    (above : 256 ≤ idx) (inside : idx < 512) :
    entry (write64 mm.mem (tbl + 8 * slot) value) space idx = entry base.mem space idx := by
  have owned := building.owned
  have tableNamed := named_closed live space path [slot] ⟨building.alive, low⟩
  rw [← building.high idx above inside]
  by_cases same : space = tbl
  · -- Names leave the root through its lower half, so the store is below entry 256.
    subst tbl
    obtain ⟨_, rfl⟩ := owned.unshared _ _ _ _ _ tableNamed
      (⟨building.alive, low_nil⟩ : Named live space []) here rfl
    have half := low.half slot rfl
    exact entry_setEntry_other mm.mem space slot idx value (by omega)
  · exact (samePage_of_outside mm.mem _ tbl space (owned.valid space path tbl tableNamed here).1.aligned
      (owned.root_page space building.alive).1.aligned same
      (setEntry_outside mm.mem tbl slot value (low.bounded slot (by simp)))).entry idx inside

/-- Linking a page in flight into the tree, or clearing a leaf. What the slot led
to before is in flight afterwards. -/
theorem Building.store (building : Building live held space base mm lost)
    (low : Low (path ++ [slot])) (here : view mm.mem space path = some tbl) (word : value < 2 ^ 64)
    (views : ∀ start way, Named live start way →
      view (write64 mm.mem (tbl + 8 * slot) value) start way =
        if start = space ∧ way = path ++ [slot] then entryChild value else view mm.mem start way)
    (fresh : ∀ page, entryChild value = some page → page ∈ lost)
    (normal : path.length < 3 → value &&& ptePs = 0)
    (blank : ∀ page, entryChild value = some page → path.length < 3 → ∀ index, index < 512 →
      child mm.mem page index = none) :
    Building live held space base (mm.setEntry tbl slot value)
      { page | (page ∈ lost ∨ view mm.mem space (path ++ [slot]) = some page) ∧
        entryChild value ≠ some page } := by
  have named : Named live space (path ++ [slot]) := ⟨building.alive, low⟩
  refine { building with
    owned := (building.owned.store named here word views
      (fun page linked => ⟨.inr (fresh page linked), building.lostPage page (fresh page linked)⟩)
      normal blank).held_mono ?_
    lostPage := ?_
    ledger := building.store_ledger low views fresh
    keeps := building.store_keeps low here
    high := building.store_high low here }
  · rintro page (kept | ⟨old | was, different⟩)
    · refine ⟨.inl (.inl kept), fun linked => ?_⟩
      -- A held page is not in flight, since the ledger would make it free or named at the start.
      obtain ⟨_, used, unnamed⟩ := building.start.apart page kept
      exact (building.stranger page used fun ⟨way, wayLow, reached⟩ =>
        unnamed space way ⟨building.alive, wayLow⟩ reached).2 (fresh page linked)
    · exact ⟨.inl (.inr old), different⟩
    · exact ⟨.inr was, different⟩
  · rintro page ⟨old | was, _⟩
    · exact building.lostPage page old
    · exact (building.owned.valid _ _ _ named was).1

end Store

/-- New names lie on the path `trail` of `space`; every other entry is as before. -/
structure Extended (live : Set Nat) (space : Nat) (trail : List Nat)
    (before after : Nat → UInt8) : Prop where
  kept : ∀ root path node, Named live root path → view before root path = some node →
    view after root path = some node
  only : ∀ root path, Named live root path → view before root path = none →
    view after root path ≠ none → root = space ∧ path <+: trail
  entries : ∀ root path tbl index, Named live root (path ++ [index]) →
    view before root path = some tbl → ¬ (root = space ∧ path ++ [index] <+: trail) →
    entry after tbl index = entry before tbl index

theorem Extended.refl (live : Set Nat) (space : Nat) (trail : List Nat) (mem : Nat → UInt8) :
    Extended live space trail mem mem where
  kept _ _ _ _ reached := reached
  only _ _ _ absent present := absurd absent present
  entries _ _ _ _ _ _ _ := rfl

theorem Extended.trans {trail : List Nat} {first second third : Nat → UInt8}
    (left : Extended live space trail first second)
    (right : Extended live space trail second third) : Extended live space trail first third where
  kept root path node named reached :=
    right.kept root path node named (left.kept root path node named reached)
  only root path named absent present := by
    by_cases middle : view second root path = none
    · exact right.only root path named middle present
    · exact left.only root path named absent middle
  entries root path tbl index named reached other := by
    have part := named_closed live root path [index] named
    exact (right.entries root path tbl index named (left.kept root path tbl part reached) other).trans
      (left.entries root path tbl index named reached other)

theorem Extended.longer {trail : List Nat} {before after : Nat → UInt8}
    (extended : Extended live space trail before after) (rest : List Nat) :
    Extended live space (trail ++ rest) before after where
  kept := extended.kept
  only root path named absent present :=
    have found := extended.only root path named absent present
    ⟨found.1, found.2.trans (List.prefix_append _ _)⟩
  entries root path tbl index named reached other :=
    extended.entries root path tbl index named reached fun same =>
      other ⟨same.1, same.2.trans (List.prefix_append _ _)⟩

theorem Extended.frame {trail : List Nat} {before after : Nat → UInt8}
    (extended : Extended live space trail before after) (shallow : trail.length < 4) (root : Nat)
    (path : List Nat) (named : Named live root path) (deep : path.length = 4) :
    view after root path = view before root path := by
  -- Frames keep their names, and gain none, when the new names end above them.
  cases reached : view before root path with
  | some node => exact extended.kept root path node named reached
  | none =>
      by_contra present
      have longer := (extended.only root path named reached present).2.length_le
      omega

theorem entry_zeroed (mem : Nat → UInt8) (tbl index : Nat) (bound : index < 512) :
    entry (fill mem tbl pageSize 0) tbl index = 0 := by
  apply read64_zeroed
  intro place above below
  have size : pageSize = 4096 := rfl
  exact fill_inside mem tbl pageSize 0 place (by omega) (by omega)

theorem linked_entries (mem : Nat → UInt8) {np tbl slot : Nat} (page : Page np)
    (aligned : tbl % pageSize = 0) (different : np ≠ tbl) (bound : slot < 512) :
    let linked := write64 (fill mem np pageSize 0) (tbl + 8 * slot) (np ||| pteP ||| pteRw ||| pteUs)
    entry linked tbl slot = np ||| pteP ||| pteRw ||| pteUs ∧
      (∀ index, index < 512 → entry linked np index = 0) ∧
      (∀ table, table % pageSize = 0 → table ≠ np → table ≠ tbl → SamePage mem linked table) ∧
      ∀ table index, table % pageSize = 0 → table ≠ np → index < 512 →
        ¬ (table = tbl ∧ index = slot) → entry linked table index = entry mem table index := by
  intro linked
  have stored : ∀ table, table % pageSize = 0 → table ≠ tbl →
      SamePage (fill mem np pageSize 0) linked table := fun table isAligned apart =>
    samePage_of_outside _ _ tbl table aligned isAligned apart
      (setEntry_outside (fill mem np pageSize 0) tbl slot _ bound)
  have zeroed : ∀ table, table % pageSize = 0 → table ≠ np →
      SamePage mem (fill mem np pageSize 0) table := fun table isAligned apart =>
    samePage_of_outside mem _ np table page.aligned isAligned apart
      fun place outside => fill_outside mem np pageSize 0 place outside
  refine ⟨entry_setEntry _ tbl slot _ (table_bits np page).2.2, fun index inside => ?_,
    fun table isAligned fresh apart => (zeroed table isAligned fresh).trans
      (stored table isAligned apart), fun table index isAligned fresh inside elsewhere => ?_⟩
  · rw [(stored np page.aligned different).entry index inside, entry_zeroed mem np index inside]
  · rw [← (zeroed table isAligned fresh).entry index inside]
    by_cases same : table = tbl
    · subst table
      exact entry_setEntry_other _ tbl slot index _ fun equal => elsewhere ⟨rfl, equal⟩
    · exact (stored table isAligned same).entry index inside

theorem Building.not_flying (building : Building live held space base mm lost) {page : Nat}
    (free : Free mm.pmm page) : page * pageSize ∉ lost := by
  intro member
  have used := (building.owned.apart _ (.inr member)).2.1
  rw [FreeAt, Nat.mul_div_cancel page (by decide)] at used
  exact used free

theorem landed {np : Nat} (fresh : np ∉ lost) :
    { other | (other ∈ insert np lost ∨ none = some other) ∧ some np ≠ some other } = lost := by
  ext other
  rw [Set.mem_ofPred_eq, Set.mem_insert_iff, ne_eq, Option.some.injEq]
  constructor
  · rintro ⟨(same | old) | impossible, different⟩
    · exact absurd same.symm different
    · exact old
    · cases impossible
  · intro member
    refine ⟨.inl (.inr member), ?_⟩
    rintro rfl
    exact fresh member

section Link
variable {tbl slot value np : Nat} {path : List Nat} {after : Nat → UInt8}

theorem linked_views (owned : Owned mm live held) (named : Named live space (path ++ [slot]))
    (here : view mm.mem space path = some tbl) (absent : view mm.mem space (path ++ [slot]) = none)
    (word : value < 2 ^ 64) (bits : entryChild value = some np)
    (blank : ∀ index, index < 512 → child (write64 mm.mem (tbl + 8 * slot) value) np index = none)
    (start : Nat) (way : List Nat) (member : Named live start way) :
    view (write64 mm.mem (tbl + 8 * slot) value) start way =
      if start = space ∧ way = path ++ [slot] then entryChild value else view mm.mem start way := by
  refine view_store owned named here word (fun rest longer belongs => ?_) start way member
  -- Nothing lies beyond the new link, before it for lack of a link, after it as the page is blank.
  rw [show path ++ slot :: rest = (path ++ [slot]) ++ rest by simp] at belongs ⊢
  cases rest with
  | nil => exact absurd rfl longer
  | cons index rest =>
      have bound := belongs.2.bounded index (by simp)
      rw [bits, Option.bind_some, view_none_append _ _ _ _ absent]
      exact view_cons_none _ _ _ _ (blank index bound)

theorem linked_extended (owned : Owned mm live held) (named : Named live space (path ++ [slot]))
    (here : view mm.mem space path = some tbl) (absent : view mm.mem space (path ++ [slot]) = none)
    (unnamed : ∀ root way, Named live root way → view mm.mem root way ≠ some np)
    (views : ∀ start way, Named live start way → view after start way =
      if start = space ∧ way = path ++ [slot] then some np else view mm.mem start way)
    (unchanged : ∀ table index, table % pageSize = 0 → table ≠ np → index < 512 →
      ¬ (table = tbl ∧ index = slot) → entry after table index = entry mm.mem table index) :
    Extended live space (path ++ [slot]) mm.mem after := by
  refine ⟨fun root way node member reached => ?_, fun root way member none_ present => ?_,
    fun root way node index member reached other => ?_⟩
  · rw [views root way member]
    split
    · rename_i same
      rw [same.1, same.2, absent] at reached
      cases reached
    · exact reached
  · rw [views root way member] at present
    split at present
    · rename_i same
      exact ⟨same.1, same.2 ▸ List.prefix_refl _⟩
    · exact absurd none_ present
  · have part := named_closed live root way [index] member
    refine unchanged node index (owned.valid root way node part reached).1.aligned ?_
      (member.2.bounded index (by simp)) ?_
    · rintro rfl
      exact unnamed root way part reached
    · rintro ⟨rfl, rfl⟩
      obtain ⟨sameRoot, samePath⟩ := owned.unshared _ _ _ _ _ part
        (named_closed live space path [index] named) reached here
      exact other ⟨sameRoot, by rw [samePath]⟩

end Link

theorem Building.made (building : Building live held space base mm lost) (page : Nat)
    (free : Free mm.pmm page) {tbl slot : Nat} {path : List Nat} (low : Low (path ++ [slot]))
    (here : view mm.mem space path = some tbl)
    (absent : view mm.mem space (path ++ [slot]) = none) :
    let np := page * pageSize
    let linked := (zeroTable { mm with pmm := Pmm.take mm.pmm page } np).setEntry tbl slot
      (np ||| pteP ||| pteRw ||| pteUs)
    Building live held space base linked lost ∧
      (∀ start way, Named live start way → view linked.mem start way =
        if start = space ∧ way = path ++ [slot] then some np else view mm.mem start way) ∧
      (∀ index, index < 512 → child linked.mem np index = none) ∧
      Extended live space (path ++ [slot]) mm.mem linked.mem ∧
      (∀ table, table % pageSize = 0 → table ≠ np → table ≠ tbl → SamePage mm.mem linked.mem table) ∧
      entry linked.mem tbl slot &&& pteAddrMask = np := by
  intro np linked
  have isPage : Page np := free_page building.owned page free
  have named : Named live space (path ++ [slot]) := ⟨building.alive, low⟩
  have tableNamed := named_closed live space path [slot] named
  obtain ⟨bits, normal, word⟩ := table_bits np isPage
  have taken := building.take page free
  have inFlight : np ∈ insert np lost := Set.mem_insert _ _
  have unnamed := (taken.owned.apart np (.inr inFlight)).2.2
  obtain ⟨zeroed, sameViews⟩ := taken.scribble np (fill mm.mem np pageSize 0) (.inl inFlight)
    (fun place outside => fill_outside mm.mem np pageSize 0 place outside)
  have zeroedHere := (sameViews space path tableNamed).trans here
  have zeroedAbsent := (sameViews space _ named).trans absent
  have otherTable : np ≠ tbl := fun same =>
    unnamed space path tableNamed (here.trans (congrArg some same.symm))
  have tablePage := (building.owned.valid space path tbl tableNamed here).1
  obtain ⟨value, empty, bytes, unchanged⟩ := linked_entries mm.mem isPage tablePage.aligned otherTable
    (low.bounded slot (by simp))
  have blankLinked : ∀ index, index < 512 → child linked.mem np index = none := by
    intro index bound
    have none_ : entry linked.mem np index = 0 := empty index bound
    rw [child, none_]
    rfl
  have stored := linked_views zeroed.owned named zeroedHere zeroedAbsent word bits blankLinked
  have built := zeroed.store low zeroedHere word stored
    (fun other link => by
      rw [bits, Option.some.injEq] at link
      exact link ▸ inFlight)
    (fun _ => normal)
    (fun other link _ index bound => by
      rw [bits, Option.some.injEq] at link
      rw [← link, child, entry_zeroed mm.mem np index bound]
      rfl)
  have views : ∀ start way, Named live start way → view linked.mem start way =
      if start = space ∧ way = path ++ [slot] then some np else view mm.mem start way := by
    intro start way member
    have step := stored start way member
    rw [bits, sameViews start way member] at step
    exact step
  refine ⟨?_, views, blankLinked,
    linked_extended building.owned named here absent unnamed views unchanged, bytes, ?_⟩
  · rw [bits, sameViews _ _ named, absent, landed (building.not_flying free)] at built
    exact built
  · rw [show entry linked.mem tbl slot = np ||| pteP ||| pteRw ||| pteUs from value]
    exact (entryChild_some bits).2

/-! ### The whole walk -/

/-- How many tables a walk below `path` has to add. -/
def missing (mem : Nat → UInt8) (root : Nat) : List Nat → List Nat → Nat
  | _, [] => 0
  | path, index :: rest =>
      (if view mem root (path ++ [index]) = none then 1 else 0) +
        missing mem root (path ++ [index]) rest

theorem missing_all (mem : Nat → UInt8) (root : Nat) (path rest : List Nat)
    (absent : ∀ index back, rest = index :: back → view mem root (path ++ [index]) = none) :
    missing mem root path rest = rest.length := by
  induction rest generalizing path with
  | nil => rfl
  | cons index rest ih =>
      have here := absent index rest rfl
      simp only [missing, here, ↓reduceIte, List.length_cons]
      rw [ih (path ++ [index]) fun next back _ => view_none_append mem root _ [next] here]
      omega

/-- One level of a walk that makes the tables it misses. -/
inductive Descent (va count tbl : Nat) (mm : Mm) : Option Nat → Mm → Prop where
  | full (absent : entry mm.mem tbl (tableIndex va (1 + count + 1)) &&& pteP = 0)
      (noPage : freeCount mm.pmm = 0) : Descent va count tbl mm none mm
  | made (page : Nat) (linked walked : Mm) (result : Option Nat)
      (absent : entry mm.mem tbl (tableIndex va (1 + count + 1)) &&& pteP = 0) (free : Free mm.pmm page)
      (shape : (zeroTable { mm with pmm := Pmm.take mm.pmm page } (page * pageSize)).setEntry tbl
        (tableIndex va (1 + count + 1)) (page * pageSize ||| pteP ||| pteRw ||| pteUs) = linked)
      (rest : walkFrom va true 1 count linked
        (entry linked.mem tbl (tableIndex va (1 + count + 1)) &&& pteAddrMask) = (result, walked)) :
      Descent va count tbl mm result walked
  | large (present : entry mm.mem tbl (tableIndex va (1 + count + 1)) &&& pteP ≠ 0)
      (page : entry mm.mem tbl (tableIndex va (1 + count + 1)) &&& ptePs ≠ 0) :
      Descent va count tbl mm none mm
  | down (walked : Mm) (result : Option Nat)
      (present : entry mm.mem tbl (tableIndex va (1 + count + 1)) &&& pteP ≠ 0)
      (small : entry mm.mem tbl (tableIndex va (1 + count + 1)) &&& ptePs = 0)
      (rest : walkFrom va true 1 count mm
        (entry mm.mem tbl (tableIndex va (1 + count + 1)) &&& pteAddrMask) = (result, walked)) :
      Descent va count tbl mm result walked

theorem walkFrom_descent (owned : Owned mm live held) {va count tbl : Nat} {result : Option Nat} {walked : Mm}
    (walks : walkFrom va true 1 (count + 1) mm tbl = (result, walked)) :
    Descent va count tbl mm result walked := by
  simp only [walkFrom] at walks
  by_cases absent : entry mm.mem tbl (tableIndex va (1 + count + 1)) &&& pteP = 0
  · simp only [absent, ↓reduceIte] at walks
    rcases allocPage_cases mm.pmm with ⟨nothing, full⟩ | ⟨page, free, _, taken⟩
    · simp only [nothing, ↓reduceIte, Prod.mk.injEq] at walks
      obtain ⟨rfl, rfl⟩ := walks
      refine .full absent ?_
      by_contra positive
      obtain ⟨page, free⟩ := free_of_positive mm.pmm (by omega)
      exact full page free
    · have nonzero : ¬ page * pageSize = 0 := (free_page owned page free).nonzero
      rw [taken] at walks
      simp only [nonzero, ↓reduceIte] at walks
      exact .made page _ walked result absent free rfl walks
  · simp only [absent, ↓reduceIte] at walks
    split at walks
    · rename_i large
      simp only [Prod.mk.injEq] at walks
      obtain ⟨rfl, rfl⟩ := walks
      exact .large absent large.1
    · rename_i other
      refine .down walked result absent ?_ walks
      by_contra large
      exact other ⟨large, by omega⟩

/-- What a walk over `rest` leaves that starts at the table of `path`. -/
structure Walks (live held : Set Nat) (space : Nat) (base : Mm) (lost : Set Nat) (path rest : List Nat)
    (mm walked : Mm) (result : Option Nat) : Prop where
  building : Building live held space base walked lost
  extended : Extended live space (path ++ rest) mm.mem walked.mem
  spared : ∀ page, page % pageSize = 0 → ¬ FreeAt mm.pmm page → NoTable mm live page →
    SamePage mm.mem walked.mem page ∧ result ≠ some page
  outcome : (∃ last, result = some last ∧ view walked.mem space (path ++ rest) = some last ∧
      freeCount walked.pmm + missing mm.mem space path rest = freeCount mm.pmm) ∨
    result = none ∧ freeCount mm.pmm < missing mm.mem space path rest ∧ freeCount walked.pmm = 0

theorem Building.walks_on (building : Building live held space base mm lost) {page tbl slot : Nat}
    {path rest : List Nat} (free : Free mm.pmm page) (low : Low (path ++ slot :: rest))
    (deep : path.length < 4) (here : view mm.mem space path = some tbl)
    (absent : view mm.mem space (path ++ [slot]) = none) {linked walked : Mm} {result : Option Nat}
    (shape : (zeroTable { mm with pmm := Pmm.take mm.pmm page } (page * pageSize)).setEntry tbl slot
      (page * pageSize ||| pteP ||| pteRw ||| pteUs) = linked)
    (walks : Building live held space base linked lost →
      view linked.mem space (path ++ [slot]) = some (entry linked.mem tbl slot &&& pteAddrMask) →
        Walks live held space base lost (path ++ [slot]) rest linked walked result) :
    Walks live held space base lost path (slot :: rest) mm walked result := by
  have split : path ++ slot :: rest = (path ++ [slot]) ++ rest := by simp
  have nextLow : Low (path ++ [slot]) := (split ▸ low).front_of
  obtain ⟨built, views, blank, extended, bytes, address⟩ := building.made page free nextLow here absent
  have counted := freeCount_take mm.pmm page free
  rw [shape] at built views blank extended bytes address
  have linkedPmm : linked.pmm = Pmm.take mm.pmm page := by
    rw [← shape]
    rfl
  have nextHere : view linked.mem space (path ++ [slot]) = some (page * pageSize) := by
    rw [views _ _ ⟨building.alive, nextLow⟩, if_pos ⟨rfl, rfl⟩]
  have done := walks built (address.symm ▸ nextHere)
  refine ⟨done.building, split ▸ (extended.longer _).trans done.extended, fun other aligned used noTable => ?_, ?_⟩
  · have apart : other ≠ page * pageSize := by
      rintro rfl
      exact used (by rwa [FreeAt, Nat.mul_div_cancel page (by decide)])
    have unlinked : NoTable linked live other := by
      intro root way named short
      rw [views root way named]
      split
      · exact fun same => apart (Option.some.inj same).symm
      · exact noTable root way named short
    obtain ⟨same, last⟩ := done.spared other aligned
      (fun still => used ((free_take _ _ _).mp (linkedPmm ▸ still)).1) unlinked
    have notHere : other ≠ tbl := fun same => noTable space path
      (named_closed live space path _ ⟨building.alive, nextLow⟩) deep (same ▸ here)
    exact ⟨(bytes other aligned apart notHere).trans same, last⟩
  · -- The table just made is blank, so the rest of the path is missing as before.
    have before : missing mm.mem space (path ++ [slot]) rest = rest.length :=
      missing_all _ _ _ _ fun next back _ => view_none_append _ _ _ [next] absent
    have after : missing linked.mem space (path ++ [slot]) rest = rest.length := by
      refine missing_all _ _ _ _ fun next back shape => ?_
      rw [view_snoc, nextHere, Option.bind_some]
      exact blank next (low.bounded next (by simp [shape]))
    have outcome := done.outcome
    rw [after, linkedPmm, ← split] at outcome
    simp only [missing, absent, ↓reduceIte, before]
    rcases outcome with ⟨last, found, reached, count⟩ | ⟨failed, short, drained⟩
    · exact .inl ⟨last, found, reached, by omega⟩
    · exact .inr ⟨failed, by omega, drained⟩

theorem walkFrom_building (va count : Nat) {tbl : Nat} {path : List Nat} {result : Option Nat} {walked : Mm}
    (building : Building live held space base mm lost) (low : Low (path ++ indices va count))
    (deep : path.length + count = 3) (here : view mm.mem space path = some tbl)
    (walks : walkFrom va true 1 count mm tbl = (result, walked)) :
    Walks live held space base lost path (indices va count) mm walked result := by
  induction count generalizing mm tbl path with
  | zero =>
      obtain ⟨rfl, rfl⟩ := Prod.mk.inj walks
      refine ⟨building, Extended.refl _ _ _ _, fun page _ _ noTable => ?_, .inl ⟨tbl, rfl, ?_, ?_⟩⟩
      · refine ⟨fun _ _ _ => rfl, fun same => noTable space path ⟨building.alive, ?_⟩ (by omega)
          (here.trans same)⟩
        simpa [indices] using low
      · simpa [indices] using here
      · simp [indices, missing]
  | succ count ih =>
      rw [indices] at low ⊢
      have split : path ++ tableIndex va (1 + count + 1) :: indices va count =
          (path ++ [tableIndex va (1 + count + 1)]) ++ indices va count := by simp
      have nextLow : Low (path ++ [tableIndex va (1 + count + 1)]) := (split ▸ low).front_of
      have nextDeep : (path ++ [tableIndex va (1 + count + 1)]).length + count = 3 := by
        rw [List.length_append, List.length_singleton]
        omega
      have step := view_snoc mm.mem space path (tableIndex va (1 + count + 1))
      rw [here, Option.bind_some] at step
      have unlinked : entry mm.mem tbl (tableIndex va (1 + count + 1)) &&& pteP = 0 →
          view mm.mem space (path ++ [tableIndex va (1 + count + 1)]) = none := by
        intro absent
        rw [step, child, entryChild, if_pos absent]
      cases walkFrom_descent building.owned walks with
      | full absent noPage =>
          refine ⟨building, Extended.refl _ _ _ _, fun _ _ _ _ => ⟨fun _ _ _ => rfl, by simp⟩,
            .inr ⟨rfl, ?_, noPage⟩⟩
          simp only [missing, unlinked absent, ↓reduceIte]
          omega
      | made page linked _ _ absent free shape rest =>
          exact building.walks_on free low (by omega) here (unlinked absent) shape fun built nextHere =>
            ih built (split ▸ low) nextDeep nextHere rest
      | large present big =>
          have small := building.owned.plain space path tbl _ ⟨building.alive, nextLow⟩ (by omega) here
            (by rw [child, entryChild, if_neg present]; simp)
          exact absurd small big
      | down _ _ present small rest =>
          have linked : view mm.mem space (path ++ [tableIndex va (1 + count + 1)]) =
              some (entry mm.mem tbl (tableIndex va (1 + count + 1)) &&& pteAddrMask) := by
            rw [step, child, entryChild, if_neg present]
          obtain ⟨done, extended, spared, outcome⟩ := ih building (split ▸ low) nextDeep linked rest
          rw [← split] at extended outcome
          refine ⟨done, extended, spared, ?_⟩
          simpa [missing, linked] using outcome

theorem low_front (va : Nat) (half : tableIndex va 4 < 256) : Low (front va) := (low_full va half).front_of

theorem map_cases (building : Building live held space base mm lost) (va pa flags : Nat)
    (half : tableIndex va 4 < 256) (args : LeafArgs pa flags) :
    ∃ walked, Building live held space base walked lost ∧
      Extended live space (front va) mm.mem walked.mem ∧
      (map mm space va pa flags = (false, walked) ∧
          freeCount mm.pmm < missing mm.mem space [] (front va) ∧ freeCount walked.pmm = 0 ∨
        ∃ last, map mm space va pa flags =
            (true, walked.setEntry last (tableIndex va 1) (leafValue pa flags)) ∧
          view walked.mem space (front va) = some last ∧
          freeCount walked.pmm + missing mm.mem space [] (front va) = freeCount mm.pmm ∧
          ∀ root path, Named live root path →
            view (write64 walked.mem (last + 8 * tableIndex va 1) (leafValue pa flags)) root path =
              if root = space ∧ path = full va then some pa else view walked.mem root path) := by
  have rootHere : view mm.mem space [] = some space := rfl
  obtain ⟨⟨result, walked⟩, walks⟩ : ∃ both, walk mm space va true 1 = both := ⟨_, rfl⟩
  obtain ⟨done, extended, _, outcome⟩ :=
    walkFrom_building va 3 building (low_front va half) rfl rootHere walks
  refine ⟨walked, done, extended, ?_⟩
  rcases outcome with ⟨last, rfl, reached, count⟩ | ⟨rfl, short, drained⟩
  · refine .inr ⟨last, by rw [map, walks]; rfl, reached, count, ?_⟩
    obtain ⟨bits, word⟩ := leaf_bits args
    have named : Named live space (front va ++ [tableIndex va 1]) :=
      ⟨building.alive, low_full va half⟩
    have stored := view_store done.owned named reached word fun rest longer belongs =>
      (beyond_leaf (front_length va) rest longer belongs).elim
    rw [bits] at stored
    exact stored
  · exact .inl ⟨by rw [map, walks], short, drained⟩

/-- Mapping a page writes to tables and to pages that were free. -/
theorem map_spares (owned : Owned mm live held) (alive : space ∈ live) {va pa flags : Nat}
    (half : tableIndex va 4 < 256) {ok : Bool} {after : Mm} (done : map mm space va pa flags = (ok, after))
    {page : Nat} (aligned : page % pageSize = 0) (used : ¬ FreeAt mm.pmm page)
    (noTable : NoTable mm live page) : SamePage mm.mem after.mem page := by
  have rootHere : view mm.mem space [] = some space := rfl
  obtain ⟨⟨result, walked⟩, walks⟩ : ∃ both, walk mm space va true 1 = both := ⟨_, rfl⟩
  obtain ⟨building, _, spared, outcome⟩ :=
    walkFrom_building va 3 (Building.refl owned alive) (low_front va half) rfl rootHere walks
  obtain ⟨same, other⟩ := spared page aligned used noTable
  rw [map, walks] at done
  rcases outcome with ⟨last, rfl, reached, _⟩ | ⟨rfl, _⟩
  · have table := (building.owned.valid space _ last ⟨alive, low_front va half⟩ reached).1
    rw [← (Prod.mk.inj done).2]
    exact same.trans (samePage_of_outside _ _ last page table.aligned aligned
      (fun equal => other (congrArg some equal.symm)) (setEntry_outside _ last _ _ (tableIndex_lt va 1)))
  · rw [← (Prod.mk.inj done).2]
    exact same

theorem map_building (building : Building live held space base mm lost) (va pa flags : Nat)
    (half : tableIndex va 4 < 256) (args : LeafArgs pa flags) (mine : pa ∈ lost) :
    ∃ ok mapped, map mm space va pa flags = (ok, mapped) ∧
      (ok = false ∧ Building live held space base mapped lost ∧
          freeCount mm.pmm < missing mm.mem space [] (front va) ∨
        ok = true ∧
          Building live held space base mapped
            { page | (page ∈ lost ∨ view mm.mem space (full va) = some page) ∧ page ≠ pa } ∧
          freeCount mapped.pmm + missing mm.mem space [] (front va) = freeCount mm.pmm ∧
          view mapped.mem space (full va) = some pa ∧
          (∀ path, Low path → path.length = 4 → path ≠ full va →
            view mapped.mem space path = view mm.mem space path) ∧
          ∀ path, Low path → (view mapped.mem space path ≠ none ↔
            view mm.mem space path ≠ none ∨ path <+: full va)) := by
  obtain ⟨walked, done, extended, outcome⟩ := map_cases building va pa flags half args
  have low := low_full va half
  rcases outcome with ⟨failed, short, _⟩ | ⟨last, mapped, reached, count, views⟩
  · exact ⟨false, walked, failed, .inl ⟨rfl, done, short⟩⟩
  · obtain ⟨bits, word⟩ := leaf_bits args
    have frames := extended.frame (by simp) space (full va) ⟨building.alive, low⟩ (by simp [full])
    have stored := done.store low reached word
      (fun start way member => by rw [views start way member, bits]; rfl)
      (fun page linked => by
        rw [bits, Option.some.injEq] at linked
        exact linked ▸ mine)
      (fun short => by simp at short) (fun page _ short => by simp at short)
    refine ⟨true, _, mapped, .inr ⟨rfl, ?_, count, ?_, ?_, ?_⟩⟩
    · have same : { page | (page ∈ lost ∨ view walked.mem space (front va ++ [tableIndex va 1]) =
          some page) ∧ entryChild (leafValue pa flags) ≠ some page } =
          { page | (page ∈ lost ∨ view mm.mem space (full va) = some page) ∧ page ≠ pa } := by
        ext page
        rw [Set.mem_ofPred_eq, Set.mem_ofPred_eq, bits, ← full, frames, ne_eq,
          Option.some.injEq, eq_comm (a := pa)]
      rw [← same]
      exact stored
    · rw [Mm.setEntry_mem, views space _ ⟨building.alive, low⟩]
      simp
    · intro path pathLow deep other
      rw [Mm.setEntry_mem, views space path ⟨building.alive, pathLow⟩]
      simp only [other, and_false, ↓reduceIte]
      exact extended.frame (by simp) space path ⟨building.alive, pathLow⟩ deep
    · intro path pathLow
      rw [Mm.setEntry_mem, views space path ⟨building.alive, pathLow⟩]
      by_cases same : path = full va
      · simp [same]
      · simp only [same, and_false, ↓reduceIte]
        constructor
        · intro present
          by_cases before : view mm.mem space path = none
          · have short := (extended.only space path ⟨building.alive, pathLow⟩ before present).2
            exact .inr (short.trans (List.prefix_append _ _))
          · exact .inl before
        · rintro (before | ⟨rest, split⟩)
          · obtain ⟨node, found⟩ := Option.ne_none_iff_exists'.mp before
            rw [extended.kept space path node ⟨building.alive, pathLow⟩ found]
            simp
          · -- A proper prefix of the frame's path is a prefix of its table's path.
            intro absent
            rcases List.eq_nil_or_concat rest with rfl | ⟨most, final, rfl⟩
            · exact same (by simpa using split)
            · have parts : path ++ most = front va ∧ final = tableIndex va 1 := by
                rw [full, List.concat_eq_append, ← List.append_assoc] at split
                simpa using List.append_inj' split rfl
              rw [← parts.1, view_none_append _ _ _ _ absent] at reached
              cases reached

theorem Building.alloc (building : Building live held space base mm lost) :
    (allocPage mm.pmm = (0, mm.pmm) ∧ freeCount mm.pmm = 0) ∨
      ∃ pa pmm, allocPage mm.pmm = (pa, pmm) ∧ Page pa ∧ pa ∉ lost ∧
        freeCount pmm + 1 = freeCount mm.pmm ∧
        Building live held space base { mm with pmm := pmm } (insert pa lost) := by
  rcases allocPage_cases mm.pmm with ⟨nothing, full⟩ | ⟨page, free, _, taken⟩
  · refine .inl ⟨nothing, ?_⟩
    by_contra positive
    obtain ⟨page, free⟩ := free_of_positive mm.pmm (by omega)
    exact full page free
  · refine .inr ⟨_, _, taken, free_page building.owned page free, fun member => ?_,
      freeCount_take mm.pmm page free, building.take page free⟩
    have used := (building.owned.apart _ (.inr member)).2.1
    rw [FreeAt, Nat.mul_div_cancel page (by decide)] at used
    exact used free

theorem missing_congr {before after : Nat → UInt8} {root : Nat} (path rest : List Nat)
    (same : ∀ way, way <+: path ++ rest → view after root way = view before root way) :
    missing after root path rest = missing before root path rest := by
  induction rest generalizing path with
  | nil => rfl
  | cons index rest ih =>
      have split : path ++ index :: rest = (path ++ [index]) ++ rest := by simp
      rw [split] at same
      simp only [missing]
      rw [same _ (List.prefix_append _ _), ih (path ++ [index]) same]

theorem Building.map_flying {pa : Nat} (flying : Building live held space base mm (insert pa lost))
    (fresh : pa ∉ lost) (va flags : Nat) (half : tableIndex va 4 < 256) (args : LeafArgs pa flags) :
    ∃ ok after, map mm space va pa flags = (ok, after) ∧
      (ok = false ∧ Building live held space base after (insert pa lost) ∧
          freeCount mm.pmm < missing mm.mem space [] (front va) ∨
        ok = true ∧
          Building live held space base after
            { page | page ∈ lost ∨ view mm.mem space (full va) = some page } ∧
          freeCount after.pmm + missing mm.mem space [] (front va) = freeCount mm.pmm ∧
          view after.mem space (full va) = some pa ∧
          ∀ path, Low path → (view after.mem space path ≠ none ↔
            view mm.mem space path ≠ none ∨ path <+: full va)) := by
  obtain ⟨ok, after, mapped, outcome⟩ := map_building flying va pa flags half args
    (Set.mem_insert _ _)
  refine ⟨ok, after, mapped, ?_⟩
  rcases outcome with failed | ⟨good, building, count, here, _, domain⟩
  · exact .inl failed
  · refine .inr ⟨good, ?_, count, here, domain⟩
    have unnamed := (flying.owned.apart pa (.inr (Set.mem_insert _ _))).2.2 space (full va)
      ⟨flying.alive, low_full va half⟩
    have same : { page | (page ∈ insert pa lost ∨ view mm.mem space (full va) = some page) ∧
        page ≠ pa } = { page | page ∈ lost ∨ view mm.mem space (full va) = some page } := by
      ext page
      rw [Set.mem_ofPred_eq, Set.mem_ofPred_eq, Set.mem_insert_iff]
      constructor
      · rintro ⟨(same | old) | was, different⟩
        · exact absurd same different
        · exact .inl old
        · exact .inr was
      · rintro (old | was)
        · exact ⟨.inl (.inr old), fun same => fresh (same ▸ old)⟩
        · exact ⟨.inr was, fun same => unnamed (same ▸ was)⟩
    rw [← same]
    exact building

theorem Page.leafArgs {pa flags : Nat} (page : Page pa) (plain : flags &&& pteAddrMask = 0)
    (word : flags < 2 ^ 64) : LeafArgs pa flags :=
  ⟨page.aligned, Nat.lt_trans page.lt (by decide), plain, word⟩

end Building

end Shizuku.Vmm
