import Shizuku.PageWalk

/-!
Reading the tables, and the two ends of an address space: `translate` and `unmap`
follow the names, `newSpace` adds a root with an empty low half, `destroySpace`
gives back every page its names lead to, each once.
-/

namespace Shizuku.Vmm

open ByteMemory WordMemory PointerForest Pmm

/-- The links that `walk` follows: it does not go through a large page. -/
def plainChild (mem : Nat → UInt8) (tbl idx : Nat) : Option Nat :=
  if entry mem tbl idx &&& pteP = 0 ∨ entry mem tbl idx &&& ptePs ≠ 0 then none
  else some (entry mem tbl idx &&& pteAddrMask)

section Links
variable {mem after : Nat → UInt8} {tbl idx np : Nat}

theorem plainChild_linked (page : Page np)
    (value : entry mem tbl idx = np ||| pteP ||| pteRw ||| pteUs) : plainChild mem tbl idx = some np := by
  obtain ⟨bits, normal, _⟩ := table_bits np page
  obtain ⟨present, address⟩ := entryChild_some bits
  rw [plainChild, value]
  simp [present, normal, address]

theorem plainChild_zero (blank : entry mem tbl idx = 0) : plainChild mem tbl idx = none := by
  rw [plainChild, blank]
  rfl

theorem plainChild_present {next : Nat} (linked : plainChild mem tbl idx = some next) :
    entry mem tbl idx &&& pteP ≠ 0 := by
  intro absent
  simp [plainChild, absent] at linked

theorem plainChild_congr (same : entry after tbl idx = entry mem tbl idx) :
    plainChild after tbl idx = plainChild mem tbl idx := by
  rw [plainChild, plainChild, same]

end Links

theorem walkFrom_reads (va count : Nat) (mm : Mm) (tbl : Nat) :
    walkFrom va false 1 count mm tbl =
      (follow (plainChild mm.mem) tbl (indices va count), mm) := by
  induction count generalizing tbl with
  | zero => rfl
  | succ count ih =>
      have above : 1 < 1 + count + 1 := by omega
      simp only [walkFrom, indices, follow_cons, plainChild]
      by_cases present : entry mm.mem tbl (tableIndex va (1 + count + 1)) &&& pteP = 0
      · simp [present]
      · by_cases large : entry mm.mem tbl (tableIndex va (1 + count + 1)) &&& ptePs = 0
        · simp only [present, large, ↓reduceIte, ne_eq, not_true_eq_false, false_and, or_self,
            Option.bind_some]
          exact ih _
        · simp [present, large, above]

theorem walk_reads (mm : Mm) (space va : Nat) :
    walk mm space va false 1 = (follow (plainChild mm.mem) space (front va), mm) :=
  walkFrom_reads va 3 mm space

section Owned
variable {mm : Mm} {live held : Set Nat}

theorem PlainTables.walk_view {mem : Nat → UInt8} (plain : PlainTables mem live) (root : Nat)
    (path : List Nat) (named : Named live root path) (short : path.length ≤ 3) :
    follow (plainChild mem) root path = view mem root path := by
  apply follow_congr
  intro first index second tbl split reached
  have part : Named live root (first ++ index :: second) := split ▸ named
  rw [split, List.length_append, List.length_cons] at short
  have nextNamed : Named live root (first ++ [index]) :=
    named_closed live root (first ++ [index]) second (by simpa using part)
  by_cases present : entry mem tbl index &&& pteP = 0
  · simp [plainChild, child, entryChild, present]
  · have small := plain root first tbl index nextNamed (by omega) reached
      (by simp [child, entryChild, present])
    simp [plainChild, child, entryChild, present, small]

def leafEntry (mem : Nat → UInt8) (space va : Nat) : Option Nat :=
  (view mem space (front va)).bind fun tbl =>
    if entry mem tbl (tableIndex va 1) &&& pteP = 0 then none
    else some (entry mem tbl (tableIndex va 1))

theorem leafEntry_view (mem : Nat → UInt8) (space va : Nat) :
    (leafEntry mem space va).map (· &&& pteAddrMask) = view mem space (full va) := by
  rw [leafEntry, full, view_snoc]
  cases view mem space (front va) with
  | none => rfl
  | some tbl =>
      simp only [Option.bind_some, child, entryChild]
      split <;> rfl

theorem translate_leaf (plain : PlainTables mm.mem live) (space va : Nat) (alive : space ∈ live)
    (half : tableIndex va 4 < 256) :
    translate mm space va = match leafEntry mm.mem space va with
      | none => 0
      | some e => (e &&& pteAddrMask) + va % pageSize := by
  have offset : va &&& (pageSize - 1) = va % pageSize := Nat.and_two_pow_sub_one_eq_mod va 12
  rw [translate, walk_reads, offset,
    plain.walk_view space (front va) ⟨alive, low_front va half⟩ (by simp), leafEntry]
  cases view mm.mem space (front va) with
  | none => rfl
  | some tbl =>
      simp only [Option.bind_some]
      by_cases present : entry mm.mem tbl (tableIndex va 1) &&& pteP = 0 <;> simp [present]

theorem translate_view (plain : PlainTables mm.mem live) (space va : Nat) (alive : space ∈ live)
    (half : tableIndex va 4 < 256) :
    translate mm space va = match view mm.mem space (full va) with
      | none => 0
      | some frame => frame + va % pageSize := by
  rw [translate_leaf plain space va alive half, ← leafEntry_view]
  cases leafEntry mm.mem space va <;> rfl

theorem unmap_cases (owned : Owned mm live held) (space va : Nat) (alive : space ∈ live)
    (half : tableIndex va 4 < 256) :
    (unmap mm space va = (false, mm) ∧ view mm.mem space (full va) = none) ∨
      ∃ tbl frame, view mm.mem space (front va) = some tbl ∧
        view mm.mem space (full va) = some frame ∧
        unmap mm space va = (true, mm.setEntry tbl (tableIndex va 1) 0) := by
  rw [unmap, walk_reads, owned.plain.walk_view space (front va) ⟨alive, low_front va half⟩ (by simp),
    full, view_snoc]
  cases reached : view mm.mem space (front va) with
  | none => exact .inl ⟨rfl, rfl⟩
  | some tbl =>
      simp only [Option.bind_some, child, entryChild]
      by_cases present : entry mm.mem tbl (tableIndex va 1) &&& pteP = 0
      · exact .inl (by simp [present])
      · exact .inr ⟨tbl, entry mm.mem tbl (tableIndex va 1) &&& pteAddrMask, rfl,
          by simp [present], by simp [present]⟩

theorem Owned.release (owned : Owned mm live held) (pa : Nat) (mine : pa ∈ held) (isPage : Page pa) :
    freePage mm.pmm pa = Pmm.release mm.pmm (pa / pageSize) ∧
      Owned { mm with pmm := freePage mm.pmm pa } live (held \ {pa}) := by
  obtain ⟨_, used, unnamed⟩ := owned.apart pa mine
  have accepted := freePage_accepted mm.pmm (pa / pageSize) isPage.inside used
  rw [isPage.number] at accepted
  have released := fun other => free_release mm.pmm (pa / pageSize) other isPage.inside
  have same : ∀ page, page % pageSize = 0 → page / pageSize = pa / pageSize → page = pa := by
    intro page aligned equal
    rw [← isPage.number, ← equal, Nat.div_mul_cancel (Nat.dvd_of_mod_eq_zero aligned)]
  refine ⟨accepted, ?_⟩
  rw [accepted]
  constructor
  · intro free
    rcases (released 0).mp free with old | equal
    · exact owned.zero old
    · exact isPage.nonzero (same 0 (by simp) (by simpa using equal)).symm
  · exact owned.unshared
  · intro root path page named reached
    obtain ⟨page_, taken⟩ := owned.valid root path page named reached
    refine ⟨page_, fun free => ?_⟩
    rcases (released _).mp free with old | equal
    · exact taken old
    · exact unnamed root path named (same page page_.aligned equal ▸ reached)
  · exact owned.plain
  · rintro page ⟨member, other⟩
    obtain ⟨aligned, taken, free_⟩ := owned.apart page member
    refine ⟨aligned, fun free => ?_, free_⟩
    rcases (released _).mp free with old | equal
    · exact taken old
    · exact other (same page aligned equal)

theorem Owned.root (owned : Owned mm live held) (np : Nat) (mine : np ∈ held) (isPage : Page np)
    (blank : ∀ index, index < 256 → child mm.mem np index = none) :
    Owned mm (insert np live) (held \ {np}) := by
  have names : ∀ root path page, Named (insert np live) root path →
      view mm.mem root path = some page →
      (root = np ∧ path = [] ∧ page = np) ∨ Named live root path := by
    rintro root path page ⟨rfl | old, low⟩ reached
    · cases path with
      | nil =>
          rw [view_nil, Option.some.injEq] at reached
          exact .inl ⟨rfl, rfl, reached.symm⟩
      | cons index rest =>
          rw [view_cons_none _ _ _ _ (blank index (low.half index rfl))] at reached
          cases reached
    · exact .inr ⟨old, low⟩
  obtain ⟨_, used, unnamed⟩ := owned.apart np mine
  constructor
  · exact owned.zero
  · intro root path other way page first second left right
    rcases names root path page first left with ⟨rfl, rfl, rfl⟩ | one
    · rcases names other way page second right with ⟨same, empty, _⟩ | two
      · exact ⟨same.symm, empty.symm⟩
      · exact absurd right (unnamed other way two)
    · rcases names other way page second right with ⟨rfl, rfl, rfl⟩ | two
      · exact absurd left (unnamed root path one)
      · exact owned.unshared root path other way page one two left right
  · intro root path page named reached
    rcases names root path page named reached with ⟨rfl, rfl, rfl⟩ | old
    · exact ⟨isPage, used⟩
    · exact owned.valid root path page old reached
  · intro root path tbl index named short reached linked
    rcases names root path tbl (named_closed _ root path [index] named) reached with
      ⟨rfl, rfl, rfl⟩ | old
    · exact absurd (blank index (named.2.half index rfl)) linked
    · exact owned.plain root path tbl index ⟨old.1, named.2⟩ short reached linked
  · rintro page ⟨member, other⟩
    obtain ⟨aligned, pageUsed, pageUnnamed⟩ := owned.apart page member
    refine ⟨aligned, pageUsed, fun root path named reached => ?_⟩
    rcases names root path page named reached with ⟨_, _, same⟩ | old
    · exact other same
    · exact pageUnnamed root path old reached

/-- A page filled by `shareHighHalf` after zeroing: the low half is empty, the
high half is the source's. -/
theorem shared_entries (mem : Nat → UInt8) (source target : Nat) (sourceAligned : source % pageSize = 0)
    (targetAligned : target % pageSize = 0) (different : source ≠ target) :
    let shared := blit (fill mem target pageSize 0) (target + 8 * 256)
      (slice (fill mem target pageSize 0) (source + 8 * 256) (8 * 256))
    (∀ index, index < 256 → entry shared target index = 0) ∧
      (∀ index, 256 ≤ index → index < 512 →
        entry shared target index = entry mem source index) ∧
      ∀ place, place < target ∨ target + pageSize ≤ place → shared place = mem place := by
  intro shared
  have size : pageSize = 4096 := rfl
  have filled := entry_zeroed mem target
  have apart := samePage_of_outside mem (fill mem target pageSize 0) target source targetAligned
    sourceAligned different (fun place outside => fill_outside mem target pageSize 0 place outside)
  refine ⟨fun index low => ?_, fun index low high => ?_, fun place outside => ?_⟩
  · rw [← filled index (by omega)]
    apply read64_congr
    intro place above below
    exact blit_outside _ _ _ place (.inl (by omega))
  · have copied := read64_copied (fill mem target pageSize 0) (source + 8 * 256) (target + 8 * 256)
      (8 * 256) (8 * (index - 256)) (by omega)
    rw [show target + 8 * 256 + 8 * (index - 256) = target + 8 * index by omega,
      show source + 8 * 256 + 8 * (index - 256) = source + 8 * index by omega] at copied
    exact copied.trans (apart.entry index high)
  · rw [← fill_outside mem target pageSize 0 place outside]
    apply blit_outside
    rw [slice_length]
    omega

theorem Owned.fresh_root (owned : Owned mm live held) (page : Nat) (free : Free mm.pmm page)
    (mem : Nat → UInt8) (low : ∀ index, index < 256 → entry mem (page * pageSize) index = 0)
    (outside : ∀ place, place < page * pageSize ∨ page * pageSize + pageSize ≤ place →
      mem place = mm.mem place) :
    Owned { mm with pmm := Pmm.take mm.pmm page, mem := mem } (insert (page * pageSize) live)
      held := by
  have isPage := free_page owned page free
  have number : page * pageSize / pageSize = page := Nat.mul_div_cancel page (by decide)
  have taken := owned.take page free
  generalize root : page * pageSize = np at *
  have inFlight : np ∈ insert np held := Set.mem_insert _ _
  have filled := taken.mem_congr mem (by
    intro start path tbl named _ reached
    refine samePage_of_outside _ _ np tbl isPage.aligned
      (taken.valid start path tbl named reached).1.aligned ?_ outside
    rintro rfl
    exact (taken.apart _ inFlight).2.2 start path named reached)
  have rooted := filled.root np inFlight isPage (by
    intro index below
    unfold child
    rw [low index below]
    rfl)
  refine rooted.held_mono fun other member => ⟨.inr member, ?_⟩
  rintro rfl
  have used := (owned.apart other member).2.1
  rw [FreeAt, number] at used
  exact used free

theorem newSpace_cases (owned : Owned mm live held) (kernel : mm.kernelSpace ∈ live) :
    (newSpace mm = (0, mm) ∧ ∀ page, ¬ Free mm.pmm page) ∨
      ∃ page mem, Free mm.pmm page ∧
        newSpace mm = (page * pageSize, { mm with pmm := Pmm.take mm.pmm page, mem := mem }) ∧
        Owned { mm with pmm := Pmm.take mm.pmm page, mem := mem } (insert (page * pageSize) live)
          held ∧
        (∀ index, index < 256 → entry mem (page * pageSize) index = 0) ∧
        (∀ index, 256 ≤ index → index < 512 → entry mem (page * pageSize) index =
          entry mm.mem mm.kernelSpace index) ∧
        ∀ place, place < page * pageSize ∨ page * pageSize + pageSize ≤ place →
          mem place = mm.mem place := by
  rcases allocPage_cases mm.pmm with ⟨nothing, full⟩ | ⟨page, free, _, taken⟩
  · exact .inl ⟨by rw [newSpace, nothing]; rfl, full⟩
  · have isPage := free_page owned page free
    have kernelPage := (owned.root_page _ kernel).1
    have different : mm.kernelSpace ≠ page * pageSize := by
      intro same
      apply (owned.root_page _ kernel).2
      rw [FreeAt, same, Nat.mul_div_cancel page (by decide)]
      exact free
    obtain ⟨low, high, outside⟩ := shared_entries mm.mem mm.kernelSpace (page * pageSize)
      kernelPage.aligned isPage.aligned different
    refine .inr ⟨page, _, free, ?_, owned.fresh_root page free _ low outside, low, high, outside⟩
    rw [newSpace, taken]
    exact if_neg isPage.nonzero

/-! ### Destruction -/

def lowSlots (depth : Nat) : List Nat := if depth = 4 then List.range 256 else List.range 512

theorem lowSlots_below (depth : Nat) (below : depth ≠ 4) : lowSlots depth = List.range 512 :=
  if_neg below

theorem lowSlots_top : lowSlots 4 = List.range 256 := if_pos rfl

theorem scanned_low (path : List Nat) : Scanned lowSlots 4 path ↔ Low path := by
  have deeper : ∀ depth rest, depth < 4 →
      (Scanned lowSlots depth rest ↔ rest.length ≤ depth ∧ ∀ index, index ∈ rest → index < 512) := by
    intro depth
    induction depth with
    | zero =>
        intro rest _
        cases rest <;> simp [Scanned]
    | succ depth ih =>
        intro rest bound
        have notTop : ¬ depth + 1 = 4 := by omega
        cases rest with
        | nil => simp [Scanned]
        | cons index rest =>
            simp only [Scanned, lowSlots, notTop, ↓reduceIte, List.mem_range, ih rest (by omega),
              List.length_cons, List.mem_cons, forall_eq_or_imp, Nat.add_le_add_iff_right]
            tauto
  cases path with
  | nil => exact ⟨fun _ => low_nil, fun _ => trivial⟩
  | cons index rest =>
      rw [show (4 : Nat) = 3 + 1 from rfl, Scanned, lowSlots_top, List.mem_range, deeper 3 rest (by omega)]
      constructor
      · rintro ⟨half, short, bounded⟩
        refine ⟨by rw [List.length_cons]; omega, ?_, ?_⟩
        · intro other member
          rcases List.mem_cons.mp member with rfl | later
          · omega
          · exact bounded other later
        · intro other head
          simp only [List.head?_cons, Option.some.injEq] at head
          omega
      · intro low
        have short := low.short
        rw [List.length_cons] at short
        exact ⟨low.half index rfl, by omega,
          fun other member => low.bounded other (List.mem_cons_of_mem _ member)⟩

theorem freeAll_spec (pmm : Pmm.State) (pages : List Nat) (distinct : pages.Nodup)
    (used : ∀ page, page ∈ pages → Page page ∧ ¬ FreeAt pmm page) :
    (∀ number, Free (pages.foldl freePage pmm) number ↔
        Free pmm number ∨ number * pageSize ∈ pages) ∧
      (pages.foldl freePage pmm).badFrees = pmm.badFrees ∧
      drift (pages.foldl freePage pmm) = drift pmm := by
  induction pages generalizing pmm with
  | nil => simp
  | cons page rest ih =>
      obtain ⟨isPage, taken⟩ := used page (by simp)
      have accepted := freePage_accepted pmm (page / pageSize) isPage.inside taken
      rw [isPage.number] at accepted
      have released := free_release pmm (page / pageSize)
      obtain ⟨fresh, distinctRest⟩ := List.nodup_cons.mp distinct
      obtain ⟨frees, bad, counter⟩ := ih (release pmm (page / pageSize)) distinctRest (by
        intro other member
        obtain ⟨otherPage, otherUsed⟩ := used other (by simp [member])
        refine ⟨otherPage, fun free => ?_⟩
        rcases (released _ isPage.inside).mp free with old | same
        · exact otherUsed old
        · apply fresh
          rw [← isPage.number, ← same, otherPage.number]
          exact member)
      rw [List.foldl_cons, accepted]
      refine ⟨fun number => ?_, bad, counter.trans
        (drift_release pmm _ isPage.inside taken)⟩
      rw [frees, released _ isPage.inside, List.mem_cons]
      have same : number = page / pageSize ↔ number * pageSize = page := by
        constructor
        · rintro rfl
          exact isPage.number
        · intro equal
          rw [← equal, Nat.mul_div_cancel number (by decide)]
      rw [same, or_assoc]

theorem fold_subtree (mem : Nat → UInt8) (pmm : Pmm.State) (depth tbl : Nat)
    (body : Pmm.State → Nat → Pmm.State)
    (same : ∀ state index, index ∈ lowSlots (depth + 1) → body state index =
      match child mem tbl index with
      | none => state
      | some next => freePage ((subtree (child mem) lowSlots depth next).foldl freePage state) next) :
    (lowSlots (depth + 1)).foldl body pmm =
      (subtree (child mem) lowSlots (depth + 1) tbl).foldl freePage pmm := by
  rw [subtree, List.foldl_flatMap]
  apply List.foldl_ext
  intro state index member
  rw [same state index member]
  cases child mem tbl index with
  | none => rfl
  | some next => rw [List.foldl_append]; rfl

theorem destroyL1_subtree (mem : Nat → UInt8) (pmm : Pmm.State) (l1 : Nat) :
    destroyL1 mem pmm l1 = (subtree (child mem) lowSlots 1 l1).foldl freePage pmm := by
  rw [destroyL1, ← lowSlots_below (0 + 1) (by decide)]
  refine fold_subtree mem pmm 0 l1 _ fun state index _ => ?_
  by_cases present : entry mem l1 index &&& pteP = 0 <;>
    simp [child, entryChild, present, subtree]

def SmallPages (mem : Nat → UInt8) (tbl : Nat) : Prop :=
  ∀ index, index < 512 → child mem tbl index ≠ none → entry mem tbl index &&& ptePs = 0

theorem destroyL2_subtree (mem : Nat → UInt8) (pmm : Pmm.State) (l2 : Nat)
    (small : SmallPages mem l2) :
    destroyL2 mem pmm l2 = (subtree (child mem) lowSlots 2 l2).foldl freePage pmm := by
  rw [destroyL2, ← lowSlots_below (1 + 1) (by decide)]
  refine fold_subtree mem pmm 1 l2 _ fun state index member => ?_
  rw [lowSlots_below _ (by decide)] at member
  have bound := List.mem_range.mp member
  by_cases present : entry mem l2 index &&& pteP = 0
  · simp [child, entryChild, present]
  · have plain := small index bound (by simp [child, entryChild, present])
    simp [child, entryChild, present, plain, destroyL1_subtree]

theorem destroyL3_subtree (mem : Nat → UInt8) (pmm : Pmm.State) (l3 : Nat)
    (small : SmallPages mem l3)
    (below : ∀ index l2, index < 512 → child mem l3 index = some l2 → SmallPages mem l2) :
    destroyL3 mem pmm l3 = (subtree (child mem) lowSlots 3 l3).foldl freePage pmm := by
  rw [destroyL3, ← lowSlots_below (2 + 1) (by decide)]
  refine fold_subtree mem pmm 2 l3 _ fun state index member => ?_
  rw [lowSlots_below _ (by decide)] at member
  have bound := List.mem_range.mp member
  by_cases present : entry mem l3 index &&& pteP = 0
  · simp [child, entryChild, present]
  · have linked : child mem l3 index = some (entry mem l3 index &&& pteAddrMask) := by
      simp [child, entryChild, present]
    have plain := small index bound (by simp [linked])
    have deeper := destroyL2_subtree mem state _ (below index _ bound linked)
    simp [linked, present, plain, deeper]

theorem Owned.small_pages (owned : Owned mm live held) (root : Nat) (path : List Nat) (tbl : Nat)
    (named : Named live root path) (nonempty : path ≠ []) (short : path.length < 3)
    (reached : view mm.mem root path = some tbl) : SmallPages mm.mem tbl := by
  intro index bound linked
  exact owned.plain root path tbl index
    ⟨named.1, named.2.snoc nonempty (by omega) index bound⟩ short reached linked

theorem Owned.destroyL4_subtree (owned : Owned mm live held) (space : Nat) (alive : space ∈ live) :
    destroyL4 mm.mem mm.pmm space =
      (subtree (child mm.mem) lowSlots 4 space).foldl freePage mm.pmm := by
  rw [destroyL4, ← lowSlots_top]
  refine fold_subtree mm.mem mm.pmm 3 space _ fun state index member => ?_
  rw [lowSlots_top] at member
  have half := List.mem_range.mp member
  by_cases present : entry mm.mem space index &&& pteP = 0
  · simp [child, entryChild, present]
  · have linked : child mm.mem space index = some (entry mm.mem space index &&& pteAddrMask) := by
      simp [child, entryChild, present]
    have l3Low := low_single index half
    have l3 : view mm.mem space [index] = some (entry mm.mem space index &&& pteAddrMask) := by
      rw [show [index] = [] ++ [index] from rfl, view_snoc, view_nil, Option.bind_some, linked]
    have deeper := destroyL3_subtree mm.mem state _
      (owned.small_pages space [index] _ ⟨alive, l3Low⟩ (by simp) (by simp) l3)
      (by
        intro next l2 bound below
        have l2Low := l3Low.snoc (by simp) (by simp) next bound
        refine owned.small_pages space ([index] ++ [next]) l2 ⟨alive, l2Low⟩ (by simp) (by simp) ?_
        rw [view_snoc, l3, Option.bind_some, below])
    simp [linked, present, deeper]

/-- The calls of `destroySpace` in their order: every page of the tree, once. -/
theorem Owned.destroy_calls (owned : Owned mm live held) (space : Nat) (alive : space ∈ live) :
    ∃ pages : List Nat, pages.Nodup ∧ (∀ page, page ∈ pages ↔ InTree mm.mem space page) ∧
      (destroySpace mm space).pmm = pages.foldl freePage mm.pmm := by
  have injective : ∀ path way found, Scanned lowSlots 4 path → Scanned lowSlots 4 way →
      follow (child mm.mem) space path = some found →
      follow (child mm.mem) space way = some found → path = way := by
    intro path way found first second left right
    exact (owned.unshared space path space way found ⟨alive, (scanned_low path).mp first⟩
      ⟨alive, (scanned_low way).mp second⟩ left right).2
  refine ⟨subtree (child mm.mem) lowSlots 4 space ++ [space], ?_, fun page => ?_, ?_⟩
  · rw [List.nodup_append]
    refine ⟨subtree_nodup _ _ (fun depth => ?_) 4 space injective, by simp, ?_⟩
    · unfold lowSlots
      split <;> exact List.nodup_range
    · rintro page inside other final rfl
      rw [List.mem_singleton] at final
      subst page
      obtain ⟨path, nonempty, scanned, reached⟩ := (mem_subtree _ _ _ _ _).mp inside
      exact nonempty (injective path [] space scanned trivial reached rfl)
  · rw [List.mem_append, mem_subtree, List.mem_singleton]
    constructor
    · rintro (⟨path, _, scanned, reached⟩ | rfl)
      · exact ⟨path, (scanned_low path).mp scanned, reached⟩
      · exact ⟨[], low_nil, rfl⟩
    · rintro ⟨path, low, reached⟩
      by_cases empty : path = []
      · subst path
        rw [view_nil, Option.some.injEq] at reached
        exact .inr reached.symm
      · exact .inl ⟨path, empty, (scanned_low path).mpr low, reached⟩
  · rw [destroySpace, owned.destroyL4_subtree space alive, List.foldl_append]
    rfl

theorem Owned.destroy (owned : Owned mm live held) (space : Nat) (alive : space ∈ live) :
    (∀ number, Free (destroySpace mm space).pmm number ↔
        Free mm.pmm number ∨ InTree mm.mem space (number * pageSize)) ∧
      (destroySpace mm space).pmm.badFrees = mm.pmm.badFrees ∧
      drift (destroySpace mm space).pmm = drift mm.pmm ∧
      Owned (destroySpace mm space) (live \ {space}) held := by
  obtain ⟨pages, distinct, tree, shape⟩ := owned.destroy_calls space alive
  obtain ⟨frees, bad, counter⟩ := freeAll_spec mm.pmm pages distinct fun page member => by
    obtain ⟨path, low, reached⟩ := (tree page).mp member
    exact owned.valid space path page ⟨alive, low⟩ reached
  rw [← shape] at frees bad counter
  have freed : ∀ number, Free (destroySpace mm space).pmm number ↔
      Free mm.pmm number ∨ InTree mm.mem space (number * pageSize) := by
    intro number
    rw [frees, tree]
  have others : ∀ root path, Named (live \ {space}) root path → Named live root path ∧ root ≠ space :=
    fun root path named => ⟨⟨named.1.1, named.2⟩, named.1.2⟩
  refine ⟨freed, bad, counter, ?_, ?_, ?_, ?_, ?_⟩
  · intro free
    rcases (freed 0).mp free with old | ⟨path, low, reached⟩
    · exact owned.zero old
    · exact (owned.valid space path _ ⟨alive, low⟩ reached).1.nonzero (by simp)
  · intro root path other way page first second left right
    exact owned.unshared root path other way page (others root path first).1
      (others other way second).1 left right
  · intro root path page named reached
    obtain ⟨old, different⟩ := others root path named
    obtain ⟨isPage, taken⟩ := owned.valid root path page old reached
    refine ⟨isPage, fun free => ?_⟩
    rcases (freed _).mp free with before | ⟨way, low, also⟩
    · exact taken before
    · rw [isPage.number] at also
      exact different (owned.unshared root path space way page old ⟨alive, low⟩ reached also).1
  · intro root path tbl index named short reached linked
    exact owned.plain root path tbl index (others _ _ named).1 short reached linked
  · intro page member
    obtain ⟨aligned, taken, unnamed⟩ := owned.apart page member
    refine ⟨aligned, fun free => ?_, fun root path named => unnamed root path (others _ _ named).1⟩
    rcases (freed _).mp free with before | ⟨way, low, also⟩
    · exact taken before
    · rw [Nat.div_mul_cancel (Nat.dvd_of_mod_eq_zero aligned)] at also
      exact unnamed space way ⟨alive, low⟩ also

theorem Owned.live_mono (owned : Owned mm live held) {fewer : Set Nat}
    (subset : ∀ space, space ∈ fewer → space ∈ live) : Owned mm fewer held := by
  have lift : ∀ root path, Named fewer root path → Named live root path :=
    fun root path named => ⟨subset root named.1, named.2⟩
  exact
    { zero := owned.zero
      unshared := fun root path other way page first second =>
        owned.unshared root path other way page (lift _ _ first) (lift _ _ second)
      valid := fun root path page named => owned.valid root path page (lift _ _ named)
      plain := fun root path tbl index named => owned.plain root path tbl index (lift _ _ named)
      apart := fun page member =>
        have old := owned.apart page member
        ⟨old.1, old.2.1, fun root path named => old.2.2 root path (lift _ _ named)⟩ }

theorem Owned.takeAll (owned : Owned mm live held) (pages : List Nat) (distinct : pages.Nodup)
    (free : ∀ page, page ∈ pages → Free mm.pmm page) :
    Owned { mm with pmm := Pmm.takeAll mm.pmm pages } live
      (held ∪ { pa | ∃ page, page ∈ pages ∧ pa = page * pageSize }) := by
  induction pages generalizing mm held with
  | nil => exact owned.held_mono (by simp)
  | cons page rest ih =>
      obtain ⟨fresh, distinctRest⟩ := List.nodup_cons.mp distinct
      have first := owned.take page (free page List.mem_cons_self)
      refine (ih first distinctRest fun other member => ?_).held_mono fun pa member => ?_
      · exact (free_take _ _ _).mpr
          ⟨free other (List.mem_cons_of_mem page member), fun same => fresh (same ▸ member)⟩
      · rcases member with old | ⟨other, listed, rfl⟩
        · exact .inl (.inr old)
        · rcases List.mem_cons.mp listed with rfl | later
          · exact .inl (.inl rfl)
          · exact .inr ⟨other, later, rfl⟩

theorem Owned.freeAll (owned : Owned mm live held) (pages : List Nat) (distinct : pages.Nodup)
    (mine : ∀ page, page ∈ pages → page ∈ held ∧ Page page) :
    Owned { mm with pmm := pages.foldl freePage mm.pmm } live { page | page ∈ held ∧ page ∉ pages } := by
  induction pages generalizing mm held with
  | nil => exact owned.held_mono (by simp)
  | cons page rest ih =>
      obtain ⟨fresh, distinctRest⟩ := List.nodup_cons.mp distinct
      obtain ⟨member, isPage⟩ := mine page List.mem_cons_self
      have first := (owned.release page member isPage).2
      refine (ih first distinctRest fun other listed => ?_).held_mono fun other left => ?_
      · obtain ⟨old, otherPage⟩ := mine other (List.mem_cons_of_mem page listed)
        exact ⟨⟨old, fun same => fresh (same ▸ listed)⟩, otherPage⟩
      · obtain ⟨old, away⟩ := left
        rw [List.mem_cons, not_or] at away
        exact ⟨⟨old, away.1⟩, away.2⟩

end Owned

end Shizuku.Vmm
