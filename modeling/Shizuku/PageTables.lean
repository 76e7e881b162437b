import Shizuku.Vmm

/-!
The page tables of the live address spaces as a forest in physical memory. A
name is a root table and a path of at most four indices through its low half:
three levels of tables and one of frames. `Owned` says that no page has two
names, that no named page is free, and that the pages in `held` (frames in
flight, kernel stacks, the shared kernel tables) are neither named nor free.
-/

namespace Shizuku.Vmm

open ByteMemory WordMemory PointerForest Pmm

/-! Page table entries bit by bit. -/

theorem addrMask_testBit (bit : Nat) :
    pteAddrMask.testBit bit = (decide (12 ≤ bit) && decide (bit < 52)) := by
  have shape : pteAddrMask = (2 ^ 40 - 1) <<< 12 := by decide
  rw [shape, Nat.testBit_shiftLeft, Nat.testBit_two_pow_sub_one]
  by_cases low : 12 ≤ bit
  · have width : bit - 12 < 40 ↔ bit < 52 := by omega
    simp [low, width]
  · simp [low]

theorem masked_of_page (pa : Nat) (aligned : pa % pageSize = 0) (small : pa < 2 ^ 52) :
    pa &&& pteAddrMask = pa := by
  apply Nat.eq_of_testBit_eq
  intro bit
  rw [Nat.testBit_and, addrMask_testBit]
  by_cases low : 12 ≤ bit
  · by_cases high : bit < 52
    · simp [low, high]
    · have beyond : pa.testBit bit = false :=
        Nat.testBit_lt_two_pow (Nat.lt_of_lt_of_le small (Nat.pow_le_pow_right (by omega) (by omega)))
      simp [beyond]
  · have clear : (pa % 2 ^ 12).testBit bit = false := by
      rw [show pa % 2 ^ 12 = 0 from aligned, Nat.zero_testBit]
    rw [Nat.testBit_mod_two_pow] at clear
    have below : bit < 12 := by omega
    simp only [below, decide_true, Bool.true_and] at clear
    simp [clear]

theorem masked_aligned (value : Nat) : (value &&& pteAddrMask) % pageSize = 0 := by
  apply Nat.eq_of_testBit_eq
  intro bit
  rw [show pageSize = 2 ^ 12 from rfl, Nat.testBit_mod_two_pow, Nat.testBit_and,
    addrMask_testBit, Nat.zero_testBit]
  by_cases low : bit < 12
  · have short : ¬ 12 ≤ bit := by omega
    simp [short]
  · simp [low]

theorem masked_lt (value : Nat) : value &&& pteAddrMask < 2 ^ 52 :=
  Nat.lt_of_le_of_lt Nat.and_le_right (by decide)

theorem present_iff (value : Nat) : value &&& pteP = 0 ↔ value.testBit 0 = false := by
  rw [show pteP = 1 from rfl, Nat.and_one_is_mod, Nat.testBit_zero]
  simp

def entryChild (e : Nat) : Option Nat := if e &&& pteP = 0 then none else some (e &&& pteAddrMask)

@[simp] theorem entryChild_zero : entryChild 0 = none := rfl

theorem entryChild_some {e page : Nat} (points : entryChild e = some page) :
    ¬ e &&& pteP = 0 ∧ e &&& pteAddrMask = page := by
  unfold entryChild at points
  split at points
  · cases points
  · rename_i present
    exact ⟨present, Option.some.inj points⟩

def leafValue (pa flags : Nat) : Nat := (pa &&& pteAddrMask) ||| flags ||| pteP

/-- The address and the flags are as the callers give them: a page below 2^52
and no address bits among the flags. -/
structure LeafArgs (pa flags : Nat) : Prop where
  aligned : pa % pageSize = 0
  small : pa < 2 ^ 52
  plain : flags &&& pteAddrMask = 0
  word : flags < 2 ^ 64

theorem leaf_bits {pa flags : Nat} (args : LeafArgs pa flags) :
    entryChild (leafValue pa flags) = some pa ∧ leafValue pa flags < 2 ^ 64 := by
  unfold leafValue
  have one : Nat.testBit pteP 0 = true := rfl
  have present : ¬ ((pa &&& pteAddrMask) ||| flags ||| pteP) &&& pteP = 0 := by
    rw [present_iff, Nat.testBit_or, one]
    simp
  have address : ((pa &&& pteAddrMask) ||| flags ||| pteP) &&& pteAddrMask = pa := by
    rw [Nat.and_or_distrib_right, Nat.and_or_distrib_right, args.plain, Nat.and_assoc, Nat.and_self,
      masked_of_page pa args.aligned args.small, show pteP &&& pteAddrMask = 0 by decide, Nat.or_zero,
      Nat.or_zero]
  refine ⟨by simp [entryChild, present, address], ?_⟩
  have narrow : pa &&& pteAddrMask < 2 ^ 64 := Nat.lt_trans (masked_lt pa) (by decide)
  exact Nat.or_lt_two_pow (Nat.or_lt_two_pow narrow args.word) (by decide)

structure Page (pa : Nat) : Prop where
  aligned : pa % pageSize = 0
  nonzero : pa ≠ 0
  inside : pa / pageSize < bitmapPages

theorem Page.lt {pa : Nat} (page : Page pa) : pa < 2 ^ 29 := by
  have inside := page.inside
  have pages : bitmapPages * pageSize = 2 ^ 29 := by decide
  exact pages ▸ (Nat.div_lt_iff_lt_mul (by decide)).mp inside

theorem Page.number {pa : Nat} (page : Page pa) : pa / pageSize * pageSize = pa :=
  Nat.div_mul_cancel (Nat.dvd_of_mod_eq_zero page.aligned)

theorem table_bits (np : Nat) (page : Page np) :
    entryChild (np ||| pteP ||| pteRw ||| pteUs) = some np ∧
      (np ||| pteP ||| pteRw ||| pteUs) &&& ptePs = 0 ∧
      np ||| pteP ||| pteRw ||| pteUs < 2 ^ 64 := by
  have small : np < 2 ^ 52 := Nat.lt_trans page.lt (by decide)
  have order : np ||| pteP ||| pteRw ||| pteUs =
      leafValue np (pteRw ||| pteUs) := by
    rw [leafValue, masked_of_page np page.aligned small, Nat.or_assoc, Nat.or_assoc, Nat.or_assoc]
    rfl
  have args : LeafArgs np (pteRw ||| pteUs) := ⟨page.aligned, small, by decide, by decide⟩
  obtain ⟨child, word⟩ := leaf_bits args
  refine ⟨by rw [order, child], ?_, by rw [order]; exact word⟩
  have noPs : (np &&& pteAddrMask) &&& ptePs = 0 := by
    rw [Nat.and_assoc, show pteAddrMask &&& ptePs = 0 by decide, Nat.and_zero]
  rw [order, leafValue, Nat.and_or_distrib_right, Nat.and_or_distrib_right, noPs]
  decide

/-! Indices of a virtual address. -/

theorem tableIndex_mod (va lvl : Nat) : tableIndex va lvl = va / 2 ^ (12 + (lvl - 1) * 9) % 512 := by
  rw [tableIndex, Nat.shiftRight_eq_div_pow]
  exact Nat.and_two_pow_sub_one_eq_mod _ 9

theorem tableIndex_lt (va lvl : Nat) : tableIndex va lvl < 512 := by
  rw [tableIndex_mod]
  exact Nat.mod_lt _ (by decide)

theorem tableIndex_low (va : Nat) (low : va < 2 ^ 47) : tableIndex va 4 < 256 := by
  rw [tableIndex_mod]
  omega

def indices (va : Nat) : Nat → List Nat
  | 0 => []
  | count + 1 => tableIndex va (1 + count + 1) :: indices va count

def front (va : Nat) : List Nat := indices va 3

def full (va : Nat) : List Nat := front va ++ [tableIndex va 1]

@[simp] theorem indices_length (va count : Nat) : (indices va count).length = count := by
  induction count with
  | zero => rfl
  | succ count ih => simp [indices, ih]

@[simp] theorem front_length (va : Nat) : (front va).length = 3 := indices_length va 3

theorem front_bounded (va index : Nat) (member : index ∈ front va) : index < 512 := by
  simp only [front, indices, List.mem_cons, List.not_mem_nil, or_false] at member
  rcases member with rfl | rfl | rfl <;> exact tableIndex_lt _ _

/-- Below 2^48 the four indices are the page number. -/
theorem full_inj (va other : Nat) (low : va < 2 ^ 48) (otherLow : other < 2 ^ 48) :
    full va = full other ↔ va / pageSize = other / pageSize := by
  simp only [full, front, indices, List.cons_append, List.nil_append, List.cons.injEq, and_true,
    tableIndex_mod, pageSize]
  omega

/-! Names and what they lead to. -/

/-- Paths through the low half: at most four indices, the first below 256. -/
structure Low (path : List Nat) : Prop where
  short : path.length ≤ 4
  bounded : ∀ index, index ∈ path → index < 512
  half : ∀ index, path.head? = some index → index < 256

theorem low_nil : Low [] := ⟨by simp, by simp, by simp⟩

theorem Low.front_of {first second : List Nat} (low : Low (first ++ second)) : Low first where
  short := by
    have short := low.short
    rw [List.length_append] at short
    omega
  bounded index member := low.bounded index (List.mem_append_left second member)
  half index head := low.half index (by rw [List.head?_append, head]; rfl)

theorem low_single (index : Nat) (half : index < 256) : Low [index] where
  short := by simp
  bounded other member := by
    rw [List.mem_singleton.mp member]
    omega
  half other head := by
    rw [List.head?_cons, Option.some.injEq] at head
    exact head ▸ half

theorem Low.snoc {path : List Nat} (low : Low path) (nonempty : path ≠ []) (short : path.length < 4)
    (index : Nat) (bound : index < 512) : Low (path ++ [index]) where
  short := by
    rw [List.length_append, List.length_singleton]
    omega
  bounded other member := by
    rcases List.mem_append.mp member with old | new
    · exact low.bounded other old
    · exact List.mem_singleton.mp new ▸ bound
  half other head := by
    rw [List.head?_append_of_ne_nil path nonempty] at head
    exact low.half other head

theorem low_full (va : Nat) (lowHalf : tableIndex va 4 < 256) : Low (full va) where
  short := by simp [full]
  bounded index member := by
    rcases List.mem_append.mp member with table | leaf
    · exact front_bounded va index table
    · exact List.mem_singleton.mp leaf ▸ tableIndex_lt va 1
  half index head := by
    simp only [full, front, indices, List.cons_append, List.head?_cons, Option.some.injEq] at head
    exact head ▸ lowHalf

def Named (live : Set Nat) (root : Nat) (path : List Nat) : Prop := root ∈ live ∧ Low path

theorem named_closed (live : Set Nat) : FrontClosed (Named live) :=
  fun _ _ _ named => ⟨named.1, named.2.front_of⟩

def child (mem : Nat → UInt8) (tbl idx : Nat) : Option Nat := entryChild (entry mem tbl idx)

def view (mem : Nat → UInt8) : Nat → List Nat → Option Nat := follow (child mem)

@[simp] theorem view_nil (mem : Nat → UInt8) (root : Nat) : view mem root [] = some root := rfl

theorem view_snoc (mem : Nat → UInt8) (root : Nat) (path : List Nat) (index : Nat) :
    view mem root (path ++ [index]) = (view mem root path).bind fun tbl => child mem tbl index :=
  follow_snoc _ _ _ _

theorem view_none_append (mem : Nat → UInt8) (root : Nat) (path rest : List Nat)
    (absent : view mem root path = none) : view mem root (path ++ rest) = none := by
  unfold view at absent ⊢
  rw [follow_append, absent]
  rfl

theorem view_cons_none (mem : Nat → UInt8) (tbl index : Nat) (rest : List Nat)
    (absent : child mem tbl index = none) : view mem tbl (index :: rest) = none := by
  unfold view
  rw [follow_cons, absent]
  rfl

def SamePage (before after : Nat → UInt8) (page : Nat) : Prop :=
  ∀ place, page ≤ place → place < page + pageSize → after place = before place

theorem SamePage.entry {before after : Nat → UInt8} {tbl : Nat} (same : SamePage before after tbl)
    (idx : Nat) (inside : idx < 512) : entry after tbl idx = entry before tbl idx := by
  apply read64_congr
  intro place low high
  have size : pageSize = 4096 := rfl
  exact same place (by omega) (by omega)

theorem SamePage.trans {first second third : Nat → UInt8} {page : Nat}
    (left : SamePage first second page) (right : SamePage second third page) :
    SamePage first third page :=
  fun place low high => (right place low high).trans (left place low high)

theorem pages_apart (page other : Nat) (aligned : page % pageSize = 0)
    (otherAligned : other % pageSize = 0) (different : page ≠ other) :
    page + pageSize ≤ other ∨ other + pageSize ≤ page := by
  simp only [pageSize] at *
  omega

theorem samePage_of_outside (before after : Nat → UInt8) (page other : Nat)
    (aligned : page % pageSize = 0) (otherAligned : other % pageSize = 0) (different : other ≠ page)
    (outside : ∀ place, place < page ∨ page + pageSize ≤ place → after place = before place) :
    SamePage before after other := by
  intro place low high
  have apart := pages_apart page other aligned otherAligned (Ne.symm different)
  exact outside place (by omega)

@[simp] theorem Mm.setEntry_mem (mm : Mm) (tbl idx value : Nat) :
    (mm.setEntry tbl idx value).mem = write64 mm.mem (tbl + 8 * idx) value := rfl

@[simp] theorem Mm.setEntry_pmm (mm : Mm) (tbl idx value : Nat) :
    (mm.setEntry tbl idx value).pmm = mm.pmm := rfl

theorem setEntry_outside (mem : Nat → UInt8) (tbl idx value : Nat) (inside : idx < 512) :
    ∀ place, place < tbl ∨ tbl + pageSize ≤ place →
      write64 mem (tbl + 8 * idx) value place = mem place := by
  intro place outside
  have size : pageSize = 4096 := rfl
  exact write64_outside mem _ value place (by omega)

theorem entry_setEntry (mem : Nat → UInt8) (tbl idx value : Nat) (word : value < 2 ^ 64) :
    entry (write64 mem (tbl + 8 * idx) value) tbl idx = value := by
  rw [entry, read64_write64, Nat.mod_eq_of_lt word]

theorem entry_setEntry_other (mem : Nat → UInt8) (tbl idx other value : Nat)
    (different : other ≠ idx) :
    entry (write64 mem (tbl + 8 * idx) value) tbl other = entry mem tbl other :=
  read64_write64_apart mem _ _ value (by omega)

theorem view_same (before after : Nat → UInt8) (live : Set Nat)
    (same : ∀ root path tbl, Named live root path → path.length < 4 →
      view before root path = some tbl → SamePage before after tbl)
    (root : Nat) (path : List Nat) (named : Named live root path) :
    view after root path = view before root path := by
  apply follow_congr
  intro first index second tbl split reached
  have part : Named live root (first ++ index :: second) := split ▸ named
  have short := part.2.short
  rw [List.length_append, List.length_cons] at short
  have table := same root first tbl (named_closed live root first _ part) (by omega) reached
  have bound := part.2.bounded index (by simp)
  rw [child, child, table.entry index bound]

/-! The ownership invariant. -/

def FreeAt (pmm : Pmm.State) (pa : Nat) : Prop := Free pmm (pa / pageSize)

def PlainTables (mem : Nat → UInt8) (live : Set Nat) : Prop :=
  ∀ root path tbl index, Named live root (path ++ [index]) → path.length < 3 →
    view mem root path = some tbl → child mem tbl index ≠ none → entry mem tbl index &&& ptePs = 0

structure Owned (mm : Mm) (live held : Set Nat) : Prop where
  zero : ¬ Free mm.pmm 0
  unshared : Unshared (Named live) (view mm.mem)
  valid : ∀ root path page, Named live root path → view mm.mem root path = some page →
    Page page ∧ ¬ FreeAt mm.pmm page
  plain : PlainTables mm.mem live
  apart : ∀ page, page ∈ held → page % pageSize = 0 ∧ ¬ FreeAt mm.pmm page ∧
    ∀ root path, Named live root path → view mm.mem root path ≠ some page

section Steps
variable {mm : Mm} {live held : Set Nat}

theorem Owned.root_page (owned : Owned mm live held) (root : Nat) (alive : root ∈ live) :
    Page root ∧ ¬ FreeAt mm.pmm root :=
  owned.valid root [] root ⟨alive, low_nil⟩ rfl

theorem Owned.held_mono (owned : Owned mm live held) {fewer : Set Nat}
    (subset : ∀ page, page ∈ fewer → page ∈ held) : Owned mm live fewer :=
  { owned with apart := fun page member => owned.apart page (subset page member) }

theorem free_page (owned : Owned mm live held) (page : Nat) (free : Free mm.pmm page) :
    Page (page * pageSize) where
  aligned := Nat.mul_mod_left page pageSize
  nonzero zero := by
    have first : page = 0 := by simpa [pageSize] using zero
    exact owned.zero (first ▸ free)
  inside := by
    rw [Nat.mul_div_cancel page (by decide)]
    exact free.1

theorem Owned.take (owned : Owned mm live held) (page : Nat) (free : Free mm.pmm page) :
    Owned { mm with pmm := take mm.pmm page } live (insert (page * pageSize) held) where
  zero still := owned.zero ((free_take _ _ _).mp still).1
  unshared := owned.unshared
  valid root path other named reached :=
    have old := owned.valid root path other named reached
    ⟨old.1, fun still => old.2 ((free_take _ _ _).mp still).1⟩
  plain := owned.plain
  apart other member := by
    rcases member with same | old
    · subst other
      refine ⟨Nat.mul_mod_left page pageSize, fun still => ?_, fun root path named reached => ?_⟩
      · rw [FreeAt, Nat.mul_div_cancel page (by decide)] at still
        exact ((free_take _ _ _).mp still).2 rfl
      · apply (owned.valid root path _ named reached).2
        rw [FreeAt, Nat.mul_div_cancel page (by decide)]
        exact free
    · obtain ⟨aligned, used, unnamed⟩ := owned.apart other old
      exact ⟨aligned, fun still => used ((free_take _ _ _).mp still).1, unnamed⟩

theorem Owned.entry_congr (owned : Owned mm live held) (mem : Nat → UInt8)
    (same : ∀ root path tbl index, Named live root (path ++ [index]) →
      view mm.mem root path = some tbl → entry mem tbl index = entry mm.mem tbl index) :
    Owned { mm with mem := mem } live held := by
  have views : ∀ root path, Named live root path → view mem root path = view mm.mem root path := by
    intro root path named
    apply follow_congr
    intro first index second tbl split reached
    have part : Named live root (first ++ [index]) :=
      named_closed live root (first ++ [index]) second (by simpa using split ▸ named)
    rw [child, child, same root first tbl index part reached]
  constructor
  · exact owned.zero
  · intro root path other way page first second left right
    rw [views root path first] at left
    rw [views other way second] at right
    exact owned.unshared root path other way page first second left right
  · intro root path page named reached
    rw [views root path named] at reached
    exact owned.valid root path page named reached
  · intro root path tbl index named short reached linked
    rw [views root path (named_closed live root path [index] named)] at reached
    have kept := same root path tbl index named reached
    rw [child, kept] at linked
    rw [show entry mem tbl index = entry mm.mem tbl index from kept]
    exact owned.plain root path tbl index named short reached linked
  · intro page member
    obtain ⟨aligned, used, unnamed⟩ := owned.apart page member
    refine ⟨aligned, used, fun root path named reached => ?_⟩
    rw [views root path named] at reached
    exact unnamed root path named reached

theorem Owned.mem_congr (owned : Owned mm live held) (mem : Nat → UInt8)
    (same : ∀ root path tbl, Named live root path → path.length < 4 →
      view mm.mem root path = some tbl → SamePage mm.mem mem tbl) :
    Owned { mm with mem := mem } live held := by
  refine owned.entry_congr mem fun root path tbl index named reached => ?_
  have short := named.2.short
  rw [List.length_append, List.length_singleton] at short
  exact (same root path tbl (named_closed live root path [index] named) (by omega) reached).entry index
    (named.2.bounded index (by simp))

section Store
variable (owned : Owned mm live held) {root tbl slot value : Nat} {path : List Nat}
  (named : Named live root (path ++ [slot])) (here : view mm.mem root path = some tbl)
include owned named here

theorem entry_elsewhere (start : Nat) (way : List Nat) (node index : Nat)
    (member : Named live start (way ++ [index])) (reached : view mm.mem start way = some node)
    (different : ¬ (node = tbl ∧ index = slot)) :
    entry (write64 mm.mem (tbl + 8 * slot) value) node index = entry mm.mem node index := by
  by_cases same : node = tbl
  · subst node
    exact entry_setEntry_other mm.mem tbl slot index value fun equal => different ⟨rfl, equal⟩
  · have part := named_closed live start way [index] member
    have table := (owned.valid root path tbl (named_closed live root path [slot] named) here).1
    have page := (owned.valid start way node part reached).1
    have bound := named.2.bounded slot (by simp)
    exact (samePage_of_outside mm.mem _ tbl node table.aligned page.aligned same
      (setEntry_outside mm.mem tbl slot value bound)).entry index (member.2.bounded index (by simp))

theorem view_store (word : value < 2 ^ 64)
    (beyond : ∀ rest, rest ≠ [] → Named live root (path ++ slot :: rest) →
      ((entryChild value).bind fun next =>
        view (write64 mm.mem (tbl + 8 * slot) value) next rest) =
        view mm.mem root (path ++ slot :: rest))
    (start : Nat) (way : List Nat) (member : Named live start way) :
    view (write64 mm.mem (tbl + 8 * slot) value) start way =
      if start = root ∧ way = path ++ [slot] then entryChild value else view mm.mem start way := by
  have stored : child (write64 mm.mem (tbl + 8 * slot) value) tbl slot = entryChild value := by
    rw [child, entry_setEntry mm.mem tbl slot value word]
  have result := follow_store (child mm.mem) (child (write64 mm.mem (tbl + 8 * slot) value))
    (named_closed live) owned.unshared root tbl path slot
    (named_closed live root path [slot] named) here
    (fun start way node index belongs reached different => by
      rw [child, child, entry_elsewhere owned named here start way node index belongs reached
        different])
    (fun rest longer belongs => by rw [stored]; exact beyond rest longer belongs)
    start way member
  rw [stored] at result
  exact result

omit owned named here in
theorem beyond_leaf (deep : path.length = 3) (rest : List Nat) (longer : rest ≠ [])
    (belongs : Named live root (path ++ slot :: rest)) : False := by
  have short := belongs.2.short
  have positive := List.length_pos_iff.mpr longer
  rw [List.length_append, List.length_cons] at short
  omega

/-- Storing an empty entry, or a link to a held page, keeps the invariant. What
the slot led to before joins the held pages. -/
theorem Owned.store (word : value < 2 ^ 64)
    (views : ∀ start way, Named live start way →
      view (write64 mm.mem (tbl + 8 * slot) value) start way =
        if start = root ∧ way = path ++ [slot] then entryChild value else view mm.mem start way)
    (fresh : ∀ page, entryChild value = some page → page ∈ held ∧ Page page)
    (normal : path.length < 3 → value &&& ptePs = 0)
    (blank : ∀ page, entryChild value = some page → path.length < 3 → ∀ index, index < 512 →
      child mm.mem page index = none) :
    Owned (mm.setEntry tbl slot value) live
      { page | (page ∈ held ∨ view mm.mem root (path ++ [slot]) = some page) ∧
        entryChild value ≠ some page } := by
  have tableNamed := named_closed live root path [slot] named
  constructor
  · exact owned.zero
  · -- The view is the old one with one name reassigned to a page without a name.
    have assigned := owned.unshared.assign root (path ++ [slot]) (entryChild value)
      (fun page value other way belongs _ reached =>
        (owned.apart page (fresh page value).1).2.2 other way belongs reached)
    intro start way other trail page first second left right
    rw [Mm.setEntry_mem, views _ _ first] at left
    rw [Mm.setEntry_mem, views _ _ second] at right
    exact assigned start way other trail page first second left right
  · intro start way page member reached
    rw [Mm.setEntry_mem, views _ _ member] at reached
    split at reached
    · obtain ⟨taken, isPage⟩ := fresh page reached
      exact ⟨isPage, (owned.apart page taken).2.1⟩
    · exact owned.valid start way page member reached
  · intro start way node index member short reached linked
    have part := named_closed live start way [index] member
    have bound := member.2.bounded index (by simp)
    rw [Mm.setEntry_mem] at reached linked ⊢
    rw [views _ _ part] at reached
    split at reached
    · -- The page just linked is blank, and the store went to another page.
      rename_i same
      have taken := (fresh node reached).1
      have other : node ≠ tbl := by
        rintro rfl
        exact (owned.apart node taken).2.2 root path tableNamed here
      have kept := (samePage_of_outside mm.mem _ tbl node
        (owned.valid root path tbl tableNamed here).1.aligned (owned.apart node taken).1 other
        (setEntry_outside mm.mem tbl slot value (named.2.bounded slot (by simp)))).entry index bound
      have shorter : path.length < 3 := by
        rw [same.2, List.length_append] at short
        omega
      have empty := blank node reached shorter index bound
      rw [child, kept] at linked
      exact absurd empty linked
    · by_cases same : node = tbl ∧ index = slot
      · obtain ⟨rfl, rfl⟩ := same
        obtain ⟨_, samePath⟩ := owned.unshared _ _ _ _ _ part tableNamed reached here
        rw [entry_setEntry mm.mem node index value word]
        exact normal (samePath ▸ short)
      · have kept : entry (write64 mm.mem (tbl + 8 * slot) value) node index =
            entry mm.mem node index :=
          entry_elsewhere owned named here start way node index member reached same
        rw [child, kept] at linked
        rw [kept]
        exact owned.plain start way node index member short reached linked
  · rintro page ⟨source, different⟩
    have facts : page % pageSize = 0 ∧ ¬ FreeAt mm.pmm page ∧
        ∀ start way, Named live start way → ¬ (start = root ∧ way = path ++ [slot]) →
          view mm.mem start way ≠ some page := by
      rcases source with old | was
      · obtain ⟨aligned, used, unnamed⟩ := owned.apart page old
        exact ⟨aligned, used, fun start way member _ => unnamed start way member⟩
      · obtain ⟨isPage, used⟩ := owned.valid _ _ _ named was
        refine ⟨isPage.aligned, used, fun start way member other reached => other ?_⟩
        exact owned.unshared _ _ _ _ _ member named reached was
    refine ⟨facts.1, facts.2.1, fun start way member reached => ?_⟩
    rw [Mm.setEntry_mem, views _ _ member] at reached
    split at reached
    · exact different reached
    · rename_i other
      exact facts.2.2 start way member other reached

end Store

end Steps

end Shizuku.Vmm
