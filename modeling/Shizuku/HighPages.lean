import Shizuku.PageContents

/-!
Mappings in the high half. The loader maps a page wherever the image asks for it,
also below the high entries of the root. `Guarded` says why this never touches the
low halves that `Owned` speaks about: the tables below the high entries are held
pages, each serving one level, and a walk that starts at a high entry stays in them
or adds pages that were free.
-/

namespace Shizuku.Vmm

open ByteMemory WordMemory PointerForest Pmm

/-- Entry `idx` of `tbl` leads to a table of level `lvl` of the high half: it is in a
table one level up, or in the upper half of a root. -/
def Leads (live : Set Nat) (level : Nat → Nat) (tbl idx lvl : Nat) : Prop :=
  level tbl = lvl + 1 ∨ tbl ∈ live ∧ 256 ≤ idx ∧ lvl = 3

/-- `level` tells the tables of the high halves, 3 down to 1, and is 0 elsewhere. -/
structure Guarded (mm : Mm) (live held : Set Nat) (level : Nat → Nat) : Prop where
  owned : Owned mm live held
  tables : ∀ tbl, level tbl ≠ 0 → tbl ∈ held
  links : ∀ tbl idx next lvl, Leads live level tbl idx (lvl + 1) → idx < 512 →
    plainChild mm.mem tbl idx = some next → level next = lvl + 1

section Stores
variable {mm : Mm} {live held : Set Nat}

theorem Owned.high_store (owned : Owned mm live held) {root slot : Nat} (alive : root ∈ live)
    (above : 256 ≤ slot) (bound : slot < 512) (value : Nat) :
    Owned (mm.setEntry root slot value) live held := by
  refine owned.entry_congr _ fun start path tbl index named reached => ?_
  have inside := named.2.bounded index (by simp)
  have part := named_closed live start path [index] named
  by_cases here : tbl = root
  · -- Only the root itself has this page, and names leave it through the lower half.
    subst tbl
    obtain ⟨rfl, rfl⟩ := owned.unshared _ _ _ _ _ part ⟨alive, low_nil⟩ reached rfl
    have half := named.2.half index rfl
    exact entry_setEntry_other mm.mem start slot index value (by omega)
  · exact (samePage_of_outside mm.mem _ root tbl (owned.root_page root alive).1.aligned
      (owned.valid start path tbl part reached).1.aligned here
      (setEntry_outside mm.mem root slot value bound)).entry index inside

theorem Owned.root_unheld (owned : Owned mm live held) {root : Nat} (alive : root ∈ live) :
    root ∉ held := fun member => (owned.apart root member).2.2 root [] ⟨alive, low_nil⟩ rfl

end Stores

section Guarded
variable {mm walked after : Mm} {live held : Set Nat} {level : Nat → Nat} {space : Nat}

theorem Guarded.leads_table (guarded : Guarded mm live held level) {tbl idx lvl : Nat}
    (leads : Leads live level tbl idx lvl) : tbl % pageSize = 0 ∧ ¬ FreeAt mm.pmm tbl ∧
      (tbl ∈ held ∨ tbl ∈ live) := by
  rcases leads with table | ⟨alive, _, _⟩
  · have member := guarded.tables tbl (by omega)
    obtain ⟨aligned, used, _⟩ := guarded.owned.apart tbl member
    exact ⟨aligned, used, .inl member⟩
  · obtain ⟨page, used⟩ := guarded.owned.root_page tbl alive
    exact ⟨page.aligned, used, .inr alive⟩

theorem Guarded.leads_inj (guarded : Guarded mm live held level) {tbl idx first second : Nat}
    (left : Leads live level tbl idx first) (right : Leads live level tbl idx second) :
    first = second := by
  rcases left with table | ⟨alive, _, top⟩ <;> rcases right with other | ⟨otherAlive, _, otherTop⟩
  · omega
  · exact absurd (guarded.tables tbl (by omega)) (guarded.owned.root_unheld otherAlive)
  · exact absurd (guarded.tables tbl (by omega)) (guarded.owned.root_unheld alive)
  · omega

theorem Guarded.scribble (guarded : Guarded mm live held level) {page : Nat} (mem : Nat → UInt8)
    (member : page ∈ held) (bottom : level page ≤ 1)
    (outside : ∀ place, place < page ∨ page + pageSize ≤ place → mem place = mm.mem place) :
    Guarded { mm with mem := mem } live held level := by
  obtain ⟨aligned, _, unnamed⟩ := guarded.owned.apart page member
  obtain ⟨owned, _, _, others⟩ := guarded.owned.scribble page mem aligned
    (fun root path named _ => unnamed root path named) outside
  refine ⟨owned, guarded.tables, fun tbl idx next lvl leads bound linked => ?_⟩
  have different : tbl ≠ page := by
    rintro rfl
    rcases leads with table | ⟨alive, _, _⟩
    · omega
    · exact guarded.owned.root_unheld alive member
  rw [(others tbl (guarded.leads_table leads).1 different).plainChild idx bound] at linked
  exact guarded.links tbl idx next lvl leads bound linked

theorem Guarded.take (guarded : Guarded mm live held level) {pa : Nat} (page : Page pa)
    (free : FreeAt mm.pmm pa) :
    level pa = 0 ∧ Guarded { mm with pmm := Pmm.take mm.pmm (pa / pageSize) } live (insert pa held) level := by
  have taken := guarded.owned.take (pa / pageSize) free
  rw [page.number] at taken
  refine ⟨?_, taken, fun tbl table => .inr (guarded.tables tbl table), guarded.links⟩
  by_contra table
  exact (guarded.owned.apart pa (guarded.tables pa table)).2.1 free

theorem Guarded.made (guarded : Guarded mm live held level) {number tbl idx lvl : Nat}
    (isFree : Free mm.pmm number) (leads : Leads live level tbl idx (lvl + 1)) (bound : idx < 512) :
    let np := number * pageSize
    let linked := (zeroTable { mm with pmm := Pmm.take mm.pmm number } np).setEntry tbl idx
      (np ||| pteP ||| pteRw ||| pteUs)
    Guarded linked live (insert np held) (Function.update level np (lvl + 1)) ∧
      entry linked.mem tbl idx &&& pteAddrMask = np := by
  intro np linked
  have page : Page np := free_page guarded.owned number isFree
  have same : np / pageSize = number := Nat.mul_div_cancel number (by decide)
  have free : FreeAt mm.pmm np := by rwa [FreeAt, same]
  obtain ⟨noTable, taken⟩ := guarded.take page free
  rw [same] at taken
  have zeroed := taken.scribble (fill mm.mem np pageSize 0) (Set.mem_insert _ _) (by omega)
    fun place outside => fill_outside mm.mem np pageSize 0 place outside
  obtain ⟨aligned, used, kind⟩ := guarded.leads_table leads
  have different : ∀ table, ¬ FreeAt mm.pmm table → table ≠ np := by
    rintro table inUse rfl
    exact inUse free
  obtain ⟨value, blank, _, kept⟩ := linked_entries mm.mem page aligned (different tbl used).symm bound
  have old : ∀ table, table ≠ np → Function.update level np (lvl + 1) table = level table :=
    fun table apart => Function.update_of_ne apart _ _
  have owned : Owned linked live (insert np held) := by
    rcases kind with member | alive
    · have outside := setEntry_outside (fill mm.mem np pageSize 0) tbl idx
        (np ||| pteP ||| pteRw ||| pteUs) bound
      obtain ⟨_, _, unnamed⟩ := zeroed.owned.apart tbl (.inr member)
      exact (zeroed.owned.scribble tbl _ aligned (fun root path named _ => unnamed root path named)
        outside).1
    · rcases leads with table | ⟨_, above, _⟩
      · exact absurd (guarded.tables tbl (by omega)) (guarded.owned.root_unheld alive)
      · exact zeroed.owned.high_store alive above bound _
  refine ⟨⟨owned, fun table isTable => ?_, fun table slot next other otherLeads inside linkedTo => ?_⟩, ?_⟩
  · by_cases same : table = np
    · exact .inl same
    · rw [old table same] at isTable
      exact .inr (guarded.tables table isTable)
  · have apart : table ≠ np := by
      rintro rfl
      cases linkedTo.symm.trans (plainChild_zero (blank slot inside))
    have before : Leads live level table slot (other + 1) := by
      rw [Leads, old table apart] at otherLeads
      exact otherLeads
    by_cases stored : table = tbl ∧ slot = idx
    · obtain ⟨rfl, rfl⟩ := stored
      have new : np = next := Option.some.inj ((plainChild_linked page value).symm.trans linkedTo)
      rw [← new, Function.update_self, guarded.leads_inj before leads]
    · have same := plainChild_congr (kept table slot (guarded.leads_table before).1 apart inside stored)
      have below := guarded.links table slot next other before inside (same.symm.trans linkedTo)
      rw [old next (different next (guarded.owned.apart next (guarded.tables next (by omega))).2.1)]
      exact below
  · rw [show entry linked.mem tbl idx = np ||| pteP ||| pteRw ||| pteUs from value]
    exact (entryChild_some (table_bits np page).1).2

/-- What a walk through the high half leaves: more held pages, and the old levels. -/
structure Reached (before after : Mm) (live held : Set Nat) (level : Nat → Nat) (more : Set Nat)
    (later : Nat → Nat) : Prop where
  guarded : Guarded after live more later
  held : held ⊆ more
  kept : ∀ page, ¬ FreeAt before.pmm page → later page = level page
  free : ∀ page, FreeAt after.pmm page → FreeAt before.pmm page

theorem Reached.refl (guarded : Guarded mm live held level) : Reached mm mm live held level held level :=
  ⟨guarded, subset_rfl, fun _ _ => rfl, fun _ still => still⟩

theorem Reached.after_made {np number lvl : Nat} {linked : Mm} {more : Set Nat} {later : Nat → Nat}
    (free : FreeAt mm.pmm np) (taken : linked.pmm = Pmm.take mm.pmm number)
    (reached : Reached linked walked live (insert np held) (Function.update level np lvl) more later) :
    Reached mm walked live held level more later := by
  have shrinks : ∀ other, FreeAt linked.pmm other → FreeAt mm.pmm other := by
    rw [taken]
    exact fun other still => ((free_take _ _ _).mp still).1
  refine ⟨reached.guarded, (Set.subset_insert np held).trans reached.held, fun other used => ?_,
    fun other still => shrinks other (reached.free other still)⟩
  rw [reached.kept other fun still => used (shrinks other still)]
  refine Function.update_of_ne ?_ _ _
  rintro rfl
  exact used free

theorem high_front_of {path : List Nat} {index : Nat} (high : High (path ++ [index])) : High path where
  short := by
    have short := high.short
    rw [List.length_append] at short
    omega
  bounded other member := high.bounded other (by simp [member])
  half other head := high.half other (by
    rw [List.head?_append_of_ne_nil path (by rintro rfl; cases head)]
    exact head)

theorem high_of_append {path rest : List Nat} (high : High (path ++ rest)) : High path := by
  induction rest using List.reverseRecOn with
  | nil => rwa [List.append_nil] at high
  | append_singleton front last ih =>
      rw [← List.append_assoc] at high
      exact ih (high_front_of high)

theorem Guarded.follow_level (guarded : Guarded mm live held level) {root : Nat} (alive : root ∈ live)
    (path : List Nat) (nonempty : path ≠ []) (high : High path) {tbl : Nat}
    (reached : follow (plainChild mm.mem) root path = some tbl) : level tbl + path.length = 4 := by
  induction path using List.reverseRecOn generalizing tbl with
  | nil => exact absurd rfl nonempty
  | append_singleton first index ih =>
      have bound := high.bounded index (by simp)
      have short := high.short
      rw [follow_snoc] at reached
      obtain ⟨middle, before, linked⟩ := Option.bind_eq_some_iff.mp reached
      rw [List.length_append, List.length_singleton] at short ⊢
      by_cases empty : first = []
      · subst first
        obtain rfl : root = middle := Option.some.inj before
        have below := guarded.links root index tbl 2 (.inr ⟨alive, high.half index rfl, rfl⟩) bound linked
        rw [List.length_nil]
        omega
      · have here := ih empty (high_front_of high) before
        have below := guarded.links middle index tbl (2 - first.length) (.inl (by omega)) bound linked
        omega

/-- The entries that a path through the high half reads. -/
theorem Guarded.leads_along (guarded : Guarded mm live held level) {root : Nat} (alive : root ∈ live)
    {path : List Nat} {index : Nat} (high : High (path ++ [index])) {tbl : Nat}
    (reached : follow (plainChild mm.mem) root path = some tbl) :
    Leads live level tbl index (2 - path.length + 1) := by
  have short := high.short
  rw [List.length_append, List.length_singleton] at short
  by_cases empty : path = []
  · subst path
    obtain rfl : root = tbl := Option.some.inj reached
    exact .inr ⟨alive, high.half index rfl, rfl⟩
  · have here := guarded.follow_level alive path empty (high_front_of high) reached
    exact .inl (by omega)

/-- The table of frames at which a walk ends. -/
def slotOf (mm : Mm) (root va : Nat) : Option Nat := follow (plainChild mm.mem) root (front va)

theorem translate_slot (mm : Mm) (root va : Nat) :
    translate mm root va = match slotOf mm root va with
      | none => 0
      | some pt => if entry mm.mem pt (tableIndex va 1) &&& pteP = 0 then 0
          else (entry mm.mem pt (tableIndex va 1) &&& pteAddrMask) + va % pageSize := by
  have offset : va &&& (pageSize - 1) = va % pageSize := Nat.and_two_pow_sub_one_eq_mod va 12
  rw [translate, walk_reads, offset]
  rfl

theorem Guarded.slot_level (guarded : Guarded mm live held level) {root va pt : Nat} (alive : root ∈ live)
    (above : 256 ≤ tableIndex va 4) (found : slotOf mm root va = some pt) : level pt = 1 := by
  have sum := guarded.follow_level alive (front va) (by simp [front, indices]) (high_front va above) found
  rw [front_length] at sum
  omega

/-- Tables may have come from free pages; every high address means what it meant. -/
structure Quiet (live : Set Nat) (before after : Mm) : Prop where
  slots : ∀ root va, root ∈ live → 256 ≤ tableIndex va 4 →
    slotOf after root va = slotOf before root va ∨
      slotOf before root va = none ∧ ∀ pt, slotOf after root va = some pt → FreeAt before.pmm pt
  means : ∀ root va, root ∈ live → 256 ≤ tableIndex va 4 →
    translate after root va = translate before root va

theorem Quiet.trans (left : Quiet live mm walked) (right : Quiet live walked after)
    (fewer : ∀ page, FreeAt walked.pmm page → FreeAt mm.pmm page) : Quiet live mm after where
  slots root va alive above := by
    rcases left.slots root va alive above with same | ⟨none_, new⟩ <;>
      rcases right.slots root va alive above with still | ⟨gone, added⟩
    · exact .inl (still.trans same)
    · exact .inr ⟨same.symm.trans gone, fun pt found => fewer pt (added pt found)⟩
    · exact .inr ⟨none_, fun pt found => new pt (still.symm.trans found)⟩
    · exact .inr ⟨none_, fun pt found => fewer pt (added pt found)⟩
  means root va alive above := (right.means root va alive above).trans (left.means root va alive above)

def SameHalf (live : Set Nat) (level : Nat → Nat) (before after : Nat → UInt8) : Prop :=
  ∀ tbl idx lvl, Leads live level tbl idx lvl → idx < 512 → entry after tbl idx = entry before tbl idx

theorem Guarded.slot_congr (guarded : Guarded mm live held level)
    (same : ∀ tbl idx lvl, Leads live level tbl idx (lvl + 1) → idx < 512 →
      entry after.mem tbl idx = entry mm.mem tbl idx) {root va : Nat} (alive : root ∈ live)
    (above : 256 ≤ tableIndex va 4) : slotOf after root va = slotOf mm root va := by
  apply follow_congr
  intro first index second tbl split reached
  have high := high_front va above
  rw [split, show first ++ index :: second = (first ++ [index]) ++ second by simp] at high
  have part := high_of_append high
  have inside := part.bounded index (by simp)
  exact plainChild_congr (same tbl index _ (guarded.leads_along alive part reached) inside)

theorem Guarded.quiet (guarded : Guarded mm live held level)
    (same : SameHalf live level mm.mem after.mem) : Quiet live mm after := by
  have slots : ∀ root va, root ∈ live → 256 ≤ tableIndex va 4 →
      slotOf after root va = slotOf mm root va := fun root va alive above =>
    guarded.slot_congr (fun tbl idx lvl leads => same tbl idx _ leads) alive above
  refine ⟨fun root va alive above => .inl (slots root va alive above), fun root va alive above => ?_⟩
  rw [translate_slot, translate_slot, slots root va alive above]
  cases found : slotOf mm root va with
  | none => rfl
  | some pt =>
      have bottom := guarded.slot_level alive above found
      dsimp only
      rw [same pt (tableIndex va 1) 0 (.inl bottom) (tableIndex_lt va 1)]

theorem Guarded.building_same (guarded : Guarded mm live held level) {lost : Set Nat}
    (building : Building live held space mm after lost) : SameHalf live level mm.mem after.mem := by
  intro tbl idx lvl leads bound
  have outside : tbl ≠ space → ¬ InTree mm.mem space tbl := by
    rintro different ⟨path, low, reached⟩
    rcases leads with table | ⟨alive, _, _⟩
    · exact (guarded.owned.apart tbl (guarded.tables tbl (by omega))).2.2 space path
        ⟨building.alive, low⟩ reached
    · exact different (guarded.owned.unshared _ _ _ _ _ ⟨alive, low_nil⟩ ⟨building.alive, low⟩ rfl
        reached).1
  by_cases here : tbl = space
  · subst tbl
    rcases leads with table | ⟨_, above, _⟩
    · exact absurd (guarded.tables space (by omega)) (guarded.owned.root_unheld building.alive)
    · exact building.high idx above bound
  · obtain ⟨aligned, used, _⟩ := guarded.leads_table leads
    exact (building.keeps tbl aligned used (outside here)).entry idx bound

theorem Guarded.building (guarded : Guarded mm live held level) {lost : Set Nat}
    (building : Building live held space mm after lost) : Guarded after live held level := by
  refine ⟨building.owned.held_mono fun page member => .inl member, guarded.tables,
    fun tbl idx next lvl leads bound linked => guarded.links tbl idx next lvl leads bound ?_⟩
  rw [← plainChild_congr (guarded.building_same building tbl idx _ leads bound)]
  exact linked

theorem Guarded.scribble_same (guarded : Guarded mm live held level) {page : Nat} {mem : Nat → UInt8}
    (member : page ∈ held) (data : level page = 0)
    (outside : ∀ place, place < page ∨ page + pageSize ≤ place → mem place = mm.mem place) :
    SameHalf live level mm.mem mem := by
  intro tbl idx lvl leads bound
  refine (samePage_of_outside mm.mem mem page tbl (guarded.owned.apart page member).1
    (guarded.leads_table leads).1 ?_ outside).entry idx bound
  rintro rfl
  rcases leads with table | ⟨alive, _, _⟩
  · omega
  · exact guarded.owned.root_unheld alive member

/-- Entry `idx` of `tbl` now leads to the blank table `np`; no other entry that a
walk through the high half reads has changed. -/
structure Linked (live : Set Nat) (level : Nat → Nat) (before after : Nat → UInt8)
    (tbl idx np : Nat) : Prop where
  absent : entry before tbl idx &&& pteP = 0
  link : plainChild after tbl idx = some np
  blank : ∀ index, index < 512 → entry after np index = 0
  others : ∀ table index lvl, Leads live level table index lvl → index < 512 →
    ¬ (table = tbl ∧ index = idx) → entry after table index = entry before table index

theorem Guarded.made_linked (guarded : Guarded mm live held level) {number tbl idx lvl : Nat}
    (isFree : Free mm.pmm number) (leads : Leads live level tbl idx (lvl + 1)) (bound : idx < 512)
    (absent : entry mm.mem tbl idx &&& pteP = 0) :
    let np := number * pageSize
    let linked := (zeroTable { mm with pmm := Pmm.take mm.pmm number } np).setEntry tbl idx
      (np ||| pteP ||| pteRw ||| pteUs)
    FreeAt mm.pmm np ∧ Linked live level mm.mem linked.mem tbl idx np := by
  intro np linked
  have page : Page np := free_page guarded.owned number isFree
  have free : FreeAt mm.pmm np := by rwa [FreeAt, Nat.mul_div_cancel number (by decide)]
  have apart : ∀ table, ¬ FreeAt mm.pmm table → table ≠ np := by
    rintro table used rfl
    exact used free
  obtain ⟨aligned, used, _⟩ := guarded.leads_table leads
  obtain ⟨value, blank, _, kept⟩ := linked_entries mm.mem page aligned (apart tbl used).symm bound
  refine ⟨free, absent, plainChild_linked page value, blank, fun table index _ reads inside other => ?_⟩
  obtain ⟨tableAligned, tableUsed, _⟩ := guarded.leads_table reads
  exact kept table index tableAligned (apart table tableUsed) inside other

section Linked
variable {np tbl idx lvl : Nat} (guarded : Guarded mm live held level)
  (linked : Linked live level mm.mem after.mem tbl idx np)
include guarded linked

/-- Through the new link a path ends at the new table, which is blank. -/
theorem Linked.follow {root : Nat} (alive : root ∈ live) (path : List Nat) (high : High path) :
    PointerForest.follow (plainChild after.mem) root path = PointerForest.follow (plainChild mm.mem) root path ∨
      PointerForest.follow (plainChild mm.mem) root path = none ∧
        ∀ last, PointerForest.follow (plainChild after.mem) root path = some last → last = np := by
  induction path using List.reverseRecOn with
  | nil => exact .inl (by rw [PointerForest.follow_nil, PointerForest.follow_nil])
  | append_singleton first index ih =>
      have inside := high.bounded index (by simp)
      rw [follow_snoc, follow_snoc]
      rcases ih (high_front_of high) with same | ⟨none_, new⟩
      · rw [same]
        cases reached : PointerForest.follow (plainChild mm.mem) root first with
        | none => simp only [Option.bind_none, true_or]
        | some table =>
            rw [Option.bind_some, Option.bind_some]
            by_cases here : table = tbl ∧ index = idx
            · obtain ⟨rfl, rfl⟩ := here
              refine .inr ⟨by simp [plainChild, linked.absent], fun last found => ?_⟩
              exact Option.some.inj (found.symm.trans linked.link)
            · exact .inl (plainChild_congr (linked.others table index _
                (guarded.leads_along alive high reached) inside here))
      · rw [none_]
        cases reached : PointerForest.follow (plainChild after.mem) root first with
        | none => simp only [Option.bind_none, true_or]
        | some table =>
            rw [Option.bind_some, new table reached]
            exact .inl (plainChild_zero (linked.blank index inside))

theorem Linked.quiet (free : FreeAt mm.pmm np) (leads : Leads live level tbl idx (lvl + 1)) :
    Quiet live mm after := by
  refine ⟨fun root va alive above => ?_, fun root va alive above => ?_⟩
  · refine (linked.follow guarded alive (front va) (high_front va above)).imp id ?_
    rintro ⟨none_, new⟩
    exact ⟨none_, fun pt found => new pt found ▸ free⟩
  · rw [translate_slot, translate_slot]
    rcases linked.follow guarded alive (front va) (high_front va above) with same | ⟨none_, new⟩
    · rw [show slotOf after root va = slotOf mm root va from same]
      cases found : slotOf mm root va with
      | none => rfl
      | some pt =>
          have bottom := guarded.slot_level alive above found
          dsimp only
          rw [linked.others pt (tableIndex va 1) 0 (.inl bottom) (tableIndex_lt va 1) ?_]
          -- The new link is in a table above the frames, or in a root.
          rintro ⟨rfl, _⟩
          rcases leads with table | ⟨isRoot, _, _⟩
          · omega
          · exact guarded.owned.root_unheld isRoot (guarded.tables pt (by omega))
    · rw [show slotOf mm root va = none from none_]
      cases found : slotOf after root va with
      | none => rfl
      | some pt =>
          dsimp only
          rw [new pt found, linked.blank _ (tableIndex_lt va 1)]
          rfl

end Linked

/-- What a walk does that starts at an entry of `tbl`, `count` levels above the frames:
that entry is linked if a page is left; nothing else at its level or above changes. -/
structure Deepened (live : Set Nat) (level : Nat → Nat) (va count tbl : Nat) (before after : Mm) : Prop where
  others : ∀ table idx lvl, Leads live level table idx lvl → idx < 512 → count ≤ lvl →
    ¬ (table = tbl ∧ idx = tableIndex va (1 + count)) →
    entry after.mem table idx = entry before.mem table idx
  kept : entry before.mem tbl (tableIndex va (1 + count)) &&& pteP ≠ 0 ∨ freeCount before.pmm = 0 →
    entry after.mem tbl (tableIndex va (1 + count)) = entry before.mem tbl (tableIndex va (1 + count))
  linked : 0 < count → 0 < freeCount before.pmm →
    entry after.mem tbl (tableIndex va (1 + count)) &&& pteP ≠ 0

theorem Deepened.refl {va count tbl : Nat} (settled : 0 < count → 0 < freeCount mm.pmm →
    entry mm.mem tbl (tableIndex va (1 + count)) &&& pteP ≠ 0) :
    Deepened live level va count tbl mm mm :=
  ⟨fun _ _ _ _ _ _ _ => rfl, fun _ => rfl, settled⟩

/-- What a walk through the high half leaves that starts at an entry of `tbl`. -/
structure HighWalk (live held : Set Nat) (level : Nat → Nat) (va count tbl : Nat) (mm walked : Mm)
    (result : Option Nat) (more : Set Nat) (later : Nat → Nat) : Prop where
  reached : Reached mm walked live held level more later
  quiet : Quiet live mm walked
  deepened : Deepened live level va count tbl mm walked
  last : ∀ pt, result = some pt →
    later pt = 1 ∧ follow (plainChild walked.mem) tbl (indices va count) = some pt

section HighWalks
variable (guarded : Guarded mm live held level) {va count tbl : Nat} {result : Option Nat} {more : Set Nat}
  {later : Nat → Nat}
include guarded

theorem HighWalk.ended (settled : 0 < freeCount mm.pmm →
    entry mm.mem tbl (tableIndex va (1 + count)) &&& pteP ≠ 0) :
    HighWalk live held level va count tbl mm mm none held level :=
  ⟨.refl guarded, guarded.quiet fun _ _ _ _ _ => rfl, .refl fun _ => settled,
    fun pt impossible => by cases impossible⟩

variable (leads : Leads live level tbl (tableIndex va (1 + count + 1)) (count + 1))
include leads

theorem HighWalk.made {number : Nat} {linked : Mm} (isFree : Free mm.pmm number)
    (absent : entry mm.mem tbl (tableIndex va (1 + count + 1)) &&& pteP = 0)
    (shape : (zeroTable { mm with pmm := Pmm.take mm.pmm number } (number * pageSize)).setEntry tbl
      (tableIndex va (1 + count + 1)) (number * pageSize ||| pteP ||| pteRw ||| pteUs) = linked)
    (walk : HighWalk live (insert (number * pageSize) held)
      (Function.update level (number * pageSize) (count + 1)) va count (number * pageSize) linked walked result
      more later) :
    HighWalk live held level va (count + 1) tbl mm walked result more later := by
  have bound := tableIndex_lt va (1 + count + 1)
  have pmm : linked.pmm = Pmm.take mm.pmm number := by
    rw [← shape]
    rfl
  obtain ⟨free, link⟩ := guarded.made_linked isFree leads bound absent
  rw [shape] at link
  have apart : ∀ table idx lvl, Leads live level table idx lvl → table ≠ number * pageSize := by
    rintro table idx lvl reads rfl
    exact (guarded.leads_table reads).2.1 free
  -- Everything above the new table is read as before.
  have above : ∀ table idx lvl, Leads live level table idx lvl → idx < 512 → count ≤ lvl →
      entry walked.mem table idx = entry linked.mem table idx := fun table idx lvl reads inside high =>
    walk.deepened.others table idx lvl (by rwa [Leads, Function.update_of_ne (apart table idx lvl reads)])
      inside high fun same => apart table idx lvl reads same.1
  have here := above tbl _ _ leads bound (by omega)
  refine ⟨walk.reached.after_made free pmm, (Linked.quiet guarded link free leads).trans walk.quiet
    fun other still => ((free_take _ _ _).mp (pmm ▸ still)).1, ⟨fun table idx lvl reads inside high other => ?_,
      fun settled => ?_, fun _ _ => ?_⟩, fun pt found => ⟨(walk.last pt found).1, ?_⟩⟩
  · rw [above table idx lvl reads inside (by omega)]
    exact link.others table idx lvl reads inside other
  · rcases settled with linkedBefore | empty
    · exact absurd absent linkedBefore
    · have counted := freeCount_take mm.pmm number isFree
      omega
  · rw [show entry walked.mem tbl (tableIndex va (1 + (count + 1))) = _ from here]
    exact plainChild_present link.link
  · rw [indices, follow_cons, plainChild_congr here, link.link]
    exact (walk.last pt found).2

theorem HighWalk.down {next : Nat} (link : plainChild mm.mem tbl (tableIndex va (1 + count + 1)) = some next)
    (walk : HighWalk live held level va count next mm walked result more later) :
    HighWalk live held level va (count + 1) tbl mm walked result more later := by
  have bound := tableIndex_lt va (1 + count + 1)
  have lower := guarded.links tbl _ _ count leads bound link
  have above : ∀ table idx lvl, Leads live level table idx lvl → idx < 512 → count + 1 ≤ lvl →
      entry walked.mem table idx = entry mm.mem table idx := by
    refine fun table idx lvl reads inside high => walk.deepened.others table idx lvl reads inside (by omega) ?_
    rintro ⟨rfl, _⟩
    rcases reads with table | ⟨alive, _, _⟩
    · omega
    · exact guarded.owned.root_unheld alive (guarded.tables _ (by omega))
  have here := above tbl _ _ leads bound le_rfl
  refine ⟨walk.reached, walk.quiet, ⟨fun table idx lvl reads inside high _ =>
    above table idx lvl reads inside high, fun _ => here, fun _ _ => ?_⟩,
    fun pt found => ⟨(walk.last pt found).1, ?_⟩⟩
  · rw [show entry walked.mem tbl (tableIndex va (1 + (count + 1))) = _ from here]
    exact plainChild_present link
  · rw [indices, follow_cons, plainChild_congr here, link]
    exact (walk.last pt found).2

end HighWalks

theorem walkFrom_guarded (va count : Nat) {tbl : Nat} {result : Option Nat}
    (guarded : Guarded mm live held level) (leads : Leads live level tbl (tableIndex va (1 + count)) count)
    (walks : walkFrom va true 1 count mm tbl = (result, walked)) :
    ∃ more later, HighWalk live held level va count tbl mm walked result more later := by
  induction count generalizing mm tbl held level with
  | zero =>
      simp only [walkFrom, Prod.mk.injEq] at walks
      obtain ⟨rfl, rfl⟩ := walks
      refine ⟨held, level, .refl guarded, guarded.quiet fun _ _ _ _ _ => rfl,
        .refl fun impossible => absurd rfl impossible.ne, fun pt found => ?_⟩
      obtain rfl : tbl = pt := Option.some.inj found
      rcases leads with table | ⟨_, _, impossible⟩
      · exact ⟨table, PointerForest.follow_nil _ _⟩
      · cases impossible
  | succ count ih =>
      have leads : Leads live level tbl (tableIndex va (1 + count + 1)) (count + 1) := leads
      have bound := tableIndex_lt va (1 + count + 1)
      cases walkFrom_descent guarded.owned walks with
      | full absent noPage => exact ⟨held, level, .ended guarded fun positive => by omega⟩
      | made number linked _ _ absent isFree shape rest =>
          obtain ⟨made, address⟩ := guarded.made isFree leads bound
          rw [shape] at made address
          rw [address] at rest
          obtain ⟨more, later, walk⟩ := ih made (.inl (Function.update_self _ (count + 1) level)) rest
          exact ⟨more, later, .made guarded leads isFree absent shape walk⟩
      | large present big => exact ⟨held, level, .ended guarded fun _ => present⟩
      | down _ _ present small rest =>
          have link : plainChild mm.mem tbl (tableIndex va (1 + count + 1)) =
              some (entry mm.mem tbl (tableIndex va (1 + count + 1)) &&& pteAddrMask) := by
            simp [plainChild, present, small]
          obtain ⟨more, later, walk⟩ := ih guarded (.inl (guarded.links tbl _ _ count leads bound link)) rest
          exact ⟨more, later, .down guarded leads link walk⟩

theorem map_guarded {va pa flags : Nat} {ok : Bool} (guarded : Guarded mm live held level)
    (alive : space ∈ live) (above : 256 ≤ tableIndex va 4)
    (done : map mm space va pa flags = (ok, after)) :
    ∃ walked more later, Reached mm walked live held level more later ∧ Quiet live mm walked ∧
      Deepened live level va 3 space mm walked ∧
      (ok = false ∧ after = walked ∨ ok = true ∧ ∃ pt, later pt = 1 ∧ slotOf walked space va = some pt ∧
        after = walked.setEntry pt (tableIndex va 1) (leafValue pa flags)) := by
  rw [map] at done
  cases walks : walk mm space va true 1 with
  | mk result walked =>
      obtain ⟨more, later, reached, quiet, deepened, last⟩ :=
        walkFrom_guarded va 3 guarded (.inr ⟨alive, above, rfl⟩) walks
      rw [walks] at done
      refine ⟨walked, more, later, reached, quiet, deepened, ?_⟩
      cases result with
      | none =>
          simp only [Prod.mk.injEq] at done
          exact .inl ⟨done.1.symm, done.2.symm⟩
      | some pt =>
          simp only [Prod.mk.injEq] at done
          obtain ⟨leaf, found⟩ := last pt rfl
          exact .inr ⟨done.1.symm, pt, leaf, found, done.2.symm⟩

section Leaf
variable {pt idx : Nat} (value : Nat) (guarded : Guarded mm live held level) (leaf : level pt = 1)
  (bound : idx < 512)
include guarded leaf bound

theorem Guarded.stored : Guarded (mm.setEntry pt idx value) live held level :=
  guarded.scribble (write64 mm.mem (pt + 8 * idx) value) (guarded.tables pt (by omega)) (by omega)
    (setEntry_outside mm.mem pt idx value bound)

theorem Guarded.stored_entry (tbl slot lvl : Nat) (leads : Leads live level tbl slot lvl)
    (inside : slot < 512) (other : ¬ (tbl = pt ∧ slot = idx)) :
    entry (mm.setEntry pt idx value).mem tbl slot = entry mm.mem tbl slot := by
  by_cases same : tbl = pt
  · subst tbl
    exact entry_setEntry_other mm.mem pt idx slot value fun equal => other ⟨rfl, equal⟩
  · exact (samePage_of_outside mm.mem _ pt tbl (guarded.owned.apart pt (guarded.tables pt (by omega))).1
      (guarded.leads_table leads).1 same (setEntry_outside mm.mem pt idx value bound)).entry slot inside

theorem Guarded.stored_slot {root va : Nat} (alive : root ∈ live) (above : 256 ≤ tableIndex va 4) :
    slotOf (mm.setEntry pt idx value) root va = slotOf mm root va := by
  refine guarded.slot_congr (fun tbl slot lvl leads inside =>
    guarded.stored_entry value leaf bound tbl slot _ leads inside ?_) alive above
  rintro ⟨rfl, _⟩
  rcases leads with table | ⟨isRoot, _, _⟩
  · omega
  · exact guarded.owned.root_unheld isRoot (guarded.tables tbl (by omega))

theorem Guarded.stored_root {root : Nat} (alive : root ∈ live) (slot : Nat) (above : 256 ≤ slot)
    (inside : slot < 512) :
    entry (mm.setEntry pt idx value).mem root slot = entry mm.mem root slot := by
  refine guarded.stored_entry value leaf bound root slot 3 (.inr ⟨alive, above, rfl⟩) inside ?_
  rintro ⟨rfl, _⟩
  exact guarded.owned.root_unheld alive (guarded.tables root (by omega))

end Leaf

theorem Guarded.stored_translate {pt idx pa flags : Nat} (guarded : Guarded mm live held level)
    (leaf : level pt = 1) (bound : idx < 512) (args : LeafArgs pa flags) {root va : Nat}
    (alive : root ∈ live) (above : 256 ≤ tableIndex va 4) :
    translate (mm.setEntry pt idx (leafValue pa flags)) root va =
      if slotOf mm root va = some pt ∧ tableIndex va 1 = idx then pa + va % pageSize
      else translate mm root va := by
  have slot := guarded.stored_slot (leafValue pa flags) leaf bound alive above
  split
  · rename_i here
    obtain ⟨found, rfl⟩ := here
    exact translate_entry args (slot.trans found) (entry_setEntry mm.mem pt _ _ (leaf_bits args).2)
  · rename_i elsewhere
    rw [translate_slot, translate_slot, slot]
    cases found : slotOf mm root va with
    | none => rfl
    | some table =>
        have bottom := guarded.slot_level alive above found
        dsimp only
        rw [guarded.stored_entry _ leaf bound table (tableIndex va 1) 0 (.inl bottom)
          (tableIndex_lt va 1) ?_]
        rintro ⟨rfl, same⟩
        exact elsewhere ⟨found, same⟩

end Guarded

section NewSpace
variable {mm fresh : Mm} {space : Nat}

/-- Had page 0 been free, it would have been taken for the root, and the call would have failed. -/
theorem newSpace_zero (made : newSpace mm = (space, fresh)) (nonzero : space ≠ 0) : ¬ Free mm.pmm 0 := by
  intro zero
  rcases allocPage_cases mm.pmm with ⟨_, full⟩ | ⟨page, _, lowest, taken⟩
  · exact full 0 zero
  · obtain rfl : page = 0 := by
      by_contra other
      exact lowest 0 (by omega) zero
    rw [newSpace, taken] at made
    simp only [Nat.zero_mul, ↓reduceIte, Prod.mk.injEq] at made
    exact nonzero made.1.symm

theorem newSpace_owned (tables : KernelTables mm) (made : newSpace mm = (space, fresh))
    (nonzero : space ≠ 0) :
    Owned fresh {space} { tbl | highLevel mm.mem mm.kernelSpace tbl ≠ 0 } := by
  obtain ⟨page, free, taken, low, _, _⟩ := newSpace_made tables made nonzero
  have only : ∀ root path other, Named {space} root path → view fresh.mem root path = some other →
      root = space ∧ path = [] ∧ other = space := by
    rintro root path other ⟨rfl, pathLow⟩ reached
    by_cases empty : path = []
    · subst path
      exact ⟨rfl, rfl, (Option.some.inj reached).symm⟩
    · rw [Process.fresh_tree fresh.mem root low path pathLow empty] at reached
      cases reached
  have used : ¬ FreeAt fresh.pmm space := by
    rw [taken]
    exact fun still => ((free_take _ _ _).mp still).2 rfl
  refine ⟨?_, ?_, ?_, ?_, ?_⟩
  · rw [taken]
    exact fun still => newSpace_zero made nonzero ((free_take _ _ _).mp still).1
  · intro root path other way node first second left right
    obtain ⟨rfl, rfl, _⟩ := only root path node first left
    obtain ⟨rfl, rfl, _⟩ := only other way node second right
    exact ⟨rfl, rfl⟩
  · intro root path other named reached
    obtain ⟨_, _, rfl⟩ := only root path other named reached
    exact ⟨page, used⟩
  · intro root path tbl index named _ reached linked
    obtain ⟨rfl, rfl, rfl⟩ := only root path tbl (named_closed _ root path [index] named) reached
    rw [child, low index (named.2.half index rfl)] at linked
    exact absurd rfl linked
  · intro tbl table
    refine ⟨(highLevel_table table).aligned, fun still => ?_, fun root path named reached => ?_⟩
    · rw [taken] at still
      exact tables.tables tbl (highLevel_table table) ((free_take _ _ _).mp still).1
    · obtain ⟨_, _, rfl⟩ := only root path tbl named reached
      exact tables.tables tbl (highLevel_table table) free

theorem newSpace_guarded {live : Set Nat} (tables : KernelTables mm) (made : newSpace mm = (space, fresh))
    (nonzero : space ≠ 0) (owned : Owned fresh live { tbl | highLevel mm.mem mm.kernelSpace tbl ≠ 0 })
    (shared : ∀ root, root ∈ live → ∀ idx, 256 ≤ idx → idx < 512 →
      entry fresh.mem root idx = entry mm.mem mm.kernelSpace idx) :
    Guarded fresh live { tbl | highLevel mm.mem mm.kernelSpace tbl ≠ 0 }
      (highLevel mm.mem mm.kernelSpace) := by
  obtain ⟨page, free, _, _, _, outside⟩ := newSpace_made tables made nonzero
  refine ⟨owned, fun tbl table => table, fun tbl idx next lvl leads bound linked => ?_⟩
  rcases leads with table | ⟨alive, above, top⟩
  · have isTable : highLevel mm.mem mm.kernelSpace tbl ≠ 0 := by omega
    obtain ⟨path, nonempty, high, reached⟩ := highLevel_table isTable
    rw [highLevel_path tables.levels path nonempty high reached] at table
    have apart : tbl ≠ space := by
      rintro rfl
      exact tables.tables tbl (highLevel_table isTable) free
    have bytes := samePage_of_outside mm.mem fresh.mem space tbl page.aligned
      (highLevel_table isTable).aligned apart outside
    rw [bytes.plainChild idx bound] at linked
    rw [highLevel_path tables.levels (path ++ [idx]) (by simp) (high.snoc nonempty (by omega) idx bound)
      (by rw [follow_snoc, reached, Option.bind_some, linked]), List.length_append, List.length_singleton]
    omega
  · rw [plainChild, shared tbl alive idx above bound, ← plainChild] at linked
    have reached : follow (plainChild mm.mem) mm.kernelSpace [idx] = some next := by
      rw [PointerForest.follow_cons, linked, Option.bind_some, PointerForest.follow_nil]
    rw [highLevel_path tables.levels [idx] (by simp) (high_single idx above bound) reached]
    simp only [List.length_singleton]
    omega

theorem newSpace_alone (tables : KernelTables mm) (made : newSpace mm = (space, fresh))
    (nonzero : space ≠ 0) : Guarded fresh {space} { tbl | highLevel mm.mem mm.kernelSpace tbl ≠ 0 }
      (highLevel mm.mem mm.kernelSpace) := by
  refine newSpace_guarded tables made nonzero (newSpace_owned tables made nonzero) ?_
  rintro root rfl
  exact (newSpace_made tables made nonzero).2.2.2.2.1

end NewSpace

end Shizuku.Vmm
