import Shizuku.AddressSpaces
import Shizuku.Spawning
import Shizuku.TableLevels

/-!
Pages and what they hold. Loading a segment page, mapping a stack page and growing
the heap take a frame, map it and fill it. `Filled` is all that one such round does
to the live spaces; over a loop each page keeps what it was filled with, since a
later round writes to page tables and to frames that were free.
-/

namespace Shizuku.Vmm

open ByteMemory WordMemory PointerForest Pmm

def Holds (mm : Mm) (space va flags : Nat) (content : Nat → UInt8) : Prop :=
  ∃ frame, pageMap mm space (va / pageSize) = some (frame, flags ||| pteP) ∧
    ∀ offset, offset < pageSize → mm.mem (frame + offset) = content offset

structure Filled (live held : Set Nat) (space va flags : Nat) (content : Nat → UInt8)
    (mm after : Mm) : Prop where
  owned : Owned after live held
  here : Holds after space va flags content
  others : ∀ other number, other ∈ live → number < 2 ^ 35 →
    ¬ (other = space ∧ number = va / pageSize) → pageMap after other number = pageMap mm other number
  bytes : ∀ page, page % pageSize = 0 → ¬ FreeAt mm.pmm page → NoTable mm live page →
    SamePage mm.mem after.mem page

section Pages
variable {mm after : Mm} {live held : Set Nat} {space : Nat}

theorem pageMap_congr {mem : Nat → UInt8}
    (same : ∀ root path tbl, Named live root path → path.length < 4 →
      view mm.mem root path = some tbl → SamePage mm.mem mem tbl)
    (root number : Nat) (alive : root ∈ live) (small : number < 2 ^ 35) :
    pageMap { mm with mem := mem } root number = pageMap mm root number := by
  have half := tableIndex_low _ (page_below number small)
  have named : Named live root (front (number * pageSize)) := ⟨alive, low_front _ half⟩
  have walk := view_same mm.mem mem live same root _ named
  simp only [pageMap, leafEntry, walk]
  cases reached : view mm.mem root (front (number * pageSize)) with
  | none => simp only [Option.bind_none, Option.map_none]
  | some tbl =>
      have table := same root _ tbl named (by simp) reached
      simp only [Option.bind_some, table.entry _ (tableIndex_lt _ 1)]

theorem Owned.scribble (owned : Owned mm live held) (page : Nat) (mem : Nat → UInt8)
    (aligned : page % pageSize = 0) (noTable : NoTable mm live page)
    (outside : ∀ place, place < page ∨ page + pageSize ≤ place → mem place = mm.mem place) :
    Owned { mm with mem := mem } live held ∧
      (∀ root number, root ∈ live → number < 2 ^ 35 →
        pageMap { mm with mem := mem } root number = pageMap mm root number) ∧
      (∀ root path, Named live root path → view mem root path = view mm.mem root path) ∧
      ∀ other, other % pageSize = 0 → other ≠ page → SamePage mm.mem mem other := by
  have apart : ∀ other, other % pageSize = 0 → other ≠ page → SamePage mm.mem mem other :=
    fun other otherAligned different =>
      samePage_of_outside mm.mem mem page other aligned otherAligned different outside
  have tables : ∀ root path tbl, Named live root path → path.length < 4 →
      view mm.mem root path = some tbl → SamePage mm.mem mem tbl := by
    intro root path tbl named short reached
    refine apart tbl (owned.valid root path tbl named reached).1.aligned ?_
    rintro rfl
    exact noTable root path named short reached
  exact ⟨owned.mem_congr mem tables, pageMap_congr tables, view_same mm.mem mem live tables, apart⟩

theorem pageMap_view {number frame flags : Nat} (mapped : pageMap mm space number = some (frame, flags)) :
    view mm.mem space (full (number * pageSize)) = some frame := by
  rw [← leafEntry_view]
  rw [pageMap] at mapped
  obtain ⟨e, found, pair⟩ := Option.map_eq_some_iff.mp mapped
  rw [found, Option.map_some, (Prod.mk.inj pair).1]

theorem Owned.frame_inj (owned : Owned mm live held) (alive : space ∈ live)
    {number other frame flags otherFlags : Nat} (small : number < 2 ^ 35) (alsoSmall : other < 2 ^ 35)
    (mapped : pageMap mm space number = some (frame, flags))
    (again : pageMap mm space other = some (frame, otherFlags)) : number = other := by
  have below := page_below number small
  have alsoBelow := page_below other alsoSmall
  have same := (owned.unshared _ _ _ _ _ ⟨alive, low_full _ (tableIndex_low _ below)⟩
    ⟨alive, low_full _ (tableIndex_low _ alsoBelow)⟩ (pageMap_view mapped) (pageMap_view again)).2
  rwa [full_inj _ _ (by omega) (by omega), Nat.mul_div_cancel _ (by decide),
    Nat.mul_div_cancel _ (by decide)] at same

theorem Owned.frame (owned : Owned mm live held) (alive : space ∈ live) {number frame flags : Nat}
    (small : number < 2 ^ 35) (mapped : pageMap mm space number = some (frame, flags)) :
    Page frame ∧ ¬ FreeAt mm.pmm frame ∧ NoTable mm live frame := by
  have half := tableIndex_low _ (page_below number small)
  have named : Named live space (full (number * pageSize)) := ⟨alive, low_full _ half⟩
  have reached := pageMap_view mapped
  obtain ⟨page, used⟩ := owned.valid _ _ _ named reached
  refine ⟨page, used, fun root path other short same => ?_⟩
  have equal := (owned.unshared _ _ _ _ _ other named same reached).2
  rw [equal] at short
  simp [full] at short

theorem Owned.map_held {va pa flags : Nat} (owned : Owned mm live (insert pa held))
    (alive : space ∈ live) (page : Page pa) (fresh : pa ∉ held) (below : va < 2 ^ 47)
    (plain : flags &&& pteAddrMask = 0) (word : flags < 2 ^ 64)
    (done : map mm space va pa flags = (true, after)) :
    Owned after live held ∧
      Updated live mm after space (va / pageSize) (some (pa, flags ||| pteP)) ∧
      ∀ other, other % pageSize = 0 → ¬ FreeAt mm.pmm other → NoTable mm live other →
        SamePage mm.mem after.mem other := by
  have args := page.leafArgs plain word
  obtain ⟨ok, mapped, step, _, updated, _⟩ := map_updates owned alive va pa flags below args
  rw [done, Prod.mk.injEq] at step
  obtain ⟨rfl, rfl⟩ := step
  have left := (map_owned owned alive below (Set.mem_insert _ _) page args done).2
  refine ⟨left.held_mono fun other member => ?_, updated rfl, fun other aligned used noTable => ?_⟩
  · exact ⟨.inl (.inr member), fun same => fresh (same ▸ member)⟩
  · exact map_spares owned alive (tableIndex_low va below) done aligned used noTable

theorem Owned.map_failed {va pa flags : Nat} (owned : Owned mm live held) (alive : space ∈ live)
    (below : va < 2 ^ 47) (mine : pa ∈ held) (page : Page pa) (args : LeafArgs pa flags)
    (done : map mm space va pa flags = (false, after)) :
    Owned after live held ∧ ∀ other number, other ∈ live → number < 2 ^ 35 →
      pageMap after other number = pageMap mm other number := by
  obtain ⟨ok, mapped, step, _, _, unchanged⟩ := map_updates owned alive va pa flags below args
  rw [done, Prod.mk.injEq] at step
  obtain ⟨rfl, rfl⟩ := step
  exact ⟨(map_owned owned alive below mine page args done).2, unchanged rfl⟩

/-- A round: a free page gets the bytes `first`, is mapped, and gets the bytes `last`. -/
theorem Owned.round {va pa flags : Nat} {mapped : Mm} (owned : Owned mm live held) (alive : space ∈ live)
    (page : Page pa) (free : FreeAt mm.pmm pa) (below : va < 2 ^ 47)
    (plain : flags &&& pteAddrMask = 0) (word : flags < 2 ^ 64) (first : Nat → UInt8)
    (written : ∀ place, place < pa ∨ pa + pageSize ≤ place → first place = mm.mem place)
    (done : map { mm with pmm := Pmm.take mm.pmm (pa / pageSize), mem := first } space va pa flags =
      (true, mapped)) :
    Owned mapped live held ∧ pageMap mapped space (va / pageSize) = some (pa, flags ||| pteP) ∧
      (∀ offset, offset < pageSize → mapped.mem (pa + offset) = first (pa + offset)) ∧
      ∀ last content : Nat → UInt8,
        (∀ place, place < pa ∨ pa + pageSize ≤ place → last place = mapped.mem place) →
        (∀ offset, offset < pageSize → last (pa + offset) = content offset) →
        Filled live held space va flags content mm { mapped with mem := last } := by
  have taken := owned.take (pa / pageSize) free
  rw [page.number] at taken
  have flying := taken.apart pa (Set.mem_insert _ _)
  have fresh : pa ∉ held := fun member => (owned.apart pa member).2.1 free
  obtain ⟨ready, sameMaps, sameViews, others⟩ := taken.scribble pa first page.aligned
    (fun root path named _ => flying.2.2 root path named) written
  obtain ⟨left, updated, kept⟩ := ready.map_held alive page fresh below plain word done
  have here : pageMap mapped space (va / pageSize) = some (pa, flags ||| pteP) := by
    rw [updated space _ alive (page_number_below va below), if_pos ⟨rfl, rfl⟩]
  have noTable := (left.frame alive (page_number_below va below) here).2.2
  have keeps : ∀ other, other % pageSize = 0 → ¬ FreeAt mm.pmm other → NoTable mm live other →
      other ≠ pa ∧ SamePage mm.mem mapped.mem other := by
    intro other aligned used plainPage
    have different : other ≠ pa := fun same => used (same ▸ free)
    refine ⟨different, (others other aligned different).trans (kept other aligned
      (fun still => used ((free_take _ _ _).mp still).1) fun root path named short => ?_)⟩
    rw [sameViews root path named]
    exact plainPage root path named short
  refine ⟨left, here, fun offset inside => ?_, fun last content rewritten bytes => ?_⟩
  · refine kept pa page.aligned flying.2.1 (fun root path named _ => ?_) _ (by omega) (by omega)
    rw [sameViews root path named]
    exact flying.2.2 root path named
  · obtain ⟨final, lastMaps, _, lastOthers⟩ := left.scribble pa last page.aligned noTable rewritten
    refine ⟨final, ⟨pa, ?_, bytes⟩, fun other number member small different => ?_,
      fun other aligned used plainPage => ?_⟩
    · rw [lastMaps space _ alive (page_number_below va below), here]
    · rw [lastMaps other number member small, updated other number member small, if_neg different]
      exact sameMaps other number member small
    · obtain ⟨different, same⟩ := keeps other aligned used plainPage
      exact same.trans (lastOthers other aligned different)

theorem Holds.keep {va flags other otherFlags : Nat} {content otherContent : Nat → UInt8}
    (owned : Owned mm live held) (alive : space ∈ live) (below : va < 2 ^ 47)
    (held_ : Holds mm space va flags content)
    (filled : Filled live held space other otherFlags otherContent mm after)
    (different : va / pageSize ≠ other / pageSize) : Holds after space va flags content := by
  obtain ⟨frame, mapped, bytes⟩ := held_
  have small := page_number_below va below
  obtain ⟨page, used, noTable⟩ := owned.frame alive small mapped
  refine ⟨frame, ?_, fun offset inside => ?_⟩
  · rw [filled.others space _ alive small fun same => different same.2]
    exact mapped
  · rw [filled.bytes frame page.aligned used noTable _ (by omega) (by omega)]
    exact bytes offset inside

end Pages

theorem page_of (a : Nat) : a / pageSize * pageSize ≤ a ∧ a < a / pageSize * pageSize + pageSize ∧
    a / pageSize * pageSize % pageSize = 0 := by
  simp only [pageSize]
  omega

theorem same_page {va a : Nat} (aligned : va % pageSize = 0) (low : va ≤ a) (high : a < va + pageSize) :
    a / pageSize = va / pageSize ∧ a % pageSize = a - va := by
  simp only [pageSize] at *
  omega

section Reading
variable {live held : Set Nat} {space : Nat} {mm : Mm} {va flags : Nat} {content : Nat → UInt8}

theorem Holds.read (holds : Holds mm space va flags content) (owned : Owned mm live held)
    (alive : space ∈ live) (aligned : va % pageSize = 0) (a : Nat) (low : va ≤ a) (high : a < va + pageSize)
    (below : a < 2 ^ 47) :
    translate mm space a ≠ 0 ∧ mm.mem (translate mm space a) = content (a - va) ∧
      ∃ e, leafEntry mm.mem space a = some e ∧ entryFlags e = flags ||| pteP := by
  obtain ⟨frame, mapped, bytes⟩ := holds
  obtain ⟨same, offset⟩ := same_page aligned low high
  have page := (owned.frame alive (page_number_below va (by omega)) mapped).1
  have target : translate mm space a = frame + (a - va) := by
    rw [translate_readMap owned.plain space a alive below, readMap, same, mapped, offset]
  have nonzero := page.nonzero
  refine ⟨by omega, by rw [target]; exact bytes _ (by omega), ?_⟩
  rw [← same, pageMap, leafEntry_page _ _ _ below] at mapped
  obtain ⟨e, found, pair⟩ := Option.map_eq_some_iff.mp mapped
  exact ⟨e, found, (Prod.mk.inj pair).2⟩

end Reading

theorem entryFlags_bit (e bit : Nat) (plain : (2 ^ 64 - 1 - pteAddrMask) &&& bit = bit) :
    e &&& bit = entryFlags e &&& bit := by
  rw [entryFlags, Nat.and_assoc, plain]

end Shizuku.Vmm

namespace Shizuku.Process

open ByteMemory WordMemory PointerForest Machine Pmm Vmm Elf Sched

section Rounds
variable {mm after : Mm} {space : Nat}

/-- The loader copies into the frame that it has just mapped. -/
theorem copyOverlap_frame (image : Image) (ph : Phdr) {va frame : Nat} (target : translate mm space va = frame)
    (inside : va + pageSize < 2 ^ 64) :
    ∃ mem, copyOverlap mm space image ph va = { mm with mem := mem } ∧
      ∀ place, place < frame ∨ frame + pageSize ≤ place → mem place = mm.mem place := by
  simp only [copyOverlap, Nat.mod_eq_of_lt inside, target]
  split
  · refine ⟨_, rfl, fun place outside => ?_⟩
    apply blit_outside
    rw [List.length_map, List.length_range]
    omega
  · exact ⟨mm.mem, rfl, fun _ _ => rfl⟩

theorem loadPage_done {image : Image} {ph : Phdr} {va : Nat}
    (done : loadPage space image ph mm va = (true, after)) :
    ∃ pa mapped, Page pa ∧ FreeAt mm.pmm pa ∧
      map { mm with pmm := Pmm.take mm.pmm (pa / pageSize), mem := fill mm.mem pa pageSize 0 } space va
        pa (elfFlagsToPte ph.pFlags) = (true, mapped) ∧
      after = copyOverlap mapped space image ph va := by
  unfold loadPage mapSegmentPage at done
  cases got : allocPage mm.pmm with
  | mk pa pmm =>
      rw [got] at done
      by_cases zero : pa = 0
      · simp [zero] at done
      · obtain ⟨page, free, rfl⟩ := allocPage_taken got zero
        simp only [zero, ↓reduceIte, zeroTable] at done
        split at done
        · simp at done
        · rename_i mapped shape
          exact ⟨pa, mapped, page, free, shape, (Prod.mk.inj done).2.symm⟩

theorem forEach_done {Item : Type} {body : Mm → Item → Bool × Mm} {item : Item} {rest : List Item}
    (done : forEach body mm (item :: rest) = (true, after)) :
    ∃ middle, body mm item = (true, middle) ∧ forEach body middle rest = (true, after) := by
  rw [forEach] at done
  split at done
  · simp at done
  · rename_i middle step
    exact ⟨middle, step, done⟩

theorem runItems_keeps (keep : Mm → Prop) (items : List Item)
    (each : ∀ item, item ∈ items → ∀ mm after, keep mm → item.2 mm = (true, after) → keep after)
    (start : keep mm) (done : runItems mm items = (true, after)) : keep after := by
  induction items generalizing mm with
  | nil => exact (Prod.mk.inj done).2 ▸ start
  | cons item rest ih =>
      obtain ⟨middle, step, onward⟩ := forEach_done done
      exact ih (fun other member => each other (List.mem_cons_of_mem _ member))
        (each item List.mem_cons_self mm middle start step) onward

theorem dataFlags_args {pa : Nat} (page : Page pa) : LeafArgs pa dataFlags :=
  page.leafArgs (by decide) (by decide)

theorem mapDataPage_done {va : Nat} (done : mapDataPage space mm va = (true, after)) :
    ∃ pa mapped, Page pa ∧ FreeAt mm.pmm pa ∧
      map { mm with pmm := Pmm.take mm.pmm (pa / pageSize) } space va pa dataFlags = (true, mapped) ∧
      after = zeroTable mapped pa := by
  unfold mapDataPage at done
  cases got : allocPage mm.pmm with
  | mk pa pmm =>
      rw [got] at done
      by_cases zero : pa = 0
      · simp [zero] at done
      · obtain ⟨page, free, rfl⟩ := allocPage_taken got zero
        simp only [zero, ↓reduceIte] at done
        split at done
        · simp at done
        · rename_i mapped shape
          exact ⟨pa, mapped, page, free, shape, (Prod.mk.inj done).2.symm⟩

end Rounds

def Fills (live held : Set Nat) (space : Nat) (item : Item) (flags : Nat) (content : Nat → UInt8) :
    Prop :=
  item.1 < 2 ^ 47 ∧ ∀ mm after, Owned mm live held → item.2 mm = (true, after) →
    Filled live held space item.1 flags content mm after

def Spares (live held : Set Nat) (space : Nat) (item : Item) : Prop :=
  ∀ mm ok after, Owned mm live held → item.2 mm = (ok, after) →
    Owned after live held ∧ ∀ other number, other ∈ live → number < 2 ^ 35 →
      ¬ (other = space ∧ number = item.1 / pageSize) →
      pageMap after other number = pageMap mm other number

section Loops
variable {live held : Set Nat} {space : Nat} {mm after : Mm}

theorem runItems_spares (items : List Item)
    (spares : ∀ item, item ∈ items → Spares live held space item) {ok : Bool}
    (owned : Owned mm live held) (done : runItems mm items = (ok, after)) :
    Owned after live held ∧ ∀ other number, other ∈ live → number < 2 ^ 35 →
      (other = space → ∀ item, item ∈ items → number ≠ item.1 / pageSize) →
      pageMap after other number = pageMap mm other number := by
  induction items generalizing mm with
  | nil => exact (Prod.mk.inj done).2 ▸ ⟨owned, fun _ _ _ _ _ => rfl⟩
  | cons item rest ih =>
      cases step : item.2 mm with
      | mk passed middle =>
          obtain ⟨left, same⟩ := spares item List.mem_cons_self mm passed middle owned step
          have elsewhere : ∀ other number, other ∈ live → number < 2 ^ 35 →
              (other = space → ∀ each, each ∈ item :: rest → number ≠ each.1 / pageSize) →
              pageMap middle other number = pageMap mm other number :=
            fun other number alive small apart => same other number alive small
              fun ⟨here, equal⟩ => apart here item List.mem_cons_self equal
          simp only [runItems, forEach, step] at done
          cases passed with
          | false => exact (Prod.mk.inj done).2 ▸ ⟨left, elsewhere⟩
          | true =>
              obtain ⟨final, others⟩ := ih (fun each member => spares each (List.mem_cons_of_mem _ member))
                left done
              refine ⟨final, fun other number alive small apart => ?_⟩
              rw [others other number alive small fun here each member =>
                apart here each (List.mem_cons_of_mem _ member)]
              exact elsewhere other number alive small apart

/-- Over a loop with distinct pages every page ends up with what it was filled with. -/
theorem runItems_filled (items : List Item) (alive : space ∈ live)
    (fills : ∀ item, item ∈ items → ∃ flags content, Fills live held space item flags content)
    (distinct : (items.map fun item => item.1 / pageSize).Nodup) (owned : Owned mm live held)
    (done : runItems mm items = (true, after)) :
    Owned after live held ∧
      (∀ item, item ∈ items → ∀ flags content, Fills live held space item flags content →
        Holds after space item.1 flags content) ∧
      ∀ va flags content, va < 2 ^ 47 → (∀ item, item ∈ items → va / pageSize ≠ item.1 / pageSize) →
        Holds mm space va flags content → Holds after space va flags content := by
  induction items generalizing mm with
  | nil =>
      obtain rfl := (Prod.mk.inj done).2
      exact ⟨owned, fun item member => (by cases member), fun _ _ _ _ _ before => before⟩
  | cons item rest ih =>
      obtain ⟨middle, step, onward⟩ := forEach_done done
      obtain ⟨flags, content, below, fill⟩ := fills item List.mem_cons_self
      have filled := fill mm middle owned step
      rw [List.map_cons, List.nodup_cons] at distinct
      obtain ⟨final, later, kept⟩ := ih (fun each member => fills each (List.mem_cons_of_mem _ member))
        distinct.2 filled.owned onward
      have first : ∀ each, each ∈ rest → item.1 / pageSize ≠ each.1 / pageSize := fun each member same =>
        distinct.1 (List.mem_map.mpr ⟨each, member, same.symm⟩)
      refine ⟨final, fun each member => ?_, fun va others bytes small apart before => ?_⟩
      · rcases List.mem_cons.mp member with rfl | inside
        · intro others bytes again
          exact kept _ others bytes below first (again.2 mm middle owned step).here
        · exact later each inside
      · refine kept va others bytes small (fun each member => apart each (List.mem_cons_of_mem _ member)) ?_
        exact before.keep owned alive small filled (apart item List.mem_cons_self)

theorem mapDataPage_filled {va : Nat} (owned : Owned mm live held) (alive : space ∈ live)
    (below : va < 2 ^ 47) (done : mapDataPage space mm va = (true, after)) :
    Filled live held space va dataFlags (fun _ => 0) mm after := by
  obtain ⟨pa, mapped, page, free, shape, rfl⟩ := mapDataPage_done done
  obtain ⟨_, _, _, filled⟩ := owned.round alive page free below (by decide) (by decide) mm.mem
    (fun _ _ => rfl) shape
  exact filled _ _ (fun place outside => fill_outside mapped.mem pa pageSize 0 place outside)
    fun offset inside => fill_inside mapped.mem pa pageSize 0 (pa + offset) (by omega) (by omega)

theorem mapDataPage_failed {va : Nat} (owned : Owned mm live held) (alive : space ∈ live)
    (below : va < 2 ^ 47) (done : mapDataPage space mm va = (false, after)) :
    Owned after live held ∧ ∀ other number, other ∈ live → number < 2 ^ 35 →
      pageMap after other number = pageMap mm other number := by
  unfold mapDataPage at done
  cases got : allocPage mm.pmm with
  | mk pa pmm =>
      rw [got] at done
      by_cases zero : pa = 0
      · obtain ⟨same, _⟩ | ⟨page, free, _, taken⟩ := allocPage_cases mm.pmm
        · rw [got, Prod.mk.injEq] at same
          simp only [zero, ↓reduceIte, same.2, Prod.mk.injEq, true_and] at done
          exact done ▸ ⟨owned, fun _ _ _ _ => rfl⟩
        · rw [got, zero, Prod.mk.injEq] at taken
          exact absurd taken.1.symm (free_page owned page free).nonzero
      · obtain ⟨page, free, rfl⟩ := allocPage_taken got zero
        simp only [zero, ↓reduceIte] at done
        have taken := owned.take (pa / pageSize) free
        rw [page.number] at taken
        split at done
        · rename_i mapped shape
          obtain ⟨left, same⟩ := taken.map_failed alive below (Set.mem_insert _ _) page
            (dataFlags_args page) shape
          rw [← (Prod.mk.inj done).2]
          exact ⟨left.held_mono fun other member => .inr member, same⟩
        · simp at done

theorem mapDataPage_fills (alive : space ∈ live) (va : Nat) (below : va < 2 ^ 47) :
    Fills live held space (va, fun mm => mapDataPage space mm va) dataFlags (fun _ => 0) ∧
      Spares live held space (va, fun mm => mapDataPage space mm va) := by
  refine ⟨⟨below, fun mm after owned done => ?_⟩, fun mm ok after owned done => ?_⟩
  · dsimp only at done ⊢
    exact mapDataPage_filled owned alive below done
  · dsimp only at done ⊢
    cases ok with
    | true =>
        have filled := mapDataPage_filled owned alive below done
        exact ⟨filled.owned, filled.others⟩
    | false =>
        obtain ⟨left, same⟩ := mapDataPage_failed owned alive below done
        exact ⟨left, fun other number member small _ => same other number member small⟩

/-! ### Segment pages -/

def segmentBytes (image : Image) (ph : Phdr) (va offset : Nat) : UInt8 :=
  if ph.pVaddr ≤ va + offset ∧ va + offset < ph.pVaddr + ph.pFilesz then
    image.byte (ph.pOffset + (va + offset - ph.pVaddr))
  else 0

theorem loadPage_filled {image : Image} {ph : Phdr} {va : Nat} (owned : Owned mm live held)
    (alive : space ∈ live) (aligned : va % pageSize = 0) (below : va < 2 ^ 47)
    (memory : ph.pVaddr + ph.pFilesz < 2 ^ 64) (file : ph.pOffset + ph.pFilesz ≤ 2 ^ 64)
    (done : loadPage space image ph mm va = (true, after)) :
    Filled live held space va (elfFlagsToPte ph.pFlags) (segmentBytes image ph va) mm after := by
  obtain ⟨pa, mapped, page, free, shape, copied⟩ := loadPage_done done
  obtain ⟨plain, word⟩ := elfFlagsToPte_plain ph.pFlags
  obtain ⟨left, here, zeroed, filled⟩ := owned.round alive page free below plain word
    (fill mm.mem pa pageSize 0) (fun place outside => fill_outside mm.mem pa pageSize 0 place outside) shape
  have size : pageSize = 4096 := rfl
  have blank : ∀ offset, offset < pageSize → mapped.mem (pa + offset) = 0 := fun offset inside => by
    rw [zeroed offset inside]
    exact fill_inside mm.mem pa pageSize 0 (pa + offset) (by omega) (by omega)
  have target : translate mapped space va = pa := by
    rw [translate_readMap left.plain space va alive below, readMap, here, aligned]
    rfl
  rw [copied]
  simp only [copyOverlap, target, Nat.mod_eq_of_lt (show va + pageSize < 2 ^ 64 by omega),
    Nat.mod_eq_of_lt memory]
  split
  · rename_i overlap
    refine filled _ _ (fun place outside => ?_) fun offset inside => ?_
    · apply blit_outside
      rw [List.length_map, List.length_range]
      omega
    · by_cases copy : ph.pVaddr ≤ va + offset ∧ va + offset < ph.pVaddr + ph.pFilesz
      · have place : pa + offset = pa + (max va ph.pVaddr - va) + (va + offset - max va ph.pVaddr) := by
          omega
        rw [place, blit_inside _ _ _ _ (by rw [List.length_map, List.length_range]; omega),
          List.getElem_map, List.getElem_range, segmentBytes, if_pos copy, Nat.mod_eq_of_lt (by omega)]
        exact congrArg image.byte (by omega)
      · rw [blit_outside _ _ _ _ (by rw [List.length_map, List.length_range]; omega), blank offset inside,
          segmentBytes, if_neg copy]
  · rename_i apart
    refine filled mapped.mem _ (fun _ _ => rfl) fun offset inside => ?_
    rw [blank offset inside, segmentBytes, if_neg (by omega)]

end Loops

end Shizuku.Process
