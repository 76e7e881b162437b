import Shizuku.HighPages

/-!
Images that reach into the high half. `Following` ties the memory that a loop of mappings
leaves to the one it started from: an address of the high half means something else only
where a call of `vmm::map` has stored, and an entry of a root has changed only where
such a call has linked a table below it.
-/

namespace Shizuku.Process

open ByteMemory WordMemory PointerForest Machine Pmm Vmm Elf Sched

/-- A call of `vmm::map`: the memory that it finds, and the page. -/
structure MapCall where
  mm : Mm
  va : Nat

def mapSegmentPageCalls (mm : Mm) (va : Nat) : List MapCall :=
  let (pa, pmm) := allocPage mm.pmm
  if pa = 0 then [] else [⟨zeroTable { mm with pmm := pmm } pa, va⟩]

/-- The entry that `va` is read from in `root` is the one that `call` has stored. -/
structure Stores (space : Nat) (mm : Mm) (root va : Nat) (call : MapCall) : Prop where
  high : 256 ≤ tableIndex call.va 4
  aligned : call.va % pageSize = 0
  mapped : translate mm space call.va ≠ 0
  slot : slotOf mm root va = slotOf mm space call.va
  index : tableIndex va 1 = tableIndex call.va 1

structure Following (live old : Set Nat) (space : Nat) (base mm : Mm) (calls : List MapCall) : Prop where
  slots : ∀ root va, root ∈ live → 256 ≤ tableIndex va 4 →
    slotOf mm root va = slotOf base root va ∨
      slotOf base root va = none ∧ ∀ pt, slotOf mm root va = some pt → pt ∉ old
  means : ∀ root va, root ∈ live → 256 ≤ tableIndex va 4 →
    translate mm root va = translate base root va ∨ ∃ call, call ∈ calls ∧ Stores space mm root va call
  roots : ∀ root idx, root ∈ live → 256 ≤ idx → idx < 512 →
    entry mm.mem root idx = entry base.mem root idx ∨
      root = space ∧ entry base.mem space idx &&& pteP = 0 ∧
        ∃ call, call ∈ calls ∧ tableIndex call.va 4 = idx ∧ 0 < freeCount call.mm.pmm
  linked : ∀ call, call ∈ calls → 256 ≤ tableIndex call.va 4 → 0 < freeCount call.mm.pmm →
    entry mm.mem space (tableIndex call.va 4) &&& pteP ≠ 0

section Following
variable {mm after base walked : Mm} {live held old : Set Nat} {level : Nat → Nat} {space : Nat}
  {calls : List MapCall}

theorem Following.refl : Following live old space mm mm [] :=
  ⟨fun _ _ _ _ => .inl rfl, fun _ _ _ _ => .inl rfl, fun _ _ _ _ _ => .inl rfl,
    fun _ impossible => by cases impossible⟩

theorem Stores.kept {root va : Nat} {call : MapCall} (stores : Stores space mm root va call)
    (quiet : Quiet live mm after) (alive : space ∈ live) (rootAlive : root ∈ live)
    (above : 256 ≤ tableIndex va 4) : Stores space after root va call := by
  obtain ⟨pt, found⟩ : ∃ pt, slotOf mm space call.va = some pt := by
    cases found : slotOf mm space call.va with
    | none => exact absurd (by rw [translate_slot, found]) stores.mapped
    | some pt => exact ⟨pt, rfl⟩
  have still : ∀ other at_, other ∈ live → 256 ≤ tableIndex at_ 4 → slotOf mm other at_ = some pt →
      slotOf after other at_ = some pt := by
    intro other at_ otherAlive high reached
    rcases quiet.slots other at_ otherAlive high with same | ⟨none_, _⟩
    · exact same.trans reached
    · cases none_.symm.trans reached
  refine ⟨stores.high, stores.aligned, ?_, ?_, stores.index⟩
  · rw [quiet.means space call.va alive stores.high]
    exact stores.mapped
  · rw [still root va rootAlive above (stores.slot.trans found), still space call.va alive stores.high found]

section Steps
variable (following : Following live old space base mm calls) (alive : space ∈ live)
include following

theorem Following.slots_kept (guarded : Guarded mm live held level) (more : old ⊆ held)
    (quiet : Quiet live mm after) (root va : Nat) (rootAlive : root ∈ live) (above : 256 ≤ tableIndex va 4) :
    slotOf after root va = slotOf base root va ∨
      slotOf base root va = none ∧ ∀ pt, slotOf after root va = some pt → pt ∉ old := by
  rcases quiet.slots root va rootAlive above with same | ⟨gone, new⟩
  · rw [same]
    exact following.slots root va rootAlive above
  · have added : ∀ pt, slotOf after root va = some pt → pt ∉ old := fun pt found member =>
      (guarded.owned.apart pt (more member)).2.1 (new pt found)
    rcases following.slots root va rootAlive above with still | ⟨none_, _⟩
    · exact .inr ⟨still.symm.trans gone, added⟩
    · exact .inr ⟨none_, added⟩

include alive

theorem Following.means_kept (quiet : Quiet live mm after) (root va : Nat) (rootAlive : root ∈ live)
    (above : 256 ≤ tableIndex va 4) :
    translate after root va = translate base root va ∨
      ∃ call, call ∈ calls ∧ Stores space after root va call := by
  rw [quiet.means root va rootAlive above]
  exact (following.means root va rootAlive above).imp id fun ⟨call, member, stores⟩ =>
    ⟨call, member, stores.kept quiet alive rootAlive above⟩

/-- A stretch that maps nothing in the high half. -/
theorem Following.same (guarded : Guarded mm live held level) (more : old ⊆ held)
    (same : SameHalf live level mm.mem after.mem) : Following live old space base after calls := by
  have entries : ∀ root idx, root ∈ live → 256 ≤ idx → idx < 512 →
      entry after.mem root idx = entry mm.mem root idx := fun root idx rootAlive above inside =>
    same root idx 3 (.inr ⟨rootAlive, above, rfl⟩) inside
  have quiet := guarded.quiet same
  refine ⟨following.slots_kept guarded more quiet, following.means_kept alive quiet,
    fun root idx rootAlive above inside => ?_, fun call member high positive => ?_⟩
  · rw [entries root idx rootAlive above inside]
    exact following.roots root idx rootAlive above inside
  · rw [entries space _ alive high (tableIndex_lt _ _)]
    exact following.linked call member high positive

/-- The walk of a call, with the tables that it adds. -/
theorem Following.walk_added {va : Nat} (guarded : Guarded mm live held level) (more : old ⊆ held)
    (quiet : Quiet live mm walked) (deepened : Deepened live level va 3 space mm walked) :
    Following live old space base walked (calls ++ [⟨mm, va⟩]) := by
  have others : ∀ root idx, root ∈ live → 256 ≤ idx → idx < 512 → ¬ (root = space ∧ idx = tableIndex va 4) →
      entry walked.mem root idx = entry mm.mem root idx := fun root idx rootAlive high inside =>
    deepened.others root idx 3 (.inr ⟨rootAlive, high, rfl⟩) inside le_rfl
  refine ⟨following.slots_kept guarded more quiet, fun root at_ rootAlive high => ?_,
    fun root idx rootAlive high inside => ?_, fun call member high positive => ?_⟩
  · exact (following.means_kept alive quiet root at_ rootAlive high).imp id fun ⟨call, member, stores⟩ =>
      ⟨call, List.mem_append_left _ member, stores⟩
  · have before : entry mm.mem root idx = entry base.mem root idx ∨
        root = space ∧ entry base.mem space idx &&& pteP = 0 ∧ ∃ call : MapCall,
          call ∈ calls ++ [⟨mm, va⟩] ∧ tableIndex call.va 4 = idx ∧ 0 < freeCount call.mm.pmm :=
      (following.roots root idx rootAlive high inside).imp id fun ⟨here, absent, call, member, rest⟩ =>
        ⟨here, absent, call, List.mem_append_left _ member, rest⟩
    by_cases here : root = space ∧ idx = tableIndex va 4
    · obtain ⟨rfl, rfl⟩ := here
      by_cases settled : entry mm.mem root (tableIndex va 4) &&& pteP ≠ 0 ∨ freeCount mm.pmm = 0
      · rw [deepened.kept settled]
        exact before
      · -- The entry was absent and a page is left: this call links a table here.
        obtain ⟨absent, positive⟩ := not_or.mp settled
        refine .inr ⟨rfl, ?_, ⟨mm, va⟩, by simp, rfl, Nat.pos_of_ne_zero positive⟩
        rcases before with same | ⟨_, absentBase, _⟩
        · rw [← same]
          exact not_not.mp absent
        · exact absentBase
    · rw [others root idx rootAlive high inside here]
      exact before
  · rcases List.mem_append.mp member with earlier | last
    · by_cases here : tableIndex call.va 4 = tableIndex va 4
      · have present := following.linked call earlier high positive
        rw [here] at present ⊢
        rw [deepened.kept (.inl present)]
        exact present
      · rw [others space _ alive high (tableIndex_lt _ _) fun same => here same.2]
        exact following.linked call earlier high positive
    · obtain rfl := List.mem_singleton.mp last
      exact deepened.linked (by decide) positive

/-- The store of a call into the table of frames. -/
theorem Following.stored {va pt pa flags : Nat} (guarded : Guarded mm live held level) (leaf : level pt = 1)
    (found : slotOf mm space va = some pt) (args : LeafArgs pa flags) (nonzero : pa ≠ 0) {call : MapCall}
    (member : call ∈ calls) (page : call.va = va) (above : 256 ≤ tableIndex va 4) (aligned : va % pageSize = 0) :
    Following live old space base (mm.setEntry pt (tableIndex va 1) (leafValue pa flags)) calls := by
  have bound := tableIndex_lt va 1
  have slots := fun root at_ (rootAlive : root ∈ live) (high : 256 ≤ tableIndex at_ 4) =>
    guarded.stored_slot (leafValue pa flags) leaf bound rootAlive high
  have reads := fun root at_ (rootAlive : root ∈ live) (high : 256 ≤ tableIndex at_ 4) =>
    guarded.stored_translate leaf bound args rootAlive high
  have entries := fun root idx (rootAlive : root ∈ live) (high : 256 ≤ idx) (inside : idx < 512) =>
    guarded.stored_root (leafValue pa flags) leaf bound rootAlive idx high inside
  refine ⟨fun root at_ rootAlive high => ?_, fun root at_ rootAlive high => ?_,
    fun root idx rootAlive high inside => ?_, fun other among high positive => ?_⟩
  · rw [slots root at_ rootAlive high]
    exact following.slots root at_ rootAlive high
  · by_cases here : slotOf mm root at_ = some pt ∧ tableIndex at_ 1 = tableIndex va 1
    · subst page
      refine .inr ⟨call, member, above, aligned, ?_, ?_, here.2⟩
      · rw [reads space call.va alive above, if_pos ⟨found, rfl⟩]
        omega
      · rw [slots root at_ rootAlive high, slots space call.va alive above, here.1, found]
    · rw [reads root at_ rootAlive high, if_neg here]
      refine (following.means root at_ rootAlive high).imp id fun ⟨other, among, stores⟩ =>
        ⟨other, among, stores.high, stores.aligned, ?_, ?_, stores.index⟩
      · rw [reads space other.va alive stores.high, if_neg]
        · exact stores.mapped
        · exact fun same => here ⟨stores.slot.trans same.1, stores.index.trans same.2⟩
      · rw [slots root at_ rootAlive high, slots space other.va alive stores.high]
        exact stores.slot
  · rw [entries root idx rootAlive high inside]
    exact following.roots root idx rootAlive high inside
  · rw [entries space _ alive high (tableIndex_lt _ _)]
    exact following.linked other among high positive

end Steps

theorem Following.low (following : Following live old space base mm calls) (more : List MapCall)
    (low : ∀ call, call ∈ more → tableIndex call.va 4 < 256) :
    Following live old space base mm (calls ++ more) where
  slots := following.slots
  means root va alive above := (following.means root va alive above).imp id fun ⟨call, member, stores⟩ =>
    ⟨call, List.mem_append_left _ member, stores⟩
  roots root idx alive above inside := (following.roots root idx alive above inside).imp id
    fun ⟨here, absent, call, member, rest⟩ => ⟨here, absent, call, List.mem_append_left _ member, rest⟩
  linked call member high positive := by
    rcases List.mem_append.mp member with earlier | last
    · exact following.linked call earlier high positive
    · have half := low call last
      omega

end Following

section Images
variable {mm after base : Mm} {live held old : Set Nat} {level : Nat → Nat} {space : Nat} {calls : List MapCall}

theorem mapSegmentPageCalls_page (mm : Mm) (va : Nat) (call : MapCall)
    (member : call ∈ mapSegmentPageCalls mm va) : call.va = va := by
  unfold mapSegmentPageCalls at member
  cases allocPage mm.pmm with
  | mk pa pmm =>
      dsimp only at member
      split at member
      · cases member
      · rw [List.mem_singleton.mp member]

theorem Placed.building {lost : Set Nat} {va : Nat} {result : Bool × Mm}
    (placed : Placed live held lost space base va mm result)
    (building : Building live held space base mm lost) :
    ∃ gone, Building live held space base result.2 gone := by
  cases placed with
  | exhausted _ => exact ⟨_, building⟩
  | leaked _ _ _ _ _ after => exact ⟨_, after⟩
  | placed _ _ after _ => exact ⟨_, after⟩

/-- A call of `vmm::map` in the high half, with the frame `pa` taken and cleared for it. -/
theorem Following.call_stored (following : Following live old space base mm calls) (image : Image) (ph : Phdr)
    (alive : space ∈ live) (guarded : Guarded mm live held level) (more : old ⊆ held) {va pa : Nat}
    (page : Page pa) (free : FreeAt mm.pmm pa) (aligned : va % pageSize = 0) (inside : va + pageSize < 2 ^ 64)
    (above : 256 ≤ tableIndex va 4) {zeroed mapped final : Mm} {ok : Bool}
    (shape : zeroTable { mm with pmm := Pmm.take mm.pmm (pa / pageSize) } pa = zeroed)
    (calling : map zeroed space va pa (elfFlagsToPte ph.pFlags) = (ok, mapped))
    (done : ok = false ∧ final = mapped ∨ ok = true ∧ final = copyOverlap mapped space image ph va) :
    (∃ held level, Guarded final live held level ∧ old ⊆ held) ∧
      Following live old space base final (calls ++ [⟨zeroed, va⟩]) := by
  obtain ⟨plain, word⟩ := elfFlagsToPte_plain ph.pFlags
  have args := page.leafArgs plain word
  have grows : old ⊆ insert pa held := more.trans (Set.subset_insert _ _)
  -- The frame is held from now on; nothing of the low half ever leads to it.
  obtain ⟨noTable, frame⟩ := guarded.take page free
  have clears := fun place => fill_outside mm.mem pa pageSize 0 place
  have ready : Guarded zeroed live (insert pa held) level := by
    rw [← shape]
    exact frame.scribble (fill mm.mem pa pageSize 0) (Set.mem_insert _ _) (by omega) clears
  have same : SameHalf live level mm.mem zeroed.mem := by
    rw [← shape]
    exact frame.scribble_same (Set.mem_insert _ _) noTable clears
  have used : ¬ FreeAt zeroed.pmm pa := by
    rw [← shape]
    exact fun still => ((free_take _ _ _).mp still).2 rfl
  have begun := following.same alive guarded more same
  obtain ⟨walked, wide, later, reached, quiet, deepened, outcome⟩ := map_guarded ready alive above calling
  have called := begun.walk_added alive ready grows quiet deepened
  have wider : old ⊆ wide := grows.trans reached.held
  rcases outcome with ⟨rfl, rfl⟩ | ⟨rfl, pt, leaf, found, stored⟩
  · rw [(done.resolve_right (by simp)).2]
    exact ⟨⟨wide, later, reached.guarded, wider⟩, called⟩
  · have bound := tableIndex_lt va 1
    have kept := reached.guarded.stored (leafValue pa (elfFlagsToPte ph.pFlags)) leaf bound
    have follows := called.stored alive reached.guarded leaf found args page.nonzero
      (List.mem_append_right calls (List.mem_singleton_self _)) rfl above aligned
    have target : translate mapped space va = pa := by
      rw [stored, reached.guarded.stored_translate leaf bound args alive above, if_pos ⟨found, rfl⟩, aligned,
        Nat.add_zero]
    obtain ⟨mem, copied, outside⟩ := copyOverlap_frame image ph target inside
    rw [← stored] at kept follows
    have data : later pa = 0 := (reached.kept pa used).trans noTable
    have member : pa ∈ wide := reached.held (Set.mem_insert _ _)
    rw [(done.resolve_left (by simp)).2, copied]
    exact ⟨⟨wide, later, kept.scribble mem member (by omega) outside, wider⟩,
      follows.same alive kept wider (kept.scribble_same member data outside)⟩

/-- One page of a segment, wherever it lies and however the round ends. -/
theorem loadPage_follows (image : Image) (ph : Phdr) {va : Nat} (guarded : Guarded mm live held level)
    (more : old ⊆ held) (following : Following live old space base mm calls) (alive : space ∈ live)
    (aligned : va % pageSize = 0) (inside : va + pageSize < 2 ^ 64) :
    (∃ held level, Guarded (loadPage space image ph mm va).2 live held level ∧ old ⊆ held) ∧
      Following live old space base (loadPage space image ph mm va).2 (calls ++ mapSegmentPageCalls mm va) := by
  by_cases half : tableIndex va 4 < 256
  · have begun := Building.refl guarded.owned alive
    obtain ⟨gone, building⟩ := (loadPage_placed begun image ph va half aligned inside).building begun
    exact ⟨⟨held, level, guarded.building building, more⟩,
      (following.same alive guarded more (guarded.building_same building)).low _ fun call member =>
        mapSegmentPageCalls_page mm va call member ▸ half⟩
  · have above : 256 ≤ tableIndex va 4 := by omega
    unfold loadPage mapSegmentPage mapSegmentPageCalls
    cases got : allocPage mm.pmm with
    | mk pa pmm =>
        by_cases zero : pa = 0
        · -- No frame: nothing is called.
          obtain rfl : pmm = mm.pmm := by
            rcases allocPage_cases mm.pmm with ⟨nothing, _⟩ | ⟨number, isFree, _, taken⟩
            · exact (Prod.mk.inj (got.symm.trans nothing)).2
            · exact absurd ((Prod.mk.inj (got.symm.trans taken)).1.symm.trans zero)
                (free_page guarded.owned number isFree).nonzero
          simp only [zero, ↓reduceIte, List.append_nil]
          exact ⟨⟨held, level, guarded, more⟩, following⟩
        · obtain ⟨page, free, rfl⟩ := allocPage_taken got zero
          simp only [zero, ↓reduceIte]
          cases calling : map (zeroTable { mm with pmm := Pmm.take mm.pmm (pa / pageSize) } pa) space va pa
            (elfFlagsToPte ph.pFlags) with
          | mk ok mapped =>
              cases ok with
              | false =>
                  exact following.call_stored image ph alive guarded more page free aligned inside above rfl
                    calling (.inl ⟨rfl, rfl⟩)
              | true =>
                  dsimp only
                  exact following.call_stored image ph alive guarded more page free aligned inside above rfl
                    calling (.inr ⟨rfl, rfl⟩)

theorem mapDataPage_guarded {va : Nat} (guarded : Guarded mm live held level) (alive : space ∈ live)
    (half : tableIndex va 4 < 256) (done : mapDataPage space mm va = (true, after)) :
    Guarded after live held level := by
  have round := mapDataPage_placed (Building.refl guarded.owned alive) va half
  rw [done] at round
  cases round with
  | placed _ _ building _ => exact guarded.building building

theorem headerPages_bounds {image : Image} (valid : headerOk image = true) {ph : Phdr} {va : Nat}
    (listed : ph ∈ phdrs image) (page : va ∈ headerPages ph) : va % pageSize = 0 ∧ va + pageSize < 2 ^ 64 := by
  refine loadVas_bounds image va ?_
  rw [loadVas, if_pos valid]
  exact List.mem_flatMap.mpr ⟨ph, listed, page⟩

theorem imageItems_page {image : Image} (valid : headerOk image = true) (item : Item)
    (member : item ∈ imageItems space image) :
    ∃ ph va, item = (va, fun mm => loadPage space image ph mm va) ∧ va % pageSize = 0 ∧ va + pageSize < 2 ^ 64 := by
  obtain ⟨ph, listed, inside⟩ := List.mem_flatMap.mp member
  obtain ⟨va, page, rfl⟩ := List.mem_map.mp inside
  exact ⟨ph, va, rfl, headerPages_bounds valid listed page⟩

theorem imageItems_guarded {image : Image} (valid : headerOk image = true) (alive : space ∈ live)
    (guarded : Guarded mm live held level)
    (loading : runItems mm (imageItems space image) = (true, after)) :
    ∃ more later, Guarded after live more later := by
  refine runItems_keeps (fun mm => ∃ held level, Guarded mm live held level)
    (imageItems space image) ?_ ⟨held, level, guarded⟩ loading
  rintro item member before final ⟨held, level, guarded⟩ step
  obtain ⟨ph, va, rfl, aligned, inside⟩ := imageItems_page valid item member
  dsimp only at step
  obtain ⟨⟨more, later, kept, _⟩, _⟩ := loadPage_follows image ph guarded (Set.empty_subset _)
    (Following.refl : Following live ∅ space before before []) alive aligned inside
  rw [step] at kept
  exact ⟨more, later, kept⟩

theorem stackLoop_guarded (guarded : Guarded mm live held level) (alive : space ∈ live)
    (stacking : forEach (mapDataPage space) mm stackVas = (true, after)) : Guarded after live held level := by
  rw [forEach_pages] at stacking
  refine runItems_keeps (fun mm => Guarded mm live held level) _ ?_ guarded stacking
  intro item member before final guarded step
  obtain ⟨va, page, rfl⟩ := List.mem_map.mp member
  dsimp only at step
  exact mapDataPage_guarded guarded alive (stackVas_user va page).half step

/-- A process built from any image: the low halves are still nobody else's. -/
theorem buildUser_owned (image : Image) (argv : List (List UInt8)) (short : ShortArgs argv)
    {result : Nat × Nat} (alive : space ∈ live) (guarded : Guarded mm live held level)
    (done : buildUser mm space image argv = (some result, after)) : ∃ more, Owned after live more := by
  obtain ⟨valid, _, loaded, stacked, loading, stacking, pushing⟩ := buildUser_some done
  obtain ⟨more, later, kept⟩ := imageItems_guarded valid alive guarded loading
  have stack := stackLoop_guarded kept alive stacking
  have pushed := (pushArgv_scribbled (Building.refl stack.owned alive) argv short).building.owned
  rw [pushing, Set.union_empty] at pushed
  exact ⟨more, pushed⟩

end Images

end Shizuku.Process
