import Shizuku.Process
import Shizuku.SpaceLifetime

/-!
Loops that take a frame, map it and go on to the next page: the segments of an
image, the user stack and the heap. Each round is a `Placed`; `Fits` says, from
the number of free pages and the addresses alone, when a loop loses no page.
-/

namespace Shizuku.Process

open ByteMemory WordMemory PointerForest Pmm Vmm Elf

section Placing
variable {live held lost : Set Nat} {space : Nat} {base mm : Mm}

structure Scribbled (live held lost : Set Nat) (space : Nat) (base mm after : Mm) : Prop where
  building : Building live held space base after lost
  pmm : after.pmm = mm.pmm
  views : ∀ root path, Named live root path → view after.mem root path = view mm.mem root path

theorem Scribbled.refl (building : Building live held space base mm lost) :
    Scribbled live held lost space base mm mm :=
  ⟨building, rfl, fun _ _ _ => rfl⟩

theorem Scribbled.trans {middle after : Mm} (left : Scribbled live held lost space base mm middle)
    (right : Scribbled live held lost space base middle after) :
    Scribbled live held lost space base mm after :=
  ⟨right.building, right.pmm.trans left.pmm, fun root path named =>
    (right.views root path named).trans (left.views root path named)⟩

theorem Scribbled.frame (building : Building live held space base mm lost) {va frame : Nat}
    (half : tableIndex va 4 < 256) (mapped : view mm.mem space (full va) = some frame)
    (mem : Nat → UInt8)
    (outside : ∀ place, place < frame ∨ frame + pageSize ≤ place → mem place = mm.mem place) :
    Scribbled live held lost space base mm { mm with mem := mem } := by
  obtain ⟨after, views⟩ := building.scribble frame mem
    (.inr ⟨full va, low_full va half, by simp [full], mapped⟩) outside
  exact ⟨after, rfl, views⟩

theorem Scribbled.blit (building : Building live held space base mm lost) {va frame : Nat}
    (half : tableIndex va 4 < 256) (mapped : view mm.mem space (full va) = some frame)
    (offset : Nat) (bytes : List UInt8) (inside : offset + bytes.length ≤ pageSize) :
    Scribbled live held lost space base mm
      { mm with mem := ByteMemory.blit mm.mem (frame + offset) bytes } := by
  apply Scribbled.frame building half mapped
  intro place outside
  exact blit_outside _ _ _ place (by omega)

/-- Everything one round can do: the data page is not there; the data page is
there but a table is not, and the page is lost; or the page is mapped, in place of
what was mapped there before. -/
inductive Placed (live held lost : Set Nat) (space : Nat) (base : Mm) (va : Nat) (mm : Mm) :
    Bool × Mm → Prop
  | exhausted : freeCount mm.pmm = 0 → Placed live held lost space base va mm (false, mm)
  | leaked (pa : Nat) (after : Mm) : 0 < freeCount mm.pmm →
      freeCount mm.pmm < 1 + missing mm.mem space [] (front va) → pa ∉ lost →
      Building live held space base after (insert pa lost) →
      Placed live held lost space base va mm (false, after)
  | placed (after : Mm) :
      freeCount after.pmm + (1 + missing mm.mem space [] (front va)) = freeCount mm.pmm →
      Building live held space base after
        { page | page ∈ lost ∨ view mm.mem space (full va) = some page } →
      (∀ path, Low path → (view after.mem space path ≠ none ↔
        view mm.mem space path ≠ none ∨ path <+: full va)) →
      Placed live held lost space base va mm (true, after)

theorem mapDataPage_placed (building : Building live held space base mm lost) (va : Nat)
    (half : tableIndex va 4 < 256) :
    Placed live held lost space base va mm (mapDataPage space mm va) := by
  unfold mapDataPage
  rcases building.alloc with ⟨nothing, none_⟩ | ⟨pa, pmm, taken, page, fresh, count, flying⟩
  · rw [nothing]
    exact .exhausted none_
  · obtain ⟨ok, mapped, step, outcome⟩ := flying.map_flying fresh va dataFlags half
      (page.leafArgs (by decide) (by decide))
    simp only [taken, page.nonzero, ↓reduceIte, step]
    rcases outcome with ⟨rfl, after, short⟩ | ⟨rfl, after, spent, here, domain⟩
    · exact .leaked pa mapped (by omega) (by simp only at short; omega) fresh after
    · have zeroed := Scribbled.frame after half here (fill mapped.mem pa pageSize 0)
        fun place outside => fill_outside mapped.mem pa pageSize 0 place outside
      refine .placed _ (by simp only [zeroTable] at spent ⊢; omega) zeroed.building ?_
      intro path low
      rw [← domain path low]
      exact not_congr (by rw [← zeroed.views space path ⟨building.alive, low⟩]; rfl)

theorem elfFlagsToPte_plain (pf : Nat) :
    elfFlagsToPte pf &&& pteAddrMask = 0 ∧ elfFlagsToPte pf < 2 ^ 64 := by
  simp only [elfFlagsToPte]
  split <;> split <;> decide

theorem copyOverlap_scribbled (building : Building live held space base mm lost) (image : Image)
    (ph : Phdr) {va frame : Nat} (half : tableIndex va 4 < 256) (aligned : va % pageSize = 0)
    (inside : va + pageSize < 2 ^ 64) (mapped : view mm.mem space (full va) = some frame) :
    Scribbled live held lost space base mm (copyOverlap mm space image ph va) := by
  have target : translate mm space va = frame := by
    rw [translate_view building.owned.plain space va building.alive half, mapped, aligned]
    rfl
  simp only [copyOverlap, Nat.mod_eq_of_lt inside, target]
  split
  · apply Scribbled.blit building half mapped
    simp only [List.length_map, List.length_range]
    omega
  · exact .refl building

theorem loadPage_placed (building : Building live held space base mm lost) (image : Image)
    (ph : Phdr) (va : Nat) (half : tableIndex va 4 < 256) (aligned : va % pageSize = 0)
    (inside : va + pageSize < 2 ^ 64) :
    Placed live held lost space base va mm (loadPage space image ph mm va) := by
  unfold loadPage mapSegmentPage
  rcases building.alloc with ⟨nothing, none_⟩ | ⟨pa, pmm, taken, page, fresh, count, flying⟩
  · rw [nothing]
    exact .exhausted none_
  · obtain ⟨plain, word⟩ := elfFlagsToPte_plain ph.pFlags
    obtain ⟨zeroed, views⟩ := flying.scribble pa (fill mm.mem pa pageSize 0)
      (.inl (Set.mem_insert _ _)) fun place outside => fill_outside mm.mem pa pageSize 0 place outside
    have sameViews : ∀ path, Low path →
        view (fill mm.mem pa pageSize 0) space path = view mm.mem space path :=
      fun path low => views space path ⟨building.alive, low⟩
    have tables : missing (fill mm.mem pa pageSize 0) space [] (front va) =
        missing mm.mem space [] (front va) := by
      apply missing_congr
      rintro way ⟨rest, split⟩
      have low := low_front va half
      rw [← List.nil_append (front va), ← split] at low
      exact sameViews way low.front_of
    obtain ⟨ok, mapped, step, outcome⟩ := zeroed.map_flying fresh va (elfFlagsToPte ph.pFlags) half
      (page.leafArgs plain word)
    simp only [taken, page.nonzero, ↓reduceIte, zeroTable, step]
    rcases outcome with ⟨rfl, after, short⟩ | ⟨rfl, after, spent, here, domain⟩
    · exact .leaked pa mapped (by omega) (by simp only [tables] at short; omega) fresh after
    · simp only [tables, sameViews _ (low_full va half)] at spent after
      have copied := copyOverlap_scribbled after image ph half aligned inside here
      refine .placed _ (by rw [copied.pmm]; omega) copied.building ?_
      intro path low
      rw [copied.views space path ⟨building.alive, low⟩, domain path low, sameViews path low]

def Domain (mem : Nat → UInt8) (space : Nat) (placed : List Nat) : Prop :=
  ∀ path, Low path → (view mem space path ≠ none ↔
    path = [] ∨ ∃ va, va ∈ placed ∧ path <+: full va)

def UserPage (va : Nat) : Prop := va % pageSize = 0 ∧ va < 2 ^ 47

/-- The page tables that a page needs besides its frame: one for each size of
region (512 GiB, 1 GiB, 2 MiB) that no earlier page lies in. -/
def tablesNeeded (placed : List Nat) (va : Nat) : Nat :=
  ([39, 30, 21].filter fun bits => placed.all fun other => va / 2 ^ bits != other / 2 ^ bits).length

/-- With `free` pages and the pages in `placed` mapped, the loop over the rest
either stops because not even a data page is left, or maps a new page each time. -/
def Fits : Nat → List Nat → List Nat → Prop
  | _, _, [] => True
  | free, placed, va :: rest =>
      free = 0 ∨ (1 + tablesNeeded placed va ≤ free ∧ va ∉ placed ∧
        Fits (free - (1 + tablesNeeded placed va)) (va :: placed) rest)

instance Fits.decidable : (free : Nat) → (placed vas : List Nat) → Decidable (Fits free placed vas)
  | _, _, [] => isTrue trivial
  | free, placed, va :: rest =>
      have := Fits.decidable (free - (1 + tablesNeeded placed va)) (va :: placed) rest
      inferInstanceAs (Decidable (free = 0 ∨ (1 + tablesNeeded placed va ≤ free ∧ va ∉ placed ∧
        Fits (free - (1 + tablesNeeded placed va)) (va :: placed) rest)))

theorem UserPage.half {va : Nat} (user : UserPage va) : tableIndex va 4 < 256 :=
  tableIndex_low va user.2

theorem UserPage.full_inj {va other : Nat} (user : UserPage va) (otherUser : UserPage other) :
    full va = full other ↔ va = other := by
  obtain ⟨aligned, low⟩ := user
  obtain ⟨otherAligned, otherLow⟩ := otherUser
  rw [Vmm.full_inj va other (by omega) (by omega)]
  simp only [pageSize] at *
  omega

theorem region_paths (va other : Nat) (low : va < 2 ^ 47) (otherLow : other < 2 ^ 47) :
    ([tableIndex va 4] <+: full other ↔ va / 2 ^ 39 = other / 2 ^ 39) ∧
      ([tableIndex va 4, tableIndex va 3] <+: full other ↔ va / 2 ^ 30 = other / 2 ^ 30) ∧
      ([tableIndex va 4, tableIndex va 3, tableIndex va 2] <+: full other ↔
        va / 2 ^ 21 = other / 2 ^ 21) := by
  simp only [full, front, indices, List.cons_append, List.nil_append, List.cons_prefix_cons,
    List.nil_prefix, and_true, tableIndex_mod]
  omega

section Domain
variable {mem : Nat → UInt8} {placed : List Nat}

theorem Domain.absent (domain : Domain mem space placed) {path : List Nat} (low : Low path)
    (nonempty : path ≠ []) :
    view mem space path = none ↔ ∀ va, va ∈ placed → ¬ path <+: full va := by
  have used := domain path low
  constructor
  · intro none_ va member part
    exact used.mpr (.inr ⟨va, member, part⟩) none_
  · intro unused
    by_contra present
    rcases used.mp present with empty | ⟨va, member, part⟩
    · exact nonempty empty
    · exact unused va member part

theorem Domain.unmapped (domain : Domain mem space placed) (users : ∀ va, va ∈ placed → UserPage va)
    {va : Nat} (user : UserPage va) : view mem space (full va) = none ↔ va ∉ placed := by
  rw [domain.absent (low_full va user.half) (by simp [full])]
  constructor
  · intro unused member
    exact unused va member (List.prefix_refl _)
  · intro fresh other member part
    have same := part.eq_of_length (by simp [full])
    exact fresh ((user.full_inj (users other member)).mp same ▸ member)

theorem Domain.missing (domain : Domain mem space placed) (users : ∀ va, va ∈ placed → UserPage va)
    {va : Nat} (user : UserPage va) :
    Vmm.missing mem space [] (front va) = tablesNeeded placed va := by
  have low : Low [tableIndex va 4, tableIndex va 3, tableIndex va 2] := low_front va user.half
  have lowTwo : Low [tableIndex va 4, tableIndex va 3] :=
    Low.front_of (show Low ([tableIndex va 4, tableIndex va 3] ++ [tableIndex va 2]) from low)
  have lowOne : Low [tableIndex va 4] := low_single _ user.half
  have regions := fun other member => region_paths va other user.2 (users other member).2
  have top : view mem space [tableIndex va 4] = none ↔
      ∀ other, other ∈ placed → va / 2 ^ 39 ≠ other / 2 ^ 39 := by
    rw [domain.absent lowOne (by simp)]
    exact forall₂_congr fun other member => not_congr (regions other member).1
  have middle : view mem space [tableIndex va 4, tableIndex va 3] = none ↔
      ∀ other, other ∈ placed → va / 2 ^ 30 ≠ other / 2 ^ 30 := by
    rw [domain.absent lowTwo (by simp)]
    exact forall₂_congr fun other member => not_congr (regions other member).2.1
  have bottom : view mem space [tableIndex va 4, tableIndex va 3, tableIndex va 2] = none ↔
      ∀ other, other ∈ placed → va / 2 ^ 21 ≠ other / 2 ^ 21 := by
    rw [domain.absent low (by simp)]
    exact forall₂_congr fun other member => not_congr (regions other member).2.2
  simp only [Vmm.missing, front, indices, List.nil_append, List.cons_append, top, middle, bottom,
    tablesNeeded, List.filter_cons, List.filter_nil, List.all_eq_true, bne_iff_ne]
  split <;> split <;> split <;> rfl

theorem Domain.snoc (domain : Domain mem space placed) {after : Nat → UInt8} (va : Nat)
    (grown : ∀ path, Low path → (view after space path ≠ none ↔
      view mem space path ≠ none ∨ path <+: full va)) : Domain after space (va :: placed) := by
  intro path low
  rw [grown path low, domain path low]
  constructor
  · rintro ((empty | ⟨other, member, part⟩) | new)
    · exact .inl empty
    · exact .inr ⟨other, List.mem_cons_of_mem va member, part⟩
    · exact .inr ⟨va, List.mem_cons_self, new⟩
  · rintro (empty | ⟨other, member, part⟩)
    · exact .inl (.inl empty)
    · rcases List.mem_cons.mp member with rfl | old
      · exact .inr part
      · exact .inl (.inr ⟨other, old, part⟩)

end Domain

abbrev Item : Type := Nat × (Mm → Bool × Mm)

def runItems (mm : Mm) (items : List Item) : Bool × Mm := forEach (fun mm item => item.2 mm) mm items

def Places (live held : Set Nat) (space : Nat) (base : Mm) (item : Item) : Prop :=
  ∀ mm lost, Building live held space base mm lost →
    Placed live held lost space base item.1 mm (item.2 mm)

theorem runItems_append (mm : Mm) (first second : List Item) :
    runItems mm (first ++ second) =
      match runItems mm first with
      | (false, after) => (false, after)
      | (true, after) => runItems after second := by
  induction first generalizing mm with
  | nil => rfl
  | cons item rest ih =>
      simp only [runItems, List.cons_append, forEach]
      cases item.2 mm with
      | mk ok after =>
          cases ok with
          | false => rfl
          | true => exact ih after

theorem forEach_runItems {Outer : Type} (body : Mm → Outer → Bool × Mm) (items : Outer → List Item)
    (same : ∀ mm outer, body mm outer = runItems mm (items outer)) (mm : Mm) (outers : List Outer) :
    forEach body mm outers = runItems mm (outers.flatMap items) := by
  induction outers generalizing mm with
  | nil => rfl
  | cons outer rest ih =>
      rw [List.flatMap_cons, runItems_append, forEach, same]
      cases runItems mm (items outer) with
      | mk ok after =>
          cases ok with
          | false => rfl
          | true => exact ih after

theorem forEach_pages (body : Mm → Nat → Bool × Mm) (mm : Mm) (vas : List Nat) :
    forEach body mm vas = runItems mm (vas.map fun va => (va, fun mm => body mm va)) := by
  induction vas generalizing mm with
  | nil => rfl
  | cons va rest ih =>
      simp only [runItems, List.map_cons, forEach]
      cases body mm va with
      | mk ok after =>
          cases ok with
          | false => rfl
          | true => exact ih after

theorem replaced_iff (building : Building live held space base mm lost) {va : Nat}
    (user : UserPage va) :
    { page | page ∈ lost ∨ view mm.mem space (full va) = some page } = lost ↔
      view mm.mem space (full va) = none := by
  constructor
  · intro same
    cases mapped : view mm.mem space (full va) with
    | none => rfl
    | some frame =>
        -- A mapped frame is a name of the tree, so it was not in flight.
        have old : frame ∈ lost := by
          rw [← same]
          exact .inr mapped
        exact absurd mapped ((building.owned.apart frame (.inr old)).2.2 space (full va)
          ⟨building.alive, low_full va user.half⟩)
  · intro unmapped
    ext page
    simp [unmapped]

/-- What a whole loop does. Nothing in flight comes back, and nothing gets lost
exactly when the pages fit. -/
theorem runItems_building (items : List Item)
    (places : ∀ item, item ∈ items → Places live held space base item)
    (building : Building live held space base mm lost) :
    ∃ ok after gone, runItems mm items = (ok, after) ∧
      Building live held space base after gone ∧ lost ⊆ gone ∧
      ∀ placed, Domain mm.mem space placed →
        (∀ va, va ∈ items.map Prod.fst ++ placed → UserPage va) →
        (gone = lost ↔ Fits (freeCount mm.pmm) placed (items.map Prod.fst)) ∧
        (ok = true → Domain after.mem space ((items.map Prod.fst).reverse ++ placed) ∧
          (((items.map Prod.fst).reverse ++ placed).Nodup → gone = lost)) := by
  induction items generalizing mm lost with
  | nil =>
      refine ⟨true, mm, lost, rfl, building, subset_rfl, fun placed domain _ => ?_⟩
      exact ⟨by simp [Fits], fun _ => ⟨domain, fun _ => rfl⟩⟩
  | cons item rest ih =>
      obtain ⟨va, action⟩ := item
      have round : Placed live held lost space base va mm (action mm) :=
        places _ List.mem_cons_self mm lost building
      simp only [runItems, forEach, List.map_cons]
      generalize step : action mm = result at round
      cases round with
      | exhausted none_ =>
          refine ⟨false, mm, lost, rfl, building, subset_rfl, fun placed domain _ => ?_⟩
          exact ⟨by simp [Fits, none_], fun impossible => by cases impossible⟩
      | leaked pa after some_ short fresh flying =>
          refine ⟨false, after, insert pa lost, rfl, flying, Set.subset_insert pa lost,
            fun placed domain users => ⟨?_, fun impossible => by cases impossible⟩⟩
          have needed := domain.missing (fun other member => users other (by simp [member]))
            (users va (by simp))
          constructor
          · intro same
            exact absurd (same ▸ Set.mem_insert pa lost) fresh
          · rintro (none_ | ⟨enough, _⟩)
            · omega
            · omega
      | placed after spent flying grown =>
          obtain ⟨ok, final, gone, loop, done, more, account⟩ := ih
            (fun item member => places item (List.mem_cons_of_mem _ member)) flying
          have grows : lost ⊆ { page | page ∈ lost ∨ view mm.mem space (full va) = some page } :=
            fun page old => .inl old
          refine ⟨ok, final, gone, loop, done, grows.trans more, fun placed domain users => ?_⟩
          have placedUsers := fun other (member : other ∈ placed) => users other (by simp [member])
          have user := users va (by simp)
          have needed := domain.missing placedUsers user
          obtain ⟨fits, success⟩ := account (va :: placed) (domain.snoc va grown) (by
            intro other member
            refine users other ?_
            simp only [List.mem_append, List.mem_cons] at member ⊢
            tauto)
          have remap := (replaced_iff building user).trans (domain.unmapped placedUsers user)
          have split : gone = lost ↔ va ∉ placed ∧
              gone = { page | page ∈ lost ∨ view mm.mem space (full va) = some page } := by
            rw [← remap]
            constructor
            · intro same
              have back := Set.Subset.antisymm (same ▸ more) grows
              exact ⟨back, same.trans back.symm⟩
            · rintro ⟨back, same⟩
              exact same.trans back
          refine ⟨?_, fun good => ?_⟩
          · rw [split, fits, Fits, show freeCount after.pmm =
              freeCount mm.pmm - (1 + tablesNeeded placed va) by omega]
            constructor
            · rintro ⟨fresh, others⟩
              exact .inr ⟨by omega, fresh, others⟩
            · rintro (none_ | ⟨_, fresh, others⟩)
              · omega
              · exact ⟨fresh, others⟩
          · have order : (va :: rest.map Prod.fst).reverse ++ placed =
                (rest.map Prod.fst).reverse ++ va :: placed := by simp
            rw [order]
            refine ⟨(success good).1, fun distinct => ?_⟩
            rw [split]
            exact ⟨(List.nodup_cons.mp (List.nodup_append.mp distinct).2.1).1,
              (success good).2 distinct⟩

end Placing

end Shizuku.Process
