import Shizuku.KernelHalf

/-!
Virtual memory as a partial map from spaces and page numbers to frames and flags.
The runs create and destroy spaces and map and unmap pages, with frames taken
from the allocator; `frames` is the ghost set of pages that were taken and are
not mapped now. The abstract map is `pageMap`, and `map` and `unmap` change it at
one place or not at all.
-/

namespace Shizuku.Vmm

open ByteMemory WordMemory PointerForest Pmm Machine

def entryFlags (e : Nat) : Nat := e &&& (2 ^ 64 - 1 - pteAddrMask)

def pageMap (mm : Mm) (space page : Nat) : Option (Nat × Nat) :=
  (leafEntry mm.mem space (page * pageSize)).map fun e => (e &&& pteAddrMask, entryFlags e)

/-- The map read back as `translate` does. -/
def readMap (mm : Mm) (space va : Nat) : Nat :=
  match pageMap mm space (va / pageSize) with
  | none => 0
  | some (frame, _) => frame + va % pageSize

theorem leaf_flags {pa flags : Nat} (args : LeafArgs pa flags) :
    entryFlags (leafValue pa flags) = flags ||| pteP := by
  have all : pteAddrMask ||| (2 ^ 64 - 1 - pteAddrMask) = 2 ^ 64 - 1 := by decide
  have whole : flags &&& (2 ^ 64 - 1 - pteAddrMask) = flags := by
    have kept := Nat.and_two_pow_sub_one_eq_mod flags 64
    rw [← all, Nat.and_or_distrib_left, args.plain, Nat.zero_or, Nat.mod_eq_of_lt args.word] at kept
    exact kept
  rw [entryFlags, leafValue, Nat.and_or_distrib_right, Nat.and_or_distrib_right, whole, Nat.and_assoc,
    show pteAddrMask &&& (2 ^ 64 - 1 - pteAddrMask) = 0 by decide, Nat.and_zero, Nat.zero_or]
  rfl

theorem full_page (va : Nat) (below : va < 2 ^ 47) : full (va / pageSize * pageSize) = full va := by
  have start : va / pageSize * pageSize ≤ va := Nat.div_mul_le_self va pageSize
  rw [full_inj _ _ (by omega) (by omega), Nat.mul_div_cancel _ (by decide)]

theorem leafEntry_page (mem : Nat → UInt8) (space va : Nat) (below : va < 2 ^ 47) :
    leafEntry mem space (va / pageSize * pageSize) = leafEntry mem space va := by
  obtain ⟨table, last⟩ := List.append_inj' (full_page va below) rfl
  simp only [List.cons.injEq, and_true] at last
  rw [leafEntry, leafEntry, table, last]

theorem page_below (number : Nat) (small : number < 2 ^ 35) : number * pageSize < 2 ^ 47 := by
  simp only [pageSize]
  omega

theorem translate_readMap {mm : Mm} {live : Set Nat} (plain : PlainTables mm.mem live)
    (space va : Nat) (alive : space ∈ live) (below : va < 2 ^ 47) :
    translate mm space va = readMap mm space va := by
  rw [translate_leaf plain space va alive (tableIndex_low va below), readMap, pageMap, leafEntry_page _ _ _ below]
  cases leafEntry mm.mem space va <;> rfl

section Changes
variable {mm : Mm} {live held lost : Set Nat} {space : Nat}

theorem Extended.leafEntry_same {trail : List Nat} {before after : Nat → UInt8}
    (extended : Extended live space trail before after) (shallow : trail.length < 4)
    (other va : Nat) (alive : other ∈ live) (below : va < 2 ^ 47) :
    leafEntry after other va = leafEntry before other va := by
  have low := low_full va (tableIndex_low va below)
  have named : Named live other (front va) := ⟨alive, low.front_of⟩
  cases reached : view before other (front va) with
  | some tbl =>
      have kept := extended.kept other (front va) tbl named reached
      have entrySame := extended.entries other (front va) tbl (tableIndex va 1) ⟨alive, low⟩ reached
        (fun same => by
          have longer := same.2.length_le
          simp at longer
          omega)
      simp only [leafEntry, reached, kept, Option.bind_some, entrySame]
  | none =>
      -- A table that was just added maps nothing.
      have frames := extended.frame shallow other (full va) ⟨alive, low⟩ (by simp [full])
      rw [full, view_none_append before other _ [_] reached, ← full, ← leafEntry_view] at frames
      rw [Option.map_eq_none_iff.mp frames, leafEntry, reached]
      rfl

theorem leaf_store (owned : Owned mm live held) (alive : space ∈ live) (va value tbl : Nat)
    (below : va < 2 ^ 47) (word : value < 2 ^ 64)
    (reached : view mm.mem space (front va) = some tbl) :
    PlainTables (mm.setEntry tbl (tableIndex va 1) value).mem live ∧
      ∀ other at_, other ∈ live → at_ < 2 ^ 47 →
        leafEntry (mm.setEntry tbl (tableIndex va 1) value).mem other at_ =
          if other = space ∧ at_ / pageSize = va / pageSize then
            if value &&& pteP = 0 then none else some value
          else leafEntry mm.mem other at_ := by
  have low := low_full va (tableIndex_low va below)
  have named : Named live space (front va ++ [tableIndex va 1]) := ⟨alive, low⟩
  have tableNamed := named_closed live space (front va) [tableIndex va 1] named
  rw [Mm.setEntry_mem]
  have stored := view_store owned named reached word fun rest longer belongs =>
    (beyond_leaf (front_length va) rest longer belongs).elim
  have shorter : ∀ root path, Named live root path → path.length < 4 →
      view (write64 mm.mem (tbl + 8 * tableIndex va 1) value) root path = view mm.mem root path := by
    intro root path member short
    rw [stored root path member, if_neg]
    rintro ⟨_, rfl⟩
    simp at short
  constructor
  · intro root path node index member short found linked
    have part := named_closed live root path [index] member
    rw [shorter root path part (by omega)] at found
    have kept : entry (write64 mm.mem (tbl + 8 * tableIndex va 1) value) node index =
        entry mm.mem node index := by
      apply entry_elsewhere owned named reached root path node index member found
      rintro ⟨rfl, _⟩
      have same := (owned.unshared _ _ _ _ _ part tableNamed found reached).2
      rw [same, front_length] at short
      omega
    rw [child, kept] at linked
    rw [kept]
    exact owned.plain root path node index member short found linked
  · intro other at_ otherAlive otherBelow
    have otherLow := low_full at_ (tableIndex_low at_ otherBelow)
    have otherNamed : Named live other (front at_ ++ [tableIndex at_ 1]) := ⟨otherAlive, otherLow⟩
    have otherTable := named_closed live other (front at_) [tableIndex at_ 1] otherNamed
    have samePage : at_ / pageSize = va / pageSize ↔
        front at_ = front va ∧ tableIndex at_ 1 = tableIndex va 1 := by
      rw [← full_inj at_ va (by omega) (by omega)]
      constructor
      · intro same
        obtain ⟨table, last⟩ := List.append_inj' same rfl
        exact ⟨table, by simpa using last⟩
      · rintro ⟨table, last⟩
        rw [full, full, table, last]
    rw [leafEntry, leafEntry, shorter other (front at_) otherTable (by simp)]
    cases found : view mm.mem other (front at_) with
    | none =>
        have different : ¬ (other = space ∧ at_ / pageSize = va / pageSize) := by
          rintro ⟨rfl, page⟩
          rw [(samePage.mp page).1, reached] at found
          cases found
        rw [if_neg different, Option.bind_none, Option.bind_none]
    | some node =>
        simp only [Option.bind_some]
        by_cases same : node = tbl ∧ tableIndex at_ 1 = tableIndex va 1
        · obtain ⟨rfl, index⟩ := same
          obtain ⟨sameSpace, sameTable⟩ := owned.unshared _ _ _ _ _ otherTable tableNamed found reached
          have same : other = space ∧ at_ / pageSize = va / pageSize :=
            ⟨sameSpace, samePage.mpr ⟨sameTable, index⟩⟩
          rw [if_pos same, index, entry_setEntry mm.mem node _ value word]
        · have different : ¬ (other = space ∧ at_ / pageSize = va / pageSize) := by
            rintro ⟨rfl, page⟩
            obtain ⟨table, index⟩ := samePage.mp page
            rw [table, reached, Option.some.injEq] at found
            exact same ⟨found.symm, index⟩
          rw [if_neg different,
            entry_elsewhere owned named reached other (front at_) node _ otherNamed found same]

def Updated (live : Set Nat) (before after : Mm) (space page : Nat) (value : Option (Nat × Nat)) :
    Prop :=
  ∀ other number, other ∈ live → number < 2 ^ 35 → pageMap after other number =
    if other = space ∧ number = page then value else pageMap before other number

theorem map_updates (owned : Owned mm live held) (alive : space ∈ live) (va pa flags : Nat)
    (below : va < 2 ^ 47) (args : LeafArgs pa flags) :
    ∃ ok mapped, map mm space va pa flags = (ok, mapped) ∧ PlainTables mapped.mem live ∧
      (ok = true → Updated live mm mapped space (va / pageSize) (some (pa, flags ||| pteP))) ∧
      (ok = false → ∀ other number, other ∈ live → number < 2 ^ 35 →
        pageMap mapped other number = pageMap mm other number) := by
  obtain ⟨walked, done, extended, outcome⟩ :=
    map_cases (Building.refl owned alive) va pa flags (tableIndex_low va below) args
  have sameBefore : ∀ other number, other ∈ live → number < 2 ^ 35 →
      leafEntry walked.mem other (number * pageSize) = leafEntry mm.mem other (number * pageSize) :=
    fun other number live small =>
      extended.leafEntry_same (by simp) other _ live (page_below number small)
  rcases outcome with ⟨failed, _⟩ | ⟨last, mapped, reached, _, _⟩
  · refine ⟨false, walked, failed, done.owned.plain, by simp, fun _ other number member small => ?_⟩
    rw [pageMap, pageMap, sameBefore other number member small]
  · obtain ⟨bits, word⟩ := leaf_bits args
    obtain ⟨plain, entries⟩ := leaf_store done.owned alive va (leafValue pa flags) last below word
      reached
    refine ⟨true, _, mapped, plain, fun _ other number member small => ?_, by simp⟩
    rw [pageMap, entries other _ member (page_below number small), Nat.mul_div_cancel number (by decide)]
    by_cases same : other = space ∧ number = va / pageSize
    · have present : ¬ leafValue pa flags &&& pteP = 0 := by
        intro zero
        simp [entryChild, zero] at bits
      have address : leafValue pa flags &&& pteAddrMask = pa := by
        simpa [entryChild, present] using bits
      rw [if_pos same, if_pos same, if_neg present, Option.map_some, address, leaf_flags args]
    · rw [if_neg same, if_neg same, sameBefore other number member small]
      rfl

/-- The frame goes from its holder into the space, and one that it displaces goes back. -/
theorem map_owned {va pa flags : Nat} {ok : Bool} {after : Mm} (owned : Owned mm live held)
    (alive : space ∈ live) (below : va < 2 ^ 47) (mine : pa ∈ held) (page : Page pa)
    (args : LeafArgs pa flags) (done : map mm space va pa flags = (ok, after)) :
    after.kernelSpace = mm.kernelSpace ∧ Owned after live (if ok then
      { other | (other ∈ held ∨ view mm.mem space (full va) = some other) ∧ other ≠ pa } else held) := by
  obtain ⟨walked, built, extended, outcome⟩ :=
    map_cases (Building.refl owned alive) va pa flags (tableIndex_low va below) args
  have walkedOwned : Owned walked live held := by
    rw [← Set.union_empty held]
    exact built.owned
  have low : Named live space (full va) := ⟨alive, low_full va (tableIndex_low va below)⟩
  have frames := extended.frame (by simp) space (full va) low (by simp [full])
  rcases outcome with ⟨failed, _⟩ | ⟨last, mapped, reached, _, views⟩
  · rw [done, Prod.mk.injEq] at failed
    obtain ⟨rfl, rfl⟩ := failed
    exact ⟨built.kernel, walkedOwned⟩
  · rw [done, Prod.mk.injEq] at mapped
    obtain ⟨rfl, rfl⟩ := mapped
    obtain ⟨bits, wide⟩ := leaf_bits args
    have stored := walkedOwned.store low reached wide
      (fun start way member => by rw [views start way member, bits]; rfl)
      (fun other linked => by
        rw [bits, Option.some.injEq] at linked
        exact linked ▸ ⟨mine, page⟩)
      (fun short => by simp at short) (fun other _ short => by simp at short)
    refine ⟨built.kernel, stored.held_mono ?_⟩
    rintro other ⟨source, different⟩
    refine ⟨source.imp_right fun was => ?_, ?_⟩
    · rw [← full, frames]
      exact was
    · rw [bits, ne_eq, Option.some.injEq]
      exact fun same => different same.symm

theorem unmap_updates (owned : Owned mm live held) (alive : space ∈ live) (va : Nat)
    (below : va < 2 ^ 47) :
    ∃ ok unmapped, unmap mm space va = (ok, unmapped) ∧ PlainTables unmapped.mem live ∧
      (ok = true ↔ pageMap mm space (va / pageSize) ≠ none) ∧
      Updated live mm unmapped space (va / pageSize) none := by
  have mapped : pageMap mm space (va / pageSize) ≠ none ↔ view mm.mem space (full va) ≠ none := by
    rw [pageMap, leafEntry_page _ _ _ below, ← leafEntry_view]
    simp
  rcases unmap_cases owned space va alive (tableIndex_low va below) with
    ⟨refused, absent⟩ | ⟨tbl, frame, reached, present, done⟩
  · refine ⟨false, mm, refused, owned.plain, by rw [mapped, absent]; simp, ?_⟩
    intro other number member small
    split
    · rename_i same
      have none_ : pageMap mm space (va / pageSize) = none := by
        by_contra some_
        exact mapped.mp some_ absent
      rw [same.1, same.2, none_]
    · rfl
  · obtain ⟨plain, entries⟩ := leaf_store owned alive va 0 tbl below (by decide) reached
    refine ⟨true, _, done, plain, by rw [mapped, present]; simp, ?_⟩
    intro other number member small
    rw [pageMap, entries other _ member (page_below number small), Nat.mul_div_cancel number (by decide)]
    split
    · rfl
    · rfl

def SameElsewhere (live : Set Nat) (before after : Mm) (space va : Nat) : Prop :=
  ∀ other at_, other ∈ live → at_ < 2 ^ 47 →
    ¬ (other = space ∧ at_ / pageSize = va / pageSize) →
    translate after other at_ = translate before other at_

theorem page_number_below (va : Nat) (below : va < 2 ^ 47) : va / pageSize < 2 ^ 35 := by
  simp only [pageSize]
  omega

theorem translate_congr {before after : Mm} (plain : PlainTables before.mem live)
    (plainAfter : PlainTables after.mem live) (other at_ : Nat) (alive : other ∈ live)
    (below : at_ < 2 ^ 47)
    (same : pageMap after other (at_ / pageSize) = pageMap before other (at_ / pageSize)) :
    translate after other at_ = translate before other at_ := by
  rw [translate_readMap plain other at_ alive below,
    translate_readMap plainAfter other at_ alive below, readMap, readMap, same]

theorem Updated.elsewhere {before after : Mm} {va : Nat} {value : Option (Nat × Nat)}
    (updated : Updated live before after space (va / pageSize) value)
    (plain : PlainTables before.mem live) (plainAfter : PlainTables after.mem live) :
    SameElsewhere live before after space va := by
  intro other at_ alive below different
  apply translate_congr plain plainAfter other at_ alive below
  rw [updated other _ alive (page_number_below at_ below), if_neg different]

end Changes

/-! ### Runs -/

structure VmState where
  mm : Mm
  live : Set Nat
  frames : Set Nat

inductive Op where
  | allocPage
  | freePage (pa : Nat)
  | newSpace
  | map (space va pa flags : Nat)
  | unmap (space va : Nat)
  | destroySpace (space : Nat)

def step (vm : VmState) : Op → Outcome (Nat × VmState)
  | .allocPage =>
      let (pa, pmm) := allocPage vm.mm.pmm
      .ok (pa, { vm with
        mm := { vm.mm with pmm := pmm }
        frames := if pa = 0 then vm.frames else insert pa vm.frames })
  | .freePage pa =>
      .ok (0, { vm with
        mm := { vm.mm with pmm := freePage vm.mm.pmm pa }
        frames := vm.frames \ {pa} })
  | .newSpace =>
      let (space, mm) := newSpace vm.mm
      .ok (space, { vm with
        mm := mm
        live := if space = 0 then vm.live else insert space vm.live })
  | .map space va pa flags =>
      let (ok, mm) := map vm.mm space va pa flags
      -- A frame that loses its mapping is back with whoever took it.
      .ok (ok.toNat, { vm with
        mm := mm
        frames := if ok then
          { page | (page ∈ vm.frames ∨ view vm.mm.mem space (full va) = some page) ∧ page ≠ pa }
          else vm.frames })
  | .unmap space va =>
      let (ok, mm) := unmap vm.mm space va
      .ok (ok.toNat, { vm with
        mm := mm
        frames := { page | page ∈ vm.frames ∨ view vm.mm.mem space (full va) = some page } })
  | .destroySpace space =>
      .ok (0, { vm with mm := destroySpace vm.mm space, live := vm.live \ {space} })

/-- Calls on live spaces and low addresses, with frames that came from the allocator. -/
def Allowed (vm : VmState) : Op → Prop
  | .allocPage => True
  | .freePage pa => pa ∈ vm.frames
  | .newSpace => True
  | .map space va pa flags =>
      space ∈ vm.live ∧ va < 2 ^ 47 ∧ pa ∈ vm.frames ∧ flags &&& pteAddrMask = 0 ∧ flags < 2 ^ 64
  | .unmap space va => space ∈ vm.live ∧ va < 2 ^ 47
  | .destroySpace space => space ∈ vm.live ∧ space ≠ vm.mm.kernelSpace

def Booted (vm : VmState) : Prop :=
  ∃ pre cr3, Limine pre cr3 ∧
    vm = { mm := init pre cr3, live := {(init pre cr3).kernelSpace}, frames := ∅ }

structure Sound (vm : VmState) : Prop where
  owned : Owned vm.mm vm.live vm.frames
  kernel : vm.mm.kernelSpace ∈ vm.live
  pages : ∀ pa, pa ∈ vm.frames → Page pa

theorem booted_sound (vm : VmState) (booted : Booted vm) : Sound vm := by
  obtain ⟨pre, cr3, limine, rfl⟩ := booted
  have owned := (init_booted pre cr3 limine).1
  generalize init pre cr3 = mm at *
  exact ⟨owned.held_mono fun page member => absurd member (Set.notMem_empty page),
    Set.mem_singleton _, fun pa member => absurd member (Set.notMem_empty pa)⟩

section Steps
variable {vm after : VmState} {ret : Nat}

theorem map_sound {space va pa flags : Nat} (sound : Sound vm)
    (allowed : Allowed vm (.map space va pa flags))
    (done : step vm (.map space va pa flags) = .ok (ret, after)) : Sound after := by
  obtain ⟨owned, kernel, pages⟩ := sound
  obtain ⟨alive, below, mine, plain, word⟩ := allowed
  obtain ⟨⟨ok, mapped⟩, shape⟩ : ∃ both, map vm.mm space va pa flags = both := ⟨_, rfl⟩
  obtain ⟨sameKernel, left⟩ := map_owned owned alive below mine (pages pa mine)
    ((pages pa mine).leafArgs plain word) shape
  simp only [step, shape, Except.ok.injEq, Prod.mk.injEq] at done
  obtain ⟨_, rfl⟩ := done
  refine ⟨left, sameKernel ▸ kernel, fun page member => ?_⟩
  cases ok with
  | false => exact pages page member
  | true =>
      rcases member with ⟨old | was, _⟩
      · exact pages page old
      · exact (owned.valid space (full va) page ⟨alive, low_full va (tableIndex_low va below)⟩ was).1

theorem unmap_sound {space va : Nat} (sound : Sound vm) (allowed : Allowed vm (.unmap space va))
    (done : step vm (.unmap space va) = .ok (ret, after)) : Sound after := by
  obtain ⟨owned, kernel, pages⟩ := sound
  obtain ⟨alive, below⟩ := allowed
  have low : Named vm.live space (full va) := ⟨alive, low_full va (tableIndex_low va below)⟩
  have framePages : ∀ page, page ∈ vm.frames ∨ view vm.mm.mem space (full va) = some page →
      Page page := by
    rintro page (old | was)
    · exact pages page old
    · exact (owned.valid space (full va) page low was).1
  rcases unmap_cases owned space va alive (tableIndex_low va below) with
    ⟨refused, absent⟩ | ⟨tbl, frame, reached, present, cleared⟩
  · simp only [step, refused, Except.ok.injEq, Prod.mk.injEq] at done
    obtain ⟨_, rfl⟩ := done
    refine ⟨owned.held_mono ?_, kernel, framePages⟩
    rintro page (old | was)
    · exact old
    · rw [absent] at was
      cases was
  · simp only [step, cleared, Except.ok.injEq, Prod.mk.injEq] at done
    obtain ⟨_, rfl⟩ := done
    have views := view_store owned low reached (by decide : 0 < 2 ^ 64)
      fun rest longer belongs => (beyond_leaf (front_length va) rest longer belongs).elim
    have stored := owned.store low reached (by decide) views (fun page linked => by cases linked)
      (fun short => by simp at short) (fun page linked => by cases linked)
    exact ⟨stored.held_mono fun page source => ⟨source, by simp⟩, kernel, framePages⟩

end Steps

theorem step_sound (vm : VmState) (op : Op) (ret : Nat) (after : VmState) (sound : Sound vm)
    (allowed : Allowed vm op) (done : step vm op = .ok (ret, after)) : Sound after := by
  obtain ⟨owned, kernel, pages⟩ := sound
  cases op with
  | allocPage =>
      rcases allocPage_cases vm.mm.pmm with ⟨nothing, _⟩ | ⟨page, free, _, taken⟩
      · simp only [step, nothing, ↓reduceIte, Except.ok.injEq, Prod.mk.injEq] at done
        obtain ⟨_, rfl⟩ := done
        exact ⟨owned, kernel, pages⟩
      · have isPage := free_page owned page free
        simp only [step, taken, isPage.nonzero, ↓reduceIte, Except.ok.injEq, Prod.mk.injEq] at done
        obtain ⟨_, rfl⟩ := done
        refine ⟨owned.take page free, kernel, fun pa member => ?_⟩
        rcases member with rfl | old
        · exact isPage
        · exact pages pa old
  | freePage pa =>
      simp only [step, Except.ok.injEq, Prod.mk.injEq] at done
      obtain ⟨_, rfl⟩ := done
      exact ⟨(owned.release pa allowed (pages pa allowed)).2, kernel, fun other member =>
        pages other member.1⟩
  | newSpace =>
      rcases newSpace_cases owned kernel with ⟨nothing, _⟩ | ⟨page, mem, free, made, rooted, _⟩
      · simp only [step, nothing, ↓reduceIte, Except.ok.injEq, Prod.mk.injEq] at done
        obtain ⟨_, rfl⟩ := done
        exact ⟨owned, kernel, pages⟩
      · have isPage := free_page owned page free
        simp only [step, made, isPage.nonzero, ↓reduceIte, Except.ok.injEq, Prod.mk.injEq] at done
        obtain ⟨_, rfl⟩ := done
        exact ⟨rooted, .inr kernel, pages⟩
  | map space va pa flags => exact map_sound ⟨owned, kernel, pages⟩ allowed done
  | unmap space va => exact unmap_sound ⟨owned, kernel, pages⟩ allowed done
  | destroySpace space =>
      obtain ⟨alive, other⟩ := allowed
      simp only [step, Except.ok.injEq, Prod.mk.injEq] at done
      obtain ⟨_, rfl⟩ := done
      obtain ⟨_, _, _, left⟩ := owned.destroy space alive
      exact ⟨left, ⟨kernel, fun same => other (Set.mem_singleton_iff.mp same).symm⟩, pages⟩

theorem run_sound (start vm : VmState) (booted : Booted start) (run : Run step Allowed start vm) :
    Sound vm :=
  run_invariant step Allowed Sound step_sound run (booted_sound start booted)

/-- In every reachable state, `translate` reads the abstract map; `map` sets the
map at one place or, when the walk runs out of memory, changes no translation;
`unmap` removes a mapped page and touches no other. -/
theorem translations_refined (start vm : VmState) (booted : Booted start)
    (run : Run step Allowed start vm) :
    (∀ space va, space ∈ vm.live → va < 2 ^ 47 →
      translate vm.mm space va = readMap vm.mm space va) ∧
    (∀ space va pa flags, space ∈ vm.live → va < 2 ^ 47 → LeafArgs pa flags →
      ((map vm.mm space va pa flags).1 = true →
        Updated vm.live vm.mm (map vm.mm space va pa flags).2 space (va / pageSize)
            (some (pa, flags ||| pteP)) ∧
          translate (map vm.mm space va pa flags).2 space va = pa + va % pageSize ∧
          SameElsewhere vm.live vm.mm (map vm.mm space va pa flags).2 space va) ∧
      ((map vm.mm space va pa flags).1 = false →
        ∀ other at_, other ∈ vm.live → at_ < 2 ^ 47 →
          translate (map vm.mm space va pa flags).2 other at_ = translate vm.mm other at_)) ∧
    (∀ space va, space ∈ vm.live → va < 2 ^ 47 →
      ((unmap vm.mm space va).1 = true ↔ translate vm.mm space va ≠ 0) ∧
        Updated vm.live vm.mm (unmap vm.mm space va).2 space (va / pageSize) none ∧
        translate (unmap vm.mm space va).2 space va = 0 ∧
        SameElsewhere vm.live vm.mm (unmap vm.mm space va).2 space va) := by
  obtain ⟨owned, _, _⟩ := run_sound start vm booted run
  refine ⟨fun space va alive below => translate_readMap owned.plain space va alive below, ?_, ?_⟩
  · intro space va pa flags alive below args
    obtain ⟨ok, mapped, result, plain, changed, unchanged⟩ :=
      map_updates owned alive va pa flags below args
    rw [result]
    refine ⟨fun success => ?_, fun failure other at_ member small => ?_⟩
    · have updated := changed success
      refine ⟨updated, ?_, updated.elsewhere owned.plain plain⟩
      rw [translate_readMap plain space va alive below, readMap,
        updated space _ alive (page_number_below va below), if_pos ⟨rfl, rfl⟩]
    · exact translate_congr owned.plain plain other at_ member small
        (unchanged failure other _ member (page_number_below at_ small))
  · intro space va alive below
    obtain ⟨ok, unmapped, result, plain, hit, updated⟩ := unmap_updates owned alive va below
    rw [result]
    refine ⟨?_, updated, ?_, updated.elsewhere owned.plain plain⟩
    · -- Mapped frames are allocator pages, so a mapped address never translates to 0.
      rw [hit, translate_readMap owned.plain space va alive below, readMap]
      cases found : pageMap vm.mm space (va / pageSize) with
      | none => simp
      | some pair =>
          have frame : view vm.mm.mem space (full va) = some pair.1 := by
            rw [pageMap, leafEntry_page _ _ _ below] at found
            obtain ⟨e, leaf, rfl⟩ := Option.map_eq_some_iff.mp found
            rw [← leafEntry_view, leaf]
            rfl
          have nonzero :=
            (owned.valid space (full va) pair.1 ⟨alive, low_full va (tableIndex_low va below)⟩ frame).1.nonzero
          simp only [ne_eq, reduceCtorEq, not_false_eq_true, true_iff]
          omega
    · rw [translate_readMap plain space va alive below, readMap,
        updated space _ alive (page_number_below va below), if_pos ⟨rfl, rfl⟩]

theorem new_space_reachable (mm after : Mm) (space : Nat)
    (booted : Booted ⟨mm, {mm.kernelSpace}, ∅⟩) (made : newSpace mm = (space, after))
    (nonzero : space ≠ 0) :
    ∃ start vm, Booted start ∧ Run step Allowed start vm ∧ space ∈ vm.live ∧ vm.mm = after := by
  refine ⟨⟨mm, {mm.kernelSpace}, ∅⟩, ⟨after, insert space {mm.kernelSpace}, ∅⟩, booted, ?_,
    Set.mem_insert _ _, rfl⟩
  have taken : step ⟨mm, {mm.kernelSpace}, ∅⟩ .newSpace =
      .ok (space, ⟨after, insert space {mm.kernelSpace}, ∅⟩) := by
    simp only [step, made, nonzero, ↓reduceIte]
  exact Relation.ReflTransGen.single ⟨.newSpace, space, trivial, taken⟩

theorem translations_refined_second_space :
    ∃ start vm, Booted start ∧ Run step Allowed start vm ∧ 8192 ∈ vm.live ∧
      (map vm.mm 8192 0x400123 12288 (pteUs ||| pteRw)).1 = true ∧
      translate (map vm.mm 8192 0x400123 12288 (pteUs ||| pteRw)).2 8192 0x400123 =
        12288 + 0x123 := by
  have limine := blankMachine_wide
  have root : (newSpace (init (blankMachine (-2)) (2 ^ 29))).1 = 8192 := by decide +kernel
  obtain ⟨start, vm, booted, run, alive, shape⟩ := new_space_reachable
    (init (blankMachine (-2)) (2 ^ 29)) (newSpace (init (blankMachine (-2)) (2 ^ 29))).2 8192
    ⟨blankMachine (-2), 2 ^ 29, limine, rfl⟩ (by rw [← root]) (by decide)
  have mapped : (map vm.mm 8192 0x400123 12288 (pteUs ||| pteRw)).1 = true := by
    rw [shape]
    decide +kernel
  have args : LeafArgs 12288 (pteUs ||| pteRw) := ⟨by decide, by decide, by decide, by decide⟩
  have refined := (translations_refined start vm booted run).2.1 8192 0x400123 12288
    (pteUs ||| pteRw) alive (by decide) args
  exact ⟨start, vm, booted, run, alive, mapped, (refined.1 mapped).2.1⟩

end Shizuku.Vmm
