import Shizuku.HighImages

/-!
The user stack of a new process as flat memory. Its four pages lie side by side in
the address space and anywhere in physical memory; `ustackWrite` cuts what it
writes at page boundaries. Seen through the tables it is a plain `blit`.
-/

namespace Shizuku.Process

open ByteMemory WordMemory PointerForest Machine Pmm Vmm Elf Sched

def stackBase : Nat := userStackTop - userStackPages * pageSize

def InStack (va : Nat) : Prop := stackBase ≤ va ∧ va < userStackTop

theorem InStack.page {va : Nat} (inside : InStack va) : va / pageSize * pageSize ∈ stackVas := by
  obtain ⟨low, high⟩ := inside
  have base : stackBase = 0x6FFFFFFFC000 := by decide
  have top : userStackTop = 0x700000000000 := rfl
  have vas : stackVas = [0x6FFFFFFFC000, 0x6FFFFFFFD000, 0x6FFFFFFFE000, 0x6FFFFFFFF000] := by decide
  rw [base] at low
  rw [top] at high
  simp only [vas, List.mem_cons, List.not_mem_nil, or_false, pageSize]
  omega

theorem InStack.below {va : Nat} (inside : InStack va) : va < 2 ^ 47 :=
  inside.2.trans (by decide)

/-- The pages of the stack are mapped, in a space whose low half is its own. -/
structure Window (mm : Mm) (live held : Set Nat) (space : Nat) : Prop where
  owned : Owned mm live held
  alive : space ∈ live
  mapped : ∀ va, InStack va → ∃ frame, pageMap mm space (va / pageSize) = some (frame, dataFlags ||| pteP)

def stackMem (mm : Mm) (space va : Nat) : UInt8 := mm.mem (translate mm space va)

section Stack
variable {mm after : Mm} {live held : Set Nat} {space : Nat}

theorem stack_window (owned : Owned mm live held) (alive : space ∈ live)
    (done : forEach (mapDataPage space) mm stackVas = (true, after)) : Window after live held space := by
  rw [forEach_pages] at done
  have fills : ∀ va, va ∈ stackVas →
      Fills live held space (va, fun mm => mapDataPage space mm va) dataFlags (fun _ => 0) :=
    fun va member => (mapDataPage_fills alive va (stackVas_user va member).2).1
  obtain ⟨left, holds, _⟩ := runItems_filled _ alive (fun item member => by
    obtain ⟨va, page, rfl⟩ := List.mem_map.mp member
    exact ⟨_, _, fills va page⟩) (by
    rw [List.map_map]
    exact (by decide : (stackVas.map (· / pageSize)).Nodup)) owned done
  refine ⟨left, alive, fun va inside => ?_⟩
  obtain ⟨frame, mapped, _⟩ := holds _ (List.mem_map_of_mem inside.page) _ _ (fills _ inside.page)
  rw [Nat.mul_div_cancel _ (by decide)] at mapped
  exact ⟨frame, mapped⟩

section Writing
variable (window : Window mm live held space)
include window

theorem Window.frame {va : Nat} (inside : InStack va) :
    ∃ frame, pageMap mm space (va / pageSize) = some (frame, dataFlags ||| pteP) ∧ Page frame ∧
      NoTable mm live frame ∧ translate mm space va = frame + va % pageSize := by
  obtain ⟨frame, mapped⟩ := window.mapped va inside
  obtain ⟨page, _, noTable⟩ := window.owned.frame window.alive (page_number_below va inside.below) mapped
  refine ⟨frame, mapped, page, noTable, ?_⟩
  rw [translate_readMap window.owned.plain space va window.alive inside.below, readMap, mapped]

theorem Window.scribble {page : Nat} (mem : Nat → UInt8) (aligned : page % pageSize = 0)
    (noTable : NoTable mm live page)
    (outside : ∀ place, place < page ∨ page + pageSize ≤ place → mem place = mm.mem place) :
    Window { mm with mem := mem } live held space ∧
      ∀ va, InStack va → translate { mm with mem := mem } space va = translate mm space va := by
  -- Bytes of frames do not matter to the tables.
  obtain ⟨owned, same, _⟩ := window.owned.scribble page mem aligned noTable outside
  refine ⟨⟨owned, window.alive, fun va inside => ?_⟩, fun va inside => ?_⟩
  · rw [same space _ window.alive (page_number_below va inside.below)]
    exact window.mapped va inside
  · rw [translate_readMap owned.plain space va window.alive inside.below, readMap,
      same space _ window.alive (page_number_below va inside.below), ← readMap,
      ← translate_readMap window.owned.plain space va window.alive inside.below]

/-- A write inside one page, seen by virtual address. -/
theorem Window.blit {dst : Nat} (inside : InStack dst) (data : List UInt8)
    (fits : dst % pageSize + data.length ≤ pageSize) :
    Window { mm with mem := ByteMemory.blit mm.mem (translate mm space dst) data } live held space ∧
      ∀ va, InStack va →
        stackMem { mm with mem := ByteMemory.blit mm.mem (translate mm space dst) data } space va =
          ByteMemory.blit (stackMem mm space) dst data va := by
  have size : pageSize = 4096 := rfl
  obtain ⟨frame, mapped, page, noTable, target⟩ := window.frame inside
  obtain ⟨written, same⟩ := window.scribble (ByteMemory.blit mm.mem (translate mm space dst) data)
    page.aligned noTable fun place outside => blit_outside _ _ _ _ (by rw [target]; omega)
  refine ⟨written, fun va here => ?_⟩
  rw [stackMem, same va here]
  obtain ⟨other, otherMapped, otherPage, _, read⟩ := window.frame here
  by_cases equal : va / pageSize = dst / pageSize
  · -- Offsets in the page and addresses differ by the same amount.
    obtain rfl : other = frame := by
      rw [equal, mapped] at otherMapped
      exact (Prod.mk.inj (Option.some.inj otherMapped)).1.symm
    rw [size] at equal read target
    have order : other + dst % 4096 ≤ other + va % 4096 ↔ dst ≤ va := by omega
    have distance : other + va % 4096 - (other + dst % 4096) = va - dst := by omega
    simp only [ByteMemory.blit, stackMem, read, target, order, distance]
  · have apart : va < dst ∨ dst + data.length ≤ va := by
      rw [size] at equal fits
      omega
    rw [blit_outside (stackMem mm space) dst data va apart]
    apply blit_outside
    -- The frames of two pages are two pages.
    have different : other ≠ frame := by
      rintro rfl
      exact equal (window.owned.frame_inj window.alive (page_number_below va here.below)
        (page_number_below dst inside.below) otherMapped mapped)
    have pages := pages_apart _ _ otherPage.aligned page.aligned different
    rw [size] at fits pages read target
    omega

end Writing

theorem ustackWrite_window (window : Window mm live held space) (dst : Nat) (src : List UInt8)
    (low : stackBase ≤ dst) (high : dst + src.length ≤ userStackTop) :
    ∃ after, ustackWrite mm space dst src = (true, after) ∧ Window after live held space ∧
      ∀ va, InStack va → stackMem after space va = blit (stackMem mm space) dst src va := by
  fun_induction ustackWrite mm space dst src with
  | case1 mm dst => exact ⟨mm, rfl, window, fun va _ => by rw [blit_nil]⟩
  | case2 mm dst src nonempty pa missing =>
      have positive := List.length_pos_iff.mpr nonempty
      obtain ⟨frame, _, page, _, target⟩ := window.frame (show InStack dst from ⟨low, by omega⟩)
      have nonzero := page.nonzero
      exact absurd (target.symm.trans missing) (by omega)
  | case3 mm dst src nonempty pa present chunk ih =>
      have positive := List.length_pos_iff.mpr nonempty
      have offset : dst % pageSize < pageSize := Nat.mod_lt _ (by decide)
      have fits : chunk ≤ src.length ∧ dst % pageSize + chunk ≤ pageSize := by omega
      have length : (src.take chunk).length = chunk := by
        rw [List.length_take]
        omega
      have top : userStackTop < 2 ^ 64 := by decide
      have next : (dst + chunk) % 2 ^ 64 = dst + chunk := Nat.mod_eq_of_lt (by omega)
      obtain ⟨written, bytes⟩ := window.blit (show InStack dst from ⟨low, by omega⟩) (src.take chunk)
        (by rw [length]; omega)
      rw [next] at ih ⊢
      obtain ⟨after, rest, kept, others⟩ := ih written (by omega) (by
        rw [List.length_drop]
        omega)
      refine ⟨after, rest, kept, fun va here => ?_⟩
      rw [others va here, blit_congr _ _ _ _ va (bytes va here)]
      have whole := blit_append (stackMem mm space) dst (src.take chunk) (src.drop chunk) va
      rw [length, List.take_append_drop] at whole
      exact whole

end Stack

end Shizuku.Process
