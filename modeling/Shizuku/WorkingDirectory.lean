import Shizuku.Syscalls
import Shizuku.TmpfsPaths

/-!
`sys_chdir`. The call looks the path up and then rebuilds it as text for the
working directory: a buffer of 96 bytes, a length `n`, components appended behind a
slash, `..` by stepping back to the last slash. The rebuilt text is compared with
the path through the components that both stand for.
-/

namespace Shizuku.Syscalls

open ByteMemory Machine Tmpfs Sched

def cwdSize : Nat := 96

def backToSlash (out : Nat → UInt8) : Nat → Nat
  | 0 => 0
  | n + 1 => if out (n + 1) ≠ slash then backToSlash out n else n + 1

/-- The new length after `..`; a slash that is met stays in the text. -/
def stepBack (out : Nat → UInt8) (n : Nat) : Nat :=
  if 0 < n then
    let back := backToSlash out (n - 1)
    if 0 < back then back + 1 else back
  else n

def rebuild (out : Nat → UInt8) (n : Nat) (bytes : List UInt8) :
    Outcome (Option ((Nat → UInt8) × Nat)) :=
  if stop : skipSlashes bytes = [] then .ok (some (out, n))
  else
    let comp := component (skipSlashes bytes)
    let rest := afterComponent (skipSlashes bytes)
    have : (afterComponent (skipSlashes bytes)).length < bytes.length :=
      afterComponent_length bytes stop
    if comp = dot then rebuild out n rest
    else if comp = dotDot then do
      index cwdSize (n - 1)
      let back := stepBack out n
      index cwdSize back
      rebuild (blit out back [0]) back rest
    else do
      index cwdSize n
      let opened := blit out n [slash]
      let len := n + 1 + comp.length
      if cwdSize - 1 ≤ len then return none
      range cwdSize (n + 1) len
      index cwdSize len
      rebuild (blit (blit opened (n + 1) comp) len [0]) len rest
termination_by bytes.length

def bufStr (out : Nat → UInt8) (size : Nat) : List UInt8 :=
  strOr [] ((slice out 0 size).takeWhile (· != 0))

def System.setCwd (s : System) (tid : Nat) (cwd : List UInt8) : System :=
  let changed := (s.threads tid).setCwd cwd
  { s with threads := fun key => if key = tid then changed else s.threads key }

def sysChdir (s : System) (tid : Nat) (user : Nat → UInt8) (rdi : BitVec 64) :
    Outcome (Ret × System) :=
  match absPath user (s.threads tid) rdi.toNat with
  | none => .ok (.failed, s)
  | some path => do
      let id ← lookup s.fs path
      if id < 0 ∨ nodeType s.fs id ≠ .dir then return (.failed, s)
      match ← rebuild (fun _ => 0) 0 (path.drop 1) with
      | none => return (.failed, s)
      | some (out, n) =>
          let text := if n = 0 then blit (blit out 0 [slash]) 1 [0] else out
          return (⟨0, []⟩, s.setCwd tid (bufStr text cwdSize))

theorem utf8Tail_high (lead : UInt8) (expected : List (UInt8 × UInt8))
    (known : utf8Tail lead = some expected) : ∀ bounds ∈ expected, 0x80 ≤ bounds.1 := by
  unfold utf8Tail at known
  repeat' split at known
  all_goals cases known <;> simp

/-- No continuation byte is an ASCII byte, so such a byte cuts a valid text into two. -/
theorem validUtf8_ascii (expected : List (UInt8 × UInt8)) (left right : List UInt8) (ascii : UInt8)
    (small : ascii < 0x80) (high : ∀ bounds ∈ expected, 0x80 ≤ bounds.1) :
    validUtf8 expected (left ++ ascii :: right) =
      (validUtf8 expected left && validUtf8 [] right) := by
  induction left generalizing expected with
  | nil =>
      cases expected with
      | nil => simp [validUtf8, utf8Tail, small]
      | cons bounds rest =>
          have low : ¬ bounds.1 ≤ ascii := fun below =>
            absurd (UInt8.le_trans (high bounds List.mem_cons_self) below) (UInt8.not_le.mpr small)
          simp [validUtf8, low]
  | cons byte left ih =>
      cases expected with
      | nil =>
          simp only [List.cons_append, validUtf8]
          cases known : utf8Tail byte with
          | none => simp
          | some tail => exact ih tail (utf8Tail_high byte tail known)
      | cons bounds rest =>
          simp only [List.cons_append, validUtf8]
          rw [ih rest fun other member => high other (List.mem_cons_of_mem _ member)]
          simp only [Bool.and_assoc]

def Text (bytes : List UInt8) : Prop := 0 ∉ bytes ∧ validUtf8 [] bytes = true

instance (bytes : List UInt8) : Decidable (Text bytes) := inferInstanceAs (Decidable (_ ∧ _))

theorem text_slash (left right : List UInt8) :
    Text (left ++ slash :: right) ↔ Text left ∧ Text right := by
  have zero : (0 : UInt8) ≠ slash := by decide
  simp only [Text, validUtf8_ascii [] left right slash (by decide) (by simp), Bool.and_eq_true, List.mem_append,
    List.mem_cons, zero, false_or, not_or]
  tauto

theorem text_skipSlashes (bytes : List UInt8) (text : Text bytes) : Text (skipSlashes bytes) := by
  induction bytes with
  | nil => exact text
  | cons byte rest ih =>
      by_cases hit : byte = slash
      · subst hit
        exact ih ((text_slash [] rest).mp text).2
      · simpa [skipSlashes, hit] using text

theorem text_component (bytes : List UInt8) (text : Text bytes) :
    Text (component bytes) ∧ Text (afterComponent bytes) := by
  obtain ⟨_, ⟨whole, last⟩ | ⟨rest, parts, after⟩⟩ := component_split bytes
  · rw [last, ← whole]
    exact ⟨text, by simp [Text, validUtf8]⟩
  · rw [parts] at text
    obtain ⟨left, right⟩ := (text_slash _ _).mp text
    exact ⟨left, after ▸ (text_slash [] rest).mpr ⟨by simp [Text, validUtf8], right⟩⟩

structure Name (comp : List UInt8) : Prop where
  present : comp ≠ []
  whole : slash ∉ comp
  text : Text comp
  ordinary : Ordinary comp

/-- The texts that the loop leaves in the buffer, with their components; the flag says
that the text ends in a slash. -/
inductive Written : List UInt8 → List (List UInt8) → Bool → Prop
  | empty : Written [] [] false
  | name (text : List UInt8) (stack : List (List UInt8)) (slashed : Bool) (comp : List UInt8)
      (before : Written text stack slashed) (named : Name comp) :
      Written (text ++ slash :: comp) (stack ++ [comp]) false
  | back (text : List UInt8) (stack : List (List UInt8)) (slashed : Bool)
      (before : Written text stack slashed) (present : text ≠ []) :
      Written (text ++ [slash]) stack true

theorem Written.components {text : List UInt8} {stack : List (List UInt8)} {slashed : Bool}
    (written : Written text stack slashed) : Tmpfs.components text = stack := by
  induction written with
  | empty => exact components_stop [] rfl
  | name text stack slashed comp before named ih =>
      rw [components_slash, ih, components_name comp named.present named.whole]
  | back text stack slashed before present ih =>
      rw [components_slash, ih, components_stop [] rfl, List.append_nil]

theorem Written.text {text : List UInt8} {stack : List (List UInt8)} {slashed : Bool}
    (written : Written text stack slashed) : Text text := by
  have nothing : Text [] := by simp [Text, validUtf8]
  induction written with
  | empty => exact nothing
  | name text stack slashed comp before named ih => exact (text_slash _ _).mpr ⟨ih, named.text⟩
  | back text stack slashed before present ih => exact (text_slash _ _).mpr ⟨ih, nothing⟩

theorem Written.names {text : List UInt8} {stack : List (List UInt8)} {slashed : Bool}
    (written : Written text stack slashed) : ∀ comp ∈ stack, Ordinary comp := by
  induction written with
  | empty => simp
  | name text stack slashed comp before named ih =>
      intro other member
      rcases List.mem_append.mp member with old | new
      · exact ih other old
      · rw [List.mem_singleton.mp new]
        exact named.ordinary
  | back text stack slashed before present ih => exact ih

theorem Written.empty_iff {text : List UInt8} {stack : List (List UInt8)} {slashed : Bool}
    (written : Written text stack slashed) : text = [] ↔ stack = [] := by
  induction written with
  | empty => simp
  | name text stack slashed comp before named ih => simp
  | back text stack slashed before present ih => simpa [present] using ih.not.mp present

structure Held (out : Nat → UInt8) (n : Nat) (text : List UInt8) : Prop where
  held : slice out 0 n = text
  ended : out n = 0
  fits : n < cwdSize - 1

theorem Held.length {out : Nat → UInt8} {n : Nat} {text : List UInt8} (buffer : Held out n text) :
    text.length = n := by
  rw [← buffer.held, slice_length]

theorem slice_append (out : Nat → UInt8) (n : Nat) (data : List UInt8) :
    slice (blit out n data) 0 (n + data.length) = slice out 0 n ++ data := by
  have split : slice (blit out n data) 0 (n + data.length) =
      slice (blit out n data) 0 n ++ slice (blit out n data) n data.length := by
    simp only [slice, List.range_add, List.map_append, List.map_map, Nat.zero_add]
    rfl
  rw [split, slice_blit_disjoint out n 0 n data (by omega), slice_blit_all]

theorem Held.append {out : Nat → UInt8} {n : Nat} {text : List UInt8} (buffer : Held out n text)
    (comp : List UInt8) (fits : n + 1 + comp.length < cwdSize - 1) :
    Held (blit (blit (blit out n [slash]) (n + 1) comp) (n + 1 + comp.length) [0])
      (n + 1 + comp.length) (text ++ slash :: comp) := by
  refine ⟨?_, by simp [blit], fits⟩
  rw [slice_blit_disjoint _ _ _ _ _ (by omega), slice_append]
  have opened := slice_append out n [slash]
  rw [List.length_singleton] at opened
  rw [opened, buffer.held]
  simp

theorem Held.cut {out : Nat → UInt8} {n : Nat} {text : List UInt8} (buffer : Held out n text)
    (len : Nat) (shorter : len ≤ n) : Held (blit out len [0]) len (text.take len) := by
  refine ⟨?_, by simp [blit], Nat.lt_of_le_of_lt shorter buffer.fits⟩
  rw [slice_blit_disjoint _ _ _ _ _ (by omega), ← buffer.held]
  simp [slice, ← List.map_take, List.take_range, Nat.min_eq_left shorter]

theorem backToSlash_at (out : Nat → UInt8) (place m : Nat) (inside : place ≤ m)
    (hit : place = 0 ∨ out place = slash) (clear : ∀ i, place < i → i ≤ m → out i ≠ slash) :
    backToSlash out m = place := by
  induction m with
  | zero =>
      rw [Nat.le_zero.mp inside]
      rfl
  | succ m ih =>
      rcases Nat.lt_or_eq_of_le inside with further | rfl
      · rw [backToSlash, if_pos (clear (m + 1) further (Nat.le_refl _))]
        exact ih (Nat.lt_succ_iff.mp further) fun i low high =>
          clear i low (Nat.le_succ_of_le high)
      · have met : out (m + 1) = slash := hit.resolve_left (Nat.succ_ne_zero m)
        rw [backToSlash, if_neg (not_not.mpr met)]

theorem stepBack_text {out : Nat → UInt8} {n : Nat} {text comp : List UInt8}
    (buffer : Held out n (text ++ slash :: comp)) (whole : slash ∉ comp) :
    stepBack out n = if text = [] then 0 else text.length + 1 := by
  have length := buffer.length
  rw [List.length_append, List.length_cons] at length
  have at_ : ∀ i, i < n → (text ++ slash :: comp)[i]? = some (out i) := by
    intro i inside
    rw [← buffer.held, slice_getElem?, if_pos inside, Nat.zero_add]
  have hit : out text.length = slash := by
    have read := at_ text.length (by omega)
    simpa using read.symm
  have back : backToSlash out (n - 1) = text.length := by
    refine backToSlash_at out text.length (n - 1) (by omega) (.inr hit) fun i low high met => ?_
    have read := at_ i (by omega)
    rw [List.getElem?_append_right (by omega), List.getElem?_cons, if_neg (by omega), met] at read
    exact whole (List.mem_of_getElem? read)
  rw [stepBack, if_pos (by omega), back]
  by_cases first : text = []
  · simp [first]
  · simp [first, List.length_pos_iff.mpr first]

def plainStep (stack : List (List UInt8)) (comp : List UInt8) : List (List UInt8) :=
  if comp = dot then stack else if comp = dotDot then stack.dropLast else stack ++ [comp]

def plain (comps : List (List UInt8)) : List (List UInt8) := comps.foldl plainStep []

/-- What the loop makes of them: behind a slash that an earlier `..` left, `..` is lost. -/
def textStep (state : List (List UInt8) × Bool) (comp : List UInt8) : List (List UInt8) × Bool :=
  if comp = dot then state
  else if comp = dotDot then
    if state.2 then state
    else if state.1.length ≤ 1 then ([], false)
    else (state.1.dropLast, true)
  else (state.1 ++ [comp], false)

theorem written_back {out : Nat → UInt8} {n : Nat} {text : List UInt8}
    {stack : List (List UInt8)} {slashed : Bool} (buffer : Held out n text)
    (written : Written text stack slashed) :
    ∃ kept, Held (blit out (stepBack out n) [0]) (stepBack out n) kept ∧
      Written kept (textStep (stack, slashed) dotDot).1 (textStep (stack, slashed) dotDot).2 := by
  have other : dotDot ≠ dot := by decide
  cases written with
  | empty =>
      have zero : n = 0 := buffer.length.symm
      subst zero
      refine ⟨[], ?_, by simpa [textStep, other] using Written.empty⟩
      exact buffer.cut 0 (Nat.le_refl 0)
  | name text stack before comp earlier named =>
      have back := stepBack_text buffer named.whole
      have length := buffer.length
      rw [List.length_append, List.length_cons] at length
      by_cases first : text = []
      · have bottom := earlier.empty_iff.mp first
        rw [back, if_pos first]
        refine ⟨[], buffer.cut 0 (by omega), ?_⟩
        simpa [textStep, other, bottom] using Written.empty
      · have more := earlier.empty_iff.not.mp first
        have taken : (text ++ slash :: comp).take (text.length + 1) = text ++ [slash] := by
          simp [List.take_append]
        rw [back, if_neg first]
        refine ⟨text ++ [slash], taken ▸ buffer.cut (text.length + 1) (by omega), ?_⟩
        simpa [textStep, other, more] using Written.back text stack before earlier first
  | back text _ before earlier present =>
      have back := stepBack_text buffer (by simp)
      have length := buffer.length
      rw [List.length_append, List.length_singleton] at length
      have same := buffer.cut n (Nat.le_refl n)
      rw [List.take_of_length_le (by simp; omega)] at same
      rw [back, if_neg present, length]
      refine ⟨text ++ [slash], same, ?_⟩
      simpa [textStep, other] using Written.back text stack before earlier present

theorem rebuild_written (bytes : List UInt8) (out : Nat → UInt8) (n : Nat) (text : List UInt8)
    (state : List (List UInt8) × Bool) (clean : Text bytes) (buffer : Held out n text)
    (written : Written text state.1 state.2) :
    rebuild out n bytes = .ok none ∨
      ∃ built len final, rebuild out n bytes = .ok (some (built, len)) ∧ Held built len final ∧
        Written final ((components bytes).foldl textStep state).1
          ((components bytes).foldl textStep state).2 := by
  fun_induction components bytes generalizing out n text state with
  | case1 bytes stop =>
      refine .inr ⟨out, n, text, ?_, buffer, written⟩
      rw [rebuild]
      exact dif_pos stop
  | case2 bytes more _ ih =>
      have start := text_skipSlashes bytes clean
      obtain ⟨first, rest⟩ := text_component _ start
      have whole := (component_split (skipSlashes bytes)).1
      generalize known : component (skipSlashes bytes) = comp at *
      rw [rebuild, dif_neg more]
      simp only [known, List.foldl_cons]
      by_cases stay : comp = dot
      · have same : textStep state comp = state := if_pos stay
        rw [if_pos stay, same]
        exact ih out n text state rest buffer written
      rw [if_neg stay]
      have low := buffer.fits
      by_cases up : comp = dotDot
      · obtain ⟨kept, shorter, still⟩ := written_back buffer written
        have before : index cwdSize (n - 1) = .ok () := (index_ok _ _ _).mpr (by omega)
        have after : index cwdSize (stepBack out n) = .ok () :=
          (index_ok _ _ _).mpr (by have := shorter.fits; omega)
        rw [if_pos up, before, ok_bind, after, ok_bind, up]
        exact ih _ _ kept (textStep state dotDot) rest shorter still
      · have appended : textStep state comp = (state.1 ++ [comp], false) := by
          rw [textStep, if_neg stay, if_neg up]
        have opening : index cwdSize n = .ok () := (index_ok _ _ _).mpr (by omega)
        rw [if_neg up, opening, ok_bind]
        by_cases long : cwdSize - 1 ≤ n + 1 + comp.length
        · exact .inl (if_pos long)
        · have copied : range cwdSize (n + 1) (n + 1 + comp.length) = .ok () :=
            (range_ok _ _ _ _).mpr (by omega)
          have ended : index cwdSize (n + 1 + comp.length) = .ok () :=
            (index_ok _ _ _).mpr (by omega)
          have present : comp ≠ [] := known ▸ component_present bytes more
          rw [if_neg long, copied, ok_bind, ended, ok_bind]
          refine ih _ _ (text ++ slash :: comp) (textStep state comp) rest
            (buffer.append comp (by omega)) ?_
          rw [appended]
          exact .name text state.1 state.2 comp written ⟨present, whole, first, stay, up⟩

theorem walk_plain (fs : Fs) (comps stack : List (List UInt8)) (cur id : Nat)
    (names : ∀ comp ∈ stack, Ordinary comp) (reached : walk fs 0 stack = .ok (some cur))
    (walked : walk fs cur comps = .ok (some id)) :
    (∀ comp ∈ comps.foldl plainStep stack, Ordinary comp) ∧
      walk fs 0 (comps.foldl plainStep stack) = .ok (some id) := by
  -- What a path means, it means without its dots.
  induction comps generalizing stack cur with
  | nil =>
      cases walked
      exact ⟨names, reached⟩
  | cons comp rest ih =>
      rw [List.foldl_cons]
      by_cases stay : comp = dot
      · have same : plainStep stack comp = stack := if_pos stay
        rw [walk, enter, if_pos stay, ok_bind] at walked
        rw [same]
        exact ih stack cur names reached walked
      by_cases up : comp = dotDot
      · have popped : plainStep stack comp = stack.dropLast := by rw [plainStep, if_neg stay, if_pos up]
        rw [popped]
        cases stack using List.reverseRecOn with
        | nil =>
            cases reached
            rw [walk, enter, if_neg stay, if_pos up, if_neg (by simp), ok_bind] at walked
            exact ih [] 0 names rfl walked
        | append_singleton stack last =>
            obtain ⟨nonroot, above, _⟩ := walk_snoc fs stack last cur (names last (by simp)) reached
            obtain ⟨_, done, grounded⟩ := walk_grounded fs 0 (stack ++ [last]) .root
            rw [reached, Except.ok.injEq] at done
            have read := nodeAt_grounded fs cur (grounded cur done.symm)
            rw [walk, enter, if_neg stay, if_pos up, if_pos nonroot, read] at walked
            rw [List.dropLast_concat]
            exact ih stack _ (fun comp member => names comp (List.mem_append_left _ member)) above
              walked
      · have pushed : plainStep stack comp = stack ++ [comp] := by
          rw [plainStep, if_neg stay, if_neg up]
        rw [pushed]
        obtain ⟨entered, next, more⟩ := (bind_ok _ _ _).mp walked
        cases entered with
        | none => cases more
        | some node =>
            refine ih (stack ++ [comp]) node ?_ ?_ more
            · intro other member
              rcases List.mem_append.mp member with old | new
              · exact names other old
              · rw [List.mem_singleton.mp new]
                exact ⟨stay, up⟩
            · simp only [walk_append, reached, ok_bind, walk, next]

/-! ### When the two meanings agree -/

/-- Two `..` follow each other only where the first has led to the root. -/
def ParentsApart (comps : List (List UInt8)) : Prop :=
  ∀ before rest, comps = before ++ dotDot :: dotDot :: rest → plain (before ++ [dotDot]) = []

theorem parentsApart_snoc (comps : List (List UInt8)) (comp : List UInt8) :
    ParentsApart (comps ++ [comp]) ↔ ParentsApart comps ∧
      (comp = dotDot → comps.getLast? = some dotDot → plain comps = []) := by
  constructor
  · intro apart
    refine ⟨fun before rest parts => apart before (rest ++ [comp]) (by simp [parts]), ?_⟩
    rintro rfl last
    obtain ⟨before, rfl⟩ := List.getLast?_eq_some_iff.mp last
    exact apart before [] (by simp)
  · rintro ⟨apart, last⟩ before rest parts
    cases rest using List.reverseRecOn with
    | nil =>
        have split : comps ++ [comp] = (before ++ [dotDot]) ++ [dotDot] := by simp [parts]
        obtain ⟨rfl, same⟩ := List.append_inj' split rfl
        exact last (List.singleton_inj.mp same) (by simp)
    | append_singleton rest final =>
        have split : comps ++ [comp] = (before ++ dotDot :: dotDot :: rest) ++ [final] := by
          simp [parts]
        exact apart before rest (List.append_inj' split rfl).1

theorem foldl_dots {State : Type} (step : State → List UInt8 → State)
    (stays : ∀ state, step state dot = state) (comps : List (List UInt8)) (state : State) :
    comps.foldl step state = (comps.filter (· ≠ dot)).foldl step state := by
  induction comps generalizing state with
  | nil => rfl
  | cons comp rest ih =>
      by_cases stay : comp = dot
      · simp [stay, stays, ih]
      · simp [stay, ih]

structure Behind (state : List (List UInt8) × Bool) (stack : List (List UInt8)) : Prop where
  longer : stack.length < state.1.length
  slashed : stack = [] → state.2 = true

theorem behind_step (state : List (List UInt8) × Bool) (stack : List (List UInt8))
    (comp : List UInt8) (behind : Behind state stack) :
    Behind (textStep state comp) (plainStep stack comp) := by
  have longer := behind.longer
  unfold textStep plainStep
  by_cases stay : comp = dot
  · simpa [stay] using behind
  by_cases up : comp = dotDot
  · simp only [if_neg stay, if_pos up]
    by_cases slashed : state.2 = true
    · rw [if_pos slashed]
      exact ⟨by rw [List.length_dropLast]; omega, fun _ => slashed⟩
    · have present : 0 < stack.length := List.length_pos_iff.mpr fun empty =>
        slashed (behind.slashed empty)
      rw [if_neg slashed, if_neg (by omega)]
      exact ⟨by simp only [List.length_dropLast]; omega, fun _ => rfl⟩
  · simp only [if_neg stay, if_neg up]
    exact ⟨by simpa using longer, by simp⟩

/-- Dots aside, the text means what the path means as long as no `..` is lost. -/
theorem texts_compared (comps : List (List UInt8)) (noDots : ∀ comp ∈ comps, comp ≠ dot) :
    (ParentsApart comps → comps.foldl textStep ([], false) =
      (plain comps, decide (comps.getLast? = some dotDot ∧ plain comps ≠ []))) ∧
    (¬ ParentsApart comps → Behind (comps.foldl textStep ([], false)) (plain comps)) := by
  induction comps using List.reverseRecOn with
  | nil => exact ⟨fun _ => rfl, fun apart => absurd (fun before rest parts => by simp at parts) apart⟩
  | append_singleton comps comp ih =>
      obtain ⟨same, behind⟩ := ih fun other member => noDots other (List.mem_append_left _ member)
      have stay : comp ≠ dot := noDots comp (by simp)
      have plainly : plain (comps ++ [comp]) = plainStep (plain comps) comp := by simp [plain]
      rw [parentsApart_snoc, plainly, List.foldl_append, List.foldl_cons, List.foldl_nil]
      constructor
      · rintro ⟨apart, last⟩
        rw [same apart]
        by_cases up : comp = dotDot
        · have unslashed : decide (comps.getLast? = some dotDot ∧ plain comps ≠ []) = false := by
            simpa using last up
          rw [unslashed, up]
          by_cases shallow : (plain comps).length ≤ 1
          · have bottom : (plain comps).dropLast = [] := by
              rw [← List.length_eq_zero_iff, List.length_dropLast]
              omega
            simp [textStep, plainStep, show dotDot ≠ dot by decide, shallow, bottom]
          · have above : (plain comps).dropLast ≠ [] := by
              rw [ne_eq, ← List.length_eq_zero_iff, List.length_dropLast]
              omega
            simp [textStep, plainStep, show dotDot ≠ dot by decide, shallow, above]
        · simp [textStep, plainStep, stay, up]
      · intro unsettled
        by_cases apart : ParentsApart comps
        · -- The first `..` that the text loses.
          have lost : comp = dotDot ∧ comps.getLast? = some dotDot ∧ plain comps ≠ [] := by
            by_contra kept
            exact unsettled ⟨apart, fun up last => by_contra fun present => kept ⟨up, last, present⟩⟩
          obtain ⟨rfl, last, present⟩ := lost
          have deep := List.length_pos_iff.mpr present
          rw [same apart]
          simp only [textStep, plainStep, show dotDot ≠ dot by decide, last, present, ne_eq,
            not_false_eq_true, and_self, decide_true, ↓reduceIte]
          exact ⟨by simp only [List.length_dropLast]; omega, fun _ => rfl⟩
        · exact behind_step _ _ comp (behind apart)

def LoneParents (path : Path) : Prop := ParentsApart ((components path).filter (· ≠ dot))

theorem text_means_path_iff (comps : List (List UInt8)) :
    (comps.foldl textStep ([], false)).1 = plain comps ↔
      ParentsApart (comps.filter (· ≠ dot)) := by
  have texts : comps.foldl textStep ([], false) = _ :=
    foldl_dots textStep (fun state => if_pos rfl) comps ([], false)
  have plains : plain comps = plain (comps.filter (· ≠ dot)) :=
    foldl_dots plainStep (fun stack => if_pos rfl) comps []
  obtain ⟨same, behind⟩ := texts_compared (comps.filter (· ≠ dot)) fun comp member => by
    simpa using (List.mem_filter.mp member).2
  rw [texts, plains]
  constructor
  · intro equal
    by_contra unsettled
    exact Nat.ne_of_lt (behind unsettled).longer (congrArg List.length equal).symm
  · intro apart
    rw [same apart]

theorem takeWhile_text (text : List UInt8) (whole : 0 ∉ text) (rest : List UInt8) :
    (text ++ 0 :: rest).takeWhile (· != 0) = text := by
  have nonzero : ∀ byte ∈ text, (byte != 0) = true := fun byte member =>
    bne_iff_ne.mpr fun zero => whole (zero ▸ member)
  rw [List.takeWhile_append_of_pos nonzero]
  simp

theorem takeWhile_slice {out : Nat → UInt8} {n size : Nat} {text : List UInt8}
    (held : slice out 0 n = text) (ended : out n = 0) (inside : n < size) (whole : 0 ∉ text) :
    (slice out 0 size).takeWhile (· != 0) = text := by
  have split : slice out 0 size = text ++ 0 :: slice out (n + 1) (size - n - 1) := by
    have parts : size = n + (1 + (size - n - 1)) := by omega
    rw [← held, ← ended, parts]
    simp only [slice, List.range_add, List.map_append, List.map_map, Nat.zero_add]
    simp [Function.comp_def, Nat.add_assoc]
  rw [split, takeWhile_text text whole]

theorem bufStr_held {out : Nat → UInt8} {n : Nat} {text : List UInt8} (buffer : Held out n text)
    (clean : Text text) : bufStr out cwdSize = text := by
  have low := buffer.fits
  rw [bufStr, takeWhile_slice buffer.held buffer.ended (by omega) clean.1, strOr, if_pos clean.2]

theorem cwdStr_setCwd (t : Thread) (text : List UInt8) (short : text.length ≤ 95)
    (clean : Text text) : cwdStr (t.setCwd text) = text := by
  have field : textField 96 text = text ++ 0 :: List.replicate (95 - text.length) 0 := by
    rw [textField, List.take_of_length_le short, Nat.min_eq_left short,
      show 96 - text.length = 95 - text.length + 1 by omega, List.replicate_succ]
  rw [cwdStr, Thread.setCwd, field, takeWhile_text text clean.1, strOr, if_pos clean.2]

theorem takeWhile_nonzero (bytes : List UInt8) : (0 : UInt8) ∉ bytes.takeWhile (· != 0) := by
  induction bytes with
  | nil => simp
  | cons byte rest ih =>
      by_cases zero : byte = 0
      · simp [zero]
      · have other : ¬ 0 = byte := fun same => zero same.symm
        simpa [zero, other] using ih

theorem strOr_text (default bytes : List UInt8) (fallback : Text default)
    (nonzero : (0 : UInt8) ∉ bytes) : Text (strOr default bytes) := by
  unfold strOr
  split
  · rename_i valid
    exact ⟨nonzero, valid⟩
  · exact fallback

theorem cwdStr_text (t : Thread) : Text (cwdStr t) :=
  strOr_text _ _ ⟨by decide, by decide⟩ (takeWhile_nonzero _)

theorem absPath_text (user : Nat → UInt8) (t : Thread) (uptr : Nat) (path : Path)
    (absolute : absPath user t uptr = some path) : Text path := by
  have nothing : Text [] := by simp [Text, validUtf8]
  have cwd := cwdStr_text t
  unfold absPath at absolute
  cases copied : copyUstr user uptr pathMax with
  | none =>
      rw [copied] at absolute
      cases absolute
  | some raw =>
      have clean : (0 : UInt8) ∉ raw := by
        unfold copyUstr at copied
        split at copied
        · cases copied
        · simp only at copied
          split at copied
          · cases copied
            exact takeWhile_nonzero _
          · cases copied
      rw [copied] at absolute
      simp only at absolute
      split at absolute
      · cases absolute
        exact strOr_text _ _ nothing fun member => clean (List.mem_of_mem_take member)
      · cases absolute
        refine strOr_text _ _ nothing fun member => ?_
        rcases List.mem_append.mp member with base | own
        · have inside : (0 : UInt8) ∉ (cwdStr t).take (pathMax - 1) := fun member =>
            cwd.1 (List.mem_of_mem_take member)
          split at base
          · rcases List.mem_append.mp base with old | new
            · exact inside old
            · simp [slash] at new
          · exact inside base
        · exact clean (List.mem_of_mem_take own)

theorem Written.absolute {text : List UInt8} {stack : List (List UInt8)} {slashed : Bool}
    (written : Written text stack slashed) (present : text ≠ []) : text.head? = some slash := by
  induction written with
  | empty => exact absurd rfl present
  | name text stack slashed comp before named ih =>
      by_cases first : text = []
      · simp [first]
      · rw [List.head?_append_of_ne_nil _ first]
        exact ih first
  | back text stack slashed before first ih =>
      rw [List.head?_append_of_ne_nil _ first]
      exact ih first

theorem lookup_found (fs : Fs) (path : Path) (id : Int) (looked : lookup fs path = .ok id)
    (positive : ¬ id < 0) : ∃ node, resolve fs path = .ok (some node) := by
  obtain ⟨found, resolved, rest⟩ := (bind_ok _ _ _).mp looked
  cases found with
  | none =>
      cases rest
      exact absurd (by decide) positive
  | some node => exact ⟨node, resolved⟩

theorem sysChdir_stored (s after : System) (tid : Nat) (user : Nat → UInt8) (rdi : BitVec 64)
    (path : Path) (absolute : absPath user (s.threads tid) rdi.toNat = some path)
    (done : sysChdir s tid user rdi = .ok (⟨0, []⟩, after)) :
    after.fs = s.fs ∧ (∃ id, resolve s.fs path = .ok (some id)) ∧
      resolve s.fs (cwdStr (after.threads tid)) =
        walk s.fs 0 ((components path).foldl textStep ([], false)).1 ∧
      ∀ comp ∈ ((components path).foldl textStep ([], false)).1, Ordinary comp := by
  unfold sysChdir at done
  rw [absolute] at done
  obtain ⟨id, looked, rest⟩ := (bind_ok _ _ _).mp done
  by_cases refused : id < 0 ∨ nodeType s.fs id ≠ .dir
  · rw [if_pos refused] at rest
    cases rest
  rw [if_neg refused] at rest
  obtain ⟨node, resolved⟩ := lookup_found s.fs path id looked fun low => refused (.inl low)
  obtain ⟨bytes, rfl⟩ := resolve_absolute s.fs path node resolved
  have clean := ((text_slash [] bytes).mp (absPath_text _ _ _ _ absolute)).2
  rw [List.drop_one, List.tail_cons] at rest
  obtain ⟨result, rebuilt, last⟩ := (bind_ok _ _ _).mp rest
  rcases rebuild_written bytes (fun _ => 0) 0 [] ([], false) clean ⟨rfl, rfl, by decide⟩ .empty with
    long | ⟨out, n, text, built, buffer, written⟩
  · rw [long, Except.ok.injEq] at rebuilt
    subst result
    cases last
  rw [built, Except.ok.injEq] at rebuilt
  subst result
  cases last
  rw [components_root]
  refine ⟨rfl, ⟨node, resolved⟩, ?_, written.names⟩
  have stored : ∀ cwd, ((s.setCwd tid cwd).threads tid) = (s.threads tid).setCwd cwd := by
    simp [System.setCwd]
  by_cases nothing : n = 0
  · -- Nothing was written, and the text is "/".
    subst n
    have empty := List.length_eq_zero_iff.mp buffer.length
    have bottom := written.empty_iff.mp empty
    have root : Held (blit (blit out 0 [slash]) 1 [0]) 1 [slash] := by
      simpa [empty] using buffer.append [] (by decide)
    have clean : Text [slash] := ⟨by decide, by decide⟩
    rw [stored, if_pos rfl, bufStr_held root clean, cwdStr_setCwd _ _ (by decide) clean, bottom,
      resolve_components _ _ rfl, components_root, components_stop [] rfl]
  · have present : text ≠ [] := fun empty => nothing (by rw [← buffer.length, empty]; rfl)
    have short : text.length ≤ 95 := by
      have fits : n < 95 := buffer.fits
      rw [buffer.length]
      omega
    rw [stored, if_neg nothing, bufStr_held buffer written.text, cwdStr_setCwd _ _ short written.text,
      resolve_components _ _ (written.absolute present), written.components]

/-- The stored directory is the one that was given exactly when no `..` follows
another that has not led to the root. -/
theorem chdir_keeps_meaning_iff (s after : System) (tid : Nat) (user : Nat → UInt8)
    (rdi : BitVec 64) (path : Path)
    (absolute : absPath user (s.threads tid) rdi.toNat = some path)
    (done : sysChdir s tid user rdi = .ok (⟨0, []⟩, after)) :
    resolve after.fs (cwdStr (after.threads tid)) = resolve s.fs path ↔ LoneParents path := by
  obtain ⟨same, ⟨id, resolved⟩, stored, ordinary⟩ :=
    sysChdir_stored s after tid user rdi path absolute done
  obtain ⟨bytes, rfl⟩ := resolve_absolute s.fs path id resolved
  have walked := resolved
  rw [resolve_components s.fs _ rfl] at walked
  obtain ⟨names, plainly⟩ := walk_plain s.fs _ [] 0 id (by simp) rfl walked
  rw [same, stored, resolved, LoneParents, ← text_means_path_iff]
  constructor
  · intro reached
    exact walk_injective s.fs _ _ id ordinary names reached plainly
  · intro equal
    rw [equal]
    exact plainly

/-- The path `//a/./b/../b` is stored as `/a//b`. -/
theorem chdir_keeps_meaning_iff_single : ∃ fs after, Reachable fs ∧
    sysChdir ⟨fs, fun _ => .zeroed⟩ 1
      (userText [47, 47, 97, 47, 46, 47, 98, 47, 46, 46, 47, 98]) 4096 = .ok (⟨0, []⟩, after) ∧
    cwdStr (after.threads 1) = [47, 97, 47, 47, 98] ∧
    resolve fs [47, 47, 97, 47, 46, 47, 98, 47, 46, 46, 47, 98] = .ok (some 2) ∧
    resolve after.fs (cwdStr (after.threads 1)) =
      resolve fs [47, 47, 97, 47, 46, 47, 98, 47, 46, 46, 47, 98] := by
  have evaluated : (do
      let first ← mkdir emptyFs [47, 97]
      let second ← mkdir first.2 [47, 97, 47, 98]
      let moved ← sysChdir ⟨second.2, fun _ => .zeroed⟩ 1
        (userText [47, 47, 97, 47, 46, 47, 98, 47, 46, 46, 47, 98]) 4096
      let given ← resolve second.2 [47, 47, 97, 47, 46, 47, 98, 47, 46, 46, 47, 98]
      return (moved.1, cwdStr (moved.2.threads 1), given)) =
      Except.ok ((⟨0, []⟩ : Ret), [47, 97, 47, 47, 98], some 2) := by
    decide +kernel
  obtain ⟨⟨made, first⟩, one, rest⟩ := (bind_ok _ _ _).mp evaluated
  obtain ⟨⟨below, fs⟩, two, rest⟩ := (bind_ok _ _ _).mp rest
  obtain ⟨⟨ret, after⟩, changed, rest⟩ := (bind_ok _ _ _).mp rest
  obtain ⟨given, resolved, last⟩ := (bind_ok _ _ _).mp rest
  simp only [pure_ok, Except.ok.injEq, Prod.mk.injEq] at last
  obtain ⟨rfl, cwd, rfl⟩ := last
  have absolute : absPath (userText [47, 47, 97, 47, 46, 47, 98, 47, 46, 46, 47, 98]) .zeroed 4096 =
      some [47, 47, 97, 47, 46, 47, 98, 47, 46, 46, 47, 98] := by decide +kernel
  have lone : LoneParents [47, 47, 97, 47, 46, 47, 98, 47, 46, 46, 47, 98] := by
    have names : (components [47, 47, 97, 47, 46, 47, 98, 47, 46, 46, 47, 98]).filter (· ≠ dot) =
        [[97], [98], dotDot, [98]] := by decide +kernel
    intro before rest parts
    rw [names] at parts
    rcases before with _ | ⟨_, _ | ⟨_, _ | ⟨_, _ | _⟩⟩⟩ <;> simp [dotDot] at parts
  exact ⟨fs, after, ⟨_, .tail (.single ⟨.mkdir _, made, trivial, one⟩) ⟨.mkdir _, below, trivial, two⟩⟩,
    changed, cwd, resolved, (chdir_keeps_meaning_iff _ after 1 _ 4096 _ absolute changed).mpr lone⟩

/-- Below `/a/b`, the path `/a/b/../..` leads to the root and is stored as `/a/`. -/
theorem second_parent_is_lost : ∃ fs after, Reachable fs ∧
    sysChdir ⟨fs, fun _ => .zeroed⟩ 1
      (userText [47, 97, 47, 98, 47, 46, 46, 47, 46, 46]) 4096 = .ok (⟨0, []⟩, after) ∧
    absPath (userText [47, 97, 47, 98, 47, 46, 46, 47, 46, 46]) .zeroed 4096 =
      some [47, 97, 47, 98, 47, 46, 46, 47, 46, 46] ∧
    resolve fs [47, 97, 47, 98, 47, 46, 46, 47, 46, 46] = .ok (some 0) ∧
    cwdStr (after.threads 1) = [47, 97, 47] ∧
    resolve fs (cwdStr (after.threads 1)) = .ok (some 1) := by
  have evaluated : (do
      let first ← mkdir emptyFs [47, 97]
      let second ← mkdir first.2 [47, 97, 47, 98]
      let moved ← sysChdir ⟨second.2, fun _ => .zeroed⟩ 1
        (userText [47, 97, 47, 98, 47, 46, 46, 47, 46, 46]) 4096
      let given ← resolve second.2 [47, 97, 47, 98, 47, 46, 46, 47, 46, 46]
      let stored ← resolve second.2 (cwdStr (moved.2.threads 1))
      return (moved.1, cwdStr (moved.2.threads 1), given, stored)) =
      Except.ok ((⟨0, []⟩ : Ret), [47, 97, 47], some 0, some 1) := by
    decide +kernel
  obtain ⟨⟨made, first⟩, one, rest⟩ := (bind_ok _ _ _).mp evaluated
  obtain ⟨⟨below, fs⟩, two, rest⟩ := (bind_ok _ _ _).mp rest
  obtain ⟨⟨ret, after⟩, changed, rest⟩ := (bind_ok _ _ _).mp rest
  obtain ⟨given, resolved, rest⟩ := (bind_ok _ _ _).mp rest
  obtain ⟨stored, found, last⟩ := (bind_ok _ _ _).mp rest
  simp only [pure_ok, Except.ok.injEq, Prod.mk.injEq] at last
  obtain ⟨rfl, cwd, rfl, rfl⟩ := last
  refine ⟨fs, after, ⟨_, .tail (.single ⟨.mkdir _, made, trivial, one⟩) ⟨.mkdir _, below, trivial, two⟩⟩,
    changed, by decide +kernel, resolved, cwd, found⟩

end Shizuku.Syscalls
