import Shizuku.TmpfsContents

/-!
Path semantics. A path is the list of its nonempty components, and both walkers
of the source follow it one component at a time: `resolve` to the end,
`resolve_parent` to the component before the last. Every node a walk passes is
grounded, that is, used and linked to the root by used nodes only; this alone
keeps the walkers inside the node table, whatever the table holds.
-/

namespace Shizuku.Tmpfs

open ByteMemory Machine

def components (bytes : List UInt8) : List (List UInt8) :=
  if stop : skipSlashes bytes = [] then []
  else
    have : (afterComponent (skipSlashes bytes)).length < bytes.length :=
      afterComponent_length bytes stop
    component (skipSlashes bytes) :: components (afterComponent (skipSlashes bytes))
termination_by bytes.length

def enter (fs : Fs) (cur : Nat) (comp : List UInt8) : Outcome (Option Nat) :=
  if comp = dot then .ok (some cur)
  else if comp = dotDot then
    if cur ≠ 0 then do
      let node ← nodeAt fs cur
      return some node.parent
    else .ok (some cur)
  else if vfsNameMax ≤ comp.length then .ok none
  else do
    let node ← nodeAt fs cur
    if node.typ ≠ .dir then return none else return childOf fs cur comp

def walk (fs : Fs) : Nat → List (List UInt8) → Outcome (Option Nat)
  | cur, [] => .ok (some cur)
  | cur, comp :: rest => do
      match ← enter fs cur comp with
      | none => return none
      | some next => walk fs next rest

theorem components_stop (bytes : List UInt8) (stop : skipSlashes bytes = []) :
    components bytes = [] := by
  rw [components]
  simp [stop]

theorem components_next (bytes : List UInt8) (more : skipSlashes bytes ≠ []) :
    components bytes =
      component (skipSlashes bytes) :: components (afterComponent (skipSlashes bytes)) := by
  rw [components]
  simp [more]

theorem skipSlashes_idem (bytes : List UInt8) :
    skipSlashes (skipSlashes bytes) = skipSlashes bytes := by
  induction bytes with
  | nil => rfl
  | cons byte rest ih =>
      by_cases hit : byte == slash
      · simpa [skipSlashes, hit] using ih
      · simp [skipSlashes, hit]

theorem components_skip (bytes : List UInt8) :
    components (skipSlashes bytes) = components bytes := by
  by_cases stop : skipSlashes bytes = []
  · rw [components_stop bytes stop, components_stop _ (by rw [skipSlashes_idem, stop])]
  · rw [components_next bytes stop, components_next _ (by rwa [skipSlashes_idem]),
      skipSlashes_idem]

theorem components_eq_nil (bytes : List UInt8) :
    components bytes = [] ↔ skipSlashes bytes = [] := by
  constructor
  · intro empty
    by_contra more
    rw [components_next bytes more] at empty
    exact absurd empty (by simp)
  · exact components_stop bytes

theorem component_split (bytes : List UInt8) :
    slash ∉ component bytes ∧ (bytes = component bytes ∧ afterComponent bytes = [] ∨
      ∃ rest, bytes = component bytes ++ slash :: rest ∧ afterComponent bytes = slash :: rest) := by
  induction bytes with
  | nil => simp [component, afterComponent]
  | cons byte rest ih =>
      by_cases hit : byte = slash
      · simp [component, afterComponent, hit]
      · have different : ¬ slash = byte := fun same => hit same.symm
        simpa [component, afterComponent, hit, different] using ih

theorem component_present (bytes : List UInt8) (more : skipSlashes bytes ≠ []) :
    component (skipSlashes bytes) ≠ [] := by
  induction bytes with
  | nil => exact absurd rfl more
  | cons byte rest ih =>
      by_cases hit : byte = slash
      · have same : skipSlashes (byte :: rest) = skipSlashes rest := by simp [skipSlashes, hit]
        rw [same] at more ⊢
        exact ih more
      · simp [skipSlashes, component, hit]

theorem component_append (left right : List UInt8) :
    component (left ++ slash :: right) = component left ∧
      afterComponent (left ++ slash :: right) = afterComponent left ++ slash :: right := by
  induction left with
  | nil => simp [component, afterComponent]
  | cons byte rest ih =>
      by_cases hit : byte = slash
      · simp [component, afterComponent, hit]
      · simpa [component, afterComponent, hit] using ih

theorem components_slash (left right : List UInt8) :
    components (left ++ slash :: right) = components left ++ components right := by
  have behind : components (slash :: right) = components right := by
    rw [← components_skip, ← components_skip right]
    simp [skipSlashes]
  fun_induction components left with
  | case1 left stop =>
      have skipped : skipSlashes (left ++ slash :: right) = skipSlashes (slash :: right) := by
        simp only [skipSlashes] at stop
        simp [skipSlashes, List.dropWhile_append, stop]
      rw [← components_skip, skipped, components_skip, behind]
      rfl
  | case2 left more _ ih =>
      have kept : skipSlashes (left ++ slash :: right) = skipSlashes left ++ slash :: right := by
        simp only [skipSlashes] at more
        simp [skipSlashes, List.dropWhile_append, more]
      obtain ⟨first, later⟩ := component_append (skipSlashes left) right
      rw [components_next _ (by simp [kept]), kept, first, later, ih]
      rfl

theorem components_root (bytes : List UInt8) : components (slash :: bytes) = components bytes := by
  have skipped := components_slash [] bytes
  rwa [List.nil_append, components_stop [] rfl, List.nil_append] at skipped

theorem components_name (name : List UInt8) (present : name ≠ []) (plain : slash ∉ name) :
    components name = [name] := by
  -- A name without a slash is its own only component.
  have start : skipSlashes name = name := by
    cases name with
    | nil => rfl
    | cons byte rest =>
        have different : byte ≠ slash := fun same => plain (same ▸ List.mem_cons_self)
        simp [skipSlashes, different]
  obtain ⟨_, ⟨whole, last⟩ | ⟨rest, parts, _⟩⟩ := component_split name
  · rw [components_next name (by rwa [start]), start, ← whole, last, components_stop [] rfl]
  · exact absurd (parts ▸ List.mem_append_right _ List.mem_cons_self) plain

theorem mem_components (bytes comp : List UInt8) (member : comp ∈ components bytes) :
    comp ≠ [] ∧ comp ⊆ bytes ∧ slash ∉ comp := by
  fun_induction components bytes with
  | case1 bytes stop => cases member
  | case2 bytes more _ ih =>
      have skipped : (skipSlashes bytes).Sublist bytes := List.dropWhile_sublist _
      rcases List.mem_cons.mp member with first | later
      · rw [first]
        exact ⟨component_present bytes more, ((List.takeWhile_sublist _).trans skipped).subset,
          (component_split _).1⟩
      · obtain ⟨present, inside, whole⟩ := ih later
        exact ⟨present, List.Subset.trans inside ((List.dropWhile_sublist _).trans skipped).subset,
          whole⟩

/-- Both walkers branch on a component in the same way; only what they do with
the node they arrive at differs. -/
theorem enter_bind {Result : Type} (fs : Fs) (cur : Nat) (comp : List UInt8)
    (next : Nat → Outcome (Option Result)) :
    (if comp = dot then next cur
      else if comp = dotDot then
        if cur ≠ 0 then (do
          let node ← nodeAt fs cur
          next node.parent)
        else next cur
      else if vfsNameMax ≤ comp.length then .ok none
      else (do
        let node ← nodeAt fs cur
        if node.typ ≠ .dir then .ok none
        else
          match childOf fs cur comp with
          | none => .ok none
          | some child => next child)) = (do
      match ← enter fs cur comp with
      | none => return none
      | some node => next node) := by
  unfold enter
  by_cases stay : comp = dot
  · simp [stay]
  simp only [stay, ↓reduceIte]
  by_cases up : comp = dotDot
  · by_cases root : cur = 0
    · simp [up, root]
    · cases nodeAt fs cur <;> simp [up, root, bind, Except.bind]
  simp only [up, ↓reduceIte]
  by_cases long : vfsNameMax ≤ comp.length
  · simp [long]
  simp only [long, ↓reduceIte]
  cases nodeAt fs cur with
  | error panic => rfl
  | ok node =>
      by_cases typed : node.typ = .dir
      · simp only [ok_bind, typed, ne_eq, not_true_eq_false, ↓reduceIte, pure_ok]
      · simp only [ok_bind, ne_eq, typed, not_false_eq_true, ↓reduceIte, pure_ok]

theorem resolveFrom_next (fs : Fs) (cur : Nat) (bytes : List UInt8)
    (more : skipSlashes bytes ≠ []) :
    resolveFrom fs cur bytes = (do
      match ← enter fs cur (component (skipSlashes bytes)) with
      | none => return none
      | some next => resolveFrom fs next (afterComponent (skipSlashes bytes))) := by
  rw [resolveFrom, ← enter_bind]
  exact dif_neg more

theorem resolveFrom_walk (fs : Fs) (cur : Nat) (bytes : List UInt8) :
    resolveFrom fs cur bytes = walk fs cur (components bytes) := by
  fun_induction components bytes generalizing cur with
  | case1 bytes stop =>
      rw [resolveFrom]
      simp [stop, walk]
  | case2 bytes more _ ih =>
      rw [resolveFrom_next fs cur bytes more, walk]
      congr 1
      funext next
      cases next with
      | none => rfl
      | some node => exact ih node

theorem resolve_components (fs : Fs) (path : Path) (absolute : path.head? = some slash) :
    resolve fs path = walk fs 0 (components path) := by
  cases path with
  | nil => cases absolute
  | cons first bytes =>
      cases absolute
      rw [resolve, if_neg (by simp), resolveFrom_walk, components_root]

theorem resolve_absolute (fs : Fs) (path : Path) (id : Nat)
    (resolved : resolve fs path = .ok (some id)) : ∃ bytes, path = slash :: bytes := by
  cases path with
  | nil => cases resolved
  | cons first bytes =>
      by_cases relative : first ≠ slash
      · rw [resolve, if_pos relative] at resolved
        cases resolved
      · exact ⟨bytes, by rw [not_not.mp relative]⟩

def leafName (comp : List UInt8) : Option (List UInt8) :=
  if comp = [] ∨ vfsNameMax ≤ comp.length then none
  else if comp = dot ∨ comp = dotDot then none
  else some comp

theorem leafName_some (comp leaf : List UInt8) (named : leafName comp = some leaf) :
    comp = leaf := by
  unfold leafName at named
  split at named
  · cases named
  · split at named
    · cases named
    · exact Option.some.inj named

theorem resolveParentFrom_last (fs : Fs) (cur : Nat) (bytes : List UInt8)
    (more : skipSlashes bytes ≠ [])
    (last : skipSlashes (afterComponent (skipSlashes bytes)) = []) :
    resolveParentFrom fs cur bytes =
      .ok ((leafName (component (skipSlashes bytes))).map fun leaf => (cur, leaf)) := by
  rw [resolveParentFrom]
  simp only [more, ↓reduceDIte, last, ↓reduceIte, leafName]
  by_cases bad : component (skipSlashes bytes) = [] ∨
      vfsNameMax ≤ (component (skipSlashes bytes)).length
  · simp [bad]
  · by_cases dots : component (skipSlashes bytes) = dot ∨ component (skipSlashes bytes) = dotDot
    · simp [bad, dots]
    · simp [bad, dots]

theorem resolveParentFrom_next (fs : Fs) (cur : Nat) (bytes : List UInt8)
    (more : skipSlashes bytes ≠ [])
    (further : skipSlashes (afterComponent (skipSlashes bytes)) ≠ []) :
    resolveParentFrom fs cur bytes = (do
      match ← enter fs cur (component (skipSlashes bytes)) with
      | none => return none
      | some next =>
          resolveParentFrom fs next (skipSlashes (afterComponent (skipSlashes bytes)))) := by
  rw [resolveParentFrom, ← enter_bind]
  exact (dif_neg more).trans (if_neg further)

theorem resolveParentFrom_skip (fs : Fs) (cur : Nat) (bytes : List UInt8) :
    resolveParentFrom fs cur (skipSlashes bytes) = resolveParentFrom fs cur bytes := by
  rw [resolveParentFrom]
  conv_rhs => rw [resolveParentFrom]
  simp only [skipSlashes_idem]

/-- `resolve_parent` walks all components but the last and checks that one. -/
theorem resolveParentFrom_walk (fs : Fs) (cur : Nat) (bytes : List UInt8)
    (more : components bytes ≠ []) :
    resolveParentFrom fs cur bytes = (do
      match ← walk fs cur (components bytes).dropLast with
      | none => return none
      | some parent => return ((components bytes).getLast?.bind leafName).map (parent, ·)) := by
  fun_induction components bytes generalizing cur with
  | case1 bytes stop => exact absurd rfl more
  | case2 bytes present _ ih =>
      by_cases last : skipSlashes (afterComponent (skipSlashes bytes)) = []
      · rw [resolveParentFrom_last fs cur bytes present last, components_stop _ last]
        simp [walk]
      · have rest : components (afterComponent (skipSlashes bytes)) ≠ [] :=
          fun empty => last ((components_eq_nil _).mp empty)
        rw [resolveParentFrom_next fs cur bytes present last]
        rw [List.dropLast_cons_of_ne_nil rest, List.getLast?_cons_of_ne_nil rest, walk]
        cases enter fs cur (component (skipSlashes bytes)) with
        | error panic => rfl
        | ok next =>
            cases next with
            | none => rfl
            | some node =>
                simp only [ok_bind]
                rw [resolveParentFrom_skip]
                exact ih node rest

/-! Grounded nodes. -/

inductive Grounded (fs : Fs) : Nat → Prop where
  | root : Grounded fs 0
  | child (id : Nat) (inside : id < tnMax) (used : (fs.nodes id).typ ≠ .free)
      (above : Grounded fs (fs.nodes id).parent) : Grounded fs id

theorem Grounded.inside {fs : Fs} {id : Nat} (grounded : Grounded fs id) : id < tnMax := by
  cases grounded with
  | root => decide
  | child _ inside => exact inside

theorem Grounded.parent {fs : Fs} {id : Nat} (grounded : Grounded fs id) (nonroot : id ≠ 0) :
    Grounded fs (fs.nodes id).parent := by
  cases grounded with
  | root => exact absurd rfl nonroot
  | child _ _ _ above => exact above

theorem Grounded.used {fs : Fs} {id : Nat} (grounded : Grounded fs id) (nonroot : id ≠ 0) :
    (fs.nodes id).typ ≠ .free := by
  cases grounded with
  | root => exact absurd rfl nonroot
  | child _ _ used _ => exact used

theorem nodeAt_grounded (fs : Fs) (cur : Nat) (grounded : Grounded fs cur) :
    nodeAt fs cur = .ok (fs.nodes cur) :=
  (nodeAt_ok fs cur _).mpr ⟨grounded.inside, rfl⟩

theorem childOf_grounded (fs : Fs) (cur next : Nat) (name : List UInt8)
    (grounded : Grounded fs cur) (found : childOf fs cur name = some next) :
    Grounded fs next := by
  obtain ⟨_, inside, used, parent, _⟩ := childOf_some fs cur next name found
  exact .child next inside used (by rw [parent]; exact grounded)

theorem enter_grounded (fs : Fs) (cur : Nat) (comp : List UInt8) (grounded : Grounded fs cur) :
    ∃ result, enter fs cur comp = .ok result ∧ ∀ next, result = some next → Grounded fs next := by
  have read := nodeAt_grounded fs cur grounded
  unfold enter
  by_cases stay : comp = dot
  · exact ⟨some cur, by simp [stay], fun next same => by cases same; exact grounded⟩
  by_cases up : comp = dotDot
  · by_cases root : cur = 0
    · exact ⟨some cur, by simp [up, root, dot, dotDot],
        fun next same => by cases same; exact grounded⟩
    · refine ⟨some (fs.nodes cur).parent, by simp [up, root, dot, dotDot, read], ?_⟩
      intro next same
      cases same
      exact grounded.parent root
  by_cases long : vfsNameMax ≤ comp.length
  · exact ⟨none, by simp [stay, up, long], fun next same => absurd same (by simp)⟩
  by_cases typed : (fs.nodes cur).typ = .dir
  · refine ⟨childOf fs cur comp, by simp [stay, up, long, read, typed], ?_⟩
    intro next found
    exact childOf_grounded fs cur next comp grounded found
  · exact ⟨none, by simp [stay, up, long, read, typed], fun next same => absurd same (by simp)⟩

theorem walk_grounded (fs : Fs) (cur : Nat) (comps : List (List UInt8))
    (grounded : Grounded fs cur) :
    ∃ result, walk fs cur comps = .ok result ∧ ∀ id, result = some id → Grounded fs id := by
  induction comps generalizing cur with
  | nil => exact ⟨some cur, rfl, fun id same => by cases same; exact grounded⟩
  | cons comp rest ih =>
      obtain ⟨entered, done, arrives⟩ := enter_grounded fs cur comp grounded
      rw [walk, done]
      cases entered with
      | none => exact ⟨none, rfl, fun id same => absurd same (by simp)⟩
      | some next => exact ih next (arrives next rfl)

/-! Walks along ordinary names. -/

def Ordinary (comp : List UInt8) : Prop := comp ≠ dot ∧ comp ≠ dotDot

theorem walk_append (fs : Fs) (cur : Nat) (left right : List (List UInt8)) :
    walk fs cur (left ++ right) = (do
      match ← walk fs cur left with
      | none => return none
      | some next => walk fs next right) := by
  induction left generalizing cur with
  | nil => rfl
  | cons comp rest ih =>
      rw [List.cons_append, walk, walk]
      cases enter fs cur comp with
      | error panic => rfl
      | ok next =>
          cases next with
          | none => rfl
          | some node => exact ih node

theorem walk_snoc (fs : Fs) (stack : List (List UInt8)) (comp : List UInt8) (id : Nat)
    (ordinary : Ordinary comp) (walked : walk fs 0 (stack ++ [comp]) = .ok (some id)) :
    id ≠ 0 ∧ walk fs 0 stack = .ok (some (fs.nodes id).parent) ∧
      nameBytes (fs.nodes id).name = comp := by
  -- The last name of a walk is the name of the node it reaches, below the node before.
  obtain ⟨reached, done, grounded⟩ := walk_grounded fs 0 stack .root
  rw [walk_append, done, ok_bind] at walked
  cases reached with
  | none => cases walked
  | some cur =>
      have read := nodeAt_grounded fs cur (grounded cur rfl)
      simp only [walk, enter, if_neg ordinary.1, if_neg ordinary.2] at walked
      by_cases long : vfsNameMax ≤ comp.length
      · simp [long] at walked
      · by_cases typed : (fs.nodes cur).typ = .dir
        · simp only [long, ↓reduceIte, read, ok_bind, typed, ne_eq, not_true_eq_false,
            pure_ok] at walked
          cases found : childOf fs cur comp with
          | none => simp [found] at walked
          | some child =>
              simp only [found, Except.ok.injEq, Option.some.injEq] at walked
              subst child
              obtain ⟨low, _, _, parent, name⟩ := childOf_some fs cur id comp found
              exact ⟨by omega, by rw [parent, done], name⟩
        · simp [long, read, typed] at walked

theorem walk_injective (fs : Fs) (one two : List (List UInt8)) (id : Nat)
    (namesOne : ∀ comp ∈ one, Ordinary comp) (namesTwo : ∀ comp ∈ two, Ordinary comp)
    (walkOne : walk fs 0 one = .ok (some id)) (walkTwo : walk fs 0 two = .ok (some id)) :
    one = two := by
  -- Names lead to different nodes: the links up give them back.
  induction one using List.reverseRecOn generalizing two id with
  | nil =>
      cases walkOne
      cases two using List.reverseRecOn with
      | nil => rfl
      | append_singleton two comp =>
          exact absurd rfl (walk_snoc fs two comp 0 (namesTwo comp (by simp)) walkTwo).1
  | append_singleton one comp ih =>
      obtain ⟨nonroot, aboveOne, nameOne⟩ := walk_snoc fs one comp id (namesOne comp (by simp)) walkOne
      cases two using List.reverseRecOn with
      | nil =>
          cases walkTwo
          exact absurd rfl nonroot
      | append_singleton two other =>
          obtain ⟨_, aboveTwo, nameTwo⟩ := walk_snoc fs two other id (namesTwo other (by simp)) walkTwo
          have same := ih two (fs.nodes id).parent
            (fun comp member => namesOne comp (List.mem_append_left _ member))
            (fun comp member => namesTwo comp (List.mem_append_left _ member)) aboveOne aboveTwo
          rw [same, ← nameOne, nameTwo]

def namedBy (fs : Fs) (path : Path) : Option Nat :=
  match path with
  | [] => none
  | first :: bytes =>
      if first ≠ slash then none
      else ((walk fs 0 (components bytes)).toOption).join

def dirNamedBy (fs : Fs) (path : Path) : Option Nat :=
  match path with
  | [] => none
  | first :: bytes =>
      if first ≠ slash then none
      else ((walk fs 0 (components bytes).dropLast).toOption).join

theorem resolve_namedBy (fs : Fs) (path : Path) : resolve fs path = .ok (namedBy fs path) := by
  cases path with
  | nil => rfl
  | cons first bytes =>
      by_cases relative : first ≠ slash
      · simp [resolve, namedBy, relative]
      · obtain ⟨result, done, _⟩ := walk_grounded fs 0 (components bytes) .root
        simp [resolve, namedBy, relative, resolveFrom_walk, done, Except.toOption]

theorem namedBy_grounded (fs : Fs) (path : Path) (id : Nat) (named : namedBy fs path = some id) :
    Grounded fs id := by
  cases path with
  | nil => simp [namedBy] at named
  | cons first bytes =>
      by_cases relative : first ≠ slash
      · simp [namedBy, relative] at named
      · obtain ⟨result, done, arrives⟩ := walk_grounded fs 0 (components bytes) .root
        simp only [namedBy, relative, ↓reduceIte, done, Except.toOption, Option.join_some] at named
        exact arrives id named

theorem dirNamedBy_grounded (fs : Fs) (path : Path) (id : Nat)
    (named : dirNamedBy fs path = some id) : Grounded fs id := by
  cases path with
  | nil => simp [dirNamedBy] at named
  | cons first bytes =>
      by_cases relative : first ≠ slash
      · simp [dirNamedBy, relative] at named
      · obtain ⟨result, done, arrives⟩ := walk_grounded fs 0 (components bytes).dropLast .root
        simp only [dirNamedBy, relative, ↓reduceIte, done, Except.toOption,
          Option.join_some] at named
        exact arrives id named

theorem resolveParent_dirNamedBy (fs : Fs) (path : Path) :
    ∃ result, resolveParent fs path = .ok result ∧
      ∀ parent leaf, result = some (parent, leaf) →
        dirNamedBy fs path = some parent ∧ leafName leaf = some leaf := by
  cases path with
  | nil => exact ⟨none, rfl, by simp⟩
  | cons first bytes =>
      by_cases relative : first ≠ slash
      · exact ⟨none, by simp [resolveParent, relative], by simp⟩
      simp only [resolveParent, dirNamedBy, relative, ↓reduceIte]
      by_cases more : components bytes = []
      · have stop := (components_eq_nil bytes).mp more
        exact ⟨none, by rw [resolveParentFrom]; simp [stop], by simp⟩
      obtain ⟨walked, done, _⟩ := walk_grounded fs 0 (components bytes).dropLast .root
      rw [resolveParentFrom_walk fs 0 bytes more, done]
      cases walked with
      | none => exact ⟨none, rfl, by simp⟩
      | some node =>
          refine ⟨_, rfl, fun parent leaf same => ?_⟩
          obtain ⟨comp, found, pair⟩ := Option.map_eq_some_iff.mp same
          obtain ⟨final, _, named⟩ := Option.bind_eq_some_iff.mp found
          cases pair
          refine ⟨rfl, ?_⟩
          have kept := leafName_some final leaf named
          rwa [kept] at named

/-! No call panics: the walkers stay inside the table by groundedness, the pool
slices stay inside the pool by its layout. -/

theorem storeFile_returns (fs : Fs) (id : Nat) (data : List UInt8) (inside : id < tnMax) :
    ∃ ret after, storeFile fs id data = .ok (ret, after) := by
  unfold storeFile
  by_cases full : fs.poolUsed + data.length > tnPool
  · exact ⟨-1, fs, by simp [full]⟩
  · refine ⟨id, fs.place id data, ?_⟩
    rw [(range_ok _ _ _ ()).mpr ⟨by omega, by omega⟩, (index_ok _ _ ()).mpr inside]
    simp [full]

theorem storeAt_returns (fs : Fs) (id off : Nat) (buf : List UInt8)
    (inside : (fs.nodes id).off + off + buf.length ≤ tnPool) :
    ∃ ret after, storeAt fs id off buf = .ok (ret, after) := by
  refine ⟨buf.length, fs.overwrite id off buf, ?_⟩
  rw [storeAt, (range_ok _ _ _ ()).mpr ⟨by omega, inside⟩]
  rfl

theorem create_returns (fs : Fs) (path : Path) (data : List UInt8) :
    ∃ ret after, create fs path data = .ok (ret, after) := by
  obtain ⟨walked, done, _⟩ := resolveParent_dirNamedBy fs path
  simp only [create, done, ok_bind]
  rcases walked with _ | ⟨parent, leaf⟩
  · exact ⟨-1, fs, rfl⟩
  cases child : childOf fs parent leaf with
  | none =>
      cases slot : freeSlot fs with
      | none => exact ⟨-1, fs, by simp [child, allocNode, slot]⟩
      | some id =>
          simp only [child, allocNode, slot]
          exact storeFile_returns _ id data (freeSlot_some fs id slot).2.1
  | some id =>
      have inside := (childOf_some fs parent id leaf child).2.1
      simp only [child, (nodeAt_ok fs id _).mpr ⟨inside, rfl⟩, ok_bind]
      by_cases file : (fs.nodes id).typ = .file
      · simpa [file] using storeFile_returns fs id data inside
      · exact ⟨-1, fs, by simp [file]⟩

theorem nodeWrite_returns (fs : Fs) (id : Int) (off : Nat) (buf : List UInt8) (laid : Laid fs) :
    ∃ ret after, nodeWrite fs id off buf = .ok (ret, after) := by
  unfold nodeWrite
  cases file : fileNode fs id with
  | none => exact ⟨-1, fs, rfl⟩
  | some node =>
      obtain ⟨_, inside, typed, rfl⟩ := (fileNode_some _ _ _).mp file
      have bound := laid.packed.below id.toNat ⟨inside, by simp [typed]⟩
      have capacity := laid.capacity
      simp only [extentOf] at bound
      by_cases beyond : off > (fs.nodes id.toNat).size
      · exact ⟨-1, fs, by simp [beyond]⟩
      by_cases grows : off + buf.length > (fs.nodes id.toNat).size
      · by_cases full : fs.poolUsed + (off + buf.length) > tnPool
        · exact ⟨-1, fs, by simp [beyond, grows, full]⟩
        · simp only [beyond, grows, full, ↓reduceIte]
          rw [(range_ok _ _ _ ()).mpr ⟨by omega, by omega⟩,
            (range_ok _ _ _ ()).mpr ⟨by omega, by omega⟩]
          exact storeAt_returns _ _ off buf (by simp [Fs.relocate]; omega)
      · simp only [beyond, grows, ↓reduceIte]
        exact storeAt_returns fs _ off buf (by omega)

theorem step_returns (fs : Fs) (op : Op) (laid : Laid fs) :
    ∃ ret after, step fs op = .ok (ret, after) := by
  cases op with
  | mkdir path =>
      obtain ⟨walked, done, _⟩ := resolveParent_dirNamedBy fs path
      simp only [step, mkdir, done, ok_bind]
      rcases walked with _ | ⟨parent, leaf⟩
      · exact ⟨-1, fs, rfl⟩
      · by_cases occupied : (childOf fs parent leaf).isSome
        · exact ⟨-1, fs, by simp [occupied]⟩
        · cases slot : freeSlot fs with
          | none => exact ⟨-1, fs, by simp [occupied, allocNode, slot]⟩
          | some id => exact ⟨0, _, by simp [occupied, allocNode, slot]; rfl⟩
  | create path data => exact create_returns fs path data
  | unlink path =>
      simp only [step, unlink, resolve_namedBy, ok_bind]
      cases named : namedBy fs path with
      | none => exact ⟨-1, fs, rfl⟩
      | some id =>
          have read := nodeAt_grounded fs id (namedBy_grounded fs path id named)
          by_cases root : id = 0
          · exact ⟨-1, fs, by simp [root]⟩
          · simp only [root, ↓reduceIte, read, ok_bind]
            split <;> exact ⟨_, _, rfl⟩
  | rename oldp newp =>
      simp only [step, rename, resolve_namedBy, ok_bind]
      cases named : namedBy fs oldp with
      | none => exact ⟨-1, fs, rfl⟩
      | some id =>
          have inside := (namedBy_grounded fs oldp id named).inside
          obtain ⟨walked, done, _⟩ := resolveParent_dirNamedBy fs newp
          by_cases root : id = 0
          · exact ⟨-1, fs, by simp [root]⟩
          · simp only [root, ↓reduceIte, done, ok_bind]
            rcases walked with _ | ⟨parent, leaf⟩
            · exact ⟨-1, fs, rfl⟩
            · rw [(index_ok _ _ ()).mpr inside]
              simp only
              split <;> exact ⟨_, _, rfl⟩
  | nodeWrite id off buf => exact nodeWrite_returns fs id off buf laid

end Shizuku.Tmpfs
