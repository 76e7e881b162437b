import Mathlib.Data.List.Basic
import Mathlib.Tactic

/-!
Forests of linked nodes that live in a memory: `child node index` is the link
stored in slot `index` of `node`. A node is named by a root and a path of slot
numbers. When no two names lead to one node, a store to one slot changes the
meaning of the names that go through it and of no others, so the forest can be
used as a partial map from names to nodes.
-/

namespace Shizuku.PointerForest

variable {Node Index : Type}

def follow (child : Node → Index → Option Node) : Node → List Index → Option Node
  | node, [] => some node
  | node, index :: rest => (child node index).bind fun next => follow child next rest

@[simp] theorem follow_nil (child : Node → Index → Option Node) (node : Node) :
    follow child node [] = some node := rfl

theorem follow_cons (child : Node → Index → Option Node) (node : Node) (index : Index)
    (rest : List Index) :
    follow child node (index :: rest) =
      (child node index).bind fun next => follow child next rest := rfl

theorem follow_append (child : Node → Index → Option Node) (node : Node)
    (first second : List Index) :
    follow child node (first ++ second) =
      (follow child node first).bind fun middle => follow child middle second := by
  induction first generalizing node with
  | nil => rfl
  | cons index rest ih =>
      simp only [List.cons_append, follow_cons]
      cases child node index with
      | none => rfl
      | some next => exact ih next

theorem follow_snoc (child : Node → Index → Option Node) (node : Node) (path : List Index)
    (index : Index) :
    follow child node (path ++ [index]) =
      (follow child node path).bind fun middle => child middle index := by
  rw [follow_append]
  cases follow child node path with
  | none => rfl
  | some middle => simp [follow]

theorem follow_congr (child other : Node → Index → Option Node) (node : Node)
    (path : List Index)
    (agree : ∀ front index back middle, path = front ++ index :: back →
      follow child node front = some middle → other middle index = child middle index) :
    follow other node path = follow child node path := by
  induction path generalizing node with
  | nil => rfl
  | cons index rest ih =>
      have here := agree [] index rest node rfl rfl
      rw [follow_cons, follow_cons, here]
      cases link : child node index with
      | none => rfl
      | some next =>
          apply ih
          intro front later back middle split reached
          refine agree (index :: front) later back middle (by rw [split]; rfl) ?_
          rw [follow_cons, link]
          exact reached

section Names
variable (named : Node → List Index → Prop)

def FrontClosed : Prop := ∀ root front back, named root (front ++ back) → named root front

def Unshared (view : Node → List Index → Option Node) : Prop :=
  ∀ root path other way node, named root path → named other way →
    view root path = some node → view other way = some node → root = other ∧ path = way

variable {named}

/-- A store to slot `slot` of the node `table`, named by `root` and `path`. The
hypothesis `beyond` says that names which go on through the new link mean what
they meant before; it is void for a leaf, and for a link to an empty node put
into an empty slot it holds because neither leads anywhere. -/
theorem follow_store [DecidableEq Node] [DecidableEq Index]
    (child other : Node → Index → Option Node) (closed : FrontClosed named)
    (unshared : Unshared named (follow child)) (root table : Node) (path : List Index)
    (slot : Index) (owner : named root path) (here : follow child root path = some table)
    (elsewhere : ∀ start front node index, named start (front ++ [index]) →
      follow child start front = some node → ¬ (node = table ∧ index = slot) →
      other node index = child node index)
    (beyond : ∀ rest, rest ≠ [] → named root (path ++ slot :: rest) →
      ((other table slot).bind fun next => follow other next rest) =
        follow child root (path ++ slot :: rest))
    (start : Node) (way : List Index) (member : named start way) :
    follow other start way =
      if start = root ∧ way = path ++ [slot] then other table slot
      else follow child start way := by
  -- A name that does not pass the stored slot visits unchanged links only.
  have unchanged : ∀ begin_ trail, named begin_ trail →
      (¬ ∃ rest, begin_ = root ∧ trail = path ++ slot :: rest) →
      follow other begin_ trail = follow child begin_ trail := by
    intro begin_ trail belongs avoids
    apply follow_congr
    intro front index back middle split reached
    have frontNamed : named begin_ front := closed begin_ front (index :: back) (by rwa [← split])
    have nextNamed : named begin_ (front ++ [index]) :=
      closed begin_ (front ++ [index]) back (by rw [split] at belongs; simpa using belongs)
    apply elsewhere begin_ front middle index nextNamed reached
    rintro ⟨rfl, rfl⟩
    obtain ⟨sameRoot, samePath⟩ := unshared _ _ _ _ _ frontNamed owner reached here
    exact avoids ⟨back, sameRoot, by rw [split, samePath]⟩
  by_cases through : ∃ rest, start = root ∧ way = path ++ slot :: rest
  · obtain ⟨rest, rfl, rfl⟩ := through
    have front : follow other start path = some table := by
      rw [unchanged start path owner (by
        rintro ⟨rest', _, longer⟩
        have lengths := congrArg List.length longer
        simp at lengths), here]
    rw [follow_append, front]
    simp only [Option.bind_some, follow_cons]
    by_cases ends : rest = []
    · subst rest
      cases other table slot <;> simp [follow]
    · have different : path ++ slot :: rest ≠ path ++ [slot] := by simpa using ends
      simp only [different, and_false, ↓reduceIte]
      exact beyond rest ends member
  · have different : ¬ (start = root ∧ way = path ++ [slot]) :=
      fun same => through ⟨[], same.1, by simpa using same.2⟩
    simp only [different, ↓reduceIte]
    exact unchanged start way member through

theorem Unshared.assign [DecidableEq Node] [DecidableEq Index]
    {view : Node → List Index → Option Node} (unshared : Unshared named view) (root : Node)
    (path : List Index) (value : Option Node)
    (fresh : ∀ node, value = some node → ∀ other way, named other way →
      ¬ (other = root ∧ way = path) → view other way ≠ some node) :
    Unshared named fun other way => if other = root ∧ way = path then value else view other way := by
  intro left first right second node leftNamed rightNamed leftHit rightHit
  by_cases leftSame : left = root ∧ first = path
  · by_cases rightSame : right = root ∧ second = path
    · exact ⟨leftSame.1.trans rightSame.1.symm, leftSame.2.trans rightSame.2.symm⟩
    · simp only [leftSame, and_self, ↓reduceIte] at leftHit
      simp only [rightSame, ↓reduceIte] at rightHit
      exact absurd rightHit (fresh node leftHit right second rightNamed rightSame)
  · by_cases rightSame : right = root ∧ second = path
    · simp only [rightSame, and_self, ↓reduceIte] at rightHit
      simp only [leftSame, ↓reduceIte] at leftHit
      exact absurd leftHit (fresh node rightHit left first leftNamed leftSame)
    · simp only [leftSame, ↓reduceIte] at leftHit
      simp only [rightSame, ↓reduceIte] at rightHit
      exact unshared left first right second node leftNamed rightNamed leftHit rightHit

end Names

/-! Post-order traversal to a fixed depth, with the slots to scan at each depth. -/

def subtree (child : Node → Index → Option Node) (slots : Nat → List Index) :
    Nat → Node → List Node
  | 0, _ => []
  | depth + 1, node => (slots (depth + 1)).flatMap fun index =>
      match child node index with
      | none => []
      | some next => subtree child slots depth next ++ [next]

def Scanned (slots : Nat → List Index) : Nat → List Index → Prop
  | _, [] => True
  | 0, _ :: _ => False
  | depth + 1, index :: rest => index ∈ slots (depth + 1) ∧ Scanned slots depth rest

theorem mem_subtree (child : Node → Index → Option Node) (slots : Nat → List Index) (depth : Nat)
    (node found : Node) :
    found ∈ subtree child slots depth node ↔
      ∃ path, path ≠ [] ∧ Scanned slots depth path ∧ follow child node path = some found := by
  induction depth generalizing node with
  | zero =>
      constructor
      · intro member
        simp [subtree] at member
      · rintro ⟨path, nonempty, scanned, _⟩
        cases path with
        | nil => exact absurd rfl nonempty
        | cons index rest => exact absurd scanned (by simp [Scanned])
  | succ depth ih =>
      simp only [subtree, List.mem_flatMap]
      constructor
      · rintro ⟨index, member, inside⟩
        cases link : child node index with
        | none => simp [link] at inside
        | some next =>
            simp only [link, List.mem_append, List.mem_singleton] at inside
            rcases inside with deeper | same
            · obtain ⟨path, _, scanned, reached⟩ := (ih next).mp deeper
              exact ⟨index :: path, by simp, ⟨member, scanned⟩, by rw [follow_cons, link]; exact reached⟩
            · exact ⟨[index], by simp, ⟨member, by cases depth <;> trivial⟩,
                by rw [follow_cons, link, same]; rfl⟩
      · rintro ⟨path, nonempty, scanned, reached⟩
        cases path with
        | nil => exact absurd rfl nonempty
        | cons index rest =>
            refine ⟨index, scanned.1, ?_⟩
            rw [follow_cons] at reached
            cases link : child node index with
            | none => simp [link] at reached
            | some next =>
                simp only [link, Option.bind_some] at reached
                simp only [List.mem_append, List.mem_singleton]
                by_cases ends : rest = []
                · subst rest
                  simp only [follow_nil, Option.some.injEq] at reached
                  exact .inr reached.symm
                · exact .inl ((ih next).mpr ⟨rest, ends, scanned.2, reached⟩)

theorem subtree_nodup (child : Node → Index → Option Node) (slots : Nat → List Index)
    (distinctSlots : ∀ depth, (slots depth).Nodup) (depth : Nat) (node : Node)
    (injective : ∀ path way found, Scanned slots depth path → Scanned slots depth way →
      follow child node path = some found → follow child node way = some found → path = way) :
    (subtree child slots depth node).Nodup := by
  induction depth generalizing node with
  | zero => simp [subtree]
  | succ depth ih =>
      simp only [subtree]
      rw [List.nodup_flatMap]
      constructor
      · intro index member
        cases link : child node index with
        | none => simp
        | some next =>
            have below : ∀ path way found, Scanned slots depth path → Scanned slots depth way →
                follow child next path = some found → follow child next way = some found →
                path = way := by
              intro path way found first second left right
              have same := injective (index :: path) (index :: way) found ⟨member, first⟩
                ⟨member, second⟩ (by rw [follow_cons, link]; exact left)
                (by rw [follow_cons, link]; exact right)
              exact (List.cons.inj same).2
            rw [List.nodup_append]
            refine ⟨ih next below, by simp, ?_⟩
            intro found deeper last final same
            simp only [List.mem_singleton] at final
            subst last
            subst found
            obtain ⟨path, nonempty, scanned, reached⟩ := (mem_subtree child slots depth next next).mp deeper
            exact nonempty (below path [] next scanned (by cases depth <;> trivial) reached rfl)
      · refine (distinctSlots (depth + 1)).imp_of_mem ?_
        intro left right leftMember rightMember different
        rw [Function.onFun, List.disjoint_left]
        intro found leftFound rightFound
        have named : ∀ index, index ∈ slots (depth + 1) →
            (found ∈ match child node index with
              | none => []
              | some next => subtree child slots depth next ++ [next]) →
            ∃ path, Scanned slots (depth + 1) (index :: path) ∧
              follow child node (index :: path) = some found := by
          intro index member inside
          cases link : child node index with
          | none => simp [link] at inside
          | some next =>
              simp only [link, List.mem_append, List.mem_singleton] at inside
              rcases inside with deeper | same
              · obtain ⟨path, _, scanned, reached⟩ := (mem_subtree child slots depth next found).mp deeper
                exact ⟨path, ⟨member, scanned⟩, by rw [follow_cons, link]; exact reached⟩
              · exact ⟨[], ⟨member, by cases depth <;> trivial⟩, by rw [follow_cons, link, same]; rfl⟩
        obtain ⟨path, first, leftReached⟩ := named left leftMember leftFound
        obtain ⟨way, second, rightReached⟩ := named right rightMember rightFound
        exact different (List.cons.inj (injective _ _ found first second leftReached rightReached)).1

end Shizuku.PointerForest
