import Shizuku.Keyboard

/-!
The rings of typed characters along any run: what terminals, keyboard, serial console and
window manager do in any order. Each ring relays the characters it accepted, oldest first,
and it has room for 127.
-/

namespace Shizuku.Terminals

open Machine RingQueue

def Console.setRing (s : Console) (port : Port) (ring : RingBuffer UInt8) : Console :=
  match port with
  | .kernel => { s with buf := ring }
  | .vterm id => { s with vt := s.vt.set id { s.vt.terms id with inq := ring } }

theorem setRing_same (s : Console) (port : Port) (ring : RingBuffer UInt8) :
    (s.setRing port ring).ring port = ring := by
  cases port with
  | kernel => rfl
  | vterm id => simp [Console.setRing, Console.ring]

theorem setRing_other (s : Console) {port other : Port} (ring : RingBuffer UInt8)
    (different : other ≠ port) : (s.setRing port ring).ring other = s.ring other := by
  cases port with
  | kernel =>
      cases other with
      | kernel => exact absurd rfl different
      | vterm id => rfl
  | vterm id =>
      cases other with
      | kernel => rfl
      | vterm i =>
          have apart : i ≠ id := fun same => different (congrArg Port.vterm same)
          simp [Console.setRing, Console.ring, Vterms.set_other _ _ apart]

theorem setRing_terms (s : Console) (port : Port) (ring : RingBuffer UInt8) (id : Nat) :
    ((s.setRing port ring).vt.terms id).used = (s.vt.terms id).used ∧
      ((s.setRing port ring).vt.terms id).row = (s.vt.terms id).row ∧
      ((s.setRing port ring).vt.terms id).col = (s.vt.terms id).col := by
  cases port with
  | kernel => exact ⟨rfl, rfl, rfl⟩
  | vterm i =>
      by_cases same : id = i
      · subst i
        simp [Console.setRing]
      · simp [Console.setRing, Vterms.set_other _ _ same]

theorem setRing_live (s : Console) (port other : Port) (ring : RingBuffer UInt8) :
    (s.setRing port ring).Live other ↔ s.Live other := by
  cases other with
  | kernel => exact Iff.rfl
  | vterm id =>
      simp only [Console.Live, (setRing_terms s port ring id).1]

structure Healthy (s : Console) : Prop where
  steady : ∀ id, (s.vt.terms id).Steady
  queued : ∀ port, ∃ items, Queued 128 (s.ring port) items

theorem Healthy.setRing {s : Console} (healthy : Healthy s) (port : Port)
    {ring : RingBuffer UInt8} (queued : ∃ items, Queued 128 ring items) :
    Healthy (s.setRing port ring) where
  steady := fun id => by
    obtain ⟨_, row, col⟩ := setRing_terms s port ring id
    exact ⟨row ▸ (healthy.steady id).row, col ▸ (healthy.steady id).col⟩
  queued := fun other => by
    by_cases same : other = port
    · rw [same, setRing_same]
      exact queued
    · rw [setRing_other s ring same]
      exact healthy.queued other

inductive Moves (s : Console) (op : Op) (ret : Int) (next : Console) (port : Port) : Prop where
  | pushed (c : UInt8) (live : s.Live port) (remains : next.Live port)
      (offer : offered s op port = some c) (reads : readsFrom op port = false)
      (done : (s.ring port).push 128 c = .ok (next.ring port))
  | popped (item : Option UInt8) (live : s.Live port) (remains : next.Live port)
      (offer : offered s op port = none) (reads : readsFrom op port = true)
      (returned : ret = asI32 item) (done : (s.ring port).pop 128 = .ok (item, next.ring port))
  | untouched (same : next.ring port = s.ring port) (remains : next.Live port ↔ s.Live port)
      (offer : s.Live port → offered s op port = none) (reads : s.Live port → readsFrom op port = false)
      (empty : readsFrom op port = true → ret = -1)
  | opened (dead : ¬ s.Live port) (fresh : next.ring port = ⟨fun _ => 0, 0, 0⟩)
      (offer : offered s op port = none) (reads : readsFrom op port = false)

inductive Puts (s : Console) (port : Port) (c : UInt8) (next : Console) : Prop where
  | dead (dead : ¬ s.Live port) (same : next = s)
  | live (live : s.Live port) (ring : RingBuffer UInt8)
      (pushed : (s.ring port).push 128 c = .ok ring) (now : next = s.setRing port ring)

theorem Healthy.push {s : Console} (healthy : Healthy s) (port : Port) (c : UInt8) :
    ∃ ring, (s.ring port).push 128 c = .ok ring ∧ ∃ items, Queued 128 ring items := by
  obtain ⟨items, queued⟩ := healthy.queued port
  have room := queued.room
  by_cases full : items.length + 1 = 128
  · exact ⟨_, queued.push_full c full, items, queued⟩
  · obtain ⟨ring, pushed, _, more⟩ := queued.push_room c (by omega)
    exact ⟨ring, pushed, _, more⟩

theorem Healthy.pop {s : Console} (healthy : Healthy s) (port : Port) :
    ∃ item ring, (s.ring port).pop 128 = .ok (item, ring) ∧ ∃ items, Queued 128 ring items := by
  obtain ⟨items, queued⟩ := healthy.queued port
  cases items with
  | nil => exact ⟨none, _, queued.pop_empty, [], queued⟩
  | cons item rest =>
      obtain ⟨ring, popped, fewer⟩ := queued.pop_first
      exact ⟨some item, ring, popped, rest, fewer⟩

theorem live_iff (s : Console) (id : Nat) :
    s.Live (.vterm id) ↔ ¬ (vtMax ≤ id ∨ (s.vt.terms id).used = false) := by
  rw [not_or, Nat.not_le, Bool.not_eq_false]
  rfl

theorem vtPush_puts {s : Console} (healthy : Healthy s) {id : Int} (c : UInt8) (known : 0 ≤ id) :
    ∃ vt, s.vt.push id c = .ok vt ∧ Puts s (.vterm id.toNat) c { s with vt := vt } := by
  by_cases live : s.Live (.vterm id.toNat)
  · obtain ⟨ring, pushed, _⟩ := healthy.push (.vterm id.toNat) c
    have open_ : ¬ (id < 0 ∨ vtMax ≤ id.toNat ∨ (s.vt.terms id.toNat).used = false) :=
      not_or.mpr ⟨not_lt.mpr known, (live_iff s id.toNat).mp live⟩
    refine ⟨s.vt.set id.toNat { s.vt.terms id.toNat with inq := ring }, ?_, .live live ring pushed rfl⟩
    have taken : (s.vt.terms id.toNat).inq.push vtInq c = .ok ring := pushed
    simp only [Vterms.push, if_neg open_, taken, ok_bind, pure_ok]
  · have closed : id < 0 ∨ vtMax ≤ id.toNat ∨ (s.vt.terms id.toNat).used = false :=
      .inr (by rwa [live_iff, not_not] at live)
    exact ⟨s.vt, if_pos closed, .dead live rfl⟩

theorem pushChar_puts {s : Console} (healthy : Healthy s) (c : UInt8) :
    ∃ next, pushChar s c = .ok next ∧ Puts s .kernel c next := by
  obtain ⟨ring, pushed, _⟩ := healthy.push .kernel c
  have taken : s.buf.push kbdBuf c = .ok ring := pushed
  refine ⟨{ s with buf := ring }, ?_, .live trivial ring pushed rfl⟩
  simp only [pushChar, taken, ok_bind, pure_ok]

theorem Puts.moves {s next : Console} {target : Port} {c : UInt8} {op : Op} (ret : Int)
    (healthy : Healthy s) (puts : Puts s target c next)
    (offer : ∀ port, offered s op port = if port = target then some c else none)
    (reads : ∀ port, readsFrom op port = false) :
    Healthy next ∧ ∀ port, Moves s op ret next port := by
  cases puts with
  | dead dead same =>
      subst next
      refine ⟨healthy, fun port => .untouched rfl Iff.rfl (fun live => ?_) (fun _ => reads port)
        (fun read => by rw [reads port] at read; cases read)⟩
      rw [offer, if_neg]
      rintro rfl
      exact dead live
  | live live ring pushed now =>
      subst next
      obtain ⟨_, done, queued⟩ := healthy.push target c
      cases pushed.symm.trans done
      refine ⟨healthy.setRing target queued, fun port => ?_⟩
      by_cases same : port = target
      · subst port
        refine .pushed c live ((setRing_live s _ _ ring).mpr live) (by rw [offer, if_pos rfl])
          (reads _) ?_
        rw [setRing_same]
        exact pushed
      · exact .untouched (setRing_other s ring same) (setRing_live s _ _ ring)
          (fun _ => by rw [offer, if_neg same]) (fun _ => reads port)
          (fun read => by rw [reads port] at read; cases read)

theorem idle_moves {s next : Console} {op : Op} (ret : Int) (healthy : Healthy s)
    (terms : ∀ id, (next.vt.terms id).Steady ∧ (next.vt.terms id).inq = (s.vt.terms id).inq ∧
      (next.vt.terms id).used = (s.vt.terms id).used)
    (buf : next.buf = s.buf) (offer : ∀ port, offered s op port = none)
    (reads : ∀ port, readsFrom op port = false) :
    Healthy next ∧ ∀ port, Moves s op ret next port := by
  have rings (port : Port) : next.ring port = s.ring port := by
    cases port with
    | kernel => exact buf
    | vterm id => exact (terms id).2.1
  refine ⟨⟨fun id => (terms id).1, fun port => rings port ▸ healthy.queued port⟩, fun port => ?_⟩
  refine .untouched (rings port) ?_ (fun _ => offer port) (fun _ => reads port)
    (fun read => by rw [reads port] at read; cases read)
  cases port with
  | kernel => exact Iff.rfl
  | vterm id => simp only [Console.Live, (terms id).2.2]

theorem quiet_moves {s next : Console} {op : Op} (ret : Int) (healthy : Healthy s)
    (terms : next.vt.terms = s.vt.terms) (buf : next.buf = s.buf)
    (offer : ∀ port, offered s op port = none)
    (reads : ∀ port, readsFrom op port = false) :
    Healthy next ∧ ∀ port, Moves s op ret next port := by
  apply idle_moves ret healthy _ buf offer reads
  intro id
  rw [terms]
  exact ⟨healthy.steady id, rfl, rfl⟩

theorem fresh_queued : ∃ items, Queued 128 (⟨fun _ => 0, 0, 0⟩ : RingBuffer UInt8) items := by
  have empty : Relays 128 (⟨fun _ => 0, 0, 0⟩ : RingBuffer UInt8) [] [] := .fresh _ (by decide)
  obtain ⟨items, queued, _⟩ := empty
  exact ⟨items, queued⟩

section Opening
variable {s : Console} {vt : Vterms} {i : Nat} (others : ∀ id, id ≠ i → vt.terms id = s.vt.terms id)
  (fresh : vt.terms i = { Vterm.empty with used := true })
include others fresh

theorem opened_healthy (healthy : Healthy s) : Healthy { s with vt := vt } where
  steady id := by
    by_cases same : id = i
    · rw [same, fresh]
      exact ⟨by decide, by decide⟩
    · rw [others id same]
      exact healthy.steady id
  queued port := by
    cases port with
    | kernel => exact healthy.queued .kernel
    | vterm id =>
        by_cases same : id = i
        · simp only [Console.ring, same, fresh]
          exact fresh_queued
        · simp only [Console.ring, others id same]
          exact healthy.queued (.vterm id)

theorem opened_moves (free : (s.vt.terms i).used = false) (ret : Int) (port : Port) :
    Moves s .create ret { s with vt := vt } port := by
  cases port with
  | kernel => exact .untouched rfl Iff.rfl (fun _ => rfl) (fun _ => rfl) nofun
  | vterm id =>
      by_cases same : id = i
      · subst i
        refine .opened (fun live => (live_iff s id).mp live (.inr free)) ?_ rfl rfl
        simp only [Console.ring, fresh]
        rfl
      · refine .untouched ?_ ?_ (fun _ => rfl) (fun _ => rfl) nofun
        · simp only [Console.ring, others id same]
        · simp only [Console.Live, others id same]

end Opening

theorem create_moves {s : Console} (healthy : Healthy s) :
    Healthy { s with vt := s.vt.create.2 } ∧
      ∀ port, Moves s .create s.vt.create.1 { s with vt := s.vt.create.2 } port := by
  rcases create_cases s.vt with full | ⟨i, inside, free, given⟩
  · rw [full]
    exact quiet_moves _ healthy rfl rfl (fun _ => rfl) fun _ => rfl
  · rw [given]
    refine ⟨opened_healthy (fun _ other => s.vt.set_other _ other) (s.vt.set_same i _) healthy, ?_⟩
    intro port
    apply opened_moves
    · exact fun _ other => s.vt.set_other _ other
    · exact s.vt.set_same i _
    · exact free

theorem putc_moves {s : Console} (healthy : Healthy s) (id : Nat) (c : UInt8) :
    ∃ put, s.vt.putcVt id c = .ok put ∧ Healthy { s with vt := put.2 } ∧
      ∀ port, Moves s (.putc id c) 0 { s with vt := put.2 } port := by
  have same : Healthy s ∧ ∀ port, Moves s (.putc id c) 0 s port :=
    quiet_moves 0 healthy rfl rfl (fun _ => rfl) fun _ => rfl
  unfold Vterms.putcVt
  split
  · exact ⟨_, rfl, same⟩
  · split
    · exact ⟨_, rfl, same⟩
    · obtain ⟨v, put, steady, inq, used⟩ := put_steady (healthy.steady id) c
      refine ⟨_, by rw [put, ok_bind, pure_ok], ?_⟩
      refine idle_moves 0 healthy (fun i => ?_) rfl (fun _ => rfl) fun _ => rfl
      by_cases here : i = id
      · subst i
        simp only [Vterms.set_same]
        exact ⟨steady, inq, used⟩
      · rw [Vterms.set_other _ _ here]
        exact ⟨healthy.steady i, rfl, rfl⟩

theorem pop_moves {s : Console} {port : Port} {op : Op} {item : Option UInt8}
    {ring : RingBuffer UInt8} (healthy : Healthy s) (live : s.Live port)
    (popped : (s.ring port).pop 128 = .ok (item, ring)) (offer : ∀ other, offered s op other = none)
    (reads : ∀ other, readsFrom op other = decide (other = port)) :
    Healthy (s.setRing port ring) ∧ ∀ other, Moves s op (asI32 item) (s.setRing port ring) other := by
  obtain ⟨_, _, done, queued⟩ := healthy.pop port
  cases popped.symm.trans done
  refine ⟨healthy.setRing port queued, fun other => ?_⟩
  by_cases same : other = port
  · subst other
    refine .popped item live ((setRing_live s _ _ ring).mpr live) (offer _) (by simp [reads]) rfl ?_
    rw [setRing_same]
    exact popped
  · exact .untouched (setRing_other s ring same) (setRing_live s _ _ ring) (fun _ => offer _)
      (fun _ => by simp [reads, same]) (fun read => by simp [reads, same] at read)

theorem getc_moves {s : Console} (healthy : Healthy s) (id : Nat) :
    ∃ read, s.vt.getc id = .ok read ∧ Healthy { s with vt := read.2 } ∧
      ∀ port, Moves s (.getc id) read.1 { s with vt := read.2 } port := by
  by_cases live : s.Live (.vterm id)
  · obtain ⟨item, ring, popped, _⟩ := healthy.pop (.vterm id)
    have open_ := (live_iff s id).mp live
    have taken : (s.vt.terms id).inq.pop vtInq = .ok (item, ring) := popped
    refine ⟨(asI32 item, s.vt.set id { s.vt.terms id with inq := ring }), ?_,
      pop_moves healthy live popped (fun _ => rfl) fun _ => rfl⟩
    simp only [Vterms.getc, if_neg open_, taken, ok_bind, pure_ok]
  · have closed : vtMax ≤ id ∨ (s.vt.terms id).used = false := by rwa [live_iff, not_not] at live
    refine ⟨(-1, s.vt), if_pos closed, healthy, fun port => ?_⟩
    refine .untouched rfl Iff.rfl (fun _ => rfl) (fun alive => ?_) fun _ => rfl
    refine decide_eq_false ?_
    rintro rfl
    exact live alive

theorem getchar_moves {s : Console} (healthy : Healthy s) :
    ∃ ret next, getchar s = .ok (ret, next) ∧ Healthy next ∧ ∀ port, Moves s .getchar ret next port := by
  obtain ⟨item, ring, popped, _⟩ := healthy.pop .kernel
  have taken : s.buf.pop kbdBuf = .ok (item, ring) := popped
  refine ⟨asI32 item, s.setRing .kernel ring, ?_,
    pop_moves healthy trivial popped (fun _ => rfl) fun _ => rfl⟩
  simp only [getchar, taken, ok_bind, pure_ok]
  rfl

theorem scancode_moves {s : Console} (healthy : Healthy s) (sc : UInt8) :
    ∃ typed, kbdOnScancode s sc = .ok typed ∧ Healthy typed.2 ∧
      ∀ port, Moves s (.scancode sc) 0 typed.2 port := by
  have idle {next : Console} (vt : next.vt = s.vt) (buf : next.buf = s.buf)
      (silent : ∀ port, offered s (.scancode sc) port = none) :
      Healthy next ∧ ∀ port, Moves s (.scancode sc) 0 next port :=
    quiet_moves 0 healthy (by rw [vt]) buf silent fun _ => rfl
  unfold kbdOnScancode
  cases key : decodeKey s.shift sc with
  | shift down => exact ⟨_, rfl, idle rfl rfl fun _ => by simp only [offered, key]⟩
  | ignored => exact ⟨_, rfl, idle rfl rfl fun _ => by simp only [offered, key]⟩
  | function number => exact ⟨_, rfl, idle rfl rfl fun _ => by simp only [offered, key]⟩
  | char c =>
      have offer (port : Port) : offered s (.scancode sc) port =
          if port = s.target then some c else none := by
        simp only [offered, key]
      by_cases routed : 0 ≤ s.routeVt
      · obtain ⟨vt, pushed, puts⟩ := vtPush_puts healthy c routed
        refine ⟨(none, { s with vt := vt }), ?_, puts.moves 0 healthy (fun port => ?_) fun _ => rfl⟩
        · simp only [if_pos routed, pushed, ok_bind, pure_ok]
        · rw [offer, Console.target, if_pos routed]
      · obtain ⟨next, pushed, puts⟩ := pushChar_puts healthy c
        refine ⟨(none, next), ?_, puts.moves 0 healthy (fun port => ?_) fun _ => rfl⟩
        · simp only [if_neg routed, pushed, ok_bind, pure_ok]
        · rw [offer, Console.target, if_neg routed]

theorem step_moves {s : Console} (healthy : Healthy s) (op : Op) :
    ∃ ret next, step s op = .ok (ret, next) ∧ Healthy next ∧ ∀ port, Moves s op ret next port := by
  cases op with
  | create => exact ⟨_, _, rfl, create_moves healthy⟩
  | putc id c =>
      obtain ⟨put, done, moves⟩ := putc_moves healthy id c
      exact ⟨_, { s with vt := put.2 }, by simp only [step, done, ok_bind, pure_ok], moves⟩
  | push id c =>
      by_cases known : 0 ≤ id
      · obtain ⟨vt, done, puts⟩ := vtPush_puts healthy c known
        refine ⟨_, { s with vt := vt }, by simp only [step, done, ok_bind, pure_ok],
          puts.moves 0 healthy (fun port => ?_) fun _ => rfl⟩
        simp only [offered, known, true_and]
      · have closed : s.vt.push id c = .ok s.vt := if_pos (.inl (by omega))
        refine ⟨_, s, by simp only [step, closed, ok_bind, pure_ok],
          quiet_moves 0 healthy rfl rfl (fun port => ?_) fun _ => rfl⟩
        simp only [offered, known, false_and, if_false]
  | getc id =>
      obtain ⟨read, done, moves⟩ := getc_moves healthy id
      exact ⟨_, { s with vt := read.2 }, by simp only [step, done, ok_bind, pure_ok], moves⟩
  | scancode sc =>
      obtain ⟨typed, done, moves⟩ := scancode_moves healthy sc
      exact ⟨_, typed.2, by simp only [step, done, ok_bind, pure_ok], moves⟩
  | getchar => exact getchar_moves healthy
  | pushChar c =>
      obtain ⟨next, done, puts⟩ := pushChar_puts healthy c
      exact ⟨_, next, by simp only [step, done, ok_bind, pure_ok],
        puts.moves 0 healthy (fun _ => rfl) fun _ => rfl⟩
  | route vt =>
      exact ⟨_, _, rfl, quiet_moves 0 healthy rfl rfl (fun _ => rfl) fun _ => rfl⟩
  | hooks =>
      exact ⟨_, _, rfl, quiet_moves 0 healthy rfl rfl (fun _ => rfl) fun _ => rfl⟩

/-! ### Runs -/

structure Log where
  accepted : List UInt8
  read : List Int

/-- A character is accepted if the head of the ring moves. -/
def Log.record (log : Log) (port : Port) (s : Console) (op : Op) (ret : Int) (next : Console) :
    Log where
  accepted := if (next.ring port).head = (s.ring port).head then log.accepted
    else log.accepted ++ (offered s op port).toList
  read := if readsFrom op port = true ∧ ret ≠ -1 then log.read ++ [ret] else log.read

def traced (port : Port) (s : Console) (log : Log) : List Op → Outcome (Log × Console)
  | [] => .ok (log, s)
  | op :: ops => do
      let done ← step s op
      traced port done.2 (log.record port s op done.1 done.2) ops

structure Relayed (port : Port) (s : Console) (log : Log) : Prop where
  healthy : Healthy s
  live : s.Live port → ∃ read : List UInt8, log.read = read.map (fun c => asI32 (some c)) ∧
    Relays 128 (s.ring port) log.accepted read
  dead : ¬ s.Live port → log = ⟨[], []⟩

theorem boot_relayed (port : Port) : Relayed port .boot ⟨[], []⟩ := by
  have fresh : ∀ other : Port, Console.boot.ring other = ⟨fun _ => 0, 0, 0⟩ := by
    intro other
    cases other <;> rfl
  have relays : Relays 128 (⟨fun _ => 0, 0, 0⟩ : RingBuffer UInt8) [] [] := .fresh _ (by decide)
  have steady : Vterm.empty.Steady := ⟨by decide, by decide⟩
  refine ⟨⟨fun _ => steady, fun other => ?_⟩, fun _ => ⟨[], rfl, ?_⟩, fun _ => rfl⟩
  · rw [fresh]
    exact fresh_queued
  · rw [fresh]
    exact relays

theorem record_relayed {port : Port} {s next : Console} {log : Log} {op : Op} {ret : Int}
    (relayed : Relayed port s log) (healthy : Healthy next) (moves : Moves s op ret next port) :
    Relayed port next (log.record port s op ret next) := by
  cases moves with
  | pushed c live remains offer reads done =>
      refine ⟨healthy, fun _ => ?_, fun gone => absurd remains gone⟩
      obtain ⟨read, same, relays⟩ := relayed.live live
      obtain ⟨after, pushed, _, _, later⟩ := relays.push c
      cases pushed.symm.trans done
      refine ⟨read, by simp [Log.record, reads, same], ?_⟩
      simp only [Log.record, offer, Option.toList_some]
      exact later
  | popped item live remains offer reads returned done =>
      refine ⟨healthy, fun _ => ?_, fun gone => absurd remains gone⟩
      obtain ⟨read, same, relays⟩ := relayed.live live
      obtain ⟨oldest, after, popped, _, _, later⟩ := relays.pop
      cases popped.symm.trans done
      refine ⟨read ++ item.toList, ?_, ?_⟩
      · rw [returned]
        cases item with
        | none => simp [Log.record, asI32, same]
        | some c =>
            have byte : asI32 (some c) ≠ -1 := by
              simp only [asI32]
              omega
            simp [Log.record, reads, byte, same]
      · simp only [Log.record, offer, Option.toList_none, List.append_nil, ite_self]
        exact later
  | untouched same remains offer reads empty =>
      have kept : log.record port s op ret next = log := by
        have silent : ¬ (readsFrom op port = true ∧ ret ≠ -1) := fun ⟨read, some_⟩ => some_ (empty read)
        simp [Log.record, same, silent]
      rw [kept]
      exact ⟨healthy, fun live => same ▸ relayed.live (remains.mp live),
        fun dead => relayed.dead fun live => dead (remains.mpr live)⟩
  | opened dead fresh offer reads =>
      have kept : log.record port s op ret next = ⟨[], []⟩ := by
        rw [relayed.dead dead]
        simp [Log.record, offer, reads]
      rw [kept]
      exact ⟨healthy, fun _ => ⟨[], rfl, fresh ▸ .fresh _ (by decide)⟩, fun _ => rfl⟩

theorem traced_relayed (port : Port) (ops : List Op) {s : Console} {log : Log}
    (relayed : Relayed port s log) :
    ∃ log' last, traced port s log ops = .ok (log', last) ∧ Relayed port last log' := by
  induction ops generalizing s log with
  | nil => exact ⟨log, s, rfl, relayed⟩
  | cons op ops ih =>
      obtain ⟨ret, next, done, healthy, moves⟩ := step_moves relayed.healthy op
      obtain ⟨log', last, later, still⟩ := ih (record_relayed relayed healthy (moves port))
      refine ⟨log', last, ?_, still⟩
      simp only [traced, done, ok_bind]
      exact later

theorem Relayed.next_push {port : Port} {s : Console} {log : Log} (relayed : Relayed port s log)
    (live : s.Live port) {op : Op} {c : UInt8} (offer : offered s op port = some c) :
    ∃ ret next, step s op = .ok (ret, next) ∧
      (next.ring port = s.ring port ↔ log.accepted.length - log.read.length = 127) := by
  obtain ⟨ret, next, done, _, moves⟩ := step_moves relayed.healthy op
  obtain ⟨read, same, relays⟩ := relayed.live live
  refine ⟨ret, next, done, ?_⟩
  cases moves port with
  | pushed c' _ _ offer' _ pushed =>
      obtain ⟨after, pushed', dropped, _, _⟩ := relays.push c'
      cases pushed'.symm.trans pushed
      rw [dropped, same, List.length_map]
      omega
  | popped _ _ _ offer' _ _ _ => cases offer.symm.trans offer'
  | untouched _ _ offer' _ _ => cases offer.symm.trans (offer' live)
  | opened dead _ _ _ => exact absurd live dead

theorem Relayed.next_read {port : Port} {s : Console} {log : Log} (relayed : Relayed port s log)
    (live : s.Live port) {op : Op} (reads : readsFrom op port = true) :
    ∃ ret next, step s op = .ok (ret, next) ∧ ret = asI32 log.accepted[log.read.length]? ∧
      (ret = -1 ↔ log.accepted.length - log.read.length = 0) := by
  obtain ⟨ret, next, done, _, moves⟩ := step_moves relayed.healthy op
  obtain ⟨read, same, relays⟩ := relayed.live live
  refine ⟨ret, next, done, ?_⟩
  cases moves port with
  | pushed _ _ _ _ reads' _ => cases reads.symm.trans reads'
  | popped item _ _ _ _ returned popped =>
      obtain ⟨oldest, after, popped', first, none_, _⟩ := relays.pop
      cases popped'.symm.trans popped
      rw [same, List.length_map, ← first, ← none_, returned]
      refine ⟨rfl, ?_⟩
      cases item with
      | none => simp [asI32]
      | some c => simp only [asI32, reduceCtorEq]
  | untouched _ _ _ reads' _ => cases reads.symm.trans (reads' live)
  | opened dead _ _ _ => exact absurd live dead

/-- For every run from the boot state and every ring: the characters read are the first
accepted ones, a push into a live ring is dropped exactly if 127 are unread, and a read
returns -1 exactly if none is. -/
theorem input_rings_are_queues (port : Port) (ops : List Op) :
    ∃ log s, traced port .boot ⟨[], []⟩ ops = .ok (log, s) ∧
      log.read <+: log.accepted.map (fun c => (c.toNat : Int)) ∧
      log.accepted.length - log.read.length ≤ 127 ∧
      (s.Live port →
        (∀ op c, offered s op port = some c → ∃ ret next, step s op = .ok (ret, next) ∧
          (next.ring port = s.ring port ↔ log.accepted.length - log.read.length = 127)) ∧
        ∀ op, readsFrom op port = true → ∃ ret next, step s op = .ok (ret, next) ∧
          ret = asI32 log.accepted[log.read.length]? ∧
          (ret = -1 ↔ log.accepted.length - log.read.length = 0)) := by
  obtain ⟨log, s, done, relayed⟩ := traced_relayed port ops (boot_relayed port)
  have order : log.read <+: log.accepted.map (fun c => (c.toNat : Int)) ∧
      log.accepted.length - log.read.length ≤ 127 := by
    by_cases live : s.Live port
    · obtain ⟨read, same, relays⟩ := relayed.live live
      have room := relays.unread_lt
      obtain ⟨unread, _, all⟩ := relays
      refine ⟨⟨unread.map (fun c => (c.toNat : Int)), ?_⟩, ?_⟩
      · rw [same, all, List.map_append]
        rfl
      · rw [same, List.length_map]
        omega
    · rw [relayed.dead live]
      exact ⟨List.nil_prefix, by decide⟩
  exact ⟨log, s, done, order.1, order.2, fun live =>
    ⟨fun op c offer => relayed.next_push live offer, fun op reads => relayed.next_read live reads⟩⟩

end Shizuku.Terminals
