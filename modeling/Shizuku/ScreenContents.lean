import Shizuku.Desktop

/-!
What is on the screen while the compositor runs. Away from the collected damage the frame
buffer shows the cached frames, with the cursor where it was last drawn; every window whose
frame is out of date is flagged and damaged; and the window of a terminal paints the rows that
the terminal has. Every phase and every interrupt keeps this, so at the end of each turn the
screen is what repainting everything would give.
-/

namespace Shizuku.Gui

open Absorption Machine RowMajor Terminals

/-- A place for the cursor; it starts one pixel to the left of the screen. -/
structure Pointed (p : Int × Int) : Prop where
  x : -1 ≤ p.1 ∧ p.1 ≤ 2 ^ 30
  y : 0 ≤ p.2 ∧ p.2 ≤ 2 ^ 30

/-- Pixels without damage show the scene, and the bytes between the rows are as at first. -/
structure Showing (font : Font) (disp : Display) (first : Nat → UInt8) (d : Desktop) : Prop where
  size : d.bb.w = disp.width ∧ d.bb.h = disp.height
  bounds : d.wm.dirty.bw = disp.width ∧ d.wm.dirty.bh = disp.height
  shown : ∀ px py, OnScreen disp.width disp.height (px, py) →
    ¬ Covered Holds d.wm.dirty.r (px, py) →
    Displays disp d.fb px py ((cursorAt d.cursorPrev px py).getD (sceneAt font d.wm.wins d.bb px py))
  unborn : d.cursorPrev.1 < 0 → ∀ px py, OnScreen disp.width disp.height (px, py) →
    Covered Holds d.wm.dirty.r (px, py)
  margin : ∀ addr, Margin disp addr → d.fb addr = first addr

structure Upkept (font : Font) (d : Desktop) : Prop where
  sound : Sound d.wm
  indexed : Indexed d.wm
  ready : ∀ i < guiMaxWindows, Ready font d.wm.dirty (d.wm.wins i)
  prev : Pointed d.cursorPrev
  pointer : Pointed d.pointer
  mouse : 0 ≤ d.mouse.x
  hook : d.vt.dirtyHook = true
  steady : ∀ id, (d.vt.terms id).Steady

structure Shows (font : Font) (d : Desktop) (i t : Nat) : Prop where
  vt : (d.wm.wins i).vt = t
  window : d.vtWin t = i
  live : (d.vt.terms t).used = true
  wide : 4 + vtCols * fontW ≤ (d.wm.wins i).w
  picture : ∃ picture, (d.wm.wins i).onPaint = some picture ∧
    ∀ x y, InGrid (d.wm.wins i).w (d.wm.wins i).h x y →
      picture x y = terminalAt font (terminalLine d.vt t) x y

structure Bound (font : Font) (d : Desktop) : Prop where
  terminal : ∀ i < guiMaxWindows, (d.wm.wins i).used = true → 0 ≤ (d.wm.wins i).vt →
    ∃ t, Shows font d i t
  animated : ∀ i < guiMaxWindows, d.animate i = true →
    (d.wm.wins i).used = true ∧ (d.wm.wins i).vt < 0

structure Kept (font : Font) (disp : Display) (first : Nat → UInt8) (d : Desktop) : Prop where
  showing : Showing font disp first d
  upkept : Upkept font d
  bound : Bound font d

theorem sceneAt_congr {font : Font} {wins others : Windows} {bb : Surface} {px py : Int}
    (same : ∀ i < guiMaxWindows, shownAt (wins i) px py = shownAt (others i) px py) :
    sceneAt font wins bb px py = sceneAt font others bb px py := by
  have top : windowAt wins px py = windowAt others px py :=
    topAt_congr _ fun i member => same i (List.mem_range.mp member)
  rw [sceneAt, sceneAt, top]

section Showing
variable {font : Font} {disp : Display} {first : Nat → UInt8} {d after : Desktop}

theorem Showing.tracked (showing : Showing font disp first d) (tracks : Tracks d.wm after.wm)
    (bb : after.bb = d.bb) (fb : after.fb = d.fb) (prev : after.cursorPrev = d.cursorPrev) :
    Showing font disp first after := by
  obtain ⟨size, bounds, shown, unborn, margin⟩ := showing
  have width := tracks.width.trans bounds.1
  have height := tracks.height.trans bounds.2
  refine ⟨by rwa [bb], ⟨width, height⟩, fun px py screen clean => ?_, fun early px py screen => ?_, ?_⟩
  · have scene : sceneAt font after.wm.wins d.bb px py = sceneAt font d.wm.wins d.bb px py :=
      sceneAt_congr fun i _ => shownAt_tracks tracks (by rwa [width, height]) clean i
    rw [bb, fb, prev, scene]
    exact shown px py screen fun covered => clean (tracks.grows _ covered)
  · rw [prev] at early
    exact tracks.grows _ (unborn early px py screen)
  · rwa [fb]

theorem Pointed.plain {p : Int × Int} (pointed : Pointed p) : Plain ⟨p.1, p.2, 12, 18⟩ := by
  obtain ⟨across, down⟩ := pointed
  constructor <;> simp only <;> omega

theorem cursorAt_apart {p : Int × Int} (pointed : Pointed p) {px py : Int}
    (apart : ¬ Holds ⟨p.1, p.2, 12, 18⟩ (px, py)) : cursorAt p px py = none := by
  obtain ⟨right, bottom⟩ := pointed.plain.ends
  rw [cursorAt, if_neg fun inside => apart ?_]
  simp only [Holds, right, bottom]
  omega

def cursorDamage (d : Desktop) : DirtyRegion :=
  (if 0 ≤ d.cursorPrev.1 then d.wm.dirty.addXywh d.cursorPrev.1 d.cursorPrev.2 12 18
    else d.wm.dirty).addXywh d.mouse.x d.mouse.y 12 18

theorem moveCursor_cases (d : Desktop) : moveCursor d = d ∧ d.cursorPrev = d.pointer ∨
    moveCursor d = { d with wm := { d.wm with dirty := cursorDamage d }, cursorPrev := d.pointer } := by
  unfold moveCursor
  split
  · exact .inr rfl
  · next still =>
      simp only [not_or, not_not] at still
      exact .inl ⟨rfl, Prod.ext still.1.symm still.2.symm⟩

theorem cursorDamage_bounds (d : Desktop) :
    (cursorDamage d).bw = d.wm.dirty.bw ∧ (cursorDamage d).bh = d.wm.dirty.bh := by
  unfold cursorDamage DirtyRegion.addXywh
  split
  · exact ⟨((add_bounds _ _).1).trans (add_bounds _ _).1, ((add_bounds _ _).2).trans (add_bounds _ _).2⟩
  · exact add_bounds _ _

theorem cursorDamage_grows (d : Desktop) (pixel : Int × Int)
    (covered : Covered Holds d.wm.dirty.r pixel) : Covered Holds (cursorDamage d).r pixel := by
  unfold cursorDamage DirtyRegion.addXywh
  apply add_keeps
  split
  · exact add_keeps _ _ _ covered
  · exact covered

theorem cursorDamage_regular (upkept : Upkept font d) : Regular (cursorDamage d) := by
  obtain ⟨sound, _, _, prev, pointer, _, _, _⟩ := upkept
  have sized := sound.sized
  unfold cursorDamage DirtyRegion.addXywh
  split
  · have first : Regular (d.wm.dirty.add ⟨d.cursorPrev.1, d.cursorPrev.2, 12, 18⟩) :=
      sound.regular.add sized prev.plain
    refine first.add ?_ pointer.plain
    rwa [(add_bounds _ _).1, (add_bounds _ _).2]
  · exact sound.regular.add sized pointer.plain

theorem cursorDamage_covers (upkept : Upkept font d) {px py : Int}
    (screen : OnScreen d.wm.dirty.bw d.wm.dirty.bh (px, py)) :
    (Holds ⟨d.mouse.x, d.mouse.y, 12, 18⟩ (px, py) → Covered Holds (cursorDamage d).r (px, py)) ∧
    (0 ≤ d.cursorPrev.1 → Holds ⟨d.cursorPrev.1, d.cursorPrev.2, 12, 18⟩ (px, py) →
      Covered Holds (cursorDamage d).r (px, py)) := by
  have sized := upkept.sound.sized
  unfold cursorDamage DirtyRegion.addXywh
  constructor
  · intro held
    split
    · refine add_covers ?_ held ?_ <;> rwa [(add_bounds _ _).1, (add_bounds _ _).2]
    · exact add_covers sized held screen
  · intro drawn held
    rw [if_pos drawn]
    exact add_keeps _ _ _ (add_covers sized held screen)

theorem Showing.moveCursor (showing : Showing font disp first d) (upkept : Upkept font d) :
    Showing font disp first (moveCursor d) := by
  rcases moveCursor_cases d with ⟨same, _⟩ | moved
  · rwa [same]
  · obtain ⟨size, bounds, shown, unborn, margin⟩ := showing
    have wide := cursorDamage_bounds d
    rw [moved]
    refine ⟨size, ⟨wide.1.trans bounds.1, wide.2.trans bounds.2⟩, fun px py screen clean => ?_,
      fun early => ?_, margin⟩
    · have before : ¬ Covered Holds d.wm.dirty.r (px, py) :=
        fun covered => clean (cursorDamage_grows d _ covered)
      have drawn : 0 ≤ d.cursorPrev.1 := by
        by_contra early
        exact before (unborn (by omega) px py screen)
      rw [← bounds.1, ← bounds.2] at screen
      obtain ⟨new, old⟩ := cursorDamage_covers upkept screen
      have nowhere := cursorAt_apart upkept.pointer fun held => clean (new held)
      have gone := cursorAt_apart upkept.prev fun held => clean (old drawn held)
      rw [bounds.1, bounds.2] at screen
      have here := shown px py screen before
      rw [gone] at here
      simp only [nowhere]
      exact here
    · exact absurd upkept.mouse (by simpa [Desktop.pointer] using early)

theorem Showing.refreshFrames (showing : Showing font disp first d) (upkept : Upkept font d) :
    Showing font disp first (refreshFrames font d) := by
  obtain ⟨size, bounds, shown, unborn, margin⟩ := showing
  refine ⟨size, bounds, fun px py screen clean => ?_, unborn, margin⟩
  have scene : sceneAt font (refresh font d.wm.wins) d.bb px py =
      sceneAt font d.wm.wins d.bb px py := by
    refine sceneAt_congr fun i inside => shownAt_refresh inside (fun used => ?_) ?_ clean
    · exact (upkept.ready i inside used).imp_right And.right
    · rwa [bounds.1, bounds.2]
  show Displays disp d.fb px py (Option.getD _ (sceneAt font (refresh font d.wm.wins) d.bb px py))
  rw [scene]
  exact shown px py screen clean

/-! ### The last phase -/

/-- What the last phase needs: nothing has come in since the caches were rendered that would be
painted, the cursor is where its damage is, and no header line is drawn over a window. -/
structure Settled (font : Font) (d : Desktop) : Prop where
  unflagged : ∀ i < guiMaxWindows, (d.wm.wins i).used = true →
    (d.wm.wins i).contentDirty = false ∧ (d.wm.wins i).chromeDirty = false
  still : d.cursorPrev = d.pointer
  unspoiled : d.wm.dirty.r.Pairwise fun earlier later =>
    ¬ Spoils font d.wm.wins d.pointer d.bb earlier later

theorem repaint_size (font : Font) (wins : Windows) (mouse : Int × Int) (bb : Surface)
    (rects : List Rect) : (repaint font wins mouse bb rects).w = bb.w ∧
      (repaint font wins mouse bb rects).h = bb.h :=
  rects_size font wins rects bb

theorem repaint_shows {wins : Windows} {mouse : Int × Int} {bb : Surface} (sized : Sized bb.w bb.h)
    {rects : List Rect} (inside : ∀ r ∈ rects, InScreen bb r)
    (disjoint : rects.Pairwise fun a b => ∀ pixel, ¬ (Holds a pixel ∧ Holds b pixel))
    (unspoiled : rects.Pairwise fun earlier later => ¬ Spoils font wins mouse bb earlier later)
    {px py : Int} (covered : Covered Holds rects (px, py)) :
    (repaint font wins mouse bb rects).pixels px py =
      (cursorAt mouse px py).getD (sceneAt font wins bb px py) := by
  obtain ⟨r, member, held⟩ := covered
  obtain ⟨before, later, rfl⟩ := List.append_of_mem member
  have apart : ∀ other ∈ later, ¬ Holds other (px, py) := fun other follows twice =>
    (pairwise_iff_split _).mp disjoint before r later rfl other follows (px, py) ⟨held, twice⟩
  rw [repaint_pixels font wins mouse bb sized before r later inside px py held apart]
  cases cursor : cursorAt mouse px py with
  | some colour => rfl
  | none =>
      split
      · next redrawn =>
          obtain ⟨other, follows, meets⟩ := redrawn
          refine (header_keeps_scene font wins bb px py).mpr fun shown text top drawn => ?_
          by_contra differ
          exact (pairwise_iff_split _).mp unspoiled before r later rfl other follows
            ⟨meets, px, py, shown, text, held, cursor, top, drawn, differ⟩
      · rfl

theorem presentDamage_eq (font : Font) (disp : Display) {d : Desktop} (regular : Regular d.wm.dirty) :
    presentDamage font disp d =
      let cleared := { d with wm := { d.wm with dirty := d.wm.dirty.clear } }
      if d.wm.dirty.r = [] then cleared
      else
        let bb := repaint font d.wm.wins d.pointer d.bb d.wm.dirty.r
        { cleared with bb := bb, fb := d.wm.dirty.r.foldl (flipRect disp bb) d.fb } := by
  unfold presentDamage DirtyRegion.flush
  rw [List.take_of_length_le regular.bounded]
  rfl

section Present
variable (showing : Showing font disp first d) (upkept : Upkept font d)
include showing upkept

theorem Showing.sized : Sized d.bb.w d.bb.h := by
  have sized := upkept.sound.sized
  rwa [showing.bounds.1, showing.bounds.2, ← showing.size.1, ← showing.size.2] at sized

theorem Showing.within {r : Rect} (member : r ∈ d.wm.dirty.r) :
    InBounds disp.width disp.height r := by
  rw [← showing.bounds.1, ← showing.bounds.2]
  exact upkept.sound.regular.inBounds member

theorem Showing.inScreen {r : Rect} (member : r ∈ d.wm.dirty.r) : InScreen d.bb r := by
  obtain ⟨⟨left, width, right⟩, top, height, bottom⟩ := showing.within upkept member
  refine ⟨⟨left, width.le, ?_⟩, top, height.le, ?_⟩
  · rwa [showing.size.1]
  · rwa [showing.size.2]

theorem Showing.presented (settled : Settled font d) {px py : Int}
    (screen : OnScreen disp.width disp.height (px, py)) :
    Displays disp (presentDamage font disp d).fb px py
      ((cursorAt d.cursorPrev px py).getD (sceneAt font d.wm.wins d.bb px py)) := by
  have regular := upkept.sound.regular
  rw [presentDamage_eq font disp regular]
  by_cases none_ : d.wm.dirty.r = []
  · rw [if_pos none_]
    exact showing.shown px py screen (by simp [Covered, none_])
  · rw [if_neg none_]
    obtain ⟨hit, missed, _⟩ := flip_displays (repaint font d.wm.wins d.pointer d.bb d.wm.dirty.r) d.fb
      fun r member => showing.within upkept member
    by_cases covered : Covered Holds d.wm.dirty.r (px, py)
    · have drawn := hit px py screen covered
      rw [repaint_shows (showing.sized upkept) (fun r member => showing.inScreen upkept member)
        regular.disjoint settled.unspoiled covered] at drawn
      rw [settled.still]
      exact drawn
    · exact missed px py _ screen covered (showing.shown px py screen covered)

theorem Showing.present (settled : Settled font d) :
    Showing font disp first (presentDamage font disp d) := by
  have drawn := fun px py (screen : OnScreen disp.width disp.height (px, py)) =>
    showing.presented upkept settled screen
  have within := fun r (member : r ∈ d.wm.dirty.r) => showing.within upkept member
  obtain ⟨size, bounds, shown, unborn, margin⟩ := showing
  have regular := upkept.sound.regular
  have born : ¬ d.cursorPrev.1 < 0 := by
    rw [settled.still]
    exact not_lt.mpr upkept.mouse
  rw [presentDamage_eq font disp regular] at drawn ⊢
  by_cases none_ : d.wm.dirty.r = []
  · rw [if_pos none_] at drawn ⊢
    exact ⟨size, bounds, fun px py screen _ => drawn px py screen, fun early => absurd early born, margin⟩
  · rw [if_neg none_] at drawn ⊢
    obtain ⟨width, height⟩ := repaint_size font d.wm.wins d.pointer d.bb d.wm.dirty.r
    obtain ⟨_, _, kept⟩ := flip_displays (repaint font d.wm.wins d.pointer d.bb d.wm.dirty.r) d.fb
      within
    refine ⟨⟨width.trans size.1, height.trans size.2⟩, bounds, fun px py screen _ => ?_,
      fun early => absurd early born, fun addr outside => (kept addr outside).trans (margin addr outside)⟩
    have scene : sceneAt font d.wm.wins (repaint font d.wm.wins d.pointer d.bb d.wm.dirty.r) px py =
        sceneAt font d.wm.wins d.bb px py := by
      rw [sceneAt, sceneAt, width, height]
    simp only [scene]
    exact drawn px py screen

end Present

end Showing

end Shizuku.Gui
