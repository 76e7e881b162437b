import Shizuku.ScreenContents

/-!
Every step of the desktop keeps what `ScreenContents` says: interrupts, output to the
terminals, and the phases of the compositor thread in any interleaving with them.
-/

namespace Shizuku.Gui

open Absorption Machine RowMajor Terminals

section Steps
variable {font : Font} {disp : Display} {first : Nat → UInt8} {d after : Desktop}

theorem Upkept.table (upkept : Upkept font d) (sound : Sound after.wm) (indexed : Indexed after.wm)
    (ready : ∀ i < guiMaxWindows, Ready font after.wm.dirty (after.wm.wins i))
    (prev : after.cursorPrev = d.cursorPrev) (mouse : after.mouse = d.mouse) (vt : after.vt = d.vt) :
    Upkept font after where
  sound := sound
  indexed := indexed
  ready := ready
  prev := by rw [prev]; exact upkept.prev
  pointer := by rw [Desktop.pointer, mouse]; exact upkept.pointer
  mouse := by rw [mouse]; exact upkept.mouse
  hook := by rw [vt]; exact upkept.hook
  steady := by rw [vt]; exact upkept.steady

structure SameBinding (before after : GuiWindow) : Prop where
  used : after.used = before.used
  vt : after.vt = before.vt
  hook : 0 ≤ before.vt → after.w = before.w ∧ after.h = before.h ∧ after.onPaint = before.onPaint

theorem SameBinding.refl (win : GuiWindow) : SameBinding win win := ⟨rfl, rfl, fun _ => ⟨rfl, rfl, rfl⟩⟩

theorem Handled.binding {before after : GuiWindow} (handled : Handled before after) :
    SameBinding before after :=
  ⟨handled.used, handled.vt, fun _ => ⟨handled.w, handled.h, handled.onPaint⟩⟩

theorem Shows.same {i t : Nat} (shows : Shows font d i t)
    (same : SameBinding (d.wm.wins i) (after.wm.wins i)) (window : after.vtWin t = d.vtWin t)
    (terms : after.vt.terms t = d.vt.terms t) : Shows font after i t := by
  obtain ⟨vt, known, live, wide, picture, paints, pixels⟩ := shows
  obtain ⟨w, h, onPaint⟩ := same.hook (by omega)
  have lines : terminalLine after.vt t = terminalLine d.vt t := by
    funext row
    simp only [terminalLine, Vterms.row, Int.toNat_natCast, terms]
  refine ⟨same.vt.trans vt, window.trans known, terms ▸ live, w ▸ wide, picture, onPaint ▸ paints, ?_⟩
  rw [w, h, lines]
  exact pixels

theorem Bound.same (bound : Bound font d)
    (each : ∀ i < guiMaxWindows, SameBinding (d.wm.wins i) (after.wm.wins i)) (vt : after.vt = d.vt)
    (vtWin : after.vtWin = d.vtWin) (animate : after.animate = d.animate) : Bound font after := by
  refine ⟨fun i inside used terminal => ?_, fun i inside animated => ?_⟩
  · have same := each i inside
    obtain ⟨t, shows⟩ := bound.terminal i inside (same.used ▸ used) (same.vt ▸ terminal)
    exact ⟨t, shows.same same (by rw [vtWin]) (by rw [vt])⟩
  · rw [(each i inside).used, (each i inside).vt]
    exact bound.animated i inside (animate ▸ animated)

theorem Kept.same (kept : Kept font disp first d) (wm : after.wm = d.wm) (bb : after.bb = d.bb)
    (fb : after.fb = d.fb) (prev : after.cursorPrev = d.cursorPrev) (mouse : after.mouse = d.mouse)
    (vt : after.vt = d.vt) (vtWin : after.vtWin = d.vtWin) (animate : after.animate = d.animate) :
    Kept font disp first after := by
  obtain ⟨showing, upkept, bound⟩ := kept
  refine ⟨showing.tracked (.of_same (by rw [wm]) (by rw [wm])) bb fb prev, ?_,
    bound.same (fun i _ => wm ▸ .refl _) vt vtWin animate⟩
  apply upkept.table _ _ _ prev mouse vt
  all_goals rw [wm]
  · exact upkept.sound
  · exact upkept.indexed
  · exact upkept.ready

theorem irqHandler_place (disp : Display) {m : Mouse} (b : UInt8)
    (inside : (0 ≤ m.x ∧ m.x ≤ 2 ^ 30) ∧ 0 ≤ m.y ∧ m.y ≤ 2 ^ 30) :
    (0 ≤ (irqHandler disp.width disp.height m b).x ∧
      (irqHandler disp.width disp.height m b).x ≤ 2 ^ 30) ∧
    0 ≤ (irqHandler disp.width disp.height m b).y ∧
      (irqHandler disp.width disp.height m b).y ≤ 2 ^ 30 := by
  obtain ⟨some_, wide⟩ := disp.wide
  obtain ⟨any_, tall⟩ := disp.tall
  unfold irqHandler
  dsimp only
  split
  · exact inside
  · split
    · exact inside
    · dsimp only
      rw [keepOn_eq some_ (by omega), keepOn_eq any_ (by omega)]
      generalize i32 _ = column
      generalize i32 _ = row
      obtain ⟨left, right⟩ := onScreen_range some_ column
      obtain ⟨top, bottom⟩ := onScreen_range any_ row
      omega

theorem Kept.mouse (kept : Kept font disp first d) (b : UInt8) :
    Kept font disp first { d with mouse := irqHandler disp.width disp.height d.mouse b } := by
  obtain ⟨showing, upkept, bound⟩ := kept
  refine ⟨showing.tracked (.of_same rfl rfl) rfl rfl rfl, ?_, bound.same (fun i _ => .refl _) rfl rfl rfl⟩
  obtain ⟨sound, indexed, ready, prev, pointer, mouse, hook, steady⟩ := upkept
  obtain ⟨across, down⟩ := irqHandler_place disp b ⟨⟨mouse, pointer.x.2⟩, pointer.y⟩
  exact ⟨sound, indexed, ready, prev, ⟨⟨by simp only [Desktop.pointer]; omega, across.2⟩, down⟩, across.1,
    hook, steady⟩

theorem Kept.functionKey (kept : Kept font disp first d) (f : Int) :
    Kept font disp first (onFnKey d f) := by
  unfold onFnKey
  split
  · exact kept.same rfl rfl rfl rfl rfl rfl rfl rfl
  · exact kept

theorem putcVt_cases {t : Vterms} (hook : t.dirtyHook = true) (steady : ∀ id, (t.terms id).Steady)
    (id : Nat) (c : UInt8) :
    t.putcVt id c = .ok (none, t) ∨ id < vtMax ∧ (t.terms id).used = true ∧
      ∃ v, v.Steady ∧ v.used = true ∧ t.putcVt id c = .ok (some id, t.set id v) := by
  unfold Vterms.putcVt
  split
  · exact .inl rfl
  · next live =>
      simp only [not_or, not_le, Bool.not_eq_false] at live
      split
      · exact .inl rfl
      · obtain ⟨v, put, calm, _, used⟩ := put_steady (steady id) c
        refine .inr ⟨live.1, live.2, v, calm, used.trans live.2, ?_⟩
        rw [put]
        rfl

theorem paintTerminal_pixels (t : Vterms) {win : GuiWindow} (placed : Placed win)
    (wide : 4 + vtCols * fontW ≤ win.w) {x y : Int} (inside : InGrid win.w win.h x y) :
    paintTerminal font t win x y = terminalAt font (terminalLine t win.vt) x y := by
  have sized : Sized win.w win.h := by
    obtain ⟨across, down, _, _⟩ := placed
    constructor <;> omega
  exact terminalPicture_pixels font _ (terminalLine_length t win.vt) sized win.body wide inside

theorem markDirty_indexed {wm : Wm} (indexed : Indexed wm) (id : Int) (content : Picture) :
    Indexed (markDirty wm id content) := by
  rcases markDirty_cases wm id content with same | ⟨i, rfl, inside, used⟩
  · rwa [same]
  · rw [markDirty_used inside used]
    exact indexed

theorem Upkept.markDirty (upkept : Upkept font d) (id : Int) (content : Picture) :
    Upkept font { d with wm := markDirty d.wm id content } :=
  upkept.table (markDirty_sound upkept.sound id content) (markDirty_indexed upkept.indexed id content)
    (fun i inside => (upkept.ready i inside).markDirty upkept.sound id content) rfl rfl rfl

theorem Showing.markDirty (showing : Showing font disp first d) (upkept : Upkept font d) (id : Int)
    (content : Picture) : Showing font disp first { d with wm := markDirty d.wm id content } :=
  showing.tracked (markDirty_tracks d.wm upkept.sound.sized id content) rfl rfl rfl

theorem onVtDirty_wins (d : Desktop) (id j : Nat) :
    (onVtDirty font d id).wm.wins j = d.wm.wins j ∨ (onVtDirty font d id).wm.wins j =
      (d.wm.wins j).dirtied (paintTerminal font d.vt (d.wm.wins j)) := by
  unfold onVtDirty
  split
  · generalize d.vtWin id = wid
    rcases markDirty_cases d.wm wid (paintTerminal font d.vt (d.wm.wins wid.toNat)) with
      same | ⟨i, rfl, inside, used⟩
    · exact .inl (congrFun (congrArg Wm.wins same) j)
    · by_cases here : j = i
      · subst here
        exact .inr (markDirty_window inside used _)
      · exact .inl (markDirty_other d.wm i _ fun other => here (by omega))
  · exact .inl rfl

theorem Bound.putc (bound : Bound font d) (upkept : Upkept font d) {id : Nat} (small : id < vtMax)
    {v : Vterm} (live : v.used = true) :
    Bound font (onVtDirty font { d with vt := d.vt.set id v } id) := by
  have rest : (onVtDirty font { d with vt := d.vt.set id v } id).vtWin = d.vtWin ∧
      (onVtDirty font { d with vt := d.vt.set id v } id).vt = d.vt.set id v ∧
      (onVtDirty font { d with vt := d.vt.set id v } id).animate = d.animate := by
    unfold onVtDirty
    split <;> exact ⟨rfl, rfl, rfl⟩
  have wins := @onVtDirty_wins font { d with vt := d.vt.set id v } id
  have hit : ∀ j < guiMaxWindows, (d.wm.wins j).used = true → d.vtWin id = j →
      (onVtDirty font { d with vt := d.vt.set id v } id).wm.wins j =
        (d.wm.wins j).dirtied (paintTerminal font (d.vt.set id v) (d.wm.wins j)) := by
    intro j inside used window
    unfold onVtDirty
    simp only [window]
    rw [if_pos ⟨small, Int.natCast_nonneg j⟩]
    exact markDirty_window inside used _
  obtain ⟨vtWin, vt, animate⟩ := rest
  generalize onVtDirty font { d with vt := d.vt.set id v } id = after at *
  have uses : ∀ j, (after.wm.wins j).used = (d.wm.wins j).used ∧
      (after.wm.wins j).vt = (d.wm.wins j).vt := by
    intro j
    rcases wins j with same | dirtied
    · exact same ▸ ⟨rfl, rfl⟩
    · exact dirtied ▸ ⟨rfl, rfl⟩
  refine ⟨fun j inside busy terminal => ?_, fun j inside animated => ?_⟩
  · rw [(uses j).1] at busy
    rw [(uses j).2] at terminal
    obtain ⟨t, shows⟩ := bound.terminal j inside busy terminal
    have painted (alive : ((d.vt.set id v).terms t).used = true) (now : after.wm.wins j =
        (d.wm.wins j).dirtied (paintTerminal font (d.vt.set id v) (d.wm.wins j))) :
        Shows font after j t := by
      obtain ⟨here, window, _, wide, picture, paints, _⟩ := shows
      have hook : (after.wm.wins j).onPaint =
          some (paintTerminal font (d.vt.set id v) (d.wm.wins j)) := by
        simp [now, GuiWindow.dirtied, paints]
      refine ⟨(uses j).2.trans here, vtWin ▸ window, vt ▸ alive, by rwa [now], _, hook,
        fun x y within => ?_⟩
      rw [now] at within
      rw [vt, ← here]
      exact paintTerminal_pixels _ (upkept.sound.placed j) wide within
    by_cases mine : t = id
    · subst mine
      exact ⟨t, painted (by rwa [Vterms.set_same]) (hit j inside busy shows.window)⟩
    · have terms : (d.vt.set id v).terms t = d.vt.terms t := d.vt.set_other v mine
      rcases wins j with same | dirtied
      · exact ⟨t, shows.same (same ▸ .refl _) (by rw [vtWin]) (by rw [vt, terms])⟩
      · exact ⟨t, painted (terms ▸ shows.live) dirtied⟩
  · rw [(uses j).1, (uses j).2]
    exact bound.animated j inside (animate ▸ animated)

theorem Kept.putc (kept : Kept font disp first d) (id : Nat) (c : UInt8) :
    ∃ after, d.putc font id c = .ok after ∧ Kept font disp first after := by
  obtain ⟨showing, upkept, bound⟩ := kept
  rcases putcVt_cases upkept.hook upkept.steady id c with nothing | ⟨small, live, v, calm, used, put⟩
  · refine ⟨d, ?_, showing, upkept, bound⟩
    rw [Desktop.putc, nothing]
    rfl
  · refine ⟨onVtDirty font { d with vt := d.vt.set id v } id, ?_, ?_⟩
    · rw [Desktop.putc, put]
      rfl
    · have written : Upkept font { d with vt := d.vt.set id v } := by
        obtain ⟨sound, indexed, ready, prev, pointer, mouse, hook, steady⟩ := upkept
        refine ⟨sound, indexed, ready, prev, pointer, mouse, hook, fun t => ?_⟩
        by_cases same : t = id
        · simpa only [same, Vterms.set_same] using calm
        · simpa only [d.vt.set_other v same] using steady t
      have seen : Showing font disp first { d with vt := d.vt.set id v } :=
        showing.tracked (.of_same rfl rfl) rfl rfl rfl
      refine ⟨?_, ?_, bound.putc upkept small used⟩
      · unfold onVtDirty
        split
        · exact seen.markDirty written _ _
        · exact seen
      · unfold onVtDirty
        split
        · exact written.markDirty _ _
        · exact written

/-! ### New terminals -/

theorem Bound.created (bound : Bound font d) {vt : Nat} {terms : Vterms}
    (free : (d.vt.terms vt).used = false) (others : ∀ t, t ≠ vt → terms.terms t = d.vt.terms t) :
    Bound font { d with vt := terms } ∧ ∀ i < guiMaxWindows, (d.wm.wins i).used = true →
      (d.wm.wins i).vt ≠ vt := by
  have apart : ∀ i t, Shows font d i t → t ≠ vt := by
    rintro i t shows rfl
    rw [shows.live] at free
    cases free
  refine ⟨⟨fun i inside used terminal => ?_, bound.animated⟩, fun i inside used here => ?_⟩
  · obtain ⟨t, shows⟩ := bound.terminal i inside used terminal
    exact ⟨t, shows.same (.refl _) rfl (others t (apart i t shows))⟩
  · obtain ⟨t, shows⟩ := bound.terminal i inside used (by omega)
    exact apart i t shows (Int.ofNat_inj.mp (shows.vt.symm.trans here))

section Opened
variable {wm : Wm} {i : Nat} {x y w h : Int} {onPaint : Option Picture}
  (opened : Opened font d.wm wm i x y w h onPaint)
include opened

theorem Opened.vt : (wm.wins i).vt = -1 := by
  obtain ⟨fresh, opening, rendered⟩ := opened.window
  rw [rendered]
  exact opening.vt

theorem Opened.live : (wm.wins i).used = true := by
  obtain ⟨fresh, opening, rendered⟩ := opened.window
  rw [rendered]
  exact opening.used

theorem Bound.appear (bound : Bound font d) : Bound font { d with wm := wm } where
  terminal j inside used terminal := by
    have other : j ≠ i := by
      rintro rfl
      simp only [opened.vt] at terminal
      omega
    have same := (opened.others j other).binding
    obtain ⟨t, shows⟩ := bound.terminal j inside (same.used ▸ used) (same.vt ▸ terminal)
    exact ⟨t, shows.same same rfl rfl⟩
  animated j inside animated := by
    obtain ⟨used, terminal⟩ := bound.animated j inside animated
    have other : j ≠ i := by
      rintro rfl
      rw [opened.free] at used
      cases used
    have handled := opened.others j other
    exact ⟨handled.used.trans used, by rw [handled.vt]; exact terminal⟩

theorem Opened.indexed (indexed : Indexed d.wm) : Indexed wm := by
  obtain ⟨_, drag⟩ := indexed
  refine ⟨?_, ?_⟩
  · rw [opened.focus]
    exact Int.ofNat_lt.mpr opened.inside
  · rw [opened.drag]
    exact drag

theorem Opened.ready (upkept : Upkept font d) (tracks : Tracks d.wm wm)
    (room : ∀ fresh, Opening x y w h onPaint fresh → Placed fresh) (j : Nat)
    (inside : j < guiMaxWindows) : Ready font wm.dirty (wm.wins j) := by
  by_cases same : j = i
  · subst same
    obtain ⟨fresh, opening, rendered⟩ := opened.window
    intro _
    rw [rendered]
    exact .inl (frameRender_current (room fresh opening))
  · exact (upkept.ready j inside).each (upkept.sound.placed j) (opened.others j same) tracks

end Opened

theorem bind_tracks {wm made : Wm} (tracks : Tracks wm made) {i : Nat} (free : (wm.wins i).used = false)
    (live : (made.wins i).used = true) {win : GuiWindow}
    (place : windowRectScreen win = windowRectScreen (made.wins i)) : Tracks wm (made.setWin i win) where
  width := tracks.width
  height := tracks.height
  grows := tracks.grows
  each j := by
    by_cases same : j = i
    · subst same
      right
      refine ⟨fun used => absurd used (by simp [free]), fun _ => ?_⟩
      have damaged : Damaged made.dirty (made.wins j) := by
        rcases tracks.each j with kept | ⟨_, damaged⟩
        · rw [kept, free] at live
          cases live
        · exact damaged live
      intro pixel screen held
      have now : (made.setWin j win).wins j = win := if_pos rfl
      rw [now, place] at held
      exact damaged pixel screen held
    · have other : (made.setWin i win).wins j = made.wins j := if_neg same
      rw [other]
      exact tracks.each j

theorem Bound.bind (bound : Bound font d) (upkept : Upkept font d) {wid vt : Nat}
    (wide : 4 + vtCols * fontW ≤ (d.wm.wins wid).w) (still : d.animate wid = false)
    (unshown : ∀ j < guiMaxWindows, j ≠ wid → (d.wm.wins j).used = true → (d.wm.wins j).vt ≠ vt)
    (live : (d.vt.terms vt).used = true) : Bound font (bindTerminal font d wid vt) := by
  have here : (bindTerminal font d wid vt).wm.wins wid = (d.wm.wins wid).bindTo font d.vt vt := if_pos rfl
  have other : ∀ {j}, j ≠ wid → (bindTerminal font d wid vt).wm.wins j = d.wm.wins j :=
    fun apart => if_neg apart
  refine ⟨fun j inside busy terminal => ?_, fun j inside animated => ?_⟩
  · by_cases same : j = wid
    · subst same
      obtain ⟨across, down, left, top⟩ := upkept.sound.placed j
      have placed : Placed { d.wm.wins j with vt := (vt : Int) } := ⟨across, down, left, top⟩
      refine ⟨vt, by rw [here]; rfl, if_pos rfl, live, by rw [here]; exact wide, _, by rw [here]; rfl, ?_⟩
      rw [here]
      exact fun x y within => paintTerminal_pixels d.vt placed wide within
    · rw [other same] at busy terminal
      obtain ⟨t, shows⟩ := bound.terminal j inside busy terminal
      have apart : t ≠ vt := fun equal => unshown j inside same busy (equal ▸ shows.vt)
      exact ⟨t, shows.same (other same ▸ .refl _) (if_neg apart) rfl⟩
  · have apart : j ≠ wid := by
      rintro rfl
      exact Bool.false_ne_true (still.symm.trans animated)
    rw [other apart]
    exact bound.animated j inside animated

theorem bind_current (blank : ∀ row, font space row = 0) {win : GuiWindow} {t : Vterms} {vt : Nat}
    (empty : t.terms vt = { Vterm.empty with used := true }) (placed : Placed win)
    (wide : 4 + vtCols * fontW ≤ win.w) (body : Picture)
    (hook : win.onPaint = some (terminalPicture font (terminalLine t (-1)) win.w win.h body))
    (current : Current font win) :
    Current font (win.bindTo font t vt) := by
  have sized : Sized win.w win.h := by
    obtain ⟨across, down, _, _⟩ := placed
    constructor <;> omega
  have nothing : ∀ i, ∀ c ∈ terminalLine t (-1) i, c = space := by
    intro i c member
    cases member
  have spaces : ∀ i, ∀ c ∈ terminalLine t vt i, c = space := by
    intro i c member
    rw [terminalLine, if_pos (Int.natCast_nonneg vt), Int.toNat_natCast, Vterms.row, empty] at member
    split at member
    · cases member
    · obtain ⟨_, _, same⟩ := List.mem_map.mp member
      exact same.symm
  refine Alike.current placed ⟨rfl, rfl, rfl, rfl, rfl, fun x y inside => ?_⟩ current
  have bare := terminalPicture_pixels font _ (terminalLine_length t (-1)) sized body wide inside
  have filled := terminalPicture_pixels font _ (terminalLine_length t vt) sized win.body wide inside
  rw [hook]
  simp only [GuiWindow.bindTo, Option.getD_some, paintTerminal]
  rw [bare, filled, terminalAt_blank blank nothing, terminalAt_blank blank spaces]

/-- The place of a new window is on the screen or not far from it. -/
def Near (z : Int) : Prop := -2 ^ 30 ≤ z ∧ z ≤ 2 ^ 30

theorem terminal_placed {x y : Int} (across : Near x) (down : Near y) {onPaint : Option Picture}
    {win : GuiWindow} (opening : Opening x y (i32 (vtCols * fontW + 8)) (i32 (vtRows * fontH + 8))
      onPaint win) : Placed win ∧ 4 + vtCols * fontW ≤ win.w := by
  have w : win.w = 456 := opening.w
  have h : win.h = 232 := opening.h
  obtain ⟨rfl, rfl, _, _, _, _, _, _⟩ := opening
  refine ⟨⟨by omega, by omega, across, down⟩, ?_⟩
  rw [w]
  decide

theorem Kept.appear (kept : Kept font disp first d) {wm : Wm} {i : Nat} {x y w h : Int}
    {onPaint : Option Picture} (opened : Opened font d.wm wm i x y w h onPaint)
    (room : ∀ win, Opening x y w h onPaint win → Placed win) (tracks : Tracks d.wm wm) :
    Kept font disp first { d with wm := wm } := by
  obtain ⟨showing, upkept, bound⟩ := kept
  exact ⟨showing.tracked tracks rfl rfl rfl, upkept.table (opened.sound room upkept.sound)
    (opened.indexed upkept.indexed) (opened.ready upkept tracks room) rfl rfl rfl, bound.appear opened⟩

theorem Kept.bind (blank : ∀ row, font space row = 0) (kept : Kept font disp first d) {vt wid : Nat}
    (empty : d.vt.terms vt = { Vterm.empty with used := true })
    (unshown : ∀ i < guiMaxWindows, (d.wm.wins i).used = true → (d.wm.wins i).vt ≠ vt)
    {wm : Wm} (tracks : Tracks d.wm wm) {x y : Int} (across : Near x) (down : Near y)
    (opened : Opened font d.wm wm wid x y (i32 (vtCols * fontW + 8))
      (i32 (vtRows * fontH + 8)) (some (terminalPicture font (terminalLine d.vt (-1))
        (i32 (vtCols * fontW + 8)) (i32 (vtRows * fontH + 8)) fun _ _ => 0))) :
    Kept font disp first (bindTerminal font { d with wm := wm } wid vt) := by
  have still : d.animate wid = false := by
    by_contra animated
    obtain ⟨used, _⟩ := kept.bound.animated wid opened.inside (by simpa using animated)
    rw [opened.free] at used
    cases used
  have made := kept.appear opened (fun win opening => (terminal_placed across down opening).1) tracks
  have sound := made.upkept.sound
  obtain ⟨win, opening, rendered⟩ := opened.window
  obtain ⟨placed, wide⟩ := terminal_placed across down opening
  have hook : (wm.wins wid).onPaint = some (terminalPicture font (terminalLine d.vt (-1))
      (wm.wins wid).w (wm.wins wid).h fun _ _ => 0) := by
    rw [rendered]
    exact opening.onPaint.trans (by rw [← opening.w, ← opening.h]; rfl)
  have current : Current font (wm.wins wid) := by
    rw [rendered]
    exact frameRender_current placed
  have wide : 4 + vtCols * fontW ≤ (wm.wins wid).w := by
    rw [rendered]
    exact wide
  obtain ⟨across, down, left, top⟩ := sound.placed wid
  have placed' : Placed ((wm.wins wid).bindTo font d.vt vt) := ⟨across, down, left, top⟩
  have sound' : Sound (bindTerminal font { d with wm := wm } wid vt).wm :=
    (sound.setWin wid placed').of_same rfl rfl
  refine ⟨?_, ?_, ?_⟩
  · have bound_ : Tracks d.wm (wm.setWin wid ((wm.wins wid).bindTo font d.vt vt)) :=
      bind_tracks tracks opened.free opened.live rfl
    exact kept.showing.tracked (bound_.trans (.of_same rfl rfl)) rfl rfl rfl
  · refine kept.upkept.table sound' made.upkept.indexed (fun j inside => ?_) rfl rfl rfl
    by_cases same : j = wid
    · intro _
      left
      have here : (bindTerminal font { d with wm := wm } wid vt).wm.wins j = _ := if_pos same
      rw [here]
      exact bind_current blank empty (sound.placed wid) wide _ hook current
    · have other : (bindTerminal font { d with wm := wm } wid vt).wm.wins j = wm.wins j := if_neg same
      rw [other]
      exact made.upkept.ready j inside
  · refine made.bound.bind made.upkept wide still (fun j inside other used => ?_) (by rw [empty])
    have handled := opened.others j other
    exact handled.vt ▸ unshown j inside (handled.used ▸ used)

theorem Kept.create (kept : Kept font disp first d) {vt : Nat} {terms : Vterms}
    (created : d.vt.create = ((vt : Int), terms)) :
    Kept font disp first { d with vt := terms } ∧ vt < vtMax ∧
      terms.terms vt = { Vterm.empty with used := true } ∧
      ∀ i < guiMaxWindows, (d.wm.wins i).used = true → (d.wm.wins i).vt ≠ vt := by
  obtain ⟨showing, upkept, bound⟩ := kept
  obtain ⟨small, empty⟩ := create_fresh created
  rcases create_cases d.vt with full | ⟨i, _, free, made⟩
  · rw [full] at created
    cases created
  rw [made] at created
  obtain ⟨same, grown⟩ := Prod.mk.inj created
  obtain rfl : i = vt := by omega
  have others : ∀ t, t ≠ i → terms.terms t = d.vt.terms t := by
    intro t other
    rw [← grown]
    exact d.vt.set_other _ other
  obtain ⟨bound, unshown⟩ := bound.created free others
  refine ⟨⟨showing.tracked (.of_same rfl rfl) rfl rfl rfl, ?_, bound⟩, small, empty, unshown⟩
  obtain ⟨sound, indexed, ready, prev, pointer, mouse, hook, steady⟩ := upkept
  refine ⟨sound, indexed, ready, prev, pointer, mouse, by rw [← grown]; exact hook, fun t => ?_⟩
  by_cases same : t = i
  · rw [same, empty]
    exact ⟨by decide, by decide⟩
  · rw [others t same]
    exact steady t

theorem Kept.terminalWindow (blank : ∀ row, font space row = 0) (kept : Kept font disp first d)
    (title : List UInt8) {x y : Int} (across : Near x) (down : Near y) {vt : Nat}
    (empty : d.vt.terms vt = { Vterm.empty with used := true })
    (unshown : ∀ i < guiMaxWindows, (d.wm.wins i).used = true → (d.wm.wins i).vt ≠ vt) (allocated : Bool) :
    ∃ ret after, terminalWindow font d title x y vt allocated = .ok (ret, after) ∧
      Kept font disp first after ∧ (ret = -1 ∧ after = d ∨
        ∃ (wid : Nat) (wm : Wm), ret = wid ∧ after = bindTerminal font { d with wm := wm } wid vt ∧
          Opened font d.wm wm wid x y (i32 (vtCols * fontW + 8)) (i32 (vtRows * fontH + 8))
            (some (terminalPicture font (terminalLine d.vt (-1)) (i32 (vtCols * fontW + 8))
              (i32 (vtRows * fontH + 8)) fun _ _ => 0))) := by
  obtain ⟨ret, wm, made, _⟩ := createWindow_returns font d.wm title x y (i32 (vtCols * fontW + 8))
    (i32 (vtRows * fontH + 8)) (some (terminalPicture font (terminalLine d.vt (-1))
      (i32 (vtCols * fontW + 8)) (i32 (vtRows * fontH + 8)) fun _ _ => 0)) allocated kept.upkept.indexed
  rcases createWindow_cases made with ⟨rfl, rfl⟩ | ⟨wid, rfl, opened⟩
  · refine ⟨-1, d, ?_, kept, .inl ⟨rfl, rfl⟩⟩
    rw [Gui.terminalWindow, made]
    rfl
  · have tracks := createWindow_tracks kept.upkept.sound.sized made
    refine ⟨wid, bindTerminal font { d with wm := wm } wid vt, ?_,
      kept.bind blank empty unshown tracks across down opened, .inr ⟨wid, wm, rfl, rfl, opened⟩⟩
    rw [Gui.terminalWindow, made]
    rfl

theorem Kept.newTerminal (blank : ∀ row, font space row = 0) (kept : Kept font disp first d)
    (allocated : Bool) :
    ∃ after, newTerminal font d allocated = .ok after ∧ Kept font disp first after := by
  rcases create_cases d.vt with full | ⟨vt, _, _, created⟩
  · refine ⟨d, ?_, kept⟩
    rw [Gui.newTerminal, full]
    rfl
  · obtain ⟨kept, small, empty, unshown⟩ := kept.create created
    have near : Near (100 + 40 * vt) ∧ Near (120 + 40 * vt) := by
      simp only [vtMax] at small
      simp only [Near]
      omega
    obtain ⟨ret, after, made, kept, _⟩ := kept.terminalWindow blank (termTitle vt) near.1 near.2 empty
      unshown allocated
    refine ⟨after, ?_, kept⟩
    rw [Gui.newTerminal, created]
    dsimp only
    rw [made]
    rfl

theorem wmUpdateMouse_returns (fbW fbH : Int) {wm : Wm} (mx my : Int) (buttons : UInt8)
    (indexed : Indexed wm) :
    ∃ after, wmUpdateMouse fbW fbH wm mx my buttons = .ok after ∧ Indexed after := by
  obtain ⟨_, last, done, indexed⟩ := wmStep_returns (fun _ _ => 0) fbW fbH wm (.mouse mx my buttons) indexed
  obtain ⟨after, moved, rest⟩ := (bind_ok _ _ _).mp done
  cases rest
  exact ⟨last, moved, indexed⟩

theorem presentDamage_wm (disp : Display) (upkept : Upkept font d) :
    (presentDamage font disp d).wm = { d.wm with dirty := d.wm.dirty.clear } := by
  rw [presentDamage_eq font disp upkept.sound.regular]
  split <;> rfl

theorem presentDamage_rest (disp : Display) (upkept : Upkept font d) :
    (presentDamage font disp d).cursorPrev = d.cursorPrev ∧
      (presentDamage font disp d).mouse = d.mouse ∧ (presentDamage font disp d).vt = d.vt ∧
      (presentDamage font disp d).vtWin = d.vtWin ∧ (presentDamage font disp d).animate = d.animate := by
  rw [presentDamage_eq font disp upkept.sound.regular]
  split <;> exact ⟨rfl, rfl, rfl, rfl, rfl⟩

theorem Settled.current (settled : Settled font d) (upkept : Upkept font d) {i : Nat}
    (inside : i < guiMaxWindows) (used : (d.wm.wins i).used = true) : Current font (d.wm.wins i) := by
  obtain ⟨content, chrome⟩ := settled.unflagged i inside used
  refine (upkept.ready i inside used).resolve_right ?_
  rintro ⟨flagged, _⟩
  rw [content, chrome] at flagged
  rcases flagged with one | two
  · cases one
  · cases two

section Phases
variable (kept : Kept font disp first d)
include kept

theorem Kept.openTerminal (blank : ∀ row, font space row = 0) (allocated : Bool) :
    ∃ after, openTerminal font d allocated = .ok after ∧ Kept font disp first after := by
  unfold Gui.openTerminal
  split
  · have wanted : Kept font disp first { d with wantNewTerm := false } :=
      kept.same rfl rfl rfl rfl rfl rfl rfl rfl
    exact wanted.newTerminal blank allocated
  · exact ⟨d, rfl, kept⟩

theorem Kept.updateMouse :
    ∃ after, d.updateMouse disp = .ok after ∧ Kept font disp first after := by
  obtain ⟨showing, upkept, bound⟩ := kept
  obtain ⟨some_, wide⟩ := disp.wide
  obtain ⟨any_, tall⟩ := disp.tall
  have width : i32 disp.width = disp.width := i32_eq (by omega) (by omega)
  have height : i32 disp.height = disp.height := i32_eq (by omega) (by omega)
  obtain ⟨wm, moved, indexed⟩ := wmUpdateMouse_returns disp.width disp.height d.mouse.x d.mouse.y
    d.mouse.buttons upkept.indexed
  have handles := wmUpdateMouse_handles (by omega) (by omega) moved
  have tracks := wmUpdateMouse_tracks upkept.sound.sized moved
  refine ⟨{ d with wm := wm }, ?_, showing.tracked tracks rfl rfl rfl, ?_, ?_⟩
  · rw [Desktop.updateMouse, width, height, moved]
    rfl
  · exact upkept.table (handles.sound upkept.sound) indexed (fun i inside =>
      (upkept.ready i inside).each (upkept.sound.placed i) (handles.each i) tracks) rfl rfl rfl
  · exact bound.same (fun i _ => (handles.each i).binding) rfl rfl rfl

theorem Kept.moveCursor : Kept font disp first (moveCursor d) := by
  obtain ⟨showing, upkept, bound⟩ := kept
  refine ⟨showing.moveCursor upkept, ?_, ?_⟩
  · rcases moveCursor_cases d with ⟨same, _⟩ | moved
    · rwa [same]
    · rw [moved]
      have regular := cursorDamage_regular upkept
      obtain ⟨width, height⟩ := cursorDamage_bounds d
      obtain ⟨sound, indexed, ready, prev, pointer, mouse, hook, steady⟩ := upkept
      refine ⟨⟨?_, sound.placed, regular⟩, indexed, fun i inside used => ?_, pointer, pointer, mouse, hook,
        steady⟩
      · rw [width, height]
        exact sound.sized
      · refine (ready i inside used).imp_right fun ⟨flagged, damaged⟩ => ⟨flagged, ?_⟩
        intro pixel screen held
        rw [width, height] at screen
        exact cursorDamage_grows d pixel (damaged pixel screen held)
  · rcases moveCursor_cases d with ⟨same, _⟩ | moved
    · rwa [same]
    · rw [moved]
      exact bound.same (fun i _ => .refl _) rfl rfl rfl

theorem Kept.animateWindows (pictures : Nat → Picture) :
    Kept font disp first (animateWindows d pictures) := by
  refine List.foldlRecOn _ _ kept fun d kept i member => ?_
  have inside := List.mem_range.mp member
  obtain ⟨showing, upkept, bound⟩ := kept
  unfold animateWindow
  split
  · next animated =>
      refine ⟨showing.markDirty upkept i _, upkept.markDirty i _, bound.same (fun j _ => ?_) rfl rfl rfl⟩
      by_cases same : j = i
      · subst same
        obtain ⟨used, free⟩ := bound.animated j inside animated.2
        rw [markDirty_window inside used]
        exact ⟨rfl, rfl, fun terminal => absurd terminal (by omega)⟩
      · rw [markDirty_other d.wm i _ fun other => same (by omega)]
        exact .refl _
  · exact ⟨showing, upkept, bound⟩

theorem Kept.refreshFrames : Kept font disp first (refreshFrames font d) := by
  obtain ⟨showing, upkept, bound⟩ := kept
  have sound : Sound (Gui.refreshFrames font d).wm :=
    ⟨upkept.sound.sized, refresh_placed upkept.sound.placed, upkept.sound.regular⟩
  refine ⟨showing.refreshFrames upkept, ?_, bound.same (fun i inside => ?_) rfl rfl rfl⟩
  · exact upkept.table sound upkept.indexed (fun i inside used =>
      .inl (refresh_current upkept.sound inside (upkept.ready i inside) used).1) rfl rfl rfl
  · have same := refresh_wins font d.wm.wins i inside
    simp only [Gui.refreshFrames, same]
    split
    · exact ⟨rfl, rfl, fun _ => ⟨rfl, rfl, rfl⟩⟩
    · exact .refl _

theorem Kept.present (settled : Settled font d) :
    Kept font disp first (presentDamage font disp d) := by
  obtain ⟨showing, upkept, bound⟩ := kept
  have wm := presentDamage_wm disp upkept
  obtain ⟨prev, mouse, vt, vtWin, animate⟩ := presentDamage_rest disp upkept
  refine ⟨showing.present upkept settled, ?_, bound.same (fun i _ => ?_) vt vtWin animate⟩
  · refine upkept.table ?_ ?_ (fun i inside used => ?_) prev mouse vt
    · rw [wm]
      exact ⟨upkept.sound.sized, upkept.sound.placed, .clear _⟩
    · rw [wm]
      exact upkept.indexed
    · rw [wm] at used ⊢
      exact .inl (settled.current upkept inside used)
  · rw [wm]
    exact .refl _

theorem Kept.phase (phase : Phase) : Kept font disp first { d with phase := phase } :=
  kept.same rfl rfl rfl rfl rfl rfl rfl rfl

end Phases

end Steps

/-- When the last phase comes, nothing has happened since the damage was collected that it would
miss. -/
def Quiet (font : Font) (d : Desktop) : DeskOp → Prop
  | .compositor _ _ => d.phase = .present → Settled font d
  | _ => True

section Runs
variable {font : Font} (blank : ∀ row, font space row = 0) {disp : Display} {first : Nat → UInt8}
include blank

theorem compose_kept {d : Desktop} (kept : Kept font disp first d) (allocated : Bool)
    (pictures : Nat → Picture) (quiet : d.phase = .present → Settled font d) :
    ∃ after, compose font disp d allocated pictures = .ok after ∧ Kept font disp first after := by
  unfold compose
  split
  · obtain ⟨after, opened, kept⟩ := kept.openTerminal blank allocated
    rw [opened]
    exact ⟨_, rfl, kept.phase .input⟩
  · obtain ⟨after, moved, kept⟩ := kept.updateMouse
    rw [moved]
    exact ⟨_, rfl, kept.phase .cursor⟩
  · exact ⟨_, rfl, kept.moveCursor.phase .animate⟩
  · exact ⟨_, rfl, (kept.animateWindows pictures).phase .refresh⟩
  · exact ⟨_, rfl, kept.refreshFrames.phase .present⟩
  · next last => exact ⟨_, rfl, (kept.present (quiet last)).phase .terminal⟩

/-- No step panics, and each keeps what is shown. -/
theorem deskStep_kept {d : Desktop} (kept : Kept font disp first d) (op : DeskOp)
    (quiet : Quiet font d op) :
    ∃ after, deskStep font disp d op = .ok ((), after) ∧ Kept font disp first after := by
  cases op with
  | mouse b => exact ⟨_, rfl, kept.mouse b⟩
  | putc id c =>
      obtain ⟨after, put, kept⟩ := kept.putc id c
      refine ⟨after, ?_, kept⟩
      rw [deskStep, put]
      rfl
  | functionKey f => exact ⟨_, rfl, kept.functionKey f⟩
  | compositor allocated pictures =>
      obtain ⟨after, composed, kept⟩ := compose_kept blank kept allocated pictures quiet
      refine ⟨after, ?_, kept⟩
      rw [deskStep, composed]
      rfl

theorem run_kept {start d : Desktop} (kept : Kept font disp first start)
    (run : Run (deskStep font disp) (Quiet font) start d) : Kept font disp first d := by
  refine run_invariant _ _ (Kept font disp first) ?_ run kept
  intro before op ret after kept quiet done
  obtain ⟨next, stepped, kept⟩ := deskStep_kept blank kept op quiet
  rw [stepped] at done
  cases done
  exact kept

end Runs

end Shizuku.Gui
