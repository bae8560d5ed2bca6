import LineOS.TtyPage
import Mathlib.Tactic.Linarith

/- Where the console's cursor may be and which cells its functions touch.
   `OnScreen` is what every operation but one keeps, whatever it is given:
   `tty_gotoxy` reduces its arguments with C's remainder, which is negative for
   a negative number, so there it depends on them (`tty_on_screen_iff`). -/
namespace LineOS
open ByteMemory

inductive TtyOp where
  | putc (c : U8)
  | write (str : List U8)
  | cls
  | setcolor (color : U8)
  | gotoxy (x y : Int)

def TtyOp.run (s : Tty) : TtyOp → Tty
  | putc c => ttyPutc c s
  | write str => ttyWrite str s
  | cls => ttyCls s
  | setcolor color => ttySetcolor color s
  | gotoxy x y => ttyGotoxy x y s

/-- `i` is the number of a cell of the screen. -/
def Cell (s : Tty) (i : Int) : Prop := 0 ≤ i ∧ i < s.ttyW * s.ttyH

/-- The cursor is on the screen, and so is every cell read or written so far. -/
structure OnScreen (s : Tty) : Prop where
  col : 0 ≤ s.ttyX ∧ s.ttyX < s.ttyW
  row : 0 ≤ s.ttyY ∧ s.ttyY < s.ttyH
  cells : ∀ i ∈ s.accesses, Cell s i

/-- `s'` comes from `s` without a change of the screen's size, and the cells touched on the
    way are cells of it. -/
structure SameScreen (s s' : Tty) : Prop where
  width : s'.ttyW = s.ttyW
  height : s'.ttyH = s.ttyH
  cells : ∀ i ∈ s'.accesses, i ∈ s.accesses ∨ Cell s i

section

variable {s s' s'' : Tty}

theorem SameScreen.trans (h : SameScreen s s') (h' : SameScreen s' s'') : SameScreen s s'' := by
  refine ⟨h'.width.trans h.width, h'.height.trans h.height, fun i hi => ?_⟩
  obtain hi | hi := h'.cells i hi
  · exact h.cells i hi
  · unfold Cell at hi ⊢
    rw [h.width, h.height] at hi
    exact .inr hi

theorem sameScreen_refl (s : Tty) : SameScreen s s := ⟨rfl, rfl, fun _ hi => .inl hi⟩

theorem OnScreen.next (h : OnScreen s) (hs : SameScreen s s') (hx : 0 ≤ s'.ttyX ∧ s'.ttyX < s.ttyW)
    (hy : 0 ≤ s'.ttyY ∧ s'.ttyY < s.ttyH) : OnScreen s' := by
  refine ⟨by rwa [hs.width], by rwa [hs.height], fun i hi => ?_⟩
  unfold Cell
  rw [hs.width, hs.height]
  obtain hi | hi := hs.cells i hi
  · exact h.cells i hi
  · exact hi

/-! Cells. -/

theorem sameScreen_store {i : Int} (v : BitVec 16) (hi : Cell s i) : SameScreen s (s.store i v) := by
  refine ⟨rfl, rfl, fun j hj => ?_⟩
  obtain rfl | hj := List.mem_cons.1 hj
  · exact .inr hi
  · exact .inl hj

theorem cell_at {x y : Int} (hx : 0 ≤ x ∧ x < s.ttyW) (hy : 0 ≤ y ∧ y < s.ttyH) : Cell s (x + y * s.ttyW) := by
  have hw : 0 ≤ y * s.ttyW := Int.mul_nonneg hy.1 (by omega)
  have hrow : (y + 1) * s.ttyW ≤ s.ttyH * s.ttyW := Int.mul_le_mul_of_nonneg_right (by omega) (by omega)
  rw [Int.add_mul, Int.mul_comm s.ttyH] at hrow
  exact ⟨by omega, by omega⟩

theorem cell_split {t : Int} (hw : 0 < s.ttyW) (ht : Cell s t) :
    (0 ≤ t.tmod s.ttyW ∧ t.tmod s.ttyW < s.ttyW) ∧ 0 ≤ t.tdiv s.ttyW ∧ t.tdiv s.ttyW < s.ttyH := by
  obtain ⟨h0, hlt⟩ := ht
  rw [Int.tmod_eq_emod_of_nonneg h0, Int.tdiv_eq_ediv_of_nonneg h0]
  refine ⟨⟨Int.emod_nonneg _ (by omega), Int.emod_lt_of_pos _ hw⟩, Int.ediv_nonneg h0 (by omega), ?_⟩
  rw [Int.mul_comm] at hlt
  exact Int.ediv_lt_of_lt_mul hw hlt

/-- `tty_scrollup` touches cells of the screen, and leaves the cursor. -/
theorem sameScreen_scrollup (hw : 0 < s.ttyW) (hh : 0 < s.ttyH) :
    SameScreen s (ttyScrollup s) ∧ (ttyScrollup s).ttyX = s.ttyX ∧ (ttyScrollup s).ttyY = s.ttyY := by
  obtain ⟨w, hsw⟩ := Int.eq_ofNat_of_zero_le hw.le
  obtain ⟨h, hsh⟩ := Int.eq_ofNat_of_zero_le hh.le
  obtain ⟨y, rfl⟩ : ∃ y, h = y + 1 := ⟨h - 1, by omega⟩
  obtain ⟨acc, he, hacc⟩ := ttyScrollup_eq (by omega : 0 < w) hsw hsh
  rw [he]
  refine ⟨⟨rfl, rfl, fun i hi => ?_⟩, rfl, rfl⟩
  unfold Cell
  rw [hsw, hsh]
  obtain hi | hi := hacc i hi
  · exact .inl hi
  · push_cast at hi ⊢
    rw [Int.mul_comm] at hi
    exact .inr hi

/-! The operations. -/

/-- After the `switch` of `tty_putc` the cursor may be in the row under the screen. -/
theorem putcSwitch_bounds (h : OnScreen s) (c : U8) : SameScreen s (putcSwitch c s) ∧
    (0 ≤ (putcSwitch c s).ttyX ∧ (putcSwitch c s).ttyX < s.ttyW) ∧
    0 ≤ (putcSwitch c s).ttyY ∧ (putcSwitch c s).ttyY ≤ s.ttyH := by
  obtain ⟨⟨hx0, hxw⟩, ⟨hy0, hyh⟩, -⟩ := id h
  have hat := cell_at h.col h.row
  have hw : 0 < s.ttyW := by omega
  unfold putcSwitch
  by_cases hr : c = 0x0D
  · rw [if_pos hr]
    exact ⟨⟨rfl, rfl, fun _ hi => .inl hi⟩, ⟨Int.le_refl 0, hw⟩, hy0, hyh.le⟩
  rw [if_neg hr]
  by_cases hn : c = 0x0A
  · rw [if_pos hn]
    exact ⟨⟨rfl, rfl, fun _ hi => .inl hi⟩, ⟨Int.le_refl 0, hw⟩, Int.add_nonneg hy0 Int.one_nonneg, hyh⟩
  rw [if_neg hn]
  by_cases h8 : c = 8
  · rw [if_pos h8]
    dsimp only
    -- the address before the cursor's, or the home position's
    generalize ht : (if 0 < s.ttyX + s.ttyY * s.ttyW then s.ttyX + s.ttyY * s.ttyW - 1
      else s.ttyX + s.ttyY * s.ttyW) = t
    have hcell : Cell s t := by
      obtain ⟨h0, h1⟩ := hat
      rw [← ht]
      split
      · exact ⟨by omega, by omega⟩
      · exact ⟨h0, h1⟩
    obtain ⟨hcol, hrow⟩ := cell_split hw hcell
    exact ⟨⟨rfl, rfl, (sameScreen_store (ttyCell 0x20 s.ttyColor) hcell).cells⟩, hcol, hrow.1, hrow.2.le⟩
  rw [if_neg h8]
  by_cases hl : c.toInt < 0x20
  · rw [if_pos hl]
    exact ⟨sameScreen_refl s, h.col, hy0, hyh.le⟩
  · rw [if_neg hl]
    have hs := sameScreen_store (ttyCell c s.ttyColor) hat
    have hx : (s.store (s.ttyX + s.ttyY * s.ttyW) (ttyCell c s.ttyColor)).ttyX = s.ttyX := rfl
    have hy : (s.store (s.ttyX + s.ttyY * s.ttyW) (ttyCell c s.ttyColor)).ttyY = s.ttyY := rfl
    generalize s.store (s.ttyX + s.ttyY * s.ttyW) (ttyCell c s.ttyColor) = u at hs hx hy ⊢
    have huw := hs.width
    dsimp only
    split
    · refine ⟨⟨hs.width, hs.height, hs.cells⟩, ?_⟩
      dsimp only
      omega
    · refine ⟨⟨hs.width, hs.height, hs.cells⟩, ?_⟩
      dsimp only
      omega

theorem putcScroll_bounds (hx : 0 ≤ s.ttyX ∧ s.ttyX < s.ttyW) (hh : 0 < s.ttyH) (hy : 0 ≤ s.ttyY ∧ s.ttyY ≤ s.ttyH) :
    SameScreen s (putcScroll s) ∧ (putcScroll s).ttyX = s.ttyX ∧
    0 ≤ (putcScroll s).ttyY ∧ (putcScroll s).ttyY < s.ttyH := by
  unfold putcScroll
  by_cases he : s.ttyY = s.ttyH
  · obtain ⟨hs, hsx, hsy⟩ := sameScreen_scrollup (s := s) (by omega) hh
    rw [if_pos he]
    dsimp only
    exact ⟨⟨hs.width, hs.height, hs.cells⟩, hsx, by omega, by omega⟩
  · rw [if_neg he]
    exact ⟨sameScreen_refl s, rfl, hy.1, by omega⟩

/-- A step that keeps the size and leaves the cursor on the screen. -/
def Keeps (s s' : Tty) : Prop := SameScreen s s' ∧ OnScreen s'

theorem keeps_putc (h : OnScreen s) (c : U8) : Keeps s (ttyPutc c s) := by
  obtain ⟨hs, hx, hy⟩ := putcSwitch_bounds h c
  have hh : 0 < s.ttyH := by
    have := h.row
    omega
  rw [← hs.width] at hx
  rw [← hs.height] at hy hh
  obtain ⟨hs', hx', hy'⟩ := putcScroll_bounds hx hh hy
  rw [← hx', hs.width] at hx
  rw [hs.height] at hy'
  have hall := hs.trans hs'
  have hon := h.next hall hx hy'
  unfold ttyPutc
  generalize putcScroll (putcSwitch c s) = u at hall hon ⊢
  exact ⟨⟨hall.width, hall.height, hall.cells⟩, hon.col, hon.row, hon.cells⟩

theorem keeps_putcs : ∀ (str : List U8) {s : Tty}, OnScreen s → Keeps s (str.foldl (fun s c => ttyPutc c s) s)
  | [], s, h => ⟨sameScreen_refl s, h⟩
  | c :: str, _, h => by
    obtain ⟨hs, h'⟩ := keeps_putc h c
    obtain ⟨hs', h''⟩ := keeps_putcs str h'
    exact ⟨hs.trans hs', h''⟩

theorem keeps_cls (hw : 0 < s.ttyW) (hh : 0 < s.ttyH) (hs : ∀ i ∈ s.accesses, Cell s i) : Keeps s (ttyCls s) := by
  have hn : 0 ≤ s.ttyW * s.ttyH := Int.mul_nonneg hw.le hh.le
  obtain ⟨acc, he, hacc⟩ := turns_store (s.ttyW * s.ttyH - 0).toNat 0 s
  have hcells : ∀ i ∈ acc, i ∈ s.accesses ∨ Cell s i := by
    intro i hi
    refine (hacc i hi).imp_right fun h => ?_
    unfold Cell
    omega
  unfold ttyCls forTo
  simp only []
  rw [he]
  exact ⟨⟨rfl, rfl, hcells⟩, ⟨Int.le_refl 0, hw⟩, ⟨Int.le_refl 0, hh⟩,
    fun i hi => (hcells i hi).elim (fun h => hs i h) fun h => h⟩

/-- C's remainder is negative just for a negative number that is no multiple. -/
theorem tmod_nonneg_iff (w x : Int) : 0 ≤ x.tmod w ↔ 0 ≤ x ∨ w ∣ x := by
  by_cases hx : 0 ≤ x
  · exact iff_of_true (Int.tmod_nonneg w hx) (.inl hx)
  · have hle : x.tmod w ≤ 0 := by
      have := Int.tmod_nonneg w (by omega : 0 ≤ -x)
      rw [Int.neg_tmod] at this
      omega
    constructor
    · exact fun h => .inr (Int.dvd_of_tmod_eq_zero (by omega))
    · intro h
      rw [Int.tmod_eq_zero_of_dvd (h.resolve_left hx)]

end

/-! Runs. -/

/-- What `tty_gotoxy` is asked for is on the screen once the remainder is taken. -/
def TtyOp.InRange (w h : Int) : TtyOp → Prop
  | gotoxy x y => (0 ≤ x ∨ w ∣ x) ∧ (0 ≤ y ∨ h ∣ y)
  | _ => True

theorem keeps_run {s : Tty} (h : OnScreen s) (op : TtyOp) :
    SameScreen s (op.run s) ∧ (OnScreen (op.run s) ↔ op.InRange s.ttyW s.ttyH) := by
  have hw : 0 < s.ttyW := by
    have := h.col
    omega
  have hh : 0 < s.ttyH := by
    have := h.row
    omega
  cases op with
  | putc c => exact ⟨(keeps_putc h c).1, iff_of_true (keeps_putc h c).2 trivial⟩
  | write str =>
    rw [TtyOp.run, ttyWrite_eq]
    exact ⟨(keeps_putcs _ h).1, iff_of_true (keeps_putcs _ h).2 trivial⟩
  | cls => exact ⟨(keeps_cls hw hh h.cells).1, iff_of_true (keeps_cls hw hh h.cells).2 trivial⟩
  | setcolor color => exact ⟨⟨rfl, rfl, fun _ hi => .inl hi⟩, iff_of_true ⟨h.col, h.row, h.cells⟩ trivial⟩
  | gotoxy x y =>
    refine ⟨⟨rfl, rfl, fun _ hi => .inl hi⟩, ?_⟩
    rw [TtyOp.InRange, ← tmod_nonneg_iff, ← tmod_nonneg_iff]
    constructor
    · exact fun h' => ⟨h'.col.1, h'.row.1⟩
    · exact fun ⟨hx, hy⟩ => ⟨⟨hx, Int.tmod_lt_of_pos x hw⟩, ⟨hy, Int.tmod_lt_of_pos y hh⟩, h.cells⟩

/-- The screen stays in order along a run just if each of its calls keeps it so. -/
theorem onScreen_runs : ∀ (ops : List TtyOp) {s : Tty}, OnScreen s →
    ((∀ pre, pre <+: ops → OnScreen (pre.foldl TtyOp.run s)) ↔ ∀ op ∈ ops, op.InRange s.ttyW s.ttyH)
  | [], s, h => by
    refine iff_of_true (fun pre hp => ?_) (fun _ ho => absurd ho List.not_mem_nil)
    rw [List.prefix_nil.1 hp]
    exact h
  | op :: ops, s, h => by
    obtain ⟨hs, hop⟩ := keeps_run h op
    rw [List.forall_mem_cons, ← hop]
    constructor
    · intro hall
      have h' : OnScreen (op.run s) := hall [op] (List.prefix_append [op] ops)
      refine ⟨h', ?_⟩
      rw [← hs.width, ← hs.height, ← onScreen_runs ops h']
      exact fun pre hp => hall (op :: pre) ((List.prefix_cons_inj op).2 hp)
    · rintro ⟨h', hops⟩ pre hp
      cases pre with
      | nil => exact h
      | cons o pre =>
        obtain ⟨rfl, hp'⟩ := List.cons_prefix_cons.1 hp
        rw [← hs.width, ← hs.height] at hops
        exact (onScreen_runs ops h').2 hops pre hp'

theorem setup_onScreen {w h : Int} (hw : 1 ≤ w) (hh : 1 ≤ h) (screen : Int → BitVec 16) (s : Tty) :
    OnScreen (ttySetup w h screen s) ∧ (ttySetup w h screen s).ttyW = w ∧ (ttySetup w h screen s).ttyH = h := by
  have hk := keeps_cls (s := { s with ttyW := w, ttyH := h, ttyX := 0, ttyY := 0, ttyScr := screen, accesses := [] })
    hw hh (fun _ hi => absurd hi List.not_mem_nil)
  exact ⟨hk.2, hk.1.width, hk.1.height⟩

/-- **The cursor stays on the screen**, and every access with it, after `tty_setup` and in
every state of a run of its operations, just if no `tty_gotoxy` is given a negative column
or row that is not a multiple of the width or height. -/
theorem tty_on_screen_iff {w h : Int} (hw : 1 ≤ w) (hh : 1 ≤ h) (screen : Int → BitVec 16) (s : Tty)
    (ops : List TtyOp) : (∀ pre, pre <+: ops → OnScreen (pre.foldl TtyOp.run (ttySetup w h screen s))) ↔
    ∀ x y, .gotoxy x y ∈ ops → (0 ≤ x ∨ w ∣ x) ∧ (0 ≤ y ∨ h ∣ y) := by
  obtain ⟨hset, hsw, hsh⟩ := setup_onScreen hw hh screen s
  have hruns := onScreen_runs ops hset
  rw [hsw, hsh] at hruns
  refine hruns.trans ⟨fun hall x y hm => hall _ hm, fun hall op hm => ?_⟩
  cases op with
  | gotoxy x y => exact hall x y hm
  | _ => trivial

theorem tty_on_screen_sample : OnScreen
    ([.gotoxy (-80) 30, .write [0x61, 0x08, 0x08], .cls].foldl TtyOp.run (ttySetup 80 25 (fun _ => 0) bootTty)) := by
  refine (tty_on_screen_iff (by decide) (by decide) (fun _ => 0) bootTty
    [.gotoxy (-80) 30, .write [0x61, 0x08, 0x08], .cls]).2 ?_ _ (List.prefix_refl _)
  intro x y hm
  obtain ⟨rfl, rfl⟩ : x = -80 ∧ y = 30 := by simpa using hm
  decide

theorem gotoxy_left {t : Tty} (hw : t.ttyW = 80) (hh : t.ttyH = 25) :
    ((TtyOp.gotoxy (-1) 0).run t).ttyX = -1 ∧ ((TtyOp.gotoxy (-1) 0).run t).ttyY = 0 ∧
      ((TtyOp.gotoxy (-1) 0).run t).ttyW = 80 ∧ ((TtyOp.gotoxy (-1) 0).run t).ttyH = 25 := by
  refine ⟨?_, ?_, hw, hh⟩
  · show (-1 : Int).tmod t.ttyW = -1
    rw [hw]
    rfl
  · show (0 : Int).tmod t.ttyH = 0
    rw [hh]
    rfl

theorem putc_left {t : Tty} (hx : t.ttyX = -1) (hy : t.ttyY = 0) (hw : t.ttyW = 80) (hh : t.ttyH = 25) :
    -1 ∈ ((TtyOp.putc 0x61).run t).accesses := by
  simp [TtyOp.run, ttyPutc, putcSwitch, putcScroll, hx, hy, hw, hh, Tty.store, ttySetcursor, Tty.outportb]

/-- On a screen of 80 columns: the cursor in column -1, and a character in cell -1. -/
theorem tty_off_screen :
    let s := (TtyOp.gotoxy (-1) 0).run (ttySetup 80 25 (fun _ => 0) bootTty)
    s.ttyX = -1 ∧ ¬ OnScreen s ∧ -1 ∈ ((TtyOp.putc 0x61).run s).accesses := by
  obtain ⟨-, hw, hh⟩ := setup_onScreen (by decide : (1 : Int) ≤ 80) (by decide : (1 : Int) ≤ 25) (fun _ => 0) bootTty
  obtain ⟨hx, hy, hsw, hsh⟩ := gotoxy_left hw hh
  intro s
  refine ⟨hx, fun h => ?_, putc_left hx hy hsw hsh⟩
  have h0 := h.col.1
  rw [hx] at h0
  exact absurd h0 (by decide)

end LineOS
