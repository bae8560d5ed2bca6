import LineOS.Tty
import Mathlib.Tactic.Ring

/- The console against the page: `tty_write` and `tty_putc` show the text as
   `TextPage` types it, through a window of `tty_h` rows. The in-place scroll is
   two loops over the cells (`turns_copy`, `turns_store`); `putcSwitch` is the key
   on the page with the window where it was, `putcScroll` moves the window after
   the cursor. -/
namespace LineOS
open ByteMemory TextPage

/-- Colour above, character below. -/
def pageCell (color : U32) (c : U8) : BitVec 16 := color.setWidth 8 ++ c

/-- What a character of the text means: carriage return, newline, the other
    control characters nothing, the rest themselves. -/
def ttyKey (color : U32) (c : U8) : Key (BitVec 16) :=
  if c = 0x0D then .home
  else if c = 0x0A then .newline
  else if c.toNat < 0x20 then .skip
  else .mark (pageCell color c)

inductive TtyCall where
  | putc (c : U8)
  | write (str : List U8)

namespace TtyCall

def run (s : Tty) : TtyCall → Tty
  | putc c => ttyPutc c s
  | write str => ttyWrite str s

/-- The characters of a call: a string ends at its NUL. -/
def text : TtyCall → List U8
  | putc c => [c]
  | write str => str.takeWhile (· ≠ 0)

end TtyCall

/-! Cells. -/

theorem ttyCell_eq {c : U8} (hc : c.toNat < 128) (color : U32) : ttyCell c color = pageCell color c := by
  have hm : c.msb = false := by
    rw [BitVec.msb_eq_false_iff_two_mul_lt]
    omega
  unfold ttyCell pageCell
  rw [BitVec.signExtend_eq_setWidth_of_msb_false hm]
  apply BitVec.eq_of_getLsbD_eq
  intro i hi
  rw [BitVec.getLsbD_append]
  simp only [BitVec.getLsbD_setWidth, BitVec.getLsbD_or, BitVec.getLsbD_shiftLeft]
  split
  · simp [*]
    omega
  · rename_i h8
    have h32 : i < 32 := by omega
    have hlow : i - 8 < 8 := by omega
    rw [BitVec.getLsbD_of_ge c i (by omega)]
    simp [hi, h8, h32, hlow]

theorem cell_lt {w n r c : Nat} (hc : c < w) (hr : r < n) : c + r * w < n * w := by
  have := Nat.mul_le_mul_right w (Nat.succ_le_of_lt hr)
  rw [Nat.succ_mul] at this
  omega

theorem cell_inj {w r c y x : Nat} (hc : c < w) (hx : x < w) (h : c + r * w = x + y * w) : r = y ∧ c = x := by
  have hw : 0 < w := Nat.zero_lt_of_lt hc
  have hr : (c + r * w) / w = r := by rw [Nat.add_mul_div_right _ _ hw, Nat.div_eq_of_lt hc, Nat.zero_add]
  have hy : (x + y * w) / w = y := by rw [Nat.add_mul_div_right _ _ hw, Nat.div_eq_of_lt hx, Nat.zero_add]
  rw [h] at hr
  obtain rfl : r = y := hr.symm.trans hy
  exact ⟨rfl, Nat.add_right_cancel h⟩

/-! The loops. -/

theorem turns_store : ∀ (n : Nat) (t : Int) (s : Tty), ∃ acc,
    turns (fun t s => s.store t (ttyCell 0x20 s.ttyColor)) n t s =
      { s with ttyScr := fun i => if t ≤ i ∧ i < t + n then ttyCell 0x20 s.ttyColor else s.ttyScr i,
               accesses := acc } ∧
    ∀ i ∈ acc, i ∈ s.accesses ∨ t ≤ i ∧ i < t + n
  | 0, t, s => by
    refine ⟨s.accesses, ?_, fun i hi => .inl hi⟩
    have h : ∀ i, ¬ (t ≤ i ∧ i < t + (0 : Nat)) := fun i => by omega
    simp only [turns, h, if_false]
  | n + 1, t, s => by
    obtain ⟨acc, he, hacc⟩ := turns_store n (t + 1) (s.store t (ttyCell 0x20 s.ttyColor))
    refine ⟨acc, ?_, fun i hi => ?_⟩
    · rw [turns, he]
      simp only [Tty.store, Tty.mk.injEq, true_and, and_true]
      funext i
      grind
    · obtain h | h := hacc i hi
      · obtain rfl | h := List.mem_cons.1 h
        · exact .inr (by omega)
        · exact .inl h
      · exact .inr (by omega)

/-- A loop that moves cells down by `w` places: it reads none that it has written. -/
theorem turns_copy {w : Int} (hw : 0 < w) : ∀ (n : Nat) (t : Int) (s : Tty), s.ttyW = w → ∃ acc,
    turns (fun t s => s.copy t (t + s.ttyW)) n t s =
      { s with ttyScr := fun i => if t ≤ i ∧ i < t + n then s.ttyScr (i + w) else s.ttyScr i,
               accesses := acc } ∧
    ∀ i ∈ acc, i ∈ s.accesses ∨ t ≤ i ∧ i < t + n + w
  | 0, t, s, _ => by
    refine ⟨s.accesses, ?_, fun i hi => .inl hi⟩
    have h : ∀ i, ¬ (t ≤ i ∧ i < t + (0 : Nat)) := fun i => by omega
    simp only [turns, h, if_false]
  | n + 1, t, s, hs => by
    obtain ⟨acc, he, hacc⟩ := turns_copy hw n (t + 1) (s.copy t (t + s.ttyW)) hs
    refine ⟨acc, ?_, fun i hi => ?_⟩
    · rw [turns, he]
      simp only [Tty.copy, Tty.store, Tty.mk.injEq, true_and, and_true, hs]
      funext i
      grind
    · obtain h | h := hacc i hi
      · simp only [Tty.copy, List.mem_cons] at h
        grind
      · exact .inr (by omega)

/-- `tty_scrollup` on a screen of `y + 1` rows: all but the first move up, the last is cleared. -/
theorem ttyScrollup_eq {w y : Nat} {s : Tty} (hw : 0 < w) (hsw : s.ttyW = w) (hsh : s.ttyH = (y + 1 : Nat)) :
    ∃ acc, ttyScrollup s =
      { s with
        ttyScr := fun i =>
          if ((y * w : Nat) : Int) ≤ i ∧ i < ((y + 1) * w : Nat) then ttyCell 0x20 s.ttyColor
          else if 0 ≤ i ∧ i < (y * w : Nat) then s.ttyScr (i + w) else s.ttyScr i
        accesses := acc } ∧
    ∀ i ∈ acc, i ∈ s.accesses ∨ 0 ≤ i ∧ i < ((y + 1) * w : Nat) := by
  have he : s.ttyW * (s.ttyH - 1) = (y * w : Nat) := by
    rw [hsw, hsh]
    push_cast
    ring
  have hall : s.ttyW * s.ttyH = ((y + 1) * w : Nat) := by
    rw [hsw, hsh]
    push_cast
    ring
  have hmul : (y + 1) * w = y * w + w := Nat.succ_mul y w
  -- the first loop moves the rows up, the second blanks the last one
  obtain ⟨acc₁, h1, hacc₁⟩ := turns_copy (by omega : (0 : Int) < w) (y * w) 0 s hsw
  obtain ⟨acc₂, h2, hacc₂⟩ := turns_store w (y * w : Nat) (turns (fun t s => s.copy t (t + s.ttyW)) (y * w) 0 s)
  refine ⟨acc₂, ?_, fun i hi => ?_⟩
  · unfold ttyScrollup forTo
    simp only [he]
    rw [show ((y * w : Nat) - 0 : Int).toNat = y * w by omega, show max 0 ((y * w : Nat) : Int) = (y * w : Nat) by omega]
    -- the second loop's bound is read after the first has run
    have hlast : ((turns (fun t s => s.copy t (t + s.ttyW)) (y * w) 0 s).ttyW *
        (turns (fun t s => s.copy t (t + s.ttyW)) (y * w) 0 s).ttyH - (y * w : Nat)).toNat = w := by
      rw [h1]
      show (s.ttyW * s.ttyH - (y * w : Nat)).toNat = w
      rw [hall]
      omega
    rw [hlast, h2, h1]
    simp only [Tty.mk.injEq, true_and, and_true]
    funext i
    grind
  · obtain h | h := hacc₂ i hi
    · rw [h1] at h
      obtain h | h := hacc₁ i h
      · exact .inl h
      · exact .inr (by omega)
    · exact .inr (by omega)

/-! The screen shows the page. -/

/-- The screen is the page's window from row `t` on, with the cursor in column
    `x` of its row `y`, and no cell outside it has been accessed. -/
structure Shows (w h : Nat) (color : U32) (t : Nat) (p : Page (BitVec 16)) (x y : Nat) (s : Tty) : Prop where
  width : s.ttyW = w
  height : s.ttyH = h
  color : s.ttyColor = color
  atX : s.ttyX = x
  atY : s.ttyY = y
  window : WindowAt w h t p (fun r c => s.ttyScr (c + r * w : Nat)) x y
  inside : ∀ i ∈ s.accesses, 0 ≤ i ∧ i < (h * w : Nat)

section

variable {w h t x y : Nat} {color : U32} {p : Page (BitVec 16)} {s : Tty}

theorem Shows.setcursor (hs : Shows w h color t p x y s) {a b c d : Int} :
    Shows w h color t p x y (ttySetcursor a b c d s) :=
  ⟨hs.width, hs.height, hs.color, hs.atX, hs.atY, hs.window, hs.inside⟩

theorem Shows.mark (hs : Shows w h color t p x y s) (hx : x < w) (hy : y < h) (v : BitVec 16) :
    Shows w h color t (p.mark v) x y (s.store (s.ttyX + s.ttyY * s.ttyW) v) := by
  have hat : s.ttyX + s.ttyY * s.ttyW = (x + y * w : Nat) := by
    rw [hs.atX, hs.atY, hs.width]
    push_cast
    rfl
  rw [hat]
  refine ⟨hs.width, hs.height, hs.color, hs.atX, hs.atY, hs.window.put (if_pos rfl) ?_, fun i hi => ?_⟩
  · intro r hr c hc hne
    exact if_neg fun e => hne (cell_inj hc hx (Int.ofNat_inj.1 e))
  · obtain rfl | hi := List.mem_cons.1 hi
    · have := cell_lt hx hy
      omega
    · exact hs.inside i hi

theorem Shows.advance (hs : Shows w h color t p x y s) : ∃ x' y', Shows w h color t (p.advance w) x' y'
    (if s.ttyX + 1 = s.ttyW then { s with ttyX := 0, ttyY := s.ttyY + 1 } else { s with ttyX := s.ttyX + 1 }) := by
  have hx := hs.atX
  have hy := hs.atY
  have hw := hs.width
  have hstep := hs.window.advance
  by_cases he : x + 1 = w
  · rw [if_pos he, if_pos he] at hstep
    rw [if_pos (by omega)]
    refine ⟨0, y + 1, hw, hs.height, hs.color, rfl, ?_, hstep, hs.inside⟩
    show s.ttyY + 1 = (y + 1 : Nat)
    omega
  · rw [if_neg he, if_neg he] at hstep
    rw [if_neg (by omega)]
    refine ⟨x + 1, y, hw, hs.height, hs.color, ?_, hy, hstep, hs.inside⟩
    show s.ttyX + 1 = (x + 1 : Nat)
    omega

/-- The `switch` is the key on the page. -/
theorem Shows.putcSwitch (hs : Shows w h color t p x y s) (hx : x < w) (hy : y < h) {c : U8} (hc : c.toNat < 128)
    (h8 : c ≠ 8) : ∃ x' y', Shows w h color t (p.strike w (ttyKey color c)) x' y' (putcSwitch c s) := by
  have hi : c.toInt < 0x20 ↔ c.toNat < 0x20 := by
    rw [BitVec.toInt_eq_toNat_of_lt (by omega)]
    omega
  unfold LineOS.putcSwitch ttyKey
  by_cases hr : c = 0x0D
  · rw [if_pos hr, if_pos hr]
    exact ⟨0, y, hs.width, hs.height, hs.color, rfl, hs.atY, hs.window.home, hs.inside⟩
  rw [if_neg hr, if_neg hr]
  by_cases hn : c = 0x0A
  · rw [if_pos hn, if_pos hn]
    refine ⟨0, y + 1, hs.width, hs.height, hs.color, rfl, ?_, hs.window.feed, hs.inside⟩
    have := hs.atY
    show s.ttyY + 1 = (y + 1 : Nat)
    omega
  rw [if_neg hn, if_neg hn, if_neg h8]
  by_cases hl : c.toNat < 0x20
  · rw [if_pos (hi.2 hl), if_pos hl]
    exact ⟨x, y, hs⟩
  · rw [if_neg (fun h => hl (hi.1 h)), if_neg hl]
    have hm := hs.mark hx hy (pageCell color c)
    rw [ttyCell_eq hc, hs.color]
    exact hm.advance

theorem Shows.putcScroll (hs : Shows w h color t p x y s) (hw : 0 < w) (hh : 0 < h)
    (hp : y = h → ∀ c < w, p.cell p.row c = pageCell color 0x20) :
    ∃ y', Shows w h color (if y = h then t + 1 else t) p x y' (putcScroll s) := by
  have hy := hs.atY
  have hht := hs.height
  unfold LineOS.putcScroll
  by_cases he : y = h
  · rw [if_pos he, if_pos (by omega)]
    obtain ⟨y, rfl⟩ : ∃ n, h = n + 1 := ⟨h - 1, by omega⟩
    subst he
    obtain ⟨acc, hscr, hacc⟩ := ttyScrollup_eq hw hs.width hs.height
    rw [hscr]
    have hmul : (y + 1) * w = y * w + w := Nat.succ_mul y w
    refine ⟨y, hs.width, hs.height, hs.color, hs.atX, ?_, ?_, ?_⟩
    · show s.ttyY - 1 = y
      omega
    · refine hs.window.scroll (hp rfl) rfl (fun r hr c hc => ?_) (fun c hc => ?_)
      · have hl : c + r * w < y * w := cell_lt hc (by omega)
        have hup : ((c + r * w : Nat) : Int) + w = (c + (r + 1) * w : Nat) := by
          push_cast
          ring
        show (if _ then _ else if _ then s.ttyScr ((c + r * w : Nat) + w) else _) = s.ttyScr (c + (r + 1) * w : Nat)
        rw [if_neg (by omega), if_pos (by omega), hup]
      · show (if _ then ttyCell 0x20 s.ttyColor else _) = pageCell color 0x20
        rw [if_pos (by omega), ttyCell_eq (by decide), hs.color]
    · intro i hi
      obtain h | h := hacc i hi
      · exact hs.inside i h
      · exact h
  · rw [if_neg he, if_neg (by omega)]
    exact ⟨y, hs⟩

theorem Shows.putc (hs : Shows w h color (p.top h) p x y s) (hp : p.Ok w (pageCell color 0x20)) (hh : 0 < h)
    {c : U8} (hc : c.toNat < 128) (h8 : c ≠ 8) : ∃ x' y',
    Shows w h color ((p.strike w (ttyKey color c)).top h) (p.strike w (ttyKey color c)) x' y' (ttyPutc c s) := by
  have hrow := hs.window.row
  have hcol := hs.window.col
  have hx : x < w := by rw [hcol]; exact hp.col
  have hin := p.row_in_view (h := h)
  obtain ⟨x', y', hm⟩ := hs.putcSwitch hx (by omega) hc h8
  have hrow' := hm.window.row
  have hr := p.strike_row (w := w) (ttyKey color c)
  have hfresh : y' = h → ∀ z < w, (p.strike w (ttyKey color c)).cell (p.strike w (ttyKey color c)).row z = _ :=
    fun he z _ => hp.fresh (by omega) z
  obtain ⟨y'', hv⟩ := hm.putcScroll (Nat.zero_lt_of_lt hx) hh hfresh
  refine ⟨x', y'', ?_⟩
  have htop : (p.strike w (ttyKey color c)).top h = if y' = h then p.top h + 1 else p.top h := by
    split
    · exact Page.top_follow (by omega)
    · exact Page.top_keep hr (by omega)
  rw [htop]
  unfold ttyPutc
  exact hv.setcursor

theorem Shows.putcs (hh : 0 < h) : ∀ (str : List U8) {p : Page (BitVec 16)} {x y : Nat} {s : Tty},
    Shows w h color (p.top h) p x y s → p.Ok w (pageCell color 0x20) →
    (∀ c ∈ str, c.toNat < 128 ∧ c ≠ 8) →
    let q := p.type w (str.map (ttyKey color))
    q.Ok w (pageCell color 0x20) ∧ ∃ x' y', Shows w h color (q.top h) q x' y' (str.foldl (fun s c => ttyPutc c s) s)
  | [], _, x, y, _, hs, hp, _ => ⟨hp, x, y, hs⟩
  | c :: str, p, _, _, _, hs, hp, hc => by
    obtain ⟨h7, h8⟩ := hc c List.mem_cons_self
    obtain ⟨x', y', hs'⟩ := hs.putc hp hh h7 h8
    exact Shows.putcs hh str hs' (hp.strike _) fun d hd => hc d (List.mem_cons_of_mem c hd)

end

/-- `tty_write` is `tty_putc` for each character before the NUL. -/
theorem ttyWrite_eq : ∀ (str : List U8) (s : Tty),
    ttyWrite str s = (str.takeWhile (· ≠ 0)).foldl (fun s c => ttyPutc c s) s
  | [], _ => rfl
  | c :: str, s => by
    rw [ttyWrite, List.takeWhile_cons]
    split
    · rename_i h
      rw [if_pos (by simpa using h), ttyWrite_eq str, List.foldl_cons]
    · rename_i h
      rw [if_neg (by simpa using h)]
      rfl

theorem TtyCall.run_eq (k : TtyCall) (s : Tty) : k.run s = k.text.foldl (fun s c => ttyPutc c s) s := by
  cases k with
  | putc c => rfl
  | write str => exact ttyWrite_eq str s

theorem calls_eq_putcs : ∀ (ks : List TtyCall) (s : Tty),
    ks.foldl TtyCall.run s = (ks.flatMap TtyCall.text).foldl (fun s c => ttyPutc c s) s
  | [], _ => rfl
  | k :: ks, s => by
    rw [List.foldl_cons, List.flatMap_cons, List.foldl_append, TtyCall.run_eq, calls_eq_putcs ks]

theorem ttySetup_shows {w h : Nat} (hh : 0 < h) (screen : Int → BitVec 16) (s : Tty) :
    let p := Page.blank (pageCell s.ttyColor 0x20)
    Shows w h s.ttyColor (p.top h) p 0 0 (ttySetup w h screen s) := by
  obtain ⟨acc, he, hacc⟩ := turns_store (h * w) 0
    { s with ttyW := w, ttyH := h, ttyX := 0, ttyY := 0, ttyScr := screen, accesses := [] }
  have hall : ((w : Int) * h - 0).toNat = h * w := by
    rw [Int.sub_zero, Int.mul_comm]
    exact Int.toNat_natCast _
  unfold ttySetup ttyCls forTo
  simp only [hall]
  rw [he]
  apply Shows.setcursor
  refine ⟨rfl, rfl, rfl, rfl, rfl, ⟨fun r hr c hc => ?_, rfl, ?_⟩, fun i hi => ?_⟩
  · have := cell_lt hc hr
    show (if _ then ttyCell 0x20 s.ttyColor else _) = pageCell s.ttyColor 0x20
    rw [if_pos (by omega), ttyCell_eq (by decide)]
  · show 0 + 1 - h + 0 = 0
    omega
  · obtain hi | hi := hacc i hi
    · cases hi
    · omega

/-- **The screen is a window on an unbounded page.** After `tty_setup` and any calls of
`tty_putc` and `tty_write` the cells are the page's last `h` rows down to the cursor's, or
its first `h`, the cursor is the page's, and no cell outside the screen has been accessed. -/
theorem tty_window (w h : Nat) (hw : 1 ≤ w) (hh : 1 ≤ h) (screen : Int → BitVec 16) (s : Tty)
    (ks : List TtyCall) (hks : ∀ c ∈ ks.flatMap TtyCall.text, c.toNat < 128 ∧ c ≠ 8) :
    let tty := ks.foldl TtyCall.run (ttySetup w h screen s)
    let page := (Page.blank (pageCell s.ttyColor 0x20)).type w ((ks.flatMap TtyCall.text).map (ttyKey s.ttyColor))
    (∀ r < h, ∀ c < w, tty.ttyScr (c + r * w) = page.view h r c) ∧
      tty.ttyX = page.col ∧ tty.ttyY = page.row - page.top h ∧
      ∀ i ∈ tty.accesses, 0 ≤ i ∧ i < w * h := by
  intro tty page
  have htty : tty = (ks.flatMap TtyCall.text).foldl (fun s c => ttyPutc c s) (ttySetup w h screen s) :=
    calls_eq_putcs ks _
  obtain ⟨_, x, y, hs⟩ := Shows.putcs hh (ks.flatMap TtyCall.text) (ttySetup_shows hh screen s)
    (Page.blank_ok hw) hks
  rw [← htty] at hs
  refine ⟨fun r hr c hc => ?_, ?_, ?_, fun i hi => ?_⟩
  · have hcell : tty.ttyScr (c + r * w : Nat) = page.view h r c := hs.window.cells r hr c hc
    push_cast at hcell
    exact hcell
  · rw [hs.atX, hs.window.col]
  · have hrow : page.top h + y = page.row := hs.window.row
    rw [hs.atY]
    omega
  · have hin := hs.inside i hi
    push_cast at hin
    rwa [Int.mul_comm]

/-- The console as the kernel boots. -/
def bootTty : Tty :=
  { ttyW := 80, ttyH := 25, ttyColor := 7, ttyX := 0, ttyY := 0, ttyScr := fun _ => 0, accesses := [], outports := [] }

/-- Text that a screen of two rows of three scrolls once. -/
def sampleText : List TtyCall := [.write [0x61, 0x62, 0x0A, 0x63, 0x64, 0x65, 0], .putc 0x0D, .putc 0x66]

theorem tty_window_sample :
    let tty := sampleText.foldl TtyCall.run (ttySetup 3 2 (fun _ => 0) bootTty)
    tty.ttyScr 0 = 0x0763 ∧ tty.ttyScr 3 = 0x0766 ∧ tty.ttyX = 1 ∧ tty.ttyY = 1 := by
  obtain ⟨hcell, hx, hy, -⟩ := tty_window 3 2 (by decide) (by decide) (fun _ => 0) bootTty sampleText (by decide)
  exact ⟨hcell 0 (by decide) 0 (by decide), hcell 1 (by decide) 0 (by decide), hx, hy⟩

end LineOS
