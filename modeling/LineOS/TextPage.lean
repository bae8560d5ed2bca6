import Mathlib.Algebra.Group.Nat.Defs
import Mathlib.Data.List.Basic

/- Text on a page without end. A `Page α` is `w` columns wide, has as many rows
   as the text needs and a cursor; `strike` is one key of a typewriter, which
   wraps to the next row after the last column. `view h` is the window of `h`
   rows whose last row is the cursor's, or of the first `h` rows while the
   cursor is in one of them. A screen that scrolls in place is a window with an
   explicit first row: `WindowAt` relates the two, `put`, `home` and `feed` say how
   a key moves it and `scroll` how a scroll does. -/
namespace TextPage

/-- What a character does to a page. -/
inductive Key (α : Type) where
  | mark (a : α)
  | newline
  | home
  | skip

structure Page (α : Type) where
  cell : Nat → Nat → α
  row : Nat
  col : Nat

namespace Page

variable {α : Type} {w h : Nat} {b : α}

def blank (b : α) : Page α := { cell := fun _ _ => b, row := 0, col := 0 }

/-- Step the cursor one column, to the next row after the last. -/
def advance (w : Nat) (p : Page α) : Page α :=
  if p.col + 1 = w then { p with row := p.row + 1, col := 0 } else { p with col := p.col + 1 }

def mark (a : α) (p : Page α) : Page α :=
  { p with cell := fun r x => if r = p.row ∧ x = p.col then a else p.cell r x }

def strike (w : Nat) (p : Page α) : Key α → Page α
  | .mark a => (p.mark a).advance w
  | .newline => { p with row := p.row + 1, col := 0 }
  | .home => { p with col := 0 }
  | .skip => p

def type (w : Nat) (keys : List (Key α)) (p : Page α) : Page α := keys.foldl (strike w) p

/-- The first row of the window. -/
def top (h : Nat) (p : Page α) : Nat := p.row + 1 - h

/-- The window: row `y` of it and column `x`. -/
def view (h : Nat) (p : Page α) (y x : Nat) : α := p.cell (p.top h + y) x

/-- The cursor is on the page and the rows below it are blank. -/
structure Ok (w : Nat) (b : α) (p : Page α) : Prop where
  col : p.col < w
  below : ∀ r x, p.row < r → p.cell r x = b

theorem blank_ok (hw : 0 < w) : Ok w b (blank b) := ⟨hw, fun _ _ _ => rfl⟩

theorem advance_cell (p : Page α) : (p.advance w).cell = p.cell := by
  unfold advance
  split <;> rfl

theorem advance_row (p : Page α) : p.row ≤ (p.advance w).row := by
  unfold advance
  split
  · exact Nat.le_succ _
  · exact Nat.le_refl _

theorem Ok.advance {p : Page α} (hp : Ok w b p) : Ok w b (p.advance w) := by
  refine ⟨?_, fun r x hr => ?_⟩
  · have := hp.col
    unfold Page.advance
    split
    · exact Nat.zero_lt_of_lt this
    · show p.col + 1 < w
      omega
  · rw [advance_cell]
    exact hp.below r x (Nat.lt_of_le_of_lt (advance_row p) hr)

theorem Ok.mark {p : Page α} (hp : Ok w b p) (a : α) : Ok w b (p.mark a) := by
  refine ⟨hp.col, fun r x hr => ?_⟩
  have hne : ¬ (r = p.row ∧ x = p.col) := fun e => by have : p.row < r := hr; omega
  exact (if_neg hne).trans (hp.below r x hr)

theorem Ok.strike {p : Page α} (hp : Ok w b p) (k : Key α) : Ok w b (p.strike w k) := by
  have hw : 0 < w := Nat.zero_lt_of_lt hp.col
  cases k with
  | mark a => exact (hp.mark a).advance
  | newline => exact ⟨hw, fun r x hr => hp.below r x (Nat.lt_of_succ_lt hr)⟩
  | home => exact ⟨hw, hp.below⟩
  | skip => exact hp

theorem strike_row (p : Page α) (k : Key α) :
    (p.strike w k).row = p.row ∨ (p.strike w k).row = p.row + 1 := by
  cases k with
  | mark a =>
    show ((p.mark a).advance w).row = p.row ∨ ((p.mark a).advance w).row = p.row + 1
    unfold advance
    split
    · exact .inr rfl
    · exact .inl rfl
  | newline => exact .inr rfl
  | home => exact .inl rfl
  | skip => exact .inl rfl

theorem Ok.fresh {p : Page α} (hp : Ok w b p) {k : Key α} (hr : (p.strike w k).row = p.row + 1) (c : Nat) :
    (p.strike w k).cell (p.strike w k).row c = b := by
  rw [hr]
  have hb := hp.below (p.row + 1) c (Nat.lt_succ_self _)
  cases k with
  | mark a =>
    have hne : ¬ (p.row + 1 = p.row ∧ c = p.col) := fun e => by omega
    show ((p.mark a).advance w).cell (p.row + 1) c = b
    rw [advance_cell]
    exact (if_neg hne).trans hb
  | newline => exact hb
  | home => exact hb
  | skip => exact hb

/-- The window stays while the cursor is in it. -/
theorem top_keep {p q : Page α} (hr : q.row = p.row ∨ q.row = p.row + 1) (hq : q.row < p.top h + h) :
    q.top h = p.top h := by
  unfold top at hq ⊢
  omega

/-- It follows a cursor that left it at the bottom. -/
theorem top_follow {p q : Page α} (hq : q.row = p.top h + h) : q.top h = p.top h + 1 := by
  unfold top at hq ⊢
  omega

theorem row_in_view (p : Page α) : p.row < p.top h + h := by
  unfold top
  omega

end Page

/-! A buffer as a window. -/

/-- The `h` rows of `scr` are those of the page from `t` on, and (x, y) is the
    cursor's place in them, or in the row under them. -/
structure WindowAt {α : Type} (w h t : Nat) (p : Page α) (scr : Nat → Nat → α) (x y : Nat) : Prop where
  cells : ∀ r < h, ∀ c < w, scr r c = p.cell (t + r) c
  col : x = p.col
  row : t + y = p.row

namespace WindowAt

variable {α : Type} {w h t x y : Nat} {p : Page α} {b : α} {scr scr' : Nat → Nat → α}

theorem put (hw : WindowAt w h t p scr x y) {a : α} (hat : scr' y x = a)
    (hne : ∀ r < h, ∀ c < w, ¬ (r = y ∧ c = x) → scr' r c = scr r c) : WindowAt w h t (p.mark a) scr' x y := by
  refine ⟨fun r hr c hc => ?_, hw.col, hw.row⟩
  have hrow := hw.row
  have hcol := hw.col
  show scr' r c = if t + r = p.row ∧ c = p.col then a else p.cell (t + r) c
  split
  · rename_i e
    obtain ⟨rfl, rfl⟩ : r = y ∧ c = x := by omega
    exact hat
  · rename_i e
    rw [hne r hr c hc (by omega), hw.cells r hr c hc]

theorem advance (hw : WindowAt w h t p scr x y) :
    WindowAt w h t (p.advance w) scr (if x + 1 = w then 0 else x + 1) (if x + 1 = w then y + 1 else y) := by
  have hcol := hw.col
  have hrow := hw.row
  unfold Page.advance
  rw [← hcol]
  split
  · exact ⟨hw.cells, rfl, by rw [← Nat.add_assoc, hrow]⟩
  · exact ⟨hw.cells, rfl, hrow⟩

theorem home (hw : WindowAt w h t p scr x y) : WindowAt w h t (p.strike w .home) scr 0 y :=
  ⟨hw.cells, rfl, hw.row⟩

theorem feed (hw : WindowAt w h t p scr x y) : WindowAt w h t (p.strike w .newline) scr 0 (y + 1) := by
  refine ⟨hw.cells, rfl, ?_⟩
  rw [← Nat.add_assoc, hw.row]
  rfl

theorem scroll (hw : WindowAt w h t p scr x (y + 1)) (hp : ∀ c < w, p.cell p.row c = b) (hh : y + 1 = h)
    (hup : ∀ r, r + 1 < h → ∀ c < w, scr' r c = scr (r + 1) c) (hlast : ∀ c < w, scr' y c = b) :
    WindowAt w h (t + 1) p scr' x y := by
  have hrow := hw.row
  refine ⟨fun r hr c hc => ?_, hw.col, by omega⟩
  obtain hl | rfl : r + 1 < h ∨ r = y := by omega
  · rw [hup r hl c hc, hw.cells (r + 1) hl c hc, Nat.add_assoc, Nat.add_comm 1 r]
  · -- the row that comes into view is the cursor's
    rw [hlast c hc, show t + 1 + r = p.row by omega, hp c hc]

end WindowAt

end TextPage
