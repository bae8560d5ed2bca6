import LineOS.Interleave
import LineOS.TtyBounds

/- `tty_putc` called by many threads at once, a statement at a time: processes that print and
   are preempted, or an interrupt handler that prints. `putcStmt` is one statement, and a call
   left alone is `ttyPutc` (`putc_alone`). The edge tests compare for equality, so between the
   step past an edge and the step back the cursor is nobody else's to move: while no thread runs
   as another stands there the cursor stays in bounds (`tty_race`), and else it need not. -/
namespace LineOS
open ByteMemory Interleave

inductive PutcPc where
  | out
  /-- at the `switch` -/
  | enter (c : U8)
  | newline
  /-- in `case 8`, with `t` -/
  | stepBack (t : Int)
  | backCol (t : Int)
  | backRow (t : Int)
  | backMark (t : Int)
  /-- in `default` -/
  | mark (c : U8)
  | right
  | rightEdge
  | wrapCol
  | wrapRow
  /-- after the `switch` -/
  | bottomEdge
  | scroll
  | rowUp
  | cursor
  deriving DecidableEq

/-- One statement of `tty_putc`, and where it leads. -/
def putcStmt : PutcPc → Tty → Tty × PutcPc
  | .out, s => (s, .out)
  | .enter c, s =>
    if c = 0x0D then ({ s with ttyX := 0 }, .bottomEdge)
    else if c = 0x0A then ({ s with ttyX := 0 }, .newline)
    else if c = 8 then (s, .stepBack (s.ttyX + s.ttyY * s.ttyW))
    else if c.toInt < 0x20 then (s, .bottomEdge)
    else (s, .mark c)
  | .newline, s => ({ s with ttyY := s.ttyY + 1 }, .bottomEdge)
  | .stepBack t, s => (s, .backCol (if 0 < t then t - 1 else t))
  | .backCol t, s => ({ s with ttyX := t.tmod s.ttyW }, .backRow t)
  | .backRow t, s => ({ s with ttyY := t.tdiv s.ttyW }, .backMark t)
  | .backMark t, s => (s.store t (ttyCell 0x20 s.ttyColor), .bottomEdge)
  | .mark c, s => (s.store (s.ttyX + s.ttyY * s.ttyW) (ttyCell c s.ttyColor), .right)
  | .right, s => ({ s with ttyX := s.ttyX + 1 }, .rightEdge)
  | .rightEdge, s => (s, if s.ttyX = s.ttyW then .wrapCol else .bottomEdge)
  | .wrapCol, s => ({ s with ttyX := 0 }, .wrapRow)
  | .wrapRow, s => ({ s with ttyY := s.ttyY + 1 }, .bottomEdge)
  | .bottomEdge, s => (s, if s.ttyY = s.ttyH then .scroll else .cursor)
  | .scroll, s => (ttyScrollup s, .rowUp)
  | .rowUp, s => ({ s with ttyY := s.ttyY - 1 }, .cursor)
  | .cursor, s => (ttySetcursor s.ttyX s.ttyY s.ttyW s.ttyH s, .out)

/-- A thread calls `tty_putc`, or runs its next statement. -/
inductive PutcStep {ι : Type} : Program ι Tty PutcPc
  | call {i s} (c : U8) : PutcStep i s .out s (.enter c)
  | stmt {i s pc} : pc ≠ .out → PutcStep i s pc (putcStmt pc s).1 (putcStmt pc s).2

/-! A call by itself. -/

section

variable {s : Tty}

theorem bottomEdge_alone (s : Tty) : Sweep (fun x => putcStmt x.2 x.1) (· ≠ .out) (s, .bottomEdge)
    (ttySetcursor (putcScroll s).ttyX (putcScroll s).ttyY (putcScroll s).ttyW (putcScroll s).ttyH (putcScroll s),
      .out) := by
  have hend : ∀ s : Tty, Sweep (fun x => putcStmt x.2 x.1) (· ≠ .out) (s, .cursor)
      (ttySetcursor s.ttyX s.ttyY s.ttyW s.ttyH s, .out) :=
    fun s => Sweep.step (by simp) (Sweep.stop (by simp [putcStmt]))
  refine Sweep.step (by simp) ?_
  unfold putcScroll
  by_cases he : s.ttyY = s.ttyH
  · simp only [putcStmt, if_pos he]
    exact Sweep.step (by simp) (Sweep.step (by simp) (hend _))
  · simp only [putcStmt, if_neg he]
    exact hend s

/-- **A call left alone is `tty_putc`.** -/
theorem putc_alone (c : U8) (s : Tty) :
    Sweep (fun x => putcStmt x.2 x.1) (· ≠ .out) (s, .enter c) (ttyPutc c s, .out) := by
  have hb := bottomEdge_alone (putcSwitch c s)
  refine Sweep.step (by simp) ?_
  unfold ttyPutc
  unfold putcSwitch at hb ⊢
  simp only [putcStmt]
  split
  · next hr =>
    rw [if_pos hr] at hb
    exact hb
  next hr =>
  rw [if_neg hr] at hb
  split
  · next hn =>
    rw [if_pos hn] at hb
    exact Sweep.step (by simp) hb
  next hn =>
  rw [if_neg hn] at hb
  split
  · next h8 =>
    rw [if_pos h8] at hb
    exact Sweep.step (by simp) (Sweep.step (by simp) (Sweep.step (by simp)
      (Sweep.step (by simp) hb)))
  next h8 =>
  rw [if_neg h8] at hb
  split
  · next hl =>
    rw [if_pos hl] at hb
    exact hb
  next hl =>
  rw [if_neg hl] at hb
  refine Sweep.step (by simp) (Sweep.step (by simp) (Sweep.step (by simp) ?_))
  dsimp only [putcStmt] at hb ⊢
  split
  · next he =>
    rw [if_pos he] at hb
    exact Sweep.step (by simp) (Sweep.step (by simp) hb)
  · next he =>
    rw [if_neg he] at hb
    exact hb

end

/-! The cursor past an edge. -/

def AtCol (pc : PutcPc) : Prop := pc = .rightEdge ∨ pc = .wrapCol

def AtRow (pc : PutcPc) : Prop := pc = .bottomEdge ∨ pc = .scroll ∨ pc = .rowUp

/-- The cursor has left the screen, and a thread here is to put it back. -/
def PastEdge (s : Tty) (pc : PutcPc) : Prop := s.ttyX = s.ttyW ∧ AtCol pc ∨ s.ttyY = s.ttyH ∧ AtRow pc

def Relies (s : Tty) : PutcPc → Prop
  | .stepBack t | .backCol t | .backRow t | .backMark t => Cell s t
  | .scroll | .rowUp => s.ttyY = s.ttyH
  | _ => True

/-- The cursor is in bounds, and past an edge only as the thread at `pc` is to put it back. -/
structure Mover (s : Tty) (pc : PutcPc) : Prop where
  size : 0 < s.ttyW ∧ 0 < s.ttyH
  col : 0 ≤ s.ttyX ∧ s.ttyX ≤ s.ttyW
  row : 0 ≤ s.ttyY ∧ s.ttyY ≤ s.ttyH
  right : s.ttyX = s.ttyW → AtCol pc
  bottom : s.ttyY = s.ttyH → AtRow pc
  relies : Relies s pc

section

variable {s : Tty} {pc : PutcPc}

theorem Mover.inside (h : Mover s pc) (hc : ¬ AtCol pc) (hr : ¬ AtRow pc) :
    (0 ≤ s.ttyX ∧ s.ttyX < s.ttyW) ∧ 0 ≤ s.ttyY ∧ s.ttyY < s.ttyH := by
  have hx : s.ttyX ≠ s.ttyW := fun he => hc (h.right he)
  have hy : s.ttyY ≠ s.ttyH := fun he => hr (h.bottom he)
  have hcol := h.col
  have hrow := h.row
  exact ⟨⟨hcol.1, by omega⟩, hrow.1, by omega⟩

theorem mover_on (hx : 0 ≤ s.ttyX ∧ s.ttyX < s.ttyW) (hy : 0 ≤ s.ttyY ∧ s.ttyY < s.ttyH) (hr : Relies s pc) :
    Mover s pc :=
  ⟨⟨by omega, by omega⟩, ⟨hx.1, hx.2.le⟩, ⟨hy.1, hy.2.le⟩, fun he => absurd he hx.2.ne,
    fun he => absurd he hy.2.ne, hr⟩

/-- **One statement.** -/
theorem mover_step (h : Mover s pc) : SameScreen s (putcStmt pc s).1 ∧ Mover (putcStmt pc s).1 (putcStmt pc s).2 := by
  obtain ⟨⟨hw, hh⟩, hcol, hrow, hright, hbottom, hrel⟩ := id h
  have hsame := sameScreen_refl s
  cases pc with
  | out => exact ⟨hsame, h⟩
  | enter c =>
    obtain ⟨hx, hy⟩ := h.inside (by simp [AtCol]) (by simp [AtRow])
    unfold putcStmt
    dsimp only
    by_cases hr : c = 0x0D
    · rw [if_pos hr]
      exact ⟨⟨rfl, rfl, hsame.cells⟩, mover_on ⟨Int.le_refl 0, hw⟩ hy trivial⟩
    rw [if_neg hr]
    by_cases hn : c = 0x0A
    · rw [if_pos hn]
      exact ⟨⟨rfl, rfl, hsame.cells⟩, mover_on ⟨Int.le_refl 0, hw⟩ hy trivial⟩
    rw [if_neg hn]
    by_cases h8 : c = 8
    · rw [if_pos h8]
      exact ⟨hsame, mover_on hx hy (cell_at hx hy)⟩
    rw [if_neg h8]
    split
    · exact ⟨hsame, mover_on hx hy trivial⟩
    · exact ⟨hsame, mover_on hx hy trivial⟩
  | newline | wrapRow =>
    obtain ⟨hx, hy⟩ := h.inside (by simp [AtCol]) (by simp [AtRow])
    refine ⟨⟨rfl, rfl, hsame.cells⟩, ⟨hw, hh⟩, hcol, ⟨Int.add_nonneg hy.1 Int.one_nonneg, hy.2⟩, ?_, ?_, trivial⟩
    · exact fun he => absurd he hx.2.ne
    · exact fun _ => .inl rfl
  | stepBack t =>
    obtain ⟨hx, hy⟩ := h.inside (by simp [AtCol]) (by simp [AtRow])
    refine ⟨hsame, mover_on hx hy ?_⟩
    obtain ⟨h0, h1⟩ : Cell s t := hrel
    show Cell s (if 0 < t then t - 1 else t)
    split
    · exact ⟨by omega, by omega⟩
    · exact ⟨h0, h1⟩
  | backCol t =>
    obtain ⟨-, hy⟩ := h.inside (by simp [AtCol]) (by simp [AtRow])
    exact ⟨⟨rfl, rfl, hsame.cells⟩, mover_on (cell_split hw hrel).1 hy hrel⟩
  | backRow t =>
    obtain ⟨hx, -⟩ := h.inside (by simp [AtCol]) (by simp [AtRow])
    exact ⟨⟨rfl, rfl, hsame.cells⟩, mover_on hx (cell_split hw hrel).2 hrel⟩
  | backMark t =>
    obtain ⟨hx, hy⟩ := h.inside (by simp [AtCol]) (by simp [AtRow])
    exact ⟨sameScreen_store _ hrel, mover_on hx hy trivial⟩
  | mark c =>
    obtain ⟨hx, hy⟩ := h.inside (by simp [AtCol]) (by simp [AtRow])
    exact ⟨sameScreen_store _ (cell_at hx hy), mover_on hx hy trivial⟩
  | right =>
    obtain ⟨hx, hy⟩ := h.inside (by simp [AtCol]) (by simp [AtRow])
    refine ⟨⟨rfl, rfl, hsame.cells⟩, ⟨hw, hh⟩, ⟨Int.add_nonneg hx.1 Int.one_nonneg, hx.2⟩, hrow, ?_, ?_, trivial⟩
    · exact fun _ => .inl rfl
    · exact fun he => absurd he hy.2.ne
  | rightEdge =>
    have hy : s.ttyY ≠ s.ttyH := fun he => by simpa [AtRow] using hbottom he
    show SameScreen s s ∧ Mover s (if s.ttyX = s.ttyW then .wrapCol else .bottomEdge)
    split
    · exact ⟨hsame, ⟨hw, hh⟩, hcol, hrow, fun _ => .inr rfl, fun he => absurd he hy, trivial⟩
    · next hx => exact ⟨hsame, mover_on ⟨hcol.1, by omega⟩ ⟨hrow.1, by omega⟩ trivial⟩
  | wrapCol =>
    have hy : s.ttyY ≠ s.ttyH := fun he => by simpa [AtRow] using hbottom he
    exact ⟨⟨rfl, rfl, hsame.cells⟩, mover_on ⟨Int.le_refl 0, hw⟩ ⟨hrow.1, lt_of_le_of_ne hrow.2 hy⟩ trivial⟩
  | bottomEdge =>
    have hx : s.ttyX ≠ s.ttyW := fun he => by simpa [AtCol] using hright he
    show SameScreen s s ∧ Mover s (if s.ttyY = s.ttyH then .scroll else .cursor)
    split
    · next hy => exact ⟨hsame, ⟨hw, hh⟩, hcol, hrow, fun he => absurd he hx, fun _ => .inr (.inl rfl), hy⟩
    · next hy => exact ⟨hsame, mover_on ⟨hcol.1, by omega⟩ ⟨hrow.1, by omega⟩ trivial⟩
  | scroll =>
    have hx : s.ttyX ≠ s.ttyW := fun he => by simpa [AtCol] using hright he
    obtain ⟨hs, hsx, hsy⟩ := sameScreen_scrollup hw hh
    refine ⟨hs, ?_⟩
    show Mover (ttyScrollup s) .rowUp
    have hy : (ttyScrollup s).ttyY = (ttyScrollup s).ttyH := by rw [hsy, hs.height]; exact hrel
    refine ⟨?_, ?_, ?_, ?_, fun _ => .inr (.inr rfl), hy⟩
    · rw [hs.width, hs.height]; exact ⟨hw, hh⟩
    · rw [hsx, hs.width]; exact hcol
    · rw [hsy, hs.height]; exact hrow
    · rw [hsx, hs.width]; exact fun he => absurd he hx
  | rowUp =>
    have hx : s.ttyX ≠ s.ttyW := fun he => by simpa [AtCol] using hright he
    have hy : s.ttyY = s.ttyH := hrel
    have hup : 0 ≤ s.ttyY - 1 ∧ s.ttyY - 1 < s.ttyH := by omega
    exact ⟨⟨rfl, rfl, hsame.cells⟩, mover_on ⟨hcol.1, lt_of_le_of_ne hcol.2 hx⟩ hup trivial⟩
  | cursor =>
    obtain ⟨hx, hy⟩ := h.inside (by simp [AtCol]) (by simp [AtRow])
    exact ⟨⟨rfl, rfl, hsame.cells⟩, mover_on hx hy trivial⟩

end

/-! Many threads. -/

variable {ι : Type}

def OneMover (i : ι) (c : Config ι Tty PutcPc) : Prop :=
  c.loc i = .out ∨ ∀ j, j ≠ i → ¬ PastEdge c.shared (c.loc j)

def CursorValid (s : Tty) : Prop :=
  (0 ≤ s.ttyX ∧ s.ttyX ≤ s.ttyW) ∧ (0 ≤ s.ttyY ∧ s.ttyY ≤ s.ttyH) ∧ ∀ i ∈ s.accesses, Cell s i

structure Movers (c : Config ι Tty PutcPc) : Prop where
  size : 0 < c.shared.ttyW ∧ 0 < c.shared.ttyH
  valid : CursorValid c.shared
  right : c.shared.ttyX = c.shared.ttyW → ∃ j, AtCol (c.loc j)
  bottom : c.shared.ttyY = c.shared.ttyH → ∃ j, AtRow (c.loc j)
  relies : ∀ j, Relies c.shared (c.loc j)

theorem relies_frame {s s' : Tty} {pc : PutcPc} (hs : SameScreen s s') (hp : ¬ PastEdge s pc) (h : Relies s pc) :
    Relies s' pc := by
  have hcell : ∀ t, Cell s t → Cell s' t := by
    intro t ht
    unfold Cell at ht ⊢
    rwa [hs.width, hs.height]
  cases pc with
  | stepBack t => exact hcell t h
  | backCol t => exact hcell t h
  | backRow t => exact hcell t h
  | backMark t => exact hcell t h
  | scroll => exact absurd (.inr ⟨h, .inr (.inl rfl)⟩) hp
  | rowUp => exact absurd (.inr ⟨h, .inr (.inr rfl)⟩) hp
  | _ => trivial

variable [DecidableEq ι] {c c₀ : Config ι Tty PutcPc} {i : ι}

/-- The thread that runs finds the cursor past an edge only if it is itself to put it back. -/
theorem Movers.mover (h : Movers c) (hok : ∀ j, j ≠ i → ¬ PastEdge c.shared (c.loc j)) : Mover c.shared (c.loc i) := by
  refine ⟨h.size, h.valid.1, h.valid.2.1, fun he => ?_, fun he => ?_, h.relies i⟩
  · obtain ⟨j, hj⟩ := h.right he
    by_cases hji : j = i
    · exact hji ▸ hj
    · exact absurd (.inl ⟨he, hj⟩) (hok j hji)
  · obtain ⟨j, hj⟩ := h.bottom he
    by_cases hji : j = i
    · exact hji ▸ hj
    · exact absurd (.inr ⟨he, hj⟩) (hok j hji)

theorem movers_call (h : Movers c) (hl : c.loc i = .out) (ch : U8) : Movers (c.put i c.shared (.enter ch)) := by
  have hother : ∀ {p : PutcPc → Prop}, ¬ p .out → (∃ j, p (c.loc j)) →
      ∃ j, p ((c.put i c.shared (.enter ch)).loc j) := by
    rintro p hp ⟨j, hj⟩
    refine ⟨j, ?_⟩
    rwa [Config.put_ne]
    rintro rfl
    exact hp (hl ▸ hj)
  refine ⟨h.size, h.valid, fun he => ?_, fun he => ?_, ?_⟩
  · exact hother (by simp [AtCol]) (h.right he)
  · exact hother (by simp [AtRow]) (h.bottom he)
  · exact Config.forall_put (p := fun _ => Relies c.shared) trivial fun j _ => h.relies j

theorem movers_stmt (h : Movers c) (hok : ∀ j, j ≠ i → ¬ PastEdge c.shared (c.loc j)) :
    Movers (c.put i (putcStmt (c.loc i) c.shared).1 (putcStmt (c.loc i) c.shared).2) := by
  obtain ⟨hs, hm⟩ := mover_step (h.mover hok)
  generalize putcStmt (c.loc i) c.shared = x at hs hm ⊢
  refine ⟨hm.size, ⟨hm.col, hm.row, fun t ht => ?_⟩, fun he => ⟨i, ?_⟩, fun he => ⟨i, ?_⟩, ?_⟩
  · unfold Cell
    rw [Config.put_shared, hs.width, hs.height]
    exact (hs.cells t ht).elim (h.valid.2.2 t) fun h => h
  · rw [Config.put_self]
    exact hm.right he
  · rw [Config.put_self]
    exact hm.bottom he
  · exact Config.forall_put (p := fun _ => Relies x.1) hm.relies fun j hj => relies_frame hs (hok j hj) (h.relies j)

theorem movers_step {s : Tty} {pc : PutcPc} (h : Movers c) (hok : OneMover i c)
    (hp : PutcStep i c.shared (c.loc i) s pc) : Movers (c.put i s pc) := by
  generalize hl : c.loc i = l at hp
  cases hp with
  | call ch => exact movers_call h hl ch
  | stmt hout =>
    subst hl
    exact movers_stmt h (hok.resolve_left hout)

/-- **Threads that print at the same time** keep the cursor in bounds, and touch cells of the screen
only, in every interleaving in which none of them runs a statement of `tty_putc` while another has
moved the cursor past an edge and is to put it back. -/
theorem tty_race (h₀ : OnScreen c₀.shared) (hout : ∀ i, c₀.loc i = .out) (h : Interleaving PutcStep OneMover c₀ c) :
    CursorValid c.shared := by
  have hm : Movers c := by
    refine h.inv ⟨?_, ⟨⟨h₀.col.1, h₀.col.2.le⟩, ⟨h₀.row.1, h₀.row.2.le⟩, h₀.cells⟩, ?_, ?_, fun j => ?_⟩
      fun c i s l => movers_step
    · have := h₀.col
      have := h₀.row
      omega
    · exact fun he => absurd he h₀.col.2.ne
    · exact fun he => absurd he h₀.row.2.ne
    · rw [hout j]
      trivial
  exact hm.valid

instance (pc : PutcPc) : Decidable (AtCol pc) := inferInstanceAs (Decidable (_ ∨ _))
instance (pc : PutcPc) : Decidable (AtRow pc) := inferInstanceAs (Decidable (_ ∨ _))
instance (s : Tty) (pc : PutcPc) : Decidable (PastEdge s pc) := inferInstanceAs (Decidable (_ ∨ _))
instance (i : Bool) (c : Config Bool Tty PutcPc) : Decidable (OneMover i c) := inferInstanceAs (Decidable (_ ∨ _))

def putcEvent : Option U8 → Tty × PutcPc → Tty × PutcPc
  | some ch, x => (x.1, .enter ch)
  | none, x => putcStmt x.2 x.1

def putcGuard (e : Option U8) (i : Bool) (c : Config Bool Tty PutcPc) : Prop :=
  OneMover i c ∧ (c.loc i = .out ↔ e ≠ none)

instance (e : Option U8) (i : Bool) (c : Config Bool Tty PutcPc) : Decidable (putcGuard e i c) :=
  inferInstanceAs (Decidable (_ ∧ _))

theorem putcGuard_step (e : Option U8) (i : Bool) (c : Config Bool Tty PutcPc) (h : putcGuard e i c) : OneMover i c ∧
    PutcStep i c.shared (c.loc i) (putcEvent e (c.shared, c.loc i)).1 (putcEvent e (c.shared, c.loc i)).2 := by
  obtain ⟨hok, hout⟩ := h
  refine ⟨hok, ?_⟩
  cases e with
  | some ch =>
    have hl : c.loc i = .out := hout.mpr (by simp)
    rw [hl]
    exact .call ch
  | none => exact .stmt fun hl => hout.mp hl rfl

def lastOfSix : Config Bool Tty PutcPc := ⟨{ bootTty with ttyW := 3, ttyH := 2, ttyX := 2, ttyY := 1 }, fun _ => .out⟩

/-- Both print. The first crosses the right edge; when it has put `tty_x` back the second is let in for a statement;
the first crosses the bottom edge, scrolls and returns; the second prints in the new row. -/
def bothPrint : List (Bool × Option U8) :=
  [(true, some 0x61), (false, some 0x62)] ++ List.replicate 5 (true, none) ++ [(false, none)] ++
    List.replicate 5 (true, none) ++ List.replicate 5 (false, none)

theorem tty_race_sample : ∃ c, Interleaving PutcStep OneMover lastOfSix c ∧ (∀ i, c.loc i = .out) ∧
    c.shared.ttyScr 2 = 0x0761 ∧ c.shared.ttyScr 3 = 0x0762 ∧ c.shared.ttyX = 1 ∧ c.shared.ttyY = 1 ∧
    CursorValid c.shared := by
  have hok : lastOfSix.Plays putcEvent putcGuard bothPrint := by decide +kernel
  have hrun : Interleaving PutcStep OneMover lastOfSix _ :=
    Interleaving.play putcEvent putcGuard putcGuard_step bothPrint .start hok
  have hscreen : OnScreen lastOfSix.shared := ⟨by decide, by decide, fun _ hi => absurd hi List.not_mem_nil⟩
  exact ⟨_, hrun, by decide +kernel, by decide +kernel, by decide +kernel, by decide +kernel, by decide +kernel,
    tty_race hscreen (fun _ => rfl) hrun⟩

def lastCell : Config Bool Tty PutcPc := ⟨{ bootTty with ttyX := 79, ttyY := 24 }, fun _ => .out⟩

theorem run_stmt {ok : ι → Config ι Tty PutcPc → Prop} (h : Interleaving PutcStep ok c₀ c) (i : ι) (hok : ok i c)
    (hout : c.loc i ≠ .out) :
    Interleaving PutcStep ok c₀ (c.put i (putcStmt (c.loc i) c.shared).1 (putcStmt (c.loc i) c.shared).2) :=
  Interleaving.step i h hok (.stmt hout)

/-- Two threads each print a character: the second is let in between `tty_x++` of the first and its
test, stores past the last cell, and takes `tty_x` past `tty_w`, where no test finds it. -/
theorem tty_race_off_screen : ∃ c : Config Bool Tty PutcPc, Interleaving PutcStep (fun _ _ => True) lastCell c ∧
    c.shared.ttyX = 81 ∧ c.shared.ttyW = 80 ∧ 2000 ∈ c.shared.accesses ∧ ¬ CursorValid c.shared := by
  have h : Interleaving PutcStep (fun _ _ => True) lastCell lastCell := .start
  have h := Interleaving.step true h trivial (.call 0x61)
  have h := Interleaving.step false h trivial (.call 0x62)
  have h := run_stmt h true trivial (by decide)
  have h := run_stmt h true trivial (by decide)
  have h := run_stmt h true trivial (by decide)
  have h := run_stmt h false trivial (by decide)
  have h := run_stmt h false trivial (by decide)
  have h := run_stmt h false trivial (by decide)
  refine ⟨_, h, by decide, by decide, by decide, fun hv => ?_⟩
  exact absurd hv.1.2 (by decide)

end LineOS
