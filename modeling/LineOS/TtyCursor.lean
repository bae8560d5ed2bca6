import LineOS.TtyBounds

/- The hardware cursor. The video card has an index port and a data port; a byte
   written to the data port goes to the register whose number was last written to
   the index port, and the registers 0x0E and 0x0F hold the number of the cell
   that shows the cursor. `hwCursor` reads them out of the port writes.

   The cells are counted row by row. `cellAfter` follows the cursor's cell through
   a run from the calls alone, and the console's column and row are always those of
   that cell (`CursorAt`). `tty_setcursor` gives the card 80 times the column plus
   the row, so the two cursors agree where this is the cell's number (`Aligned`). -/
namespace LineOS
open ByteMemory

/-! The card. -/

def crtcIndex : List (BitVec 16 × U8) → Option U8
  | [] => none
  | (port, v) :: out => if port = 0x3D4 then some v else crtcIndex out

/-- What was last written to the register `r`. -/
def crtcRegister (r : U8) : List (BitVec 16 × U8) → Option U8
  | [] => none
  | (port, v) :: out => if port = 0x3D5 ∧ crtcIndex out = some r then some v else crtcRegister r out

def hwCursor (s : Tty) : Option (BitVec 16) :=
  (crtcRegister 0x0E s.outports).bind fun high => (crtcRegister 0x0F s.outports).map fun low => high ++ low

theorem bytes_append (p : BitVec 16) :
    ((p >>> 8) &&& 0xFF).setWidth 8 ++ (p &&& 0xFF).setWidth 8 = p := by
  have hlow : ∀ n : Nat, n &&& BitVec.toNat (0xFF : BitVec 16) = n % 256 :=
    fun n => Nat.and_two_pow_sub_one_eq_mod n 8
  have hlt : p.toNat % 256 < 2 ^ 8 := Nat.mod_lt _ (by decide)
  have hp := p.isLt
  apply BitVec.eq_of_toNat_eq
  simp only [BitVec.toNat_append, BitVec.toNat_setWidth, BitVec.toNat_and, BitVec.toNat_ushiftRight,
    Nat.reducePow, hlow, Nat.mod_mod]
  rw [← Nat.shiftLeft_add_eq_or_of_lt hlt, Nat.shiftLeft_eq, Nat.shiftRight_eq_div_pow]
  omega

theorem hwCursor_setcursor (x y w h : Int) (s : Tty) :
    hwCursor (ttySetcursor x y w h s) = some (BitVec.ofInt 16 (x * 80 + y)) := by
  show some _ = _
  exact congrArg some (bytes_append _)

/-! Cells, of a screen `w` wide and `h` high. -/

/-- Where the cell `q` is once a row under the last one has scrolled up. -/
def scrollCell (w h q : Int) : Int := if w * h ≤ q then q - w else q

/-- The cell behind a character typed at cell `q`. -/
def putcCell (w h : Int) (q : Int) (c : U8) : Int :=
  scrollCell w h
    (if c = 0x0D then q - q % w
    else if c = 0x0A then q - q % w + w
    else if c = 8 then max 0 (q - 1)
    else if c.toInt < 0x20 then q
    else q + 1)

def TtyOp.cell (w h : Int) (q : Int) : TtyOp → Int
  | putc c => putcCell w h q c
  | write str => (str.takeWhile (· ≠ 0)).foldl (putcCell w h) q
  | cls => 0
  | setcolor _ => q
  | gotoxy x y => x % w + y % h * w

/-- The cursor's cell after a run from `tty_setup`. -/
def cellAfter (w h : Int) (ops : List TtyOp) : Int := ops.foldl (TtyOp.cell w h) 0

/-- What `tty_setcursor` computes from the column and the row is the number of the cell. -/
def Aligned (w q : Int) : Prop := (80 * (q % w) + q / w) % 65536 = q

instance (w q : Int) : Decidable (Aligned w q) := inferInstanceAs (Decidable (_ = _))

/-- Cell `q` is the cursor's, and its column and row are what the card was given. -/
structure CursorAt (w h q : Int) (s : Tty) : Prop extends OnScreen s where
  width : s.ttyW = w
  height : s.ttyH = h
  cell : s.ttyX + s.ttyY * s.ttyW = q
  shown : hwCursor s = some (BitVec.ofInt 16 (s.ttyX * 80 + s.ttyY))

section
variable {w h q : Int} {s : Tty}

theorem CursorAt.pos (hc : CursorAt w h q s) : 0 < w ∧ 0 < h := by
  have hcol := hc.col
  have hrow := hc.row
  rw [hc.width] at hcol
  rw [hc.height] at hrow
  omega

theorem CursorAt.bounds (hc : CursorAt w h q s) : 0 ≤ q ∧ q < w * h := by
  have hcell := cell_at hc.col hc.row
  unfold Cell at hcell
  rwa [hc.cell, hc.width, hc.height] at hcell

theorem cell_parts {x y w : Int} (hx : 0 ≤ x ∧ x < w) : (x + y * w) % w = x ∧ (x + y * w) / w = y := by
  have hw : w ≠ 0 := by omega
  constructor
  · rw [Int.add_mul_emod_self_right, Int.emod_eq_of_lt hx.1 hx.2]
  · rw [Int.add_mul_ediv_right _ _ hw, Int.ediv_eq_zero_of_lt hx.1 hx.2, Int.zero_add]

theorem CursorAt.parts (hc : CursorAt w h q s) : q % w = s.ttyX ∧ q / w = s.ttyY := by
  have hparts := cell_parts (y := s.ttyY) hc.col
  rwa [hc.cell, hc.width] at hparts

/-! The functions of the console. -/

theorem putcSwitch_cell (hon : OnScreen s) (c : U8) :
    scrollCell s.ttyW s.ttyH ((putcSwitch c s).ttyX + (putcSwitch c s).ttyY * s.ttyW) =
      putcCell s.ttyW s.ttyH (s.ttyX + s.ttyY * s.ttyW) c := by
  obtain ⟨hcol, -⟩ := cell_parts (y := s.ttyY) hon.col
  have hcell := (cell_at hon.col hon.row).1
  unfold putcCell
  rw [hcol]
  congr 1
  unfold putcSwitch
  by_cases hr : c = 0x0D
  · rw [if_pos hr, if_pos hr]
    show 0 + s.ttyY * s.ttyW = _
    omega
  rw [if_neg hr, if_neg hr]
  by_cases hn : c = 0x0A
  · rw [if_pos hn, if_pos hn]
    show 0 + (s.ttyY + 1) * s.ttyW = _
    rw [Int.add_mul]
    omega
  rw [if_neg hn, if_neg hn]
  by_cases h8 : c = 8
  · rw [if_pos h8, if_pos h8]
    -- column and row of the address before
    refine (Int.tmod_add_tdiv_mul _ _).trans ?_
    split <;> omega
  rw [if_neg h8, if_neg h8]
  by_cases hl : c.toInt < 0x20
  · rw [if_pos hl, if_pos hl]
  · rw [if_neg hl, if_neg hl]
    dsimp only
    split
    · next he =>
      have he : s.ttyX + 1 = s.ttyW := he
      show 0 + (s.ttyY + 1) * s.ttyW = _
      rw [Int.add_mul]
      omega
    · show s.ttyX + 1 + s.ttyY * s.ttyW = _
      omega

theorem putcScroll_cell (hx : 0 ≤ s.ttyX ∧ s.ttyX < s.ttyW) (hh : 0 < s.ttyH) (hy : 0 ≤ s.ttyY ∧ s.ttyY ≤ s.ttyH) :
    (putcScroll s).ttyX + (putcScroll s).ttyY * s.ttyW = scrollCell s.ttyW s.ttyH (s.ttyX + s.ttyY * s.ttyW) := by
  unfold putcScroll scrollCell
  by_cases he : s.ttyY = s.ttyH
  · obtain ⟨-, hsx, hsy⟩ := sameScreen_scrollup (s := s) (by omega) hh
    rw [if_pos he]
    show (ttyScrollup s).ttyX + ((ttyScrollup s).ttyY - 1) * s.ttyW = _
    rw [hsx, hsy, he, Int.sub_mul, Int.mul_comm s.ttyH, if_pos (by omega)]
    omega
  · have hcell := (cell_at hx (⟨hy.1, by omega⟩ : 0 ≤ s.ttyY ∧ s.ttyY < s.ttyH)).2
    rw [if_neg he, if_neg (by omega)]

/-- `tty_putc` ends with the cursor where `tty_setcursor` put it. -/
theorem putc_cursor (c : U8) (s : Tty) : (ttyPutc c s).ttyX = (putcScroll (putcSwitch c s)).ttyX ∧
    (ttyPutc c s).ttyY = (putcScroll (putcSwitch c s)).ttyY ∧
    hwCursor (ttyPutc c s) = some (BitVec.ofInt 16 ((ttyPutc c s).ttyX * 80 + (ttyPutc c s).ttyY)) := by
  unfold ttyPutc
  generalize putcScroll (putcSwitch c s) = u
  exact ⟨rfl, rfl, hwCursor_setcursor _ _ u.ttyW u.ttyH u⟩

theorem CursorAt.putc (hc : CursorAt w h q s) (c : U8) : CursorAt w h (putcCell w h q c) (ttyPutc c s) := by
  obtain ⟨hsame, hon⟩ := keeps_putc hc.toOnScreen c
  obtain ⟨hs, hx, hy⟩ := putcSwitch_bounds hc.toOnScreen c
  obtain ⟨hpx, hpy, hshown⟩ := putc_cursor c s
  have hh := hc.pos.2
  rw [← hc.height, ← hs.height] at hh
  rw [← hs.width] at hx
  rw [← hs.height] at hy
  have hscroll := putcScroll_cell hx hh hy
  rw [hs.width, hs.height] at hscroll
  have hcell : (ttyPutc c s).ttyX + (ttyPutc c s).ttyY * s.ttyW = putcCell w h q c :=
    calc (ttyPutc c s).ttyX + (ttyPutc c s).ttyY * s.ttyW
        = (putcScroll (putcSwitch c s)).ttyX + (putcScroll (putcSwitch c s)).ttyY * s.ttyW := by rw [hpx, hpy]
      _ = scrollCell s.ttyW s.ttyH ((putcSwitch c s).ttyX + (putcSwitch c s).ttyY * s.ttyW) := hscroll
      _ = putcCell s.ttyW s.ttyH (s.ttyX + s.ttyY * s.ttyW) c := putcSwitch_cell hc.toOnScreen c
      _ = putcCell w h q c := by rw [hc.cell, hc.width, hc.height]
  exact ⟨hon, hsame.width.trans hc.width, hsame.height.trans hc.height, hsame.width.symm ▸ hcell, hshown⟩

theorem CursorAt.putcs (hc : CursorAt w h q s) (str : List U8) :
    CursorAt w h (str.foldl (putcCell w h) q) (str.foldl (fun s c => ttyPutc c s) s) := by
  induction str generalizing q s with
  | nil => exact hc
  | cons c str ih => exact ih (hc.putc c)

theorem cls_cursorAt (hw : 0 < w) (hh : 0 < h) (hsw : s.ttyW = w) (hsh : s.ttyH = h)
    (hs : ∀ i ∈ s.accesses, Cell s i) : CursorAt w h 0 (ttyCls s) := by
  subst hsw hsh
  obtain ⟨hsame, hon⟩ := keeps_cls hw hh hs
  refine ⟨hon, hsame.width, hsame.height, ?_, hwCursor_setcursor 0 0 s.ttyW s.ttyH _⟩
  show 0 + 0 * _ = _
  omega

/-- C's remainder where it is that of the integers. -/
theorem tmod_eq_emod {x w : Int} (hx : 0 ≤ x ∨ w ∣ x) : x.tmod w = x % w := by
  rcases hx with hx | hx
  · exact Int.tmod_eq_emod_of_nonneg hx
  · rw [Int.tmod_eq_zero_of_dvd hx, Int.emod_eq_zero_of_dvd hx]

theorem CursorAt.step (hc : CursorAt w h q s) {op : TtyOp} (hin : op.InRange w h) :
    CursorAt w h (op.cell w h q) (op.run s) := by
  cases op with
  | putc c => exact hc.putc c
  | write str =>
    rw [TtyOp.run, ttyWrite_eq]
    exact hc.putcs _
  | cls => exact cls_cursorAt hc.pos.1 hc.pos.2 hc.width hc.height hc.cells
  | setcolor color => exact ⟨⟨hc.col, hc.row, hc.cells⟩, hc.width, hc.height, hc.cell, hc.shown⟩
  | gotoxy x y =>
    have hin' : (TtyOp.gotoxy x y).InRange s.ttyW s.ttyH := by rwa [hc.width, hc.height]
    obtain ⟨-, hon⟩ := keeps_run hc.toOnScreen (.gotoxy x y)
    refine ⟨hon.2 hin', hc.width, hc.height, ?_, hwCursor_setcursor _ _ w h _⟩
    show x.tmod s.ttyW + y.tmod s.ttyH * s.ttyW = _
    rw [hc.width, hc.height, tmod_eq_emod hin.1, tmod_eq_emod hin.2]
    rfl

theorem CursorAt.run (hc : CursorAt w h q s) {ops : List TtyOp} (hin : ∀ op ∈ ops, op.InRange w h) :
    CursorAt w h (ops.foldl (TtyOp.cell w h) q) (ops.foldl TtyOp.run s) := by
  induction ops generalizing q s with
  | nil => exact hc
  | cons op ops ih =>
    apply ih (hc.step (hin op List.mem_cons_self))
    intro o ho
    exact hin o (List.mem_cons_of_mem _ ho)

theorem setup_cursorAt (hw : 1 ≤ w) (hh : 1 ≤ h) (screen : Int → BitVec 16) (s : Tty) :
    CursorAt w h 0 (ttySetup w h screen s) :=
  cls_cursorAt hw hh rfl rfl fun _ hi => absurd hi List.not_mem_nil

/-! The two cursors. -/

theorem ofInt_eq_iff (a b : Int) : BitVec.ofInt 16 a = BitVec.ofInt 16 b ↔ a % 65536 = b % 65536 := by
  constructor
  · intro h
    have h := congrArg BitVec.toNat h
    rw [BitVec.toNat_ofInt, BitVec.toNat_ofInt] at h
    omega
  · intro h
    apply BitVec.eq_of_toNat_eq
    rw [BitVec.toNat_ofInt, BitVec.toNat_ofInt]
    omega

/-- The position in the registers is that of the cursor's cell. -/
def Follows (s : Tty) : Prop := hwCursor s = some (BitVec.ofInt 16 (s.ttyX + s.ttyY * s.ttyW))

theorem CursorAt.follows_iff (hc : CursorAt w h q s) (hsize : w * h ≤ 65536) : Follows s ↔ Aligned w q := by
  obtain ⟨hcol, hrow⟩ := hc.parts
  obtain ⟨h0, hlt⟩ := hc.bounds
  have hq : q % 65536 = q := Int.emod_eq_of_lt h0 (by omega)
  rw [Follows, hc.shown, hc.cell, Option.some_inj, ofInt_eq_iff, hq, Aligned, hcol, hrow, Int.mul_comm s.ttyX]

/-- `q` is where the next printable character goes. -/
structure NextCell (q : Int) (s : Tty) : Prop where
  cell : s.ttyX + s.ttyY * s.ttyW = q
  stored : ∀ c : U8, 0x20 ≤ c.toInt → (putcSwitch c s).ttyScr q = ttyCell c s.ttyColor ∧
    (putcSwitch c s).accesses = q :: s.accesses

theorem CursorAt.nextCell (hc : CursorAt w h q s) : NextCell q s := by
  refine ⟨hc.cell, fun c hprint => ?_⟩
  have hne : ∀ b : U8, b.toInt < 0x20 → c ≠ b := by
    rintro b hb rfl
    omega
  have hr := hne 0x0D (by decide)
  have hn := hne 0x0A (by decide)
  have h8 := hne 8 (by decide)
  rw [putcSwitch, if_neg hr, if_neg hn, if_neg h8, if_neg (by omega)]
  dsimp only
  rw [← hc.cell]
  split <;> exact ⟨if_pos rfl, rfl⟩

theorem aligned_diagonal (h0 : 0 ≤ q) (hlt : q < 65536) : Aligned 80 q ↔ q % 80 = q / 80 := by
  unfold Aligned
  omega

end

/-- **The hardware cursor follows the software cursor** in every state of a run from `tty_setup` just if in each
the cell the calls lead to is one whose number `tty_setcursor` computes. -/
theorem tty_cursor_iff {w h : Int} (hw : 1 ≤ w) (hh : 1 ≤ h) (hsize : w * h ≤ 65536) (screen : Int → BitVec 16) (s : Tty)
    (ops : List TtyOp) (hin : ∀ op ∈ ops, op.InRange w h) :
    (∀ pre, pre <+: ops → NextCell (cellAfter w h pre) (pre.foldl TtyOp.run (ttySetup w h screen s))) ∧
    ((∀ pre, pre <+: ops → Follows (pre.foldl TtyOp.run (ttySetup w h screen s))) ↔
      ∀ pre, pre <+: ops → Aligned w (cellAfter w h pre)) := by
  have hc : ∀ pre, pre <+: ops → CursorAt w h (cellAfter w h pre) (pre.foldl TtyOp.run (ttySetup w h screen s)) :=
    fun pre hp => (setup_cursorAt hw hh screen s).run fun op ho => hin op (hp.subset ho)
  refine ⟨fun pre hp => (hc pre hp).nextCell, ?_⟩
  exact forall₂_congr fun pre hp => (hc pre hp).follows_iff hsize

/-- Down the diagonal, and home again. -/
def diagonalOps : List TtyOp := [.gotoxy 3 3, .gotoxy 24 24, .cls]

/-- One character off it. -/
def offOps : List TtyOp := [.gotoxy 3 3, .putc 0x61]

/-- On the diagonal the two cursors agree all the time; they part when a character is written. -/
theorem tty_cursor_sample :
    NextCell 1944 ((diagonalOps.take 2).foldl TtyOp.run (ttySetup 80 25 (fun _ => 0) bootTty)) ∧
    (∀ pre, pre <+: diagonalOps → Follows (pre.foldl TtyOp.run (ttySetup 80 25 (fun _ => 0) bootTty))) ∧
    NextCell 244 (offOps.foldl TtyOp.run (ttySetup 80 25 (fun _ => 0) bootTty)) ∧
    ¬ ∀ pre, pre <+: offOps → Follows (pre.foldl TtyOp.run (ttySetup 80 25 (fun _ => 0) bootTty)) := by
  have hin : ∀ op ∈ diagonalOps, op.InRange 80 25 := by simp [diagonalOps, TtyOp.InRange]
  have hin' : ∀ op ∈ offOps, op.InRange 80 25 := by simp [offOps, TtyOp.InRange]
  obtain ⟨hnext, hiff⟩ := tty_cursor_iff (by decide) (by decide) (by decide) (fun _ => 0) bootTty diagonalOps hin
  obtain ⟨hnext', hiff'⟩ := tty_cursor_iff (by decide) (by decide) (by decide) (fun _ => 0) bootTty offOps hin'
  refine ⟨hnext _ (List.take_prefix 2 diagonalOps), hiff.mpr fun pre hp => ?_, hnext' _ List.prefix_rfl,
    fun hall => absurd (hiff'.mp hall offOps List.prefix_rfl) (by unfold Aligned; decide)⟩
  simp only [diagonalOps, List.prefix_cons_iff, List.prefix_nil] at hp
  rcases hp with rfl | ⟨_, rfl, rfl | ⟨_, rfl, rfl | ⟨_, rfl, rfl⟩⟩⟩ <;> decide

/-- One character at the home position: the card is given cell 80, below it, instead of cell 1. -/
theorem tty_cursor_transposed :
    let s := (TtyOp.putc 0x61).run (ttySetup 80 25 (fun _ => 0) bootTty)
    s.ttyX + s.ttyY * s.ttyW = 1 ∧ hwCursor s = some 80 ∧ ¬ Follows s := by
  have hc : CursorAt 80 25 1 ((TtyOp.putc 0x61).run (ttySetup 80 25 (fun _ => 0) bootTty)) :=
    (setup_cursorAt (by decide) (by decide) (fun _ => 0) bootTty).putc 0x61
  obtain ⟨hcol, hrow⟩ := hc.parts
  intro s
  refine ⟨hc.cell, ?_, fun hf => ?_⟩
  · rw [hc.shown, ← hcol, ← hrow]
    rfl
  · exact absurd ((hc.follows_iff (by decide)).1 hf) (by decide)

end LineOS
