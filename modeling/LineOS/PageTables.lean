import LineOS.Paging

/- What the page table code does to translation. Through the directory's entry for
   itself, `pd[index]` reaches exactly the word of the table the index names
   (`getPageTableEntry_eq` and its three siblings), so `__map_page` is a few
   stores to physical words (`mapPage_eq`). Over that, an address space is a
   function from page numbers to frames, and `__map_page` updates it at one
   point or leaves it (`mapPage_refines`). -/
namespace LineOS
open ByteMemory

/-! Indices in an address. -/

def pdeOf (v : U32) : Nat := v.toNat / 4194304
def pteOf (v : U32) : Nat := v.toNat / 4096 % 1024

theorem pdeOf_lt (v : U32) : pdeOf v < 1024 := by unfold pdeOf; omega

theorem pteOf_lt (v : U32) : pteOf v < 1024 := by unfold pteOf; omega

theorem and_0x3FF (x : U32) : (x &&& 0x3FF).toNat = x.toNat % 1024 := by
  rw [BitVec.toNat_and]
  exact Nat.and_two_pow_sub_one_eq_mod x.toNat 10

theorem vaddrPde_toNat (v : U32) : (vaddrPde v).toNat = pdeOf v := by
  rw [vaddrPde, and_0x3FF, BitVec.toNat_ushiftRight, Nat.shiftRight_eq_div_pow, pdeOf]
  omega

theorem vaddrPte_toNat (v : U32) : (vaddrPte v).toNat = pteOf v := by
  rw [vaddrPte, and_0x3FF, BitVec.toNat_ushiftRight, Nat.shiftRight_eq_div_pow, pteOf]

theorem pteAddr_toNat (v : U32) : (pteAddr v).toNat = 4290772992 + 4096 * pdeOf v + 4 * pteOf v := by
  have h₁ := vaddrPde_toNat v
  have h₂ := vaddrPte_toNat v
  have h₃ := pdeOf_lt v
  have h₄ := pteOf_lt v
  have h₅ : vaddrBase 1023 = 4290772992 := by decide
  unfold pteAddr pdAddr getPe
  rw [h₅]
  bv_omega

theorem pdeAddr_toNat (v : U32) : (pdeAddr v).toNat = 4290772992 + 4096 * 1023 + 4 * pdeOf v := by
  have h₁ := vaddrPde_toNat v
  have h₃ := pdeOf_lt v
  have h₅ : vaddrBase 1023 = 4290772992 := by decide
  unfold pdeAddr pdAddr getPe
  rw [h₅]
  bv_omega

theorem tableAddr_toNat (v : U32) :
    (vaddrFromIndex 1023 (vaddrPde v)).toNat = 4290772992 + 4096 * pdeOf v := by
  have h₁ := vaddrPde_toNat v
  have h₃ := pdeOf_lt v
  unfold vaddrFromIndex
  bv_omega

/-! Entries made from a frame's address. -/

theorem frameOf_or (p w : U32) (hw : w.toNat < 4096) : frameOf (p ||| w) = p.toNat / 4096 := by
  have h : (p ||| w) >>> 12 = p >>> 12 := by
    have hw0 : w >>> 12 = 0 := by bv_omega
    rw [BitVec.ushiftRight_or_distrib, hw0]
    simp
  have h' := congrArg BitVec.toNat h
  rwa [BitVec.toNat_ushiftRight, BitVec.toNat_ushiftRight, Nat.shiftRight_eq_div_pow,
    Nat.shiftRight_eq_div_pow] at h'

theorem present_or (p : U32) : present (p ||| pPresent) = true := by
  have h : (p ||| pPresent) &&& pPresent = 1 := by
    unfold pPresent
    ext i hi
    simp
    grind
  rw [present, h]
  rfl

/-! The directory. -/

/-- The directory maps itself at its last entry. -/
structure SelfMapped (m : Machine) : Prop where
  self : present (m.dir 1023) = true
  selfFrame : frameOf (m.dir 1023) = m.cr3

/-- Moreover an entry is zero or present, and present entries point to different
frames. -/
structure DirOk (m : Machine) : Prop extends SelfMapped m where
  entry : ∀ i < 1024, m.dir i = 0 ∨ present (m.dir i) = true
  distinct : ∀ i < 1024, ∀ j < 1024, present (m.dir i) = true → present (m.dir j) = true →
    frameOf (m.dir i) = frameOf (m.dir j) → i = j

/-- The page table entry of `v`, in the table its directory entry points to. -/
def Machine.entry (m : Machine) (v : U32) : U32 := m.phys (frameOf (m.dir (pdeOf v))) (pteOf v)

section
variable {m : Machine} {v : U32}

theorem present_zero : present 0 = false := by decide

theorem DirOk.table_ne (h : DirOk m) {i : Nat} (hi : i < 1024) (hne : i ≠ 1023) (hp : present (m.dir i) = true) :
    frameOf (m.dir i) ≠ m.cr3 := by
  intro e
  exact hne (h.distinct i hi 1023 (by omega) hp h.self (e.trans h.selfFrame.symm))

/-! Access through the window. -/

theorem walk_window (h : SelfMapped m) {i : Nat} (hi : i < 1024) (hp : present (m.dir i) = true) :
    m.walk (1047552 + i) = some (frameOf (m.dir i)) := by
  have h₁ : (1047552 + i) / 1024 = 1023 := by omega
  have h₂ : (1047552 + i) % 1024 = i := by omega
  have h₃ : m.phys m.cr3 i = m.dir i := rfl
  simp only [Machine.walk, h₁, h₂, h.self, h.selfFrame, h₃, hp, if_true]

theorem window_parts {a i j : Nat} (_hi : i < 1024) (hj : j < 1024)
    (ha : a = 4290772992 + 4096 * i + 4 * j) : a / 4096 = 1047552 + i ∧ a % 4096 / 4 = j := by
  omega

theorem load_window (h : SelfMapped m) {a : U32} {i j : Nat} (hi : i < 1024) (hj : j < 1024)
    (ha : a.toNat = 4290772992 + 4096 * i + 4 * j) (hp : present (m.dir i) = true) :
    m.load a = some (m.phys (frameOf (m.dir i)) j) := by
  obtain ⟨h₁, h₂⟩ := window_parts hi hj ha
  rw [Machine.load, h₁, h₂, walk_window h hi hp, Option.map_some]

theorem store_window (h : SelfMapped m) {a : U32} {i j : Nat} (w : U32) (hi : i < 1024) (hj : j < 1024)
    (ha : a.toNat = 4290772992 + 4096 * i + 4 * j) (hp : present (m.dir i) = true) :
    m.store a w = some (m.setWord (frameOf (m.dir i)) j w) := by
  obtain ⟨h₁, h₂⟩ := window_parts hi hj ha
  rw [Machine.store, h₁, h₂, walk_window h hi hp, Option.map_some]

theorem getPageDirectoryEntry_eq (h : SelfMapped m) (v : U32) :
    getPageDirectoryEntry v m = some (m.dir (pdeOf v)) := by
  rw [getPageDirectoryEntry, load_window h (by omega) (pdeOf_lt v) (pdeAddr_toNat v) h.self, h.selfFrame]
  rfl

theorem setPageDirectoryEntry_eq (h : SelfMapped m) (v e : U32) :
    setPageDirectoryEntry v e m = some (m.setWord m.cr3 (pdeOf v) e) := by
  rw [setPageDirectoryEntry, store_window h e (by omega) (pdeOf_lt v) (pdeAddr_toNat v) h.self, h.selfFrame]

theorem getPageTableEntry_eq (h : SelfMapped m) (hp : present (m.dir (pdeOf v)) = true) :
    getPageTableEntry v m = some (m.entry v) :=
  load_window h (pdeOf_lt v) (pteOf_lt v) (pteAddr_toNat v) hp

theorem setPageTableEntry_eq (h : SelfMapped m) (e : U32) (hp : present (m.dir (pdeOf v)) = true) :
    setPageTableEntry v e m = some (m.setWord (frameOf (m.dir (pdeOf v))) (pteOf v) e) :=
  store_window h e (pdeOf_lt v) (pteOf_lt v) (pteAddr_toNat v) hp

/-! Changing an entry of a table. -/

theorem dir_setWord_off {f : Nat} (hf : f ≠ m.cr3) (j : Nat) (w : U32) (i : Nat) :
    (m.setWord f j w).dir i = m.dir i := by
  show (if m.cr3 = f ∧ i = j then w else m.phys m.cr3 i) = _
  rw [if_neg (fun h => hf h.1.symm)]
  rfl

theorem SelfMapped.congr {m' : Machine} (h : SelfMapped m) (hc : m'.cr3 = m.cr3)
    (hd : m'.dir 1023 = m.dir 1023) : SelfMapped m' :=
  ⟨by rw [hd]; exact h.self, by rw [hd, hc]; exact h.selfFrame⟩

theorem DirOk.congr {m' : Machine} (h : DirOk m) (hc : m'.cr3 = m.cr3) (hd : ∀ i < 1024, m'.dir i = m.dir i) :
    DirOk m' := by
  refine ⟨h.toSelfMapped.congr hc (hd 1023 (by omega)), ?_, ?_⟩
  · intro i hi
    rw [hd i hi]
    exact h.entry i hi
  · intro i hi j hj
    rw [hd i hi, hd j hj]
    exact h.distinct i hi j hj

/-! Page table entries by page number. -/

/-- The page table entry of a page, 0 where there is no table. -/
def Machine.pte (m : Machine) (page : Nat) : U32 :=
  if present (m.dir (page / 1024)) then m.phys (frameOf (m.dir (page / 1024))) (page % 1024) else 0

theorem walk_eq (m : Machine) (page : Nat) :
    m.walk page = if present (m.pte page) then some (frameOf (m.pte page)) else none := by
  by_cases hp : present (m.dir (page / 1024)) = true
  · simp only [Machine.walk, Machine.pte, hp, if_true]
  · simp only [Machine.walk, Machine.pte, hp, if_false, present_zero, Bool.false_eq_true]

theorem pte_setEntry (h : DirOk m) (hv : pdeOf v ≠ 1023) (hp : present (m.dir (pdeOf v)) = true) (e : U32)
    {page : Nat} (hpg : page < 1048576) :
    (m.setWord (frameOf (m.dir (pdeOf v))) (pteOf v) e).pte page =
      if page = v.toNat / 4096 then e else m.pte page := by
  have hd := dir_setWord_off (h.table_ne (pdeOf_lt v) hv hp) (pteOf v) e
  have hparts : page = v.toNat / 4096 ↔ page / 1024 = pdeOf v ∧ page % 1024 = pteOf v := by
    have hlt := v.isLt
    unfold pdeOf pteOf
    omega
  simp only [Machine.pte, hd, hparts]
  by_cases hpp : present (m.dir (page / 1024)) = true
  · rw [if_pos hpp, if_pos hpp]
    by_cases hsame : page / 1024 = pdeOf v ∧ page % 1024 = pteOf v
    · simp [Machine.setWord, hsame]
    · have hne : ¬ (frameOf (m.dir (page / 1024)) = frameOf (m.dir (pdeOf v)) ∧ page % 1024 = pteOf v) :=
        fun hc => hsame ⟨h.distinct _ (by omega) _ (pdeOf_lt v) hpp hp hc.1, hc.2⟩
      rw [if_neg hsame]
      simp [Machine.setWord, hne]
  · have hne : ¬ (page / 1024 = pdeOf v ∧ page % 1024 = pteOf v) := fun hc => hpp (hc.1 ▸ hp)
    rw [if_neg hpp, if_neg hpp, if_neg hne]

theorem walk_setEntry (h : DirOk m) (hv : pdeOf v ≠ 1023) (hp : present (m.dir (pdeOf v)) = true) (e : U32)
    {page : Nat} (hpg : page < 1048576) :
    (m.setWord (frameOf (m.dir (pdeOf v))) (pteOf v) e).walk page =
      if page = v.toNat / 4096 then (if present e then some (frameOf e) else none) else m.walk page := by
  rw [walk_eq, walk_eq, pte_setEntry h hv hp e hpg]
  split <;> rfl

/-! Making a page table. -/

/-- The machine with the words `[i, i + n)` of a frame cleared. -/
def Machine.clearWords (m : Machine) (f i n : Nat) : Machine :=
  { m with phys := fun f' j => if f' = f ∧ i ≤ j ∧ j < i + n then 0 else m.phys f' j }

theorem clearWords_cons (m : Machine) (f i n : Nat) :
    (m.setWord f i 0).clearWords f (i + 1) n = m.clearWords f i (n + 1) := by
  have hphys : ∀ f' j, ((m.setWord f i 0).clearWords f (i + 1) n).phys f' j =
      (m.clearWords f i (n + 1)).phys f' j := by
    intro f' j
    simp only [Machine.clearWords, Machine.setWord]
    by_cases hf : f' = f
    · by_cases hj : j = i
      · simp [hf, hj]
      · have h : (i + 1 ≤ j ∧ j < i + 1 + n) ↔ (i ≤ j ∧ j < i + (n + 1)) := by omega
        have he : ¬ (f' = f ∧ j = i) := fun h => hj h.2
        simp only [h, if_neg he]
    · simp [hf]
  have he := funext fun f' => funext fun j => hphys f' j
  exact congrArg (fun phys => { m with phys := phys }) he

/-- The zeroing loop clears the table's words: writing them leaves the directory,
so the window stays put. -/
theorem zeroWords_eq {d : Nat} (hd : d < 1024) : ∀ (n i : Nat) {a : U32} {m : Machine}, SelfMapped m →
    present (m.dir d) = true → frameOf (m.dir d) ≠ m.cr3 → a.toNat = 4290772992 + 4096 * d + 4 * i →
    i + n ≤ 1024 → zeroWords n a m = some (m.clearWords (frameOf (m.dir d)) i n)
  | 0, i, a, m, _, _, _, _, _ => by
    have hno : ∀ f j, ¬ (f = frameOf (m.dir d) ∧ i ≤ j ∧ j < i + 0) := fun f j h => by omega
    simp only [zeroWords, Machine.clearWords, hno, if_false]
  | n + 1, i, a, m, h, hp, ht, ha, hle => by
    have hdir := dir_setWord_off ht i 0
    have hok : SelfMapped (m.setWord (frameOf (m.dir d)) i 0) := h.congr rfl (hdir 1023)
    have hd1023 : d ≠ 1023 := fun e => ht (by rw [e]; exact h.selfFrame)
    have ih := zeroWords_eq hd n (i + 1) hok (by rw [hdir]; exact hp) (by rw [hdir]; exact ht)
      (show (a + 4).toNat = 4290772992 + 4096 * d + 4 * (i + 1) by bv_omega) (by omega)
    rw [zeroWords, store_window h 0 hd (by omega) ha hp, Option.bind_some, ih, hdir, clearWords_cons]

/-- The machine with a zeroed table in frame `t`, linked at directory entry `d`. -/
def Machine.linkTable (m : Machine) (d t : Nat) (e : U32) : Machine :=
  (m.setWord m.cr3 d e).clearWords t 0 1024

/-- The machine in which `v` has a page table: a new one if there was none. -/
def Machine.withTable (m : Machine) (v : U32) : Machine :=
  if m.dir (pdeOf v) = 0 then
    let (pt, sys) := allocPages 1 zoneNormal m.sys
    let sys := if pt = 0 then sys.panic "Unable to alloc_pages while mapping page!\n" else sys
    { m.linkTable (pdeOf v) (pt.toNat / 4096) (pt ||| pPresent ||| pWrite) with sys := sys }
  else m

section
variable {d t : Nat} {e : U32}

theorem setDir_dir (i : Nat) : (m.setWord m.cr3 d e).dir i = if i = d then e else m.dir i := by
  simp [Machine.dir, Machine.setWord]

theorem linkTable_dir (ht : t ≠ m.cr3) (i : Nat) :
    (m.linkTable d t e).dir i = if i = d then e else m.dir i := by
  rw [← setDir_dir]
  simp only [Machine.dir, Machine.linkTable, Machine.clearWords]
  exact if_neg (fun h => ht h.1.symm)

theorem setDir_self (h : SelfMapped m) (hd : d ≠ 1023) : SelfMapped (m.setWord m.cr3 d e) :=
  h.congr rfl (by rw [setDir_dir, if_neg hd.symm])

theorem setDir_ok (h : DirOk m) (hd : d ≠ 1023) (hp : present e = true)
    (ht : ∀ i < 1024, present (m.dir i) = true → frameOf (m.dir i) ≠ frameOf e) :
    DirOk (m.setWord m.cr3 d e) := by
  refine ⟨setDir_self h.toSelfMapped hd, ?_, ?_⟩
  · intro i hi
    rw [setDir_dir]
    split
    · exact Or.inr hp
    · exact h.entry i hi
  · intro i hi j hj
    rw [setDir_dir, setDir_dir]
    by_cases hid : i = d <;> by_cases hjd : j = d
    · intros
      rw [hid, hjd]
    · rw [if_pos hid, if_neg hjd]
      exact fun _ hpj hf => absurd hf.symm (ht j hj hpj)
    · rw [if_neg hid, if_pos hjd]
      exact fun hpi _ hf => absurd hf (ht i hi hpi)
    · rw [if_neg hid, if_neg hjd]
      exact h.distinct i hi j hj

theorem frame_ne_cr3 (h : DirOk m) (ht : ∀ i < 1024, present (m.dir i) = true → frameOf (m.dir i) ≠ t) :
    t ≠ m.cr3 :=
  fun hc => ht 1023 (by omega) h.self (h.selfFrame.trans hc.symm)

theorem linkTable_pte (h : DirOk m) (hz : m.dir d = 0) (he : frameOf e = t)
    (ht : ∀ i < 1024, present (m.dir i) = true → frameOf (m.dir i) ≠ t)
    {page : Nat} (hpg : page / 1024 < 1023) : (m.linkTable d t e).pte page = m.pte page := by
  have htc := frame_ne_cr3 h ht
  have hclear : ∀ f j, (m.linkTable d t e).phys f j =
      if f = t ∧ j < 1024 then 0 else if f = m.cr3 ∧ j = d then e else m.phys f j := by
    intro f j
    simp [Machine.linkTable, Machine.clearWords, Machine.setWord]
  simp only [Machine.pte, linkTable_dir htc, hclear]
  by_cases hpd : page / 1024 = d
  · have hnone : present (m.dir (page / 1024)) = false := by rw [hpd, hz]; exact present_zero
    have hlt : page % 1024 < 1024 := by omega
    simp only [hpd, he, hlt, and_self, if_true, ite_self]
    rw [← hpd, hnone]
    simp
  · rw [if_neg hpd]
    by_cases hp : present (m.dir (page / 1024)) = true
    · have h₁ := ht _ (by omega) hp
      have h₂ := h.table_ne (by omega) (by omega) hp
      simp [hp, h₁, h₂]
    · simp [hp]

end

def newFrame (m : Machine) : Nat := (allocPages 1 zoneNormal m.sys).1.toNat / 4096

/-- No table lies in the frame a new one would take. -/
def Spare (m : Machine) (v : U32) : Prop := m.dir (pdeOf v) = 0 → ∀ i < 1024, present (m.dir i) = true →
  frameOf (m.dir i) ≠ newFrame m

theorem newEntry (pt : U32) : present (pt ||| pPresent ||| pWrite) = true ∧
    frameOf (pt ||| pPresent ||| pWrite) = pt.toNat / 4096 := by
  refine ⟨?_, ?_⟩
  · rw [BitVec.or_assoc, BitVec.or_comm pPresent pWrite, ← BitVec.or_assoc]
    exact present_or _
  · rw [BitVec.or_assoc]
    exact frameOf_or _ _ (by decide)

theorem withTable_set (hz : m.dir (pdeOf v) ≠ 0) : m.withTable v = m := by
  rw [Machine.withTable, if_neg hz]

/-- The directory once `v` has its table, made if need be in a frame other than
the directory's own. -/
theorem withTable_dir (ht : m.dir (pdeOf v) = 0 → newFrame m ≠ m.cr3) (i : Nat) :
    (m.withTable v).dir i = if i = pdeOf v ∧ m.dir (pdeOf v) = 0 then
      (allocPages 1 zoneNormal m.sys).1 ||| pPresent ||| pWrite else m.dir i := by
  by_cases hz : m.dir (pdeOf v) = 0
  · rw [Machine.withTable, if_pos hz]
    exact (linkTable_dir (ht hz) i).trans (by simp [hz])
  · rw [withTable_set hz, if_neg (fun h => hz h.2)]

/-- The table of `v` is there, and if it is new its entries are clear. -/
theorem withTable_table (he : m.dir (pdeOf v) = 0 ∨ present (m.dir (pdeOf v)) = true)
    (ht : m.dir (pdeOf v) = 0 → newFrame m ≠ m.cr3) :
    present ((m.withTable v).dir (pdeOf v)) = true ∧ (m.dir (pdeOf v) = 0 → (m.withTable v).entry v = 0) := by
  by_cases hz : m.dir (pdeOf v) = 0
  · obtain ⟨hpr, hfr⟩ := newEntry (allocPages 1 zoneNormal m.sys).1
    have hdir : (m.withTable v).dir (pdeOf v) = (allocPages 1 zoneNormal m.sys).1 ||| pPresent ||| pWrite := by
      rw [withTable_dir ht, if_pos ⟨rfl, hz⟩]
    refine ⟨by rw [hdir]; exact hpr, fun _ => ?_⟩
    rw [Machine.entry, hdir, hfr, Machine.withTable, if_pos hz]
    have hlt := pteOf_lt v
    simp [Machine.linkTable, Machine.clearWords, hlt]
  · rw [withTable_set hz]
    exact ⟨he.resolve_left hz, fun hc => absurd hc hz⟩

theorem SelfMapped.ne (h : SelfMapped m) {i : Nat} (hz : m.dir i = 0) : i ≠ 1023 := by
  rintro rfl
  have hp := h.self
  rw [hz] at hp
  cases hp

theorem withTable_self (h : SelfMapped m) (ht : m.dir (pdeOf v) = 0 → newFrame m ≠ m.cr3) :
    SelfMapped (m.withTable v) := by
  have hcr : (m.withTable v).cr3 = m.cr3 := by
    unfold Machine.withTable
    split <;> rfl
  exact h.congr hcr (by rw [withTable_dir ht, if_neg (fun hc => h.ne hc.2 hc.1.symm)])

theorem Spare.ne (h : DirOk m) (hs : Spare m v) : m.dir (pdeOf v) = 0 → newFrame m ≠ m.cr3 :=
  fun hz => frame_ne_cr3 h (hs hz)

theorem withTable_ok (h : DirOk m) (hs : Spare m v) : DirOk (m.withTable v) := by
  by_cases hz : m.dir (pdeOf v) = 0
  · obtain ⟨hpr, hfr⟩ := newEntry (allocPages 1 zoneNormal m.sys).1
    have hok := setDir_ok h (h.ne hz) hpr (fun i hi hp => by rw [hfr]; exact hs hz i hi hp)
    refine hok.congr (by rw [Machine.withTable, if_pos hz]; rfl) (fun i _ => ?_)
    rw [withTable_dir (hs.ne h), setDir_dir]
    simp [hz]
  · rw [withTable_set hz]
    exact h

theorem withTable_pte (h : DirOk m) (hs : Spare m v) {page : Nat} (hpg : page / 1024 < 1023) :
    (m.withTable v).pte page = m.pte page := by
  by_cases hz : m.dir (pdeOf v) = 0
  · rw [Machine.withTable, if_pos hz]
    exact linkTable_pte h hz (newEntry _).2 (hs hz) hpg
  · rw [withTable_set hz]

theorem withTable_walk (h : DirOk m) (hs : Spare m v) {page : Nat} (hpg : page / 1024 < 1023) :
    (m.withTable v).walk page = m.walk page := by
  rw [walk_eq, walk_eq, withTable_pte h hs hpg]

/-! `__map_page`. -/

theorem newTable_eq (h : SelfMapped m) (hz : m.dir (pdeOf v) = 0) (ht : newFrame m ≠ m.cr3) :
    newTable v m = some (m.withTable v) := by
  rw [newFrame] at ht
  rw [newTable, Machine.withTable, if_pos hz]
  generalize allocPages 1 zoneNormal m.sys = r at *
  obtain ⟨pt, sys⟩ := r
  obtain ⟨hpr, hfr⟩ := newEntry pt
  simp only at ht ⊢
  generalize (if pt = 0 then sys.panic "Unable to alloc_pages while mapping page!\n" else sys) = sys'
  have hsys : SelfMapped { m with sys := sys' } := h.congr rfl rfl
  have hok := setDir_self (e := pt ||| pPresent ||| pWrite) hsys (h.ne hz)
  have hself : (Machine.setWord { m with sys := sys' } m.cr3 (pdeOf v) (pt ||| pPresent ||| pWrite)).dir (pdeOf v) =
      pt ||| pPresent ||| pWrite := by
    simp [Machine.dir, Machine.setWord]
  rw [setPageDirectoryEntry_eq hsys, Option.bind_some]
  rw [zeroWords_eq (pdeOf_lt v) 1024 0 hok (by rw [hself]; exact hpr)
    (by rw [hself, hfr]; exact ht) (by rw [tableAddr_toNat]; omega) (by omega)]
  rw [hself, hfr]
  rfl

/-- **`__map_page` in physical memory**: it makes the table of `v` if there is none,
and stores one entry in it unless that entry is set. -/
theorem mapPage_eq (h : SelfMapped m) (he : m.dir (pdeOf v) = 0 ∨ present (m.dir (pdeOf v)) = true)
    (ht : m.dir (pdeOf v) = 0 → newFrame m ≠ m.cr3) (p : U32) : mapPage p v m =
    if p.toNat % 4096 ≠ 0 ∨ v.toNat % 4096 ≠ 0 then some (0, m)
    else if (m.withTable v).entry v ≠ 0 then some (0, m.withTable v)
    else some (v, (m.withTable v).setWord (frameOf ((m.withTable v).dir (pdeOf v))) (pteOf v)
      (p ||| pPresent ||| pWrite ||| pUser)) := by
  have hstep : (if m.dir (pdeOf v) = 0 then newTable v m else some m) = some (m.withTable v) := by
    by_cases hz : m.dir (pdeOf v) = 0
    · rw [if_pos hz]
      exact newTable_eq h hz (ht hz)
    · rw [if_neg hz, withTable_set hz]
  have hok := withTable_self h ht
  have hw := (withTable_table he ht).1
  rw [mapPage]
  by_cases hal : p.toNat % 4096 ≠ 0 ∨ v.toNat % 4096 ≠ 0
  · rw [if_pos hal, if_pos hal]
  · rw [if_neg hal, if_neg hal, getPageDirectoryEntry_eq h, Option.bind_some, hstep, Option.bind_some,
      getPageTableEntry_eq hok hw, Option.bind_some, setPageTableEntry_eq hok _ hw]
    rfl

theorem userEntry (p : U32) : present (p ||| pPresent ||| pWrite ||| pUser) = true ∧
    frameOf (p ||| pPresent ||| pWrite ||| pUser) = p.toNat / 4096 := by
  refine ⟨?_, ?_⟩
  · rw [BitVec.or_assoc, BitVec.or_assoc, BitVec.or_comm pPresent, ← BitVec.or_assoc]
    exact present_or _
  · rw [BitVec.or_assoc, BitVec.or_assoc]
    exact frameOf_or _ _ (by decide)

/-- `__map_page(p, v)` has something to do: both are aligned and the entry is clear. -/
def Mappable (p v : U32) (m : Machine) : Prop :=
  p.toNat % 4096 = 0 ∧ v.toNat % 4096 = 0 ∧ (m.dir (pdeOf v) = 0 ∨ m.entry v = 0)

/-- The address space that maps the page of `v` to the frame of `p`, and the rest as `m`. -/
def mapped (p v : U32) (m : Machine) : Nat → Option Nat :=
  Function.update m.walk (v.toNat / 4096) (some (p.toNat / 4096))

def Machine.mapAt (m : Machine) (p v : U32) : Machine :=
  (m.withTable v).setWord (frameOf ((m.withTable v).dir (pdeOf v))) (pteOf v)
    (p ||| pPresent ||| pWrite ||| pUser)

theorem mapPage_clear (h : SelfMapped m) (he : m.dir (pdeOf v) = 0 ∨ present (m.dir (pdeOf v)) = true)
    (ht : m.dir (pdeOf v) = 0 → newFrame m ≠ m.cr3) {p : U32} (hm : Mappable p v m) :
    mapPage p v m = some (v, m.mapAt p v) := by
  obtain ⟨hp, hva, hclear⟩ := hm
  have hentry : (m.withTable v).entry v = 0 := by
    by_cases hz : m.dir (pdeOf v) = 0
    · exact (withTable_table he ht).2 hz
    · rw [withTable_set hz]
      exact hclear.resolve_left hz
  rw [mapPage_eq h he ht, if_neg (by omega), if_neg (not_not.mpr hentry)]
  rfl

theorem mapPage_refuse (h : SelfMapped m) (he : m.dir (pdeOf v) = 0 ∨ present (m.dir (pdeOf v)) = true)
    (ht : m.dir (pdeOf v) = 0 → newFrame m ≠ m.cr3) {p : U32} (hm : ¬ Mappable p v m) :
    mapPage p v m = some (0, m) := by
  rw [mapPage_eq h he ht]
  by_cases hal : p.toNat % 4096 ≠ 0 ∨ v.toNat % 4096 ≠ 0
  · rw [if_pos hal]
  · have hset : ¬ (m.dir (pdeOf v) = 0 ∨ m.entry v = 0) := fun hc => hm ⟨by omega, by omega, hc⟩
    rw [not_or] at hset
    rw [if_neg hal, withTable_set hset.1, if_pos hset.2]

theorem mapAt_pte (h : DirOk m) (hv : pdeOf v ≠ 1023) (hs : Spare m v) (p : U32) {page : Nat}
    (hpg : page / 1024 < 1023) : (m.mapAt p v).pte page =
      if page = v.toNat / 4096 then p ||| pPresent ||| pWrite ||| pUser else m.pte page := by
  have hw := (withTable_table (h.entry _ (pdeOf_lt v)) (hs.ne h)).1
  rw [Machine.mapAt, pte_setEntry (withTable_ok h hs) hv hw _ (by omega), withTable_pte h hs hpg]

theorem mapAt_walk (h : DirOk m) (hv : pdeOf v ≠ 1023) (hs : Spare m v) (p : U32) (page : Nat)
    (hpg : page / 1024 < 1023) : (m.mapAt p v).walk page = mapped p v m page := by
  have hw := (withTable_table (h.entry _ (pdeOf_lt v)) (hs.ne h)).1
  obtain ⟨hpr, hfr⟩ := userEntry p
  rw [Machine.mapAt, walk_setEntry (withTable_ok h hs) hv hw _ (by omega), mapped, Function.update_apply,
    hpr, hfr, if_pos rfl, withTable_walk h hs hpg]

/-- **`__map_page` refines the update of an address space.** For `v` outside the
window, with a spare frame for a table: it returns `v` or NULL. If `v` is not
NULL, it returns `v` exactly when `p` and `v` are aligned and the entry was clear;
then the page of `v` is mapped to `p` and every other page outside the window
translates as before, and when it returns NULL all of them do. For the page at
address 0, where the two results are one, the translation is updated exactly when
`p` is aligned and the entry was clear. -/
theorem mapPage_refines (h : DirOk m) (hv : pdeOf v ≠ 1023) (hs : Spare m v) (p : U32) :
    ∃ r m', mapPage p v m = some (r, m') ∧ (r = v ∨ r = 0) ∧
      (v ≠ 0 → (r = v ↔ Mappable p v m)) ∧
      (v ≠ 0 → r = v → ∀ page, page / 1024 < 1023 → m'.walk page = mapped p v m page) ∧
      (v ≠ 0 → r = 0 → ∀ page, page / 1024 < 1023 → m'.walk page = m.walk page) ∧
      (v = 0 → (Mappable p v m → ∀ page, page / 1024 < 1023 → m'.walk page = mapped p v m page) ∧
        (¬ Mappable p v m → ∀ page, page / 1024 < 1023 → m'.walk page = m.walk page)) := by
  have he := h.entry _ (pdeOf_lt v)
  -- the return value tells success from refusal only for a nonzero address
  by_cases hm : Mappable p v m
  · refine ⟨v, m.mapAt p v, mapPage_clear h.toSelfMapped he (hs.ne h) hm, Or.inl rfl, ?_, ?_, ?_, ?_⟩
    · exact fun _ => iff_of_true rfl hm
    · exact fun _ _ page hpg => mapAt_walk h hv hs p page hpg
    · exact fun hne h0 => absurd h0 hne
    · exact fun _ => ⟨fun _ page hpg => mapAt_walk h hv hs p page hpg, fun hn => absurd hm hn⟩
  · refine ⟨0, m, mapPage_refuse h.toSelfMapped he (hs.ne h) hm, Or.inr rfl, ?_, ?_, ?_, ?_⟩
    · exact fun hne => iff_of_false (fun h0 => hne h0.symm) hm
    · exact fun hne h0 => absurd h0.symm hne
    · exact fun _ _ _ _ => rfl
    · exact fun _ => ⟨fun hc => absurd hc hm, fun _ _ _ => rfl⟩

end

/-! The tables of `start.asm`. -/

section
variable {pd : Nat} {phys : Nat → Nat → U32} {s : Sysmem}

/-- The machine as `start.asm` leaves it, with the directory in frame `pd`. -/
def startMachine (pd : Nat) (phys : Nat → Nat → U32) (s : Sysmem) : Machine := ⟨startTables pd phys, pd, s⟩

theorem userEntry_frame {f : Nat} (hf : f < 1048576) :
    frameOf (BitVec.ofNat 32 (f * 4096) ||| pPresent ||| pWrite ||| pUser) = f := by
  rw [(userEntry _).2, BitVec.toNat_ofNat]
  omega

/-- The three entries of the first directory. -/
theorem start_dir (hpd : pd + 2 < 1048576) (i : Nat) :
    (startMachine pd phys s).dir i = 0 ∨ present ((startMachine pd phys s).dir i) = true ∧
      (i = 0 ∧ frameOf ((startMachine pd phys s).dir i) = pd + 1 ∨
        i = 768 ∧ frameOf ((startMachine pd phys s).dir i) = pd + 2 ∨
        i = 1023 ∧ frameOf ((startMachine pd phys s).dir i) = pd) := by
  have hdir : (startMachine pd phys s).dir i = startTables pd phys pd i := rfl
  rw [hdir, startTables, if_pos rfl]
  by_cases h₀ : i = 0
  · rw [if_pos h₀]
    exact Or.inr ⟨(userEntry _).1, Or.inl ⟨h₀, userEntry_frame (by omega)⟩⟩
  · by_cases h₁ : i = 768
    · rw [if_neg h₀, if_pos h₁]
      exact Or.inr ⟨(userEntry _).1, Or.inr (Or.inl ⟨h₁, userEntry_frame (by omega)⟩)⟩
    · by_cases h₂ : i = 1023
      · rw [if_neg h₀, if_neg h₁, if_pos h₂]
        exact Or.inr ⟨(userEntry _).1, Or.inr (Or.inr ⟨h₂, userEntry_frame (by omega)⟩)⟩
      · rw [if_neg h₀, if_neg h₁, if_neg h₂]
        exact Or.inl rfl

theorem start_ok (hpd : pd + 2 < 1048576) : DirOk (startMachine pd phys s) := by
  have hself : (startMachine pd phys s).dir 1023 =
      BitVec.ofNat 32 (pd * 4096) ||| pPresent ||| pWrite ||| pUser := by
    show startTables pd phys pd 1023 = _
    rw [startTables, if_pos rfl]
    rfl
  refine ⟨⟨?_, ?_⟩, ?_, ?_⟩
  · rw [hself]
    exact (userEntry _).1
  · rw [hself]
    exact userEntry_frame (by omega)
  · intro i _
    exact (start_dir hpd i).imp id And.left
  · intro i _ j _ hpi hpj hf
    have hi := (@start_dir pd phys s hpd i).resolve_left (fun hz => by
      rw [hz] at hpi; cases hpi)
    have hj := (@start_dir pd phys s hpd j).resolve_left (fun hz => by
      rw [hz] at hpj; cases hpj)
    have h₁ := hi.2
    have h₂ := hj.2
    omega

end

/-- An allocator that has handed out nothing yet. -/
def sampleSys : Sysmem := initBitmap (initSysmem (32 * 1024) 0xC0000000 0xC0028000 (fun _ => 0xFF))

/-- The directory in frame 300, and the pages it maps. -/
def sampleMachine : Machine := startMachine 300 (fun _ _ => 0xFFFFFFFF) sampleSys

theorem sample_spare (v : U32) : Spare sampleMachine v := by
  intro _ i _ hp hf
  have ha : newFrame sampleMachine = 4096 := by decide +kernel
  rw [ha] at hf
  have hdir := @start_dir 300 (fun _ _ => 0xFFFFFFFF) sampleSys (by omega) i
  rcases hdir with hz | ⟨_, hd⟩
  · rw [sampleMachine, hz] at hp
    cases hp
  · rw [sampleMachine] at hf
    omega

/-- The page at 4 MB has no table yet and is mapped; the page at 0x5000 is mapped
already, and an address that is not aligned is refused. -/
theorem mapPage_refines_sample :
    (∃ m', mapPage 0x1001000 0x400000 sampleMachine = some (0x400000, m') ∧
      (∀ page, page / 1024 < 1023 → m'.walk page = mapped 0x1001000 0x400000 sampleMachine page) ∧
      m'.walk 1024 = some 4097 ∧ sampleMachine.walk 1024 = none) ∧
    (∃ m', mapPage 0x1001000 0x5000 sampleMachine = some (0, m') ∧
      ∀ page, page / 1024 < 1023 → m'.walk page = sampleMachine.walk page) ∧
    ∃ m', mapPage 0x1001004 0x400000 sampleMachine = some (0, m') ∧
      ∀ page, page / 1024 < 1023 → m'.walk page = sampleMachine.walk page := by
  have hok : DirOk sampleMachine := start_ok (by omega)
  obtain ⟨r₁, m₁, e₁, -, hiff₁, hmap, -⟩ := mapPage_refines hok (by decide) (sample_spare 0x400000) 0x1001000
  obtain ⟨r₂, m₂, e₂, hor₂, hiff₂, -, hsame₂, -⟩ := mapPage_refines hok (by decide) (sample_spare 0x5000) 0x1001000
  obtain ⟨r₃, m₃, e₃, hor₃, hiff₃, -, hsame₃, -⟩ := mapPage_refines hok (by decide) (sample_spare 0x400000) 0x1001004
  have h₁ : r₁ = 0x400000 := (hiff₁ (by decide)).mpr ⟨by decide, by decide, .inl (by decide)⟩
  have h₂ : r₂ = 0 := hor₂.resolve_left fun e => by
    obtain ⟨-, -, h | h⟩ := (hiff₂ (by decide)).mp e
    · exact absurd h (by decide)
    · exact absurd h (by decide)
  have h₃ : r₃ = 0 := hor₃.resolve_left fun e => absurd ((hiff₃ (by decide)).mp e).1 (by decide)
  subst h₁ h₂ h₃
  have hwalk : m₁.walk 1024 = mapped 0x1001000 0x400000 sampleMachine 1024 := hmap (by decide) rfl 1024 (by decide)
  exact ⟨⟨m₁, e₁, hmap (by decide) rfl, hwalk.trans (by decide), by decide⟩, ⟨m₂, e₂, hsame₂ (by decide) rfl⟩,
    m₃, e₃, hsame₃ (by decide) rfl⟩

/-- Page 0 is mapped to frame 0 from the start: mapping it again is refused, and
the refusal returns the very address that was asked for. -/
theorem mapPage_null : DirOk sampleMachine ∧ pdeOf 0 ≠ 1023 ∧ Spare sampleMachine 0 ∧
    ∃ r m', mapPage 0x5000 0 sampleMachine = some (r, m') ∧ r = 0 ∧ m'.walk 0 = some 0 ∧
      mapped 0x5000 0 sampleMachine 0 = some 5 := by
  have hset : ¬ Mappable 0x5000 0 sampleMachine := by
    rintro ⟨_, _, h | h⟩ <;> exact absurd h (by decide)
  have hok : DirOk sampleMachine := start_ok (by omega)
  exact ⟨hok, by decide, sample_spare 0, 0, sampleMachine,
    mapPage_refuse hok.toSelfMapped (hok.entry _ (pdeOf_lt 0)) ((sample_spare 0).ne hok) hset, rfl,
    by decide, by decide⟩

end LineOS
