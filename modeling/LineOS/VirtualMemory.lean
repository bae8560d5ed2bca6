import LineOS.FaultFrames
import LineOS.LazyMemory

/- Loads and stores of the kernel on demand-paged memory. An access to a page that
   does not translate goes through the fault handler and is tried again
   (`touch`), so it may take a frame, make a page table, and show whatever the
   frame held. `KeptApart P m` is what keeps the pages of a footprint `P` apart: each
   has an entry that is clear or present, and its frame is in use, no other
   page's, and no page table's. `touch_spec` is one access, and `paged_lazy` says
   that memory is lazy in the sense of `LazyMemory` while the zone has the frames
   that the footprint still needs. -/
namespace LineOS
open ByteMemory LazyMemory

/-! The bytes of a word. -/

def byteOf (w : U32) (i : Nat) : U8 := w.extractLsb' (8 * i) 8

/-- The word with bytes `b 3` to `b 0`. -/
def wordOf (b : Nat → U8) : U32 := b 3 ++ b 2 ++ b 1 ++ b 0

def setByte (w : U32) (i : Nat) (v : U8) : U32 := wordOf fun j => if j = i then v else byteOf w j

theorem byteOf_wordOf (b : Nat → U8) {j : Nat} (hj : j < 4) : byteOf (wordOf b) j = b j := by
  have hcases : j = 0 ∨ j = 1 ∨ j = 2 ∨ j = 3 := by omega
  rcases hcases with rfl | rfl | rfl | rfl <;>
    · ext k hk
      simp [byteOf, wordOf]
      grind

theorem byteOf_setByte (w : U32) (i : Nat) (v : U8) {j : Nat} (hj : j < 4) :
    byteOf (setByte w i v) j = if j = i then v else byteOf w j :=
  byteOf_wordOf _ hj

/-! Accesses. -/

def Machine.loadByte (m : Machine) (a : U32) : Option U8 := (m.load a).map fun w => byteOf w (a.toNat % 4)

def Machine.storeByte (m : Machine) (a : U32) (v : U8) : Option Machine :=
  (m.load a).bind fun w => m.store a (setByte w (a.toNat % 4) v)

/-- The kernel's loads and stores: a fault is served, and the access tried again. -/
def readByte (a : U32) (m : Machine) : Option (U8 × Machine) :=
  (touch a m).bind fun m => (m.loadByte a).map fun v => (v, m)

def writeByte (a : U32) (v : U8) (m : Machine) : Option Machine := (touch a m).bind fun m => m.storeByte a v

def paged : Store U32 U8 Machine := ⟨readByte, writeByte⟩

/-- What the pages of the footprint show where they translate. -/
def shown (P : Finset Nat) (m : Machine) (a : U32) : Option U8 :=
  if a.toNat / 4096 ∈ P then m.loadByte a else none

/-! The footprint. -/

structure KeptApart (P : Finset Nat) (m : Machine) : Prop where
  below : ∀ p ∈ P, p / 1024 < 1023
  entry : ∀ p ∈ P, m.pte p = 0 ∨ present (m.pte p) = true
  inUse : ∀ p ∈ P, ∀ f, m.walk p = some f → f ∈ m.sys.used
  apart : ∀ p ∈ P, ∀ q ∈ P, ∀ f, m.walk p = some f → m.walk q = some f → p = q
  notTable : ∀ p ∈ P, ∀ f, m.walk p = some f → ∀ i < 1024, present (m.dir i) = true → frameOf (m.dir i) ≠ f

def spare (s : Sysmem) : Finset Nat :=
  Finset.Ico (zoneRange zoneNormal s).1 (zoneRange zoneNormal s).2 \ s.used

/-- The frames the footprint may still take: one for each page without one, and one
for each region without a table. -/
def needs (P : Finset Nat) (m : Machine) : Nat :=
  (P.filter fun p => m.walk p = none).card + ((P.image (· / 1024)).filter fun d => m.dir d = 0).card

structure Supplied (reserved P : Finset Nat) (m : Machine) : Prop where
  backed : Backed reserved m
  placed : KeptApart P m
  enough : needs P m ≤ (spare m.sys).card

/-! The frames a fault takes. -/

section
variable {reserved P : Finset Nat} {m : Machine} {a v : U32}

theorem normalFree_iff (s : Sysmem) : NormalFree s ↔ (spare s).Nonempty := by
  simp only [NormalFree, spare, Finset.Nonempty, Finset.mem_sdiff, Finset.mem_Ico, and_assoc]

theorem spare_take (h : Backed reserved m) (hf : NormalFree m.sys) :
    spare m.take.sys = (spare m.sys).erase (newFrame m) := by
  obtain ⟨hs, hu⟩ := take_used h hf
  have hz : zoneRange zoneNormal m.take.sys = zoneRange zoneNormal m.sys := by
    rw [zoneRange, zoneRange, hs.zoneBounds_eq, hs.totalPages]
  rw [spare, spare, hz, hu, Finset.sdiff_insert]

theorem spare_withTable (m : Machine) (v : U32) :
    spare (m.withTable v).sys = if m.dir (pdeOf v) = 0 then spare m.take.sys else spare m.sys := by
  by_cases hz : m.dir (pdeOf v) = 0
  · have hsys : (m.withTable v).sys = m.take.sys ∨
        (m.withTable v).sys = m.take.sys.panic "Unable to alloc_pages while mapping page!\n" := by
      rw [Machine.withTable, if_pos hz]
      show (if _ then _ else _) = _ ∨ (if _ then _ else _) = _
      split
      · exact Or.inr rfl
      · exact Or.inl rfl
    have hpanic : ∀ s msg, spare (Sysmem.panic msg s) = spare s := fun _ _ => rfl
    rw [if_pos hz]
    rcases hsys with h | h
    · rw [h]
    · rw [h, hpanic]
  · rw [if_neg hz, withTable_set hz]

/-- Mapping a page writes to the directory, to tables, and to the frame of a new one. -/
theorem mapAt_phys (p : U32) {f : Nat} (hcr : f ≠ m.cr3) (hnew : m.dir (pdeOf v) = 0 → f ≠ newFrame m)
    (ht : f ≠ frameOf ((m.withTable v).dir (pdeOf v))) (i : Nat) : (m.mapAt p v).phys f i = m.phys f i := by
  have hset : (m.mapAt p v).phys f i = (m.withTable v).phys f i := if_neg (fun hc => ht hc.1)
  rw [hset]
  by_cases hz : m.dir (pdeOf v) = 0
  · rw [Machine.withTable, if_pos hz]
    show (if f = newFrame m ∧ 0 ≤ i ∧ i < 0 + 1024 then 0
      else if f = m.cr3 ∧ i = pdeOf v then _ else m.phys f i) = m.phys f i
    rw [if_neg (fun hc => hnew hz hc.1), if_neg (fun hc => hcr hc.1)]
  · rw [withTable_set hz]

/-! One fault. -/

/-- The page of an address in the footprint, and the region it lies in. -/
theorem page_region (hp : KeptApart P m) (ha : a.toNat / 4096 ∈ P) :
    a.toNat / 4096 / 1024 = pdeOf a ∧ a.toNat / 4096 % 1024 = pteOf a ∧ pdeOf a < 1023 := by
  have hlt := hp.below _ ha
  have he : a.toNat / 4096 / 1024 = pdeOf a := by unfold pdeOf; omega
  exact ⟨he, rfl, by omega⟩

/-- A page of the footprint that does not translate has a clear entry. -/
theorem entry_clear (h : DirOk m) (hp : KeptApart P m) (ha : a.toNat / 4096 ∈ P)
    (hw : m.walk (a.toNat / 4096) = none) : ¬ EntrySet a m := by
  obtain ⟨hpde, hpte, _⟩ := page_region hp ha
  rintro ⟨hd, he⟩
  have hpr := (h.entry _ (pdeOf_lt a)).resolve_left hd
  have hpt : m.pte (a.toNat / 4096) = m.entry a := by rw [Machine.pte, hpde, hpte, if_pos hpr, Machine.entry]
  have hset := (hp.entry _ ha).resolve_left (by rw [hpt]; exact he)
  rw [walk_eq, if_pos hset] at hw
  cases hw

/-- What a fault at a clear entry does that finds the frames it needs: the page is
mapped to a frame nobody used, and a table is made for its region if there was none. -/
structure Answered (a : U32) (m m' : Machine) (f : Nat) : Prop where
  fresh : f ∉ m.sys.used
  used : insert f m.sys.used ⊆ m'.sys.used
  pte : ∀ p, p / 1024 < 1023 → p ≠ a.toNat / 4096 → m'.pte p = m.pte p
  mapped : present (m'.pte (a.toNat / 4096)) = true ∧ frameOf (m'.pte (a.toNat / 4096)) = f
  dir : ∀ i, m'.dir i = 0 → m.dir i = 0 ∧ i ≠ pdeOf a
  tables : ∀ i, present (m'.dir i) = true →
    present (m.dir i) = true ∧ frameOf (m'.dir i) = frameOf (m.dir i) ∨ frameOf (m'.dir i) ∉ insert f m.sys.used
  phys : ∀ g ∈ m.sys.used, (∀ i < 1024, present (m.dir i) = true → frameOf (m.dir i) ≠ g) →
    ∀ i, m'.phys g i = m.phys g i
  spent : (spare m.sys).card ≤ (spare m'.sys).card + (if m.dir (pdeOf a) = 0 then 2 else 1)

theorem card_le_erase (s : Finset Nat) (f : Nat) : s.card ≤ (s.erase f).card + 1 := by
  have h := Finset.pred_card_le_card_erase (s := s) (a := f)
  omega

theorem fault_served (h : Backed reserved m) (ha : pdeOf a < 1023) (he : ¬ EntrySet a m) (hf : NormalFree m.sys)
    (hf' : m.dir (pdeOf a) = 0 → NormalFree m.take.sys) :
    ∃ r, pageFault a m = some r ∧ Backed reserved r.2.2 ∧ Answered a m r.2.2 (newFrame m) := by
  obtain ⟨ht, hsub, hfree, _⟩ := take_spec h
  obtain ⟨hn, hu, _, _⟩ := hfree hf
  obtain ⟨hbase, hpde, hpte⟩ := pageBase_spec a
  have hv : pdeOf (pageBase a) ≠ 1023 := by rw [hpde]; omega
  have hs := take_spare h hf (pageBase a)
  have hpage : (pageBase a).toNat / 4096 = a.toNat / 4096 := by rw [hbase]; omega
  have hentry := userEntry (allocPages 1 zoneNormal m.sys).1
  have hset : present ((m.take.withTable (pageBase a)).dir (pdeOf (pageBase a))) = true :=
    (withTable_table (ht.dir.entry _ (pdeOf_lt _)) (fun _ => newFrame_ne_cr3 ht)).1
  have hdir := mapAt_dir ht hv hs (allocPages 1 zoneNormal m.sys).1
  have hins : insert (newFrame m) m.sys.used ⊆ m.take.sys.used := Finset.insert_subset hu hsub
  -- a second frame, for a table, is a new one too
  have hnew : m.dir (pdeOf a) = 0 → newFrame m.take ∉ m.take.sys.used := fun hz => ((take_spec ht).2.2.1 (hf' hz)).1
  have hframes : ∀ i, present ((m.take.withTable (pageBase a)).dir i) = true →
      present (m.dir i) = true ∧ frameOf ((m.take.withTable (pageBase a)).dir i) = frameOf (m.dir i) ∨
        frameOf ((m.take.withTable (pageBase a)).dir i) ∉ insert (newFrame m) m.sys.used := by
    intro i hi
    rcases withTable_frames ht hi with ⟨_, hz, hfr⟩ | hold
    · rw [hpde] at hz
      exact Or.inr (fun hc => hnew hz (hins (hfr ▸ hc)))
    · exact Or.inl hold
  refine ⟨_, fault_clear h he, mapAt_backed ht hv hs _, hn, ?_, ?_, ?_, ?_, ?_, ?_, ?_⟩
  · exact hins.trans (withTable_sys ht (pageBase a)).2.2.2.1
  · intro p hp hne
    rw [mapAt_pte ht.dir hv hs _ hp, hpage, if_neg hne]
    rfl
  · have hlt : a.toNat / 4096 / 1024 < 1023 := by unfold pdeOf at ha; omega
    rw [mapAt_pte ht.dir hv hs _ hlt, hpage, if_pos rfl]
    exact hentry
  · intro i hi
    rw [hdir, withTable_dir (fun _ => newFrame_ne_cr3 ht), hpde] at hi
    by_cases hc : i = pdeOf a ∧ m.take.dir (pdeOf a) = 0
    · rw [if_pos hc] at hi
      have hp := (newEntry (allocPages 1 zoneNormal m.take.sys).1).1
      rw [hi, present_zero] at hp
      cases hp
    · rw [if_neg hc] at hi
      exact ⟨hi, fun e => hc ⟨e, e ▸ hi⟩⟩
  · intro i hi
    rw [hdir] at hi ⊢
    exact hframes i hi
  · intro g hg hgt i
    have hcr : g ≠ m.take.cr3 := fun e => hgt 1023 (by omega) h.dir.self (h.dir.selfFrame.trans e.symm)
    show (m.take.mapAt _ (pageBase a)).phys g i = m.take.phys g i
    refine mapAt_phys _ hcr (fun hz hc => ?_) (fun hc => ?_) i
    · rw [hpde] at hz
      exact hnew hz (hc ▸ hsub hg)
    · rcases hframes _ hset with ⟨hp, hfr⟩ | hfr
      · exact hgt _ (pdeOf_lt _) hp (hfr.symm.trans hc.symm)
      · exact hfr (hc ▸ Finset.mem_insert_of_mem hg)
  · show _ ≤ (spare (m.take.withTable (pageBase a)).sys).card + _
    have h₁ := card_le_erase (spare m.sys) (newFrame m)
    rw [← spare_take h hf] at h₁
    have hdz : m.take.dir (pdeOf (pageBase a)) = m.dir (pdeOf a) := by rw [hpde]; rfl
    rw [spare_withTable, hdz]
    by_cases hz : m.dir (pdeOf a) = 0
    · have h₂ := card_le_erase (spare m.take.sys) (newFrame m.take)
      rw [← spare_take ht (hf' hz)] at h₂
      rw [if_pos hz, if_pos hz]
      omega
    · rw [if_neg hz, if_neg hz]
      exact h₁

namespace Answered
variable {m' : Machine} {f : Nat}

theorem walk_new (hs : Answered a m m' f) : m'.walk (a.toNat / 4096) = some f := by
  rw [walk_eq, if_pos hs.mapped.1, hs.mapped.2]

theorem walk_old (hs : Answered a m m' f) {p : Nat} (hp : p / 1024 < 1023) (hne : p ≠ a.toNat / 4096) :
    m'.walk p = m.walk p := by
  rw [walk_eq, walk_eq, hs.pte p hp hne]

theorem placed (hs : Answered a m m' f) (hb : Backed reserved m) (hp : KeptApart P m) : KeptApart P m' := by
  have hframe : ∀ p ∈ P, ∀ g, m'.walk p = some g → p = a.toNat / 4096 ∧ g = f ∨ m.walk p = some g := by
    intro p hpm g hw
    by_cases hpa : p = a.toNat / 4096
    · rw [hpa, hs.walk_new] at hw
      exact Or.inl ⟨hpa, (Option.some.inj hw).symm⟩
    · rw [hs.walk_old (hp.below p hpm) hpa] at hw
      exact Or.inr hw
  have hold : ∀ p ∈ P, ∀ g, m.walk p = some g → g ≠ f := fun p hpm g hw e => hs.fresh (e ▸ hp.inUse p hpm g hw)
  refine ⟨hp.below, ?_, ?_, ?_, ?_⟩
  · intro p hpm
    by_cases hpa : p = a.toNat / 4096
    · exact Or.inr (by rw [hpa]; exact hs.mapped.1)
    · rw [hs.pte p (hp.below p hpm) hpa]
      exact hp.entry p hpm
  · intro p hpm g hw
    apply hs.used
    rcases hframe p hpm g hw with ⟨_, rfl⟩ | hw
    · exact Finset.mem_insert_self _ _
    · exact Finset.mem_insert_of_mem (hp.inUse p hpm g hw)
  · intro p hpm q hqm g hw hw'
    rcases hframe p hpm g hw with ⟨hpa, hg⟩ | hwp <;> rcases hframe q hqm g hw' with ⟨hqa, hg'⟩ | hwq
    · exact hpa.trans hqa.symm
    · exact absurd hg (hold q hqm g hwq)
    · exact absurd hg' (hold p hpm g hwp)
    · exact hp.apart p hpm q hqm g hwp hwq
  · intro p hpm g hw i hi hpr e
    have hin : g ∈ insert f m.sys.used := by
      rcases hframe p hpm g hw with ⟨_, rfl⟩ | hw
      · exact Finset.mem_insert_self _ _
      · exact Finset.mem_insert_of_mem (hp.inUse p hpm g hw)
    rcases hs.tables i hpr with ⟨hpr', hfr⟩ | hno
    · rcases hframe p hpm g hw with ⟨_, rfl⟩ | hw
      · exact hs.fresh (e ▸ hfr ▸ hb.inUse i hi hpr')
      · exact hp.notTable p hpm g hw i hi hpr' (hfr.symm.trans e)
    · exact hno (e ▸ hin)

/-- The footprint needs one frame less, or two if the region had no table. -/
theorem needs (hs : Answered a m m' f) (hp : KeptApart P m) (ha : a.toNat / 4096 ∈ P)
    (hw : m.walk (a.toNat / 4096) = none) :
    LineOS.needs P m' + (if m.dir (pdeOf a) = 0 then 2 else 1) ≤ LineOS.needs P m := by
  have hregion := (page_region hp ha).1
  have hpages : (P.filter fun p => m'.walk p = none) ⊂ P.filter fun p => m.walk p = none := by
    refine (Finset.ssubset_iff_of_subset (fun p hpm => ?_)).mpr ⟨a.toNat / 4096, Finset.mem_filter.mpr ⟨ha, hw⟩, ?_⟩
    · obtain ⟨hpP, hn⟩ := Finset.mem_filter.mp hpm
      have hne : p ≠ a.toNat / 4096 := by
        rintro rfl
        rw [hs.walk_new] at hn
        cases hn
      rw [hs.walk_old (hp.below p hpP) hne] at hn
      exact Finset.mem_filter.mpr ⟨hpP, hn⟩
    · rw [Finset.mem_filter, hs.walk_new]
      exact fun hc => by cases hc.2
  have hsub : ((P.image (· / 1024)).filter fun d => m'.dir d = 0) ⊆ (P.image (· / 1024)).filter fun d => m.dir d = 0 := by
    intro d hd
    obtain ⟨hdP, hz⟩ := Finset.mem_filter.mp hd
    exact Finset.mem_filter.mpr ⟨hdP, (hs.dir d hz).1⟩
  have h₁ := Finset.card_lt_card hpages
  unfold LineOS.needs
  by_cases hz : m.dir (pdeOf a) = 0
  · have hmem : pdeOf a ∈ (P.image (· / 1024)).filter fun d => m.dir d = 0 :=
      Finset.mem_filter.mpr ⟨Finset.mem_image.mpr ⟨_, ha, hregion⟩, hz⟩
    have hno : pdeOf a ∉ (P.image (· / 1024)).filter fun d => m'.dir d = 0 :=
      fun hc => (hs.dir _ (Finset.mem_filter.mp hc).2).2 rfl
    have h₂ := Finset.card_lt_card ((Finset.ssubset_iff_of_subset hsub).mpr ⟨_, hmem, hno⟩)
    rw [if_pos hz]
    omega
  · have h₂ := Finset.card_le_card hsub
    rw [if_neg hz]
    omega

end Answered

/-! One access. -/

/-- What an access leaves of the pages that translate: their frames and contents. -/
def KeepsPages (P : Finset Nat) (m m' : Machine) : Prop :=
  ∀ p ∈ P, ∀ g, m.walk p = some g → m'.walk p = some g ∧ ∀ i, m'.phys g i = m.phys g i

/-- The zone has the frames for a missing page of the footprint. -/
theorem supplied_free (h : Supplied reserved P m) (ha : a.toNat / 4096 ∈ P) (hw : m.walk (a.toNat / 4096) = none) :
    NormalFree m.sys ∧ (m.dir (pdeOf a) = 0 → NormalFree m.take.sys) := by
  have hpage : 0 < (P.filter fun p => m.walk p = none).card :=
    Finset.card_pos.mpr ⟨_, Finset.mem_filter.mpr ⟨ha, hw⟩⟩
  have hen := h.enough
  unfold needs at hen
  have hf : NormalFree m.sys := (normalFree_iff _).mpr (Finset.card_pos.mp (by omega))
  refine ⟨hf, fun hz => (normalFree_iff _).mpr (Finset.card_pos.mp ?_)⟩
  have hregion : 0 < ((P.image (· / 1024)).filter fun d => m.dir d = 0).card :=
    Finset.card_pos.mpr ⟨pdeOf a, Finset.mem_filter.mpr
      ⟨Finset.mem_image.mpr ⟨_, ha, (page_region h.placed ha).1⟩, hz⟩⟩
  have hspent := card_le_erase (spare m.sys) (newFrame m)
  rw [spare_take h.backed hf]
  omega

/-- An access to a page that does not translate is a fault served. -/
theorem touch_missing (h : Supplied reserved P m) (ha : a.toNat / 4096 ∈ P) (hw : m.walk (a.toNat / 4096) = none) :
    ∃ m', touch a m = some m' ∧ Backed reserved m' ∧ Answered a m m' (newFrame m) := by
  obtain ⟨hf, hf'⟩ := supplied_free h ha hw
  obtain ⟨r, hr, hb, hs⟩ := fault_served h.backed (page_region h.placed ha).2.2
    (entry_clear h.backed.dir h.placed ha hw) hf hf'
  refine ⟨r.2.2, ?_, hb, hs⟩
  rw [touch, hw, Option.isSome_none, if_neg Bool.false_ne_true, hr, Option.bind_some, hs.walk_new, Option.isSome_some,
    if_pos rfl]

theorem touch_present {f : Nat} (hw : m.walk (a.toNat / 4096) = some f) : touch a m = some m := by
  rw [touch, hw, Option.isSome_some, if_pos rfl]

/-- Pages that translate below the window, whether of the footprint or not, go on so. -/
def WalksOn (m m' : Machine) : Prop := ∀ q < 1023 * 1024, ∀ g, m.walk q = some g → m'.walk q = some g

/-- **One access**: the page translates afterwards, and no other has moved; nothing of
the footprint has changed. -/
theorem touch_spec (h : Supplied reserved P m) (ha : a.toNat / 4096 ∈ P) : ∃ m' f, touch a m = some m' ∧
    Supplied reserved P m' ∧ m'.walk (a.toNat / 4096) = some f ∧ KeepsPages P m m' ∧ WalksOn m m' := by
  cases hw : m.walk (a.toNat / 4096) with
  | some f =>
    exact ⟨m, f, touch_present hw, h, hw, fun p _ g hg => ⟨hg, fun _ => rfl⟩, fun _ _ _ hg => hg⟩
  | none =>
    obtain ⟨m', ht, hb, hs⟩ := touch_missing h ha hw
    have hen := h.enough
    have hneeds := hs.needs h.placed ha hw
    have hspent := hs.spent
    have hold : WalksOn m m' := by
      intro p hp g hg
      have hne : p ≠ a.toNat / 4096 := by
        rintro rfl
        rw [hw] at hg
        cases hg
      rw [hs.walk_old (by omega) hne, hg]
    refine ⟨m', newFrame m, ht, ⟨hb, hs.placed h.backed h.placed, by omega⟩, hs.walk_new, fun p hp g hg => ?_, hold⟩
    have hbelow := h.placed.below p hp
    exact ⟨hold p (by omega) g hg, hs.phys g (h.placed.inUse p hp g hg) (h.placed.notTable p hp g hg)⟩

/-! A store to a page of the footprint. -/

variable {p f : Nat}

theorem pte_setWord_off (ht : ∀ i < 1024, present (m.dir i) = true → frameOf (m.dir i) ≠ f) (hcr : f ≠ m.cr3)
    (j : Nat) (w : U32) {q : Nat} (hq : q / 1024 < 1024) : (m.setWord f j w).pte q = m.pte q := by
  rw [Machine.pte, Machine.pte, dir_setWord_off hcr]
  by_cases hpr : present (m.dir (q / 1024)) = true
  · rw [if_pos hpr, if_pos hpr]
    exact if_neg (fun hc => ht _ hq hpr hc.1)
  · rw [if_neg hpr, if_neg hpr]

theorem setWord_supplied (h : Supplied reserved P m) (hp : p ∈ P) (hw : m.walk p = some f) (j : Nat) (w : U32) :
    Supplied reserved P (m.setWord f j w) ∧ ∀ q < 1023 * 1024, (m.setWord f j w).walk q = m.walk q := by
  have ht := h.placed.notTable p hp f hw
  have hcr : f ≠ m.cr3 := fun e => ht 1023 (by omega) h.backed.dir.self (h.backed.dir.selfFrame.trans e.symm)
  have hdir := dir_setWord_off hcr j w
  have hall : ∀ q < 1023 * 1024, (m.setWord f j w).pte q = m.pte q :=
    fun q hq => pte_setWord_off ht hcr j w (by omega)
  have hpte : ∀ q ∈ P, (m.setWord f j w).pte q = m.pte q := by
    intro q hq
    have hlt := h.placed.below q hq
    exact hall q (by omega)
  have hwalks : ∀ q < 1023 * 1024, (m.setWord f j w).walk q = m.walk q := by
    intro q hq
    rw [walk_eq, walk_eq, hall q hq]
  have hwalk : ∀ q ∈ P, (m.setWord f j w).walk q = m.walk q := by
    intro q hq
    rw [walk_eq, walk_eq, hpte q hq]
  have hb := h.backed
  have hpl := h.placed
  refine ⟨⟨⟨hb.dir.congr rfl (fun i _ => hdir i), hb.cr3, hb.table, hb.counted, hb.small, hb.zero, hb.kept, ?_, ?_⟩,
    ⟨hpl.below, ?_, ?_, ?_, ?_⟩, ?_⟩, hwalks⟩
  · intro i hi
    rw [hdir]
    exact hb.inUse i hi
  · intro i hi
    rw [hdir]
    exact hb.zeroTable i hi
  · intro q hq
    rw [hpte q hq]
    exact hpl.entry q hq
  · intro q hq g
    rw [hwalk q hq]
    exact hpl.inUse q hq g
  · intro q hq q' hq' g
    rw [hwalk q hq, hwalk q' hq']
    exact hpl.apart q hq q' hq' g
  · intro q hq g
    rw [hwalk q hq]
    intro hg i hi
    rw [hdir]
    exact hpl.notTable q hq g hg i hi
  · have hpages : (P.filter fun q => (m.setWord f j w).walk q = none) = P.filter fun q => m.walk q = none :=
      Finset.filter_congr (fun q hq => by rw [hwalk q hq])
    have hdirs : ((P.image (· / 1024)).filter fun d => (m.setWord f j w).dir d = 0) =
        (P.image (· / 1024)).filter fun d => m.dir d = 0 := Finset.filter_congr (fun d _ => by rw [hdir])
    show _ ≤ (spare m.sys).card
    rw [needs, hpages, hdirs]
    exact h.enough

/-! Demand-paged memory is lazy. -/

theorem shown_some {v : U8} (hs : shown P m a = some v) : a.toNat / 4096 ∈ P ∧ ∃ f, m.walk (a.toNat / 4096) = some f ∧
    v = byteOf (m.phys f (a.toNat % 4096 / 4)) (a.toNat % 4) := by
  unfold shown at hs
  split at hs
  · next ha =>
    obtain ⟨w, hl, hv⟩ := Option.map_eq_some_iff.mp hs
    obtain ⟨f, hw, hf⟩ := Option.map_eq_some_iff.mp hl
    exact ⟨ha, f, hw, by rw [hf, hv]⟩
  · cases hs

theorem loadByte_eq (hw : m.walk (a.toNat / 4096) = some f) :
    m.loadByte a = some (byteOf (m.phys f (a.toNat % 4096 / 4)) (a.toNat % 4)) := by
  rw [Machine.loadByte, Machine.load, hw, Option.map_some, Option.map_some]

theorem storeByte_eq (hw : m.walk (a.toNat / 4096) = some f) (v : U8) :
    m.storeByte a v = some (m.setWord f (a.toNat % 4096 / 4)
      (setByte (m.phys f (a.toNat % 4096 / 4)) (a.toNat % 4) v)) := by
  rw [Machine.storeByte, Machine.load, hw, Option.map_some, Option.bind_some, Machine.store, hw, Option.map_some]

theorem KeepsPages.shown {m' : Machine} (h : KeepsPages P m m') {v : U8} (hs : LineOS.shown P m a = some v) :
    LineOS.shown P m' a = some v := by
  obtain ⟨ha, f, hw, rfl⟩ := shown_some hs
  obtain ⟨hw', hphys⟩ := h _ ha f hw
  rw [LineOS.shown, if_pos ha, loadByte_eq hw', hphys]

/-- Two addresses in the same word of the same page are told apart by the byte. -/
theorem same_word {b : U32} (hpage : b.toNat / 4096 = a.toNat / 4096)
    (hword : b.toNat % 4096 / 4 = a.toNat % 4096 / 4) (hne : b ≠ a) : b.toNat % 4 ≠ a.toNat % 4 := by
  intro h
  apply hne
  apply BitVec.eq_of_toNat_eq
  omega

/-- **Demand-paged memory is lazy**: it decides the bytes of a page when the page is
first touched, and an access changes no other byte of the footprint. -/
theorem paged_lazy (reserved P : Finset Nat) :
    Lazy paged (Supplied reserved P) (shown P) fun a => a.toNat / 4096 ∈ P := by
  constructor
  · intro a m h ha
    obtain ⟨m', f, ht, hok, hw, hkeep, -⟩ := touch_spec h ha
    have hl := loadByte_eq hw
    refine ⟨byteOf (m'.phys f (a.toNat % 4096 / 4)) (a.toNat % 4), m', ?_, hok, ?_, fun b w hb => hkeep.shown hb⟩
    · show readByte a m = _
      rw [readByte, ht, Option.bind_some, hl, Option.map_some]
    · rw [shown, if_pos ha, hl]
  · intro a v m h ha
    obtain ⟨m', f, ht, hok, hw, hkeep, -⟩ := touch_spec h ha
    obtain ⟨hok', hwalks⟩ := setWord_supplied hok ha hw (a.toNat % 4096 / 4)
      (setByte (m'.phys f (a.toNat % 4096 / 4)) (a.toNat % 4) v)
    have hwalk : ∀ q ∈ P, (m'.setWord f (a.toNat % 4096 / 4) (setByte (m'.phys f (a.toNat % 4096 / 4)) (a.toNat % 4) v)).walk q =
        m'.walk q := by
      intro q hq
      have hlt := hok.placed.below q hq
      exact hwalks q (by omega)
    refine ⟨_, ?_, hok', ?_, fun b w hne hb => ?_⟩
    · show writeByte a v m = _
      rw [writeByte, ht, Option.bind_some, storeByte_eq hw]
    · rw [shown, if_pos ha, loadByte_eq (by rw [hwalk _ ha, hw])]
      show some (byteOf (if f = f ∧ _ then _ else _) _) = _
      rw [if_pos ⟨rfl, rfl⟩, byteOf_setByte _ _ _ (by omega), if_pos rfl]
    · obtain ⟨hbP, g, hg, rfl⟩ := shown_some (hkeep.shown hb)
      rw [shown, if_pos hbP, loadByte_eq (by rw [hwalk _ hbP, hg])]
      show some (byteOf (if g = f ∧ _ then _ else _) _) = _
      by_cases hsame : g = f ∧ b.toNat % 4096 / 4 = a.toNat % 4096 / 4
      · -- the word just stored to: another of its bytes
        obtain ⟨rfl, hword⟩ := hsame
        have hpage := hok.placed.apart _ hbP _ ha g hg hw
        rw [if_pos ⟨rfl, hword⟩, byteOf_setByte _ _ _ (by omega), if_neg (same_word hpage hword hne), hword]
      · rw [if_neg hsame]

theorem readByte_walks (h : Supplied reserved P m) (ha : a.toNat / 4096 ∈ P) {x : U8 × Machine}
    (hr : readByte a m = some x) : WalksOn m x.2 := by
  obtain ⟨m', f, ht, -, hw, -, hon⟩ := touch_spec h ha
  rw [readByte, ht, Option.bind_some, loadByte_eq hw, Option.map_some] at hr
  obtain rfl := Option.some.inj hr
  exact hon

theorem writeByte_walks (h : Supplied reserved P m) (ha : a.toNat / 4096 ∈ P) {v : U8} {m₁ : Machine}
    (hr : writeByte a v m = some m₁) : WalksOn m m₁ := by
  obtain ⟨m', f, ht, hok, hw, -, hon⟩ := touch_spec h ha
  rw [writeByte, ht, Option.bind_some, storeByte_eq hw] at hr
  obtain rfl := Option.some.inj hr
  intro q hq g hg
  rw [(setWord_supplied hok ha hw _ _).2 q hq]
  exact hon q hq g hg

theorem paged_lazy_walks (reserved P : Finset Nat) (m₀ : Machine) :
    Lazy paged (fun m => Supplied reserved P m ∧ WalksOn m₀ m) (shown P) fun a => a.toNat / 4096 ∈ P := by
  refine (paged_lazy reserved P).and ?_ ?_
  · intro a m x hok ha hon hr q hq g hg
    exact readByte_walks hok ha hr q hq g (hon q hq g hg)
  · intro a v m m₁ hok ha hon hr q hq g hg
    exact writeByte_walks hok ha hr q hq g (hon q hq g hg)

end
end LineOS
