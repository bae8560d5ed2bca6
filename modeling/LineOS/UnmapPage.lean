import LineOS.FaultRun

/- `__unmap_page` as the undoing of one translation. Its test of the entry,
   `get_page_table_entry(..) | P_PRESENT`, is true of every entry, so it always
   stores 0; and where the region of `v` has no page table already the test itself
   faults, and the fault handler links a frame as the table, with what it held.
   `Unmaps` is what a call is to do, `unmapPage_iff` when it does it: on a table
   that is there and shares no word with another page's translation, or when the
   handler has no page to give and links frame 0, and that does no harm. -/
namespace LineOS
open ByteMemory RunSearch

/-- The directory maps itself at its last entry, and lies in the kernel's image and so not in frame 0. -/
structure Recursive (m : Machine) : Prop extends SelfMapped m where
  cr3_ne : m.cr3 ≠ 0

/-- `m'` is `m` without the translation of the page of `v`. -/
structure Removed (v : U32) (m m' : Machine) : Prop where
  gone : m'.walk (v.toNat / 4096) = none
  others : ∀ page, page / 1024 < 1023 → page ≠ v.toNat / 4096 → m'.walk page = m.walk page
  bitmap : m'.sys.bitmap = m.sys.bitmap
  freePages : m'.sys.freePages = m.sys.freePages
  zone : m'.sys.zone = m.sys.zone

/-- After a successful `__map_page` at `v`, `__unmap_page` gives back the translation there was. -/
def Restores (v : U32) (m : Machine) : Prop :=
  ∀ p m₁, mapPage p v m = some (v, m₁) →
    ∃ m₂, unmapPage v m₁ = some m₂ ∧ ∀ page, page / 1024 < 1023 → m₂.walk page = m.walk page

/-- What `__unmap_page(v)` is to do. -/
structure Unmaps (v : U32) (m : Machine) : Prop where
  removes : ∃ m', unmapPage v m = some m' ∧ Removed v m m'
  restores : Restores v m

/-- The processor's walk for `page` goes by word `i` of frame `f`. -/
def Machine.Reads (m : Machine) (page f i : Nat) : Prop :=
  m.cr3 = f ∧ page / 1024 = i ∨ frameOf (m.dir (page / 1024)) = f ∧ page % 1024 = i

instance (m : Machine) (page f i : Nat) : Decidable (m.Reads page f i) := inferInstanceAs (Decidable (_ ∨ _))

/-- `v` has a page table, and no other page outside the window is translated by way of its entry. -/
structure OwnEntry (v : U32) (m : Machine) : Prop where
  table : present (m.dir (pdeOf v)) = true
  own : ∀ page, page / 1024 < 1023 → page ≠ v.toNat / 4096 →
    m.Reads page (frameOf (m.dir (pdeOf v))) (pteOf v) → m.walk page = none

/-- `alloc_pages` finds no clear bit in `ZONE_NORMAL`. -/
def ZoneFull (s : Sysmem) : Prop :=
  ∀ page, (zoneRange zoneNormal s).1 ≤ page → page < (zoneRange zoneNormal s).2 → s.bitmap.bitget page ≠ 0

/-- `v` has no page table, the handler no page, and frame 0, which it links, is as good as an empty table:
no other entry of it is present, and if the one of `v` is, it is in no other table. Nor do the pages of another
region show the directory. -/
structure HarmlessZero (v : U32) (m : Machine) : Prop where
  missing : m.dir (pdeOf v) = 0
  full : ZoneFull m.sys
  words : ∀ i < 1024, i ≠ pteOf v → present (m.phys 0 i) = false
  word : present (m.phys 0 (pteOf v)) = true → ∀ i < 1023, present (m.dir i) = true → frameOf (m.dir i) ≠ 0
  directory : ∀ i < 1023, present (m.dir i) = true → frameOf (m.dir i) ≠ m.cr3

section
variable {m : Machine} {v : U32}

/-! One word changed. -/

theorem page_parts (v : U32) : v.toNat / 4096 / 1024 = pdeOf v ∧ v.toNat / 4096 % 1024 = pteOf v := by
  refine ⟨?_, rfl⟩
  unfold pdeOf
  omega

/-- A page of the region of `v` is told from it by the second index, any other by the first. -/
theorem page_ne {i j : Nat} (hj : j < 1024) (h : i ≠ pdeOf v ∨ j ≠ pteOf v) : i * 1024 + j ≠ v.toNat / 4096 := by
  obtain ⟨h₁, h₂⟩ := page_parts v
  omega

theorem pte_clearWord (m : Machine) (f i page : Nat) :
    (m.setWord f i 0).pte page = if m.Reads page f i then 0 else m.pte page := by
  have hdir : (m.setWord f i 0).dir (page / 1024) = if m.cr3 = f ∧ page / 1024 = i then 0 else m.dir (page / 1024) := rfl
  have hpte : ∀ g, (m.setWord f i 0).phys g (page % 1024) =
      if g = f ∧ page % 1024 = i then 0 else m.phys g (page % 1024) := fun _ => rfl
  have hno : ¬ present (0 : U32) = true := by decide
  by_cases h₁ : m.cr3 = f ∧ page / 1024 = i
  · have hreads : m.Reads page f i := Or.inl h₁
    rw [Machine.pte, hdir, if_pos h₁, if_pos hreads, if_neg hno]
  · rw [Machine.pte, hdir, if_neg h₁, hpte]
    by_cases h₂ : frameOf (m.dir (page / 1024)) = f ∧ page % 1024 = i
    · have hreads : m.Reads page f i := Or.inr h₂
      rw [if_pos h₂, if_pos hreads, ite_self]
    · have hreads : ¬ m.Reads page f i := fun h => Or.elim h h₁ h₂
      rw [if_neg h₂, if_neg hreads, Machine.pte]

theorem walk_clearWord (m : Machine) (f i page : Nat) :
    (m.setWord f i 0).walk page = if m.Reads page f i then none else m.walk page := by
  rw [walk_eq, pte_clearWord]
  split
  · rfl
  · exact (walk_eq m page).symm

theorem dir_setZero {f i j : Nat} (hz : m.phys f i = 0) (hj : present (m.dir j) = true) (w : U32) :
    (m.setWord f i w).dir j = m.dir j := by
  show (if m.cr3 = f ∧ j = i then w else m.phys m.cr3 j) = m.phys m.cr3 j
  split
  · next h =>
    obtain ⟨rfl, rfl⟩ := h
    have hd : m.dir j = 0 := hz
    rw [hd] at hj
    cases hj
  · rfl

theorem setWord_undo {f i : Nat} (hz : m.phys f i = 0) (w : U32) : (m.setWord f i w).setWord f i 0 = m := by
  have hphys : ((m.setWord f i w).setWord f i 0).phys = m.phys := by
    funext g j
    simp only [Machine.setWord]
    by_cases h : g = f ∧ j = i
    · rw [if_pos h, h.1, h.2, hz]
    · rw [if_neg h, if_neg h]
  exact congrArg (fun phys => { m with phys := phys }) hphys

/-! `alloc_pages(1, ZONE_NORMAL)`. -/

theorem isRun_one {clear : Nat → Bool} {a : Nat} : IsRun clear 1 a ↔ clear a = true := by
  constructor
  · exact fun h => h a (Nat.le_refl a) (by omega)
  · intro h i h₁ h₂
    obtain rfl : i = a := by omega
    exact h

theorem allocOne_zoneFull {s : Sysmem} (h : ZoneFull s) : allocPages 1 zoneNormal s = (0, s) := by
  have h1 : (1 : U32).toNat = 1 := rfl
  rcases allocPages_runs 1 zoneNormal s with ⟨-, a, hlo, hhi, hrun, -⟩ | ⟨-, he⟩
  · rw [h1, isRun_one, beq_iff_eq] at hrun
    exact absurd hrun (h a hlo (by omega))
  · exact he

theorem newFrame_zero (h : ZoneFull m.sys) : newFrame m = 0 := by
  rw [newFrame, allocOne_zoneFull h]
  exact Nat.zero_div 4096

theorem allocOne_counts {s : Sysmem} (h : ¬ ZoneFull s) : (allocPages 1 zoneNormal s).2.freePages ≠ s.freePages := by
  have h1 : (1 : U32).toNat = 1 := rfl
  rcases allocPages_runs 1 zoneNormal s with ⟨-, a, -, -, -, -, he⟩ | ⟨hnone, -⟩
  · rw [he, markPagesUsed_freePages, h1]
    bv_omega
  · refine absurd (fun page hlo hhi hz => ?_) h
    have hno := hnone.resolve_left (by decide)
    exact hno page hlo (by rw [h1]; omega) (by rw [h1, isRun_one, beq_iff_eq]; exact hz)

/-! A region with a page table. -/

theorem removes_table (h : SelfMapped m) (hv : v ≠ 0) (hp : present (m.dir (pdeOf v)) = true) :
    (∃ m', unmapPage v m = some m' ∧ Removed v m m') ↔ OwnEntry v m := by
  obtain ⟨h₁, h₂⟩ := page_parts v
  have hown : m.Reads (v.toNat / 4096) (frameOf (m.dir (pdeOf v))) (pteOf v) := Or.inr ⟨by rw [h₁], h₂⟩
  constructor
  · rintro ⟨m', hm, hr⟩
    obtain rfl := Option.some.inj ((unmapPage_eq h hv hp).symm.trans hm)
    refine ⟨hp, fun page hpg hne hreads => ?_⟩
    have hsame := hr.others page hpg hne
    rw [walk_clearWord, if_pos hreads] at hsame
    exact hsame.symm
  · intro ho
    refine ⟨_, unmapPage_eq h hv hp, ?_, fun page hpg hne => ?_, rfl, rfl, rfl⟩
    · rw [walk_clearWord, if_pos hown]
    · rw [walk_clearWord]
      split
      · next hreads => exact (ho.own page hpg hne hreads).symm
      · rfl

theorem unmapPage_undo (h : SelfMapped m) (hv : v ≠ 0) (hp : present (m.dir (pdeOf v)) = true) (hz : m.entry v = 0)
    (e : U32) : unmapPage v (m.setWord (frameOf (m.dir (pdeOf v))) (pteOf v) e) = some m := by
  have hd := dir_setZero hz hp e
  have hs : SelfMapped (m.setWord (frameOf (m.dir (pdeOf v))) (pteOf v) e) := h.congr rfl (dir_setZero hz h.self e)
  rw [unmapPage_eq hs hv (by rw [hd]; exact hp), hd, setWord_undo hz]

theorem restores_of (h : SelfMapped m) (hv : v ≠ 0) (he : m.dir (pdeOf v) = 0 ∨ present (m.dir (pdeOf v)) = true)
    (ht : m.dir (pdeOf v) = 0 → newFrame m ≠ m.cr3)
    (hw : ∀ page, page / 1024 < 1023 → (m.withTable v).walk page = m.walk page) : Restores v m := by
  intro p m₁ hm
  rw [mapPage_eq h he ht] at hm
  split at hm
  · exact absurd (Prod.mk.inj (Option.some.inj hm)).1.symm hv
  · split at hm
    · exact absurd (Prod.mk.inj (Option.some.inj hm)).1.symm hv
    · next hz =>
      obtain rfl := (Prod.mk.inj (Option.some.inj hm)).2
      exact ⟨_, unmapPage_undo (withTable_self h ht) hv (withTable_table he ht).1 (not_not.mp hz) _, hw⟩

/-! A region without one, and no page to give. -/

def Machine.linkZero (m : Machine) (v : U32) : Machine :=
  m.setWord m.cr3 (pdeOf v) (0 ||| pPresent ||| pWrite ||| pUser)

theorem linkTaken_full (hf : ZoneFull m.sys) (v : U32) : m.linkTaken v = m.linkZero v := by
  have he := allocOne_zoneFull hf
  have hm : m.take = m := by rw [Machine.take, he]
  rw [Machine.linkTaken, hm, he]
  rfl

theorem walk_none_iff (m : Machine) (page : Nat) : m.walk page = none ↔ present (m.pte page) = false := by
  rw [walk_eq]
  cases present (m.pte page) <;> simp

theorem pte_missing {page : Nat} (hd : m.dir (page / 1024) = 0) : m.pte page = 0 := by
  rw [Machine.pte, hd, present_zero]
  rfl

/-- The entries of the region of `v` are the words of frame 0; those of other regions
are as before, but in an image of the directory. -/
theorem pte_linkZero (h : Recursive m) (page : Nat) :
    (page / 1024 = pdeOf v → (m.linkZero v).pte page = m.phys 0 (page % 1024)) ∧
      (page / 1024 ≠ pdeOf v → (present (m.dir (page / 1024)) = true → frameOf (m.dir (page / 1024)) ≠ m.cr3) →
        (m.linkZero v).pte page = m.pte page) := by
  obtain ⟨hpr, hfr⟩ := userEntry 0
  have hphys : ∀ g, g ≠ m.cr3 → ∀ j, (m.linkZero v).phys g j = m.phys g j := fun g hg j =>
    if_neg fun hc => hg hc.1
  constructor
  · intro hd
    rw [Machine.pte, Machine.linkZero, setDir_dir, if_pos hd, if_pos hpr, hfr]
    exact hphys 0 h.cr3_ne.symm _
  · intro hd hdir
    rw [Machine.pte, Machine.linkZero, setDir_dir, if_neg hd, Machine.pte]
    split
    · next hp => exact hphys _ (hdir hp) _
    · rfl

theorem reads_linkZero (h : Recursive m) (page : Nat) : (m.linkZero v).Reads page 0 (pteOf v) ↔
    (page / 1024 = pdeOf v ∨ frameOf (m.dir (page / 1024)) = 0) ∧ page % 1024 = pteOf v := by
  have hcr : (m.linkZero v).cr3 ≠ 0 := h.cr3_ne
  have hfr : frameOf (0 ||| pPresent ||| pWrite ||| pUser) = 0 := (userEntry 0).2
  rw [Machine.Reads, Machine.linkZero, setDir_dir]
  by_cases hd : page / 1024 = pdeOf v
  · rw [if_pos hd, hfr]
    exact ⟨fun hr => ⟨.inl hd, (hr.resolve_left fun hc => hcr hc.1).2⟩, fun hr => .inr ⟨rfl, hr.2⟩⟩
  · rw [if_neg hd]
    exact ⟨fun hr => ⟨.inr (hr.resolve_left fun hc => hcr hc.1).1, (hr.resolve_left fun hc => hcr hc.1).2⟩,
      fun hr => .inr ⟨hr.1.resolve_left hd, hr.2⟩⟩

theorem page_div (i : Nat) {j : Nat} (hj : j < 1024) : (i * 1024 + j) / 1024 = i ∧ (i * 1024 + j) % 1024 = j := by
  omega

theorem ne_of_present {i : Nat} (hz : m.dir (pdeOf v) = 0) (hp : present (m.dir i) = true) : i ≠ pdeOf v := by
  rintro rfl
  rw [hz] at hp
  cases hp

/-- The walk of another page once its word of frame 0 is cleared. -/
theorem Removed.kept (hr : Removed v m ((m.linkZero v).setWord 0 (pteOf v) 0)) {i j : Nat} (hi : i < 1023)
    (hj : j < 1024) (hne : i ≠ pdeOf v ∨ j ≠ pteOf v) :
    (if (m.linkZero v).Reads (i * 1024 + j) 0 (pteOf v) then none else (m.linkZero v).walk (i * 1024 + j)) =
      m.walk (i * 1024 + j) := by
  rw [← walk_clearWord]
  exact hr.others _ (by omega) (page_ne hj hne)

theorem harmless_words (h : Recursive m) (hz : m.dir (pdeOf v) = 0)
    (hr : Removed v m ((m.linkZero v).setWord 0 (pteOf v) 0)) {j : Nat} (hj : j < 1024) (hne : j ≠ pteOf v) :
    present (m.phys 0 j) = false := by
  have hdlt := pdeOf_lt v
  have hd : pdeOf v ≠ 1023 := h.toSelfMapped.ne hz
  obtain ⟨h₁, h₂⟩ := page_div (pdeOf v) hj
  have hw := hr.kept (by omega : pdeOf v < 1023) hj (.inr hne)
  have hno : ¬ (m.linkZero v).Reads (pdeOf v * 1024 + j) 0 (pteOf v) := fun hc =>
    hne (h₂.symm.trans ((reads_linkZero h _).1 hc).2)
  have hnone : m.walk (pdeOf v * 1024 + j) = none := by
    rw [walk_none_iff, pte_missing (by rw [h₁]; exact hz)]
    exact present_zero
  rw [if_neg hno, hnone, walk_none_iff, (pte_linkZero h _).1 h₁, h₂] at hw
  exact hw

theorem harmless_word (h : Recursive m) (hz : m.dir (pdeOf v) = 0)
    (hr : Removed v m ((m.linkZero v).setWord 0 (pteOf v) 0)) (hp : present (m.phys 0 (pteOf v)) = true) {i : Nat}
    (hi : i < 1023) (hpi : present (m.dir i) = true) : frameOf (m.dir i) ≠ 0 := by
  intro h0
  obtain ⟨h₁, h₂⟩ := page_div i (pteOf_lt v)
  have hw := hr.kept hi (pteOf_lt v) (.inl (ne_of_present hz hpi))
  rw [if_pos ((reads_linkZero h _).2 ⟨.inr (by rw [h₁]; exact h0), h₂⟩)] at hw
  have hpte := (walk_none_iff m _).1 hw.symm
  rw [Machine.pte, h₁, h₂, if_pos hpi, h0, hp] at hpte
  cases hpte

/-- Seen at the page of the new directory entry in the image of the directory. -/
theorem harmless_directory (h : Recursive m) (hz : m.dir (pdeOf v) = 0)
    (hr : Removed v m ((m.linkZero v).setWord 0 (pteOf v) 0)) {i : Nat} (hi : i < 1023)
    (hpi : present (m.dir i) = true) : frameOf (m.dir i) ≠ m.cr3 := by
  intro hc
  have hset := ne_of_present hz hpi
  obtain ⟨h₁, h₂⟩ := page_div i (pdeOf_lt v)
  have hw := hr.kept hi (pdeOf_lt v) (.inl hset)
  have hno : ¬ (m.linkZero v).Reads (i * 1024 + pdeOf v) 0 (pteOf v) := by
    rw [reads_linkZero h, h₁, hc]
    exact fun hr => hr.1.elim hset h.cr3_ne
  have hnone : m.walk (i * 1024 + pdeOf v) = none := by
    rw [walk_none_iff, Machine.pte, h₁, h₂, if_pos hpi, hc]
    show present (m.dir (pdeOf v)) = false
    rw [hz]
    exact present_zero
  have hpte : (m.linkZero v).pte (i * 1024 + pdeOf v) = 0 ||| pPresent ||| pWrite ||| pUser := by
    have hdir : (m.linkZero v).dir i = m.dir i := (setDir_dir i).trans (if_neg hset)
    rw [Machine.pte, h₁, h₂, hdir, if_pos hpi, hc]
    exact (setDir_dir (pdeOf v)).trans (if_pos rfl)
  rw [if_neg hno, hnone, walk_none_iff, hpte, (userEntry 0).1] at hw
  cases hw

theorem harmless_of_removed (h : Recursive m) (hz : m.dir (pdeOf v) = 0) (hf : ZoneFull m.sys)
    (hr : Removed v m ((m.linkZero v).setWord 0 (pteOf v) 0)) : HarmlessZero v m where
  missing := hz
  full := hf
  words _ hj hne := harmless_words h hz hr hj hne
  word hp _ hi hpi := harmless_word h hz hr hp hi hpi
  directory _ hi hpi := harmless_directory h hz hr hi hpi

theorem removed_of_harmless (h : Recursive m) (hh : HarmlessZero v m) :
    Removed v m ((m.linkZero v).setWord 0 (pteOf v) 0) := by
  obtain ⟨h₁, h₂⟩ := page_parts v
  refine ⟨?_, fun page hpg hne => ?_, rfl, rfl, rfl⟩
  · rw [walk_clearWord, if_pos ((reads_linkZero h _).2 ⟨.inl h₁, h₂⟩)]
  · rw [walk_clearWord]
    by_cases hd : page / 1024 = pdeOf v
    · -- another page of the region: it goes by a word of frame 0, and had no table
      have hj : page % 1024 ≠ pteOf v := fun hc => hne (by omega)
      have hno : ¬ (m.linkZero v).Reads page 0 (pteOf v) := fun hc => hj ((reads_linkZero h _).1 hc).2
      have hnone : (m.linkZero v).walk page = none := by
        rw [walk_none_iff, (pte_linkZero h _).1 hd]
        exact hh.words _ (by omega) hj
      rw [if_neg hno, hnone, eq_comm, walk_none_iff, pte_missing (by rw [hd]; exact hh.missing)]
      exact present_zero
    · have hpte := (pte_linkZero h page).2 hd (hh.directory _ hpg)
      split
      · next hr =>
        obtain ⟨h0, hj⟩ := (reads_linkZero h _).1 hr
        rw [eq_comm, walk_none_iff, Machine.pte, h0.resolve_left hd, hj]
        split
        · next hp =>
          by_contra hc
          exact hh.word (by simpa using hc) _ hpg hp (h0.resolve_left hd)
        · exact present_zero
      · rw [walk_eq, walk_eq, hpte]

/-- The frame taken is the table, and what it holds the translation. -/
theorem removes_missing (h : Recursive m) (hv : v ≠ 0) (hz : m.dir (pdeOf v) = 0) :
    (∃ m', unmapPage v m = some m' ∧ Removed v m m') ↔ HarmlessZero v m := by
  have hself : (m.linkTaken v).dir (pdeOf v) = (allocPages 1 zoneNormal m.sys).1 ||| pPresent ||| pWrite ||| pUser := by
    rw [linkTaken_dir, if_pos rfl]
  obtain ⟨hpr, hfr⟩ := userEntry (allocPages 1 zoneNormal m.sys).1
  have hrun := unmapPage_touched (linkTaken_self h.toSelfMapped (h.ne hz)) hv (touch_links h.toSelfMapped hz)
    (by rw [hself]; exact hpr)
  rw [hself, hfr] at hrun
  by_cases hf : ZoneFull m.sys
  · rw [linkTaken_full hf, allocOne_zoneFull hf] at hrun
    have h0 : (0 : U32).toNat / 4096 = 0 := by decide
    simp only [h0] at hrun
    refine ⟨fun ⟨m', hm, hr⟩ => ?_, fun hh => ⟨_, hrun, removed_of_harmless h hh⟩⟩
    obtain rfl := Option.some.inj (hrun.symm.trans hm)
    exact harmless_of_removed h hz hf hr
  · refine iff_of_false ?_ fun hc => hf hc.full
    rintro ⟨m', hm, hr⟩
    obtain rfl := Option.some.inj (hrun.symm.trans hm)
    exact allocOne_counts hf hr.freePages

/-- Frame 0, made a table of zeros for `v`, translates nothing, as before. -/
theorem withTable_harmless (h : Recursive m) (hh : HarmlessZero v m) {page : Nat} (hpg : page / 1024 < 1023) :
    (m.withTable v).walk page = m.walk page := by
  have ht : m.dir (pdeOf v) = 0 → newFrame m ≠ m.cr3 := fun _ => by
    rw [newFrame_zero hh.full]
    exact h.cr3_ne.symm
  have hlt : page % 1024 < 1024 := by omega
  have hphys : ∀ f, f ≠ m.cr3 → (m.withTable v).phys f (page % 1024) = if f = 0 then 0 else m.phys f (page % 1024) := by
    intro f hf
    have hnew : (m.withTable v).phys f (page % 1024) =
        if f = newFrame m ∧ 0 ≤ page % 1024 ∧ page % 1024 < 0 + 1024 then 0
        else if f = m.cr3 ∧ page % 1024 = pdeOf v then (allocPages 1 zoneNormal m.sys).1 ||| pPresent ||| pWrite
        else m.phys f (page % 1024) := by
      rw [Machine.withTable, if_pos hh.missing]
      rfl
    have hoff : ¬ (f = m.cr3 ∧ page % 1024 = pdeOf v) := fun hc => hf hc.1
    rw [hnew, newFrame_zero hh.full, if_neg hoff]
    simp [hlt]
  have hdir := withTable_dir ht (page / 1024)
  by_cases hd : page / 1024 = pdeOf v
  · -- a new table of zeros
    obtain ⟨hpr, hfr⟩ := newEntry (allocPages 1 zoneNormal m.sys).1
    have hfr : frameOf ((allocPages 1 zoneNormal m.sys).1 ||| pPresent ||| pWrite) = 0 :=
      hfr.trans (newFrame_zero hh.full)
    have hpte : (m.withTable v).pte page = 0 := by
      rw [if_pos ⟨hd, hh.missing⟩] at hdir
      rw [Machine.pte, hdir, if_pos hpr, hfr, hphys 0 h.cr3_ne.symm, if_pos rfl]
    rw [walk_eq, walk_eq, hpte, pte_missing (by rw [hd]; exact hh.missing)]
  · rw [if_neg fun hc => hd hc.1] at hdir
    by_cases hp : present (m.dir (page / 1024)) = true
    · by_cases h0 : frameOf (m.dir (page / 1024)) = 0
      · -- a table in frame 0: its words were as good as 0
        have hpte : (m.withTable v).pte page = 0 := by
          rw [Machine.pte, hdir, if_pos hp, h0, hphys 0 h.cr3_ne.symm, if_pos rfl]
        have hold : present (m.pte page) = false := by
          rw [Machine.pte, if_pos hp, h0]
          by_cases hj : page % 1024 = pteOf v
          · by_contra hc
            rw [hj] at hc
            exact hh.word (by simpa using hc) _ hpg hp h0
          · exact hh.words _ hlt hj
        rw [(walk_none_iff m page).2 hold, walk_none_iff, hpte]
        exact present_zero
      · rw [walk_eq, walk_eq, Machine.pte, Machine.pte, hdir, hphys _ (hh.directory _ hpg hp), if_neg h0]
    · rw [walk_eq, walk_eq, Machine.pte, Machine.pte, hdir, if_neg hp, if_neg hp]

end

/-- **`__unmap_page` removes one translation and nothing else**, and undoes `__map_page`, if and only
if `v` has a page table and its entry to itself, or the fault handler has no page and links frame 0
without harm. -/
theorem unmapPage_iff {m : Machine} {v : U32} (h : Recursive m) (hv : v ≠ 0) :
    Unmaps v m ↔ OwnEntry v m ∨ HarmlessZero v m := by
  have hself := h.toSelfMapped
  have hstuck : present (m.dir (pdeOf v)) = false → m.dir (pdeOf v) ≠ 0 → unmapPage v m = none := by
    intro hn hz
    rw [unmapPage, if_neg hv, touch_stuck hself hn hz, Option.bind_none]
  constructor
  · rintro ⟨hrem, -⟩
    cases hp : present (m.dir (pdeOf v)) with
    | true => exact .inl ((removes_table hself hv hp).1 hrem)
    | false =>
      by_cases hz : m.dir (pdeOf v) = 0
      · exact .inr ((removes_missing h hv hz).1 hrem)
      · obtain ⟨m', hm, -⟩ := hrem
        rw [hstuck hp hz] at hm
        cases hm
  · rintro (ho | hh)
    · have hz : m.dir (pdeOf v) ≠ 0 := fun hc => absurd (hc ▸ ho.table) (by decide)
      refine ⟨(removes_table hself hv ho.table).2 ho, ?_⟩
      refine restores_of hself hv (.inr ho.table) (fun hc => absurd hc hz) fun page _ => ?_
      rw [withTable_set hz]
    · refine ⟨(removes_missing h hv hh.missing).2 hh, restores_of hself hv (.inl hh.missing) (fun _ => ?_) ?_⟩
      · rw [newFrame_zero hh.full]
        exact h.cr3_ne.symm
      · exact fun page hpg => withTable_harmless h hh hpg

/-- In a directory whose entries are in order the entry of a page is its own. -/
theorem ownEntry_of_dirOk {m : Machine} {v : U32} (h : DirOk m) (hv : pdeOf v ≠ 1023)
    (hp : present (m.dir (pdeOf v)) = true) : OwnEntry v m := by
  refine ⟨hp, fun page hpg hne hreads => ?_⟩
  obtain ⟨h₁, h₂⟩ := page_parts v
  rcases hreads with ⟨hc, -⟩ | ⟨hf, hj⟩
  · exact absurd hc.symm (h.table_ne (pdeOf_lt v) hv hp)
  · -- a present entry with the same frame would be the same entry
    by_contra hw
    have hpp : present (m.dir (page / 1024)) = true := by
      by_contra hc
      exact hw ((walk_none_iff m page).2 (by rw [Machine.pte, if_neg hc]; exact present_zero))
    have hsame := h.distinct _ (by omega) _ (pdeOf_lt v) hpp hp hf
    exact hne (by omega)

/-- The machine as `start.asm` leaves it: any page of the first 4 MB but the first. -/
theorem unmapPage_iff_sample : Unmaps 0x3000 sampleMachine := by
  have hok : DirOk sampleMachine := start_ok (by omega)
  exact (unmapPage_iff ⟨hok.toSelfMapped, by decide⟩ (by decide)).2
    (.inl (ownEntry_of_dirOk hok (by decide) (by decide)))

/-- At 4 MB, where no table is: frame 4096 becomes a page table as it is, the page
after that of `v` translates, and a page is used. -/
theorem unmapPage_installs : ∃ m', unmapPage 0x400000 sampleMachine = some m' ∧ sampleMachine.walk 1025 = none ∧
    m'.walk 1025 = some 0xFFFFF ∧ m'.sys.freePages ≠ sampleMachine.sys.freePages ∧ ¬ Unmaps 0x400000 sampleMachine := by
  have hself : SelfMapped sampleMachine := (start_ok (by omega)).toSelfMapped
  have hz : sampleMachine.dir (pdeOf 0x400000) = 0 := by decide
  have hp : present ((sampleMachine.linkTaken 0x400000).dir (pdeOf 0x400000)) = true := by
    rw [linkTaken_dir, if_pos rfl]
    exact (userEntry _).1
  have hrun := unmapPage_touched (linkTaken_self hself (by decide)) (by decide) (touch_links hself hz) hp
  have hcount : (sampleMachine.linkTaken 0x400000).sys.freePages ≠ sampleMachine.sys.freePages := by decide +kernel
  refine ⟨_, hrun, by decide, by decide +kernel, hcount, ?_⟩
  rintro ⟨⟨m', hm, hr⟩, -⟩
  obtain rfl := Option.some.inj (hrun.symm.trans hm)
  exact hcount hr.freePages

end LineOS
