import LineOS.PageRun

/- How the bounds of a zone are read. `__get_zone` takes `end_page` for the zone's
   last page, `alloc_pages` for the page behind it, and `init_paging` sets it now
   to one, now to the other. `returned_iff` is what `alloc_pages` makes of a
   zone and `getZone_flag_iff` what `__get_zone` does; `zone_reads_iff` says for
   which amounts of memory they agree. -/
namespace LineOS
open ByteMemory RunSearch

/-- The zone table, but for the counters, is `init_paging`'s for `total` pages. -/
structure TableOf (total : Nat) (s : Sysmem) : Prop where
  totalPages : s.totalPages = total
  numZones : s.numZones = (zoneTable total).2
  flag : ∀ i, (s.zone i).allocationFlag = ((zoneTable total).1 i).allocationFlag
  basePage : ∀ i, (s.zone i).basePage = ((zoneTable total).1 i).basePage
  endPage : ∀ i, (s.zone i).endPage = ((zoneTable total).1 i).endPage

theorem initBitmap_table (kb : Nat) (ks ke : U32) (raw : Nat → U8) :
    TableOf (kb / 4) (initBitmap (initSysmem kb ks ke raw)) :=
  ⟨rfl, rfl, fun _ => rfl, fun _ => rfl, fun _ => rfl⟩

theorem SameTable.tableOf {total : Nat} {s s' : Sysmem} (h : SameTable s s') (ht : TableOf total s) :
    TableOf total s' :=
  ⟨h.totalPages.trans ht.totalPages, h.numZones.trans ht.numZones, fun i => (h.flag i).trans (ht.flag i),
    fun i => (h.basePage i).trans (ht.basePage i), fun i => (h.endPage i).trans (ht.endPage i)⟩

/-! The flags are distinct bits. -/

theorem zoneTable_flag (total : Nat) : (zoneTable total).2 ≤ 3 ∧
    ∀ i < (zoneTable total).2, ((zoneTable total).1 i).allocationFlag = (1 : U32) <<< i := by
  unfold zoneTable
  split
  · refine ⟨by simp, fun i hi => ?_⟩
    have hi : i = 0 ∨ i = 1 := by simp only [] at hi; omega
    obtain rfl | rfl := hi <;> rfl
  · refine ⟨by simp, fun i hi => ?_⟩
    have hi : i = 0 ∨ i = 1 ∨ i = 2 := by simp only [] at hi; omega
    obtain rfl | rfl | rfl := hi <;> rfl

theorem flags_apart : ∀ i < 3, ∀ j < 3, ((1 : U32) <<< i &&& (1 : U32) <<< j != 0) = true → j = i := by
  decide

theorem flag_self : ∀ i < 3, ((1 : U32) <<< i &&& (1 : U32) <<< i != 0) = true := by
  decide

theorem TableOf.zoneBounds {total : Nat} {s : Sysmem} (h : TableOf total s) {i : Nat} (hi : i < s.numZones) :
    zoneBounds (s.zone i).allocationFlag s = ((s.zone i).basePage, (s.zone i).endPage) := by
  obtain ⟨h3, hflag⟩ := zoneTable_flag total
  have hf : ∀ j < s.numZones, (s.zone j).allocationFlag = (1 : U32) <<< j := by
    intro j hj
    rw [h.flag]
    exact hflag j (h.numZones ▸ hj)
  have hn := h.numZones
  have hfind : (List.range s.numZones).find?
      (fun j => (s.zone i).allocationFlag &&& (s.zone j).allocationFlag != 0) = some i := by
    refine find_range hi ?_ ?_
    · rw [hf i hi]
      exact flag_self i (by omega)
    · intro j hj hp
      rw [hf i hi, hf j hj] at hp
      exact flags_apart i (by omega) j (by omega) hp
  rw [LineOS.zoneBounds, hfind]

/-! What `alloc_pages` can return. -/

/-- With some contents of the bitmap, a call of `alloc_pages` takes the page: it
answers with the address of a range the page lies in, and marks it. (Of page 0
the address is NULL.) -/
def Returned (flag : U32) (page : Nat) (s : Sysmem) : Prop :=
  ∃ (byte : Nat → U8) (pages : U32) (a : Nat), a ≤ page ∧ page < a + pages.toNat ∧
    let s := { s with bitmap := { s.bitmap with byte := byte } }
    (allocPages pages flag s).1 = BitVec.ofNat 32 (a * 4096) ∧ page ∉ s.used ∧
      page ∈ (allocPages pages flag s).2.used

section
variable {s : Sysmem}

/-- The bitmap's contents do not matter to the table. -/
theorem ZoneTable.withBytes (ht : ZoneTable s) (byte : Nat → U8) :
    ZoneTable { s with bitmap := { s.bitmap with byte := byte } } :=
  ⟨ht.flags, ht.covered, ht.apart, ht.limit, ht.total_le⟩

theorem alloc_takes (ht : ZoneTable s) {pages flags : U32} {page : Nat} (hn : page ∉ s.used)
    (hu : page ∈ (allocPages pages flags s).2.used) :
    (zoneRange flags s).1 ≤ page ∧ page < (zoneRange flags s).2 := by
  obtain ⟨_, a, hrun, he⟩ | ⟨_, he⟩ := allocPages_spec ht pages flags
  · have hhi : a + pages.toNat ≤ s.totalPages := hrun.hi.trans (min_le_right _ _)
    rw [he, (markPagesUsed_used ht a pages.toNat hhi).2, Finset.mem_union, Finset.mem_Ico] at hu
    have hin := hu.resolve_left hn
    have hlo := hrun.lo
    have hhi := hrun.hi
    omega
  · rw [he] at hu
    exact absurd hu hn

/-- On an empty bitmap, a request that ends at the page takes it. -/
theorem alloc_reaches (ht : ZoneTable s) (he : s.used = ∅) {flags : U32} {page : Nat}
    (hlo : (zoneRange flags s).1 ≤ page) (hhi : page < (zoneRange flags s).2) :
    let pages := BitVec.ofNat 32 (page + 1 - (zoneRange flags s).1)
    page < (zoneRange flags s).1 + pages.toNat ∧
      (allocPages pages flags s).1 = BitVec.ofNat 32 ((zoneRange flags s).1 * 4096) ∧
      page ∈ (allocPages pages flags s).2.used := by
  intro pages
  have htot : (zoneRange flags s).2 ≤ s.totalPages := min_le_right _ _
  have hle := ht.total_le
  have hp : pages.toNat = page + 1 - (zoneRange flags s).1 := by
    rw [BitVec.toNat_ofNat]
    omega
  have hfree : ∀ n a, FreeRun s n a := fun n a i _ _ => he ▸ Finset.notMem_empty i
  refine ⟨by omega, ?_⟩
  obtain ⟨_, a, hrun, ha⟩ | ⟨hnone, _⟩ := allocPages_spec ht pages flags
  · -- nothing is in use: the first run is the one at the zone's first page
    have hbase : a = (zoneRange flags s).1 := by
      have h₁ := hrun.lo
      have h₂ : ¬ (zoneRange flags s).1 < a := fun h => hrun.first _ le_rfl h (hfree _ _)
      omega
    subst hbase
    have hend : (zoneRange flags s).1 + pages.toNat ≤ s.totalPages := hrun.hi.trans htot
    rw [ha]
    refine ⟨rfl, ?_⟩
    rw [(markPagesUsed_used ht _ _ hend).2, Finset.mem_union, Finset.mem_Ico]
    omega
  · obtain h₀ | hno := hnone
    · have hz : (0 : U32).toNat = 0 := rfl
      rw [h₀, hz] at hp
      omega
    · exact absurd (hfree _ _) (hno (zoneRange flags s).1 le_rfl (by omega))

/-- **What `alloc_pages` makes of a zone**: the pages from its base up to, not
including, its end. -/
theorem returned_iff (ht : ZoneTable s) (flag : U32) (page : Nat) :
    Returned flag page s ↔ (zoneRange flag s).1 ≤ page ∧ page < (zoneRange flag s).2 := by
  refine ⟨?_, fun ⟨hlo, hhi⟩ => ?_⟩
  · rintro ⟨byte, pages, a, _, _, _, hn, hu⟩
    exact alloc_takes (ht.withBytes byte) hn hu
  · have hempty : Sysmem.used { s with bitmap := { s.bitmap with byte := fun _ => 0 } } = ∅ := by
      ext i
      simp [Sysmem.used, Bitmap.bit]
    obtain ⟨hend, hr, hu⟩ := alloc_reaches (ht.withBytes (fun _ => 0)) hempty hlo hhi
    refine ⟨fun _ => 0, _, _, hlo, hend, hr, ?_, hu⟩
    rw [hempty]
    exact Finset.notMem_empty page

end

/-! Both readings together. -/

/-- The zone bounds are read the same way everywhere. -/
structure ZoneReads (s : Sysmem) : Prop where
  one : ∀ page < s.totalPages, ∃! i, i < s.numZones ∧ (s.zone i).Holds page
  found : ∀ page < s.totalPages, (getZone page s).2 = s ∧ zoneIndex (getZone page s).1 s < s.numZones
  returned : ∀ i < s.numZones, ∀ page, Returned (s.zone i).allocationFlag page s ↔
    page < s.totalPages ∧ (getZone page s).1 = (s.zone i).allocationFlag

/-- They are when no page of memory is the last number of its zone. -/
theorem zoneReads_iff {total : Nat} {s : Sysmem} (ht : ZoneTable s) (h : TableOf total s) :
    ZoneReads s ↔ ∀ i < s.numZones, (s.zone i).basePage ≤ (s.zone i).endPage →
      s.totalPages ≤ (s.zone i).endPage := by
  have hrange : ∀ i < s.numZones, zoneRange (s.zone i).allocationFlag s =
      ((s.zone i).basePage, min (s.zone i).endPage s.totalPages) := by
    intro i hi
    rw [zoneRange, h.zoneBounds hi]
  refine ⟨fun hr i hi hbe => ?_, fun hall => ⟨?_, ?_, ?_⟩⟩
  · -- `__get_zone` puts the last page into the zone, `alloc_pages` never returns it
    refine Nat.le_of_not_lt fun hlt => ?_
    have hflag := (getZone_flag_iff ht hlt hi).mpr ⟨hbe, le_rfl⟩
    have hret := (hr.returned i hi (s.zone i).endPage).mpr ⟨hlt, hflag⟩
    rw [returned_iff ht, hrange i hi] at hret
    have hmin : (s.zone i).endPage < min (s.zone i).endPage s.totalPages := hret.2
    omega
  · intro page hp
    obtain ⟨i, hi, hh⟩ := ht.covered page hp
    exact ⟨i, ⟨hi, hh⟩, fun j hj => ht.apart page j hj.1 i hi hj.2 hh⟩
  · intro page hp
    obtain ⟨i, hi, _, hg, hx⟩ := getZone_spec ht hp
    rw [hg]
    refine ⟨rfl, ?_⟩
    show zoneIndex (s.zone i).allocationFlag s < s.numZones
    rw [hx]
    exact hi
  · intro i hi page
    rw [returned_iff ht, hrange i hi]
    have hend := hall i hi
    constructor
    · intro h
      obtain ⟨hlo, hhi⟩ := h
      have hp : page < s.totalPages := by simp only [] at hhi; omega
      refine ⟨hp, (getZone_flag_iff ht hp hi).mpr ⟨hlo, ?_⟩⟩
      simp only [] at hhi
      omega
    · intro h
      obtain ⟨hp, hg⟩ := h
      obtain ⟨hlo, hhi⟩ := (getZone_flag_iff ht hp hi).mp hg
      have := hend (by omega)
      exact ⟨hlo, by simp only []; omega⟩

/-- **The zone bounds are read the same way exactly below 16 MB.** From there on
page `0xfff` is one of the DMA zone's for `__get_zone`, and none for
`alloc_pages`. -/
theorem zone_reads_iff (kb ks ke : U32) (raw : Nat → U8) :
    ZoneReads (initBitmap (initSysmem kb.toNat ks ke raw)) ↔ kb.toNat < 16 * 1024 := by
  have hkb := kb.isLt
  have htab := initBitmap_table kb.toNat ks ke raw
  rw [zoneReads_iff (initBitmap_ok hkb ks ke raw).1 htab]
  rw [htab.totalPages, htab.numZones]
  refine ⟨fun h => ?_, fun hlt i hi hbe => ?_⟩
  · have h0 := h 0 (by unfold zoneTable; split <;> simp)
    rw [htab.basePage, htab.endPage] at h0
    have hdma : ((zoneTable (kb.toNat / 4)).1 0).basePage = 0 ∧
        ((zoneTable (kb.toNat / 4)).1 0).endPage = 0xfff := by
      unfold zoneTable
      split <;> exact ⟨rfl, rfl⟩
    rw [hdma.1, hdma.2] at h0
    have := h0 (by omega)
    omega
  · rw [htab.basePage, htab.endPage] at hbe
    rw [htab.endPage]
    have hsmall : kb.toNat / 4 ≤ 0x36fff := by omega
    unfold zoneTable at hi hbe ⊢
    rw [if_pos hsmall] at hi hbe ⊢
    have hi : i = 0 ∨ i = 1 := by simp only [] at hi; omega
    obtain rfl | rfl := hi
    · show kb.toNat / 4 ≤ 0xfff
      omega
    · -- memory ends below the zone's base
      have : 0x1000 ≤ kb.toNat / 4 := hbe
      omega

/-- With the 32 MB of `init_paging`, page `0xfff` belongs to the DMA zone and is
never returned for its flag. -/
theorem zone_reads_32mb :
    let s := initBitmap (initSysmem (32 * 1024) 0xC0000000 0xC0028000 (fun _ => 0xFF))
    0xfff < s.totalPages ∧ (getZone 0xfff s).1 = zoneDma ∧ ¬ Returned zoneDma 0xfff s ∧ ¬ ZoneReads s := by
  intro s
  have ht : ZoneTable s := (initBitmap_ok (by decide) _ _ _).1
  have hret : ¬ Returned zoneDma 0xfff s := by
    rw [returned_iff ht]
    decide
  have hp : 0xfff < s.totalPages ∧ (getZone 0xfff s).1 = zoneDma := by decide
  exact ⟨hp.1, hp.2, hret, fun h => hret ((h.returned 0 (by decide) 0xfff).mpr hp)⟩

end LineOS
