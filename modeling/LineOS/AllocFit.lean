import LineOS.ZoneBounds

/- What `alloc_pages` answers, over every content of the bitmap: the lowest run of
   clear bits in the zone asked for, or NULL. `Requested` is the zone, `ZoneRun` a
   run inside it, and `FitsFirst` what a call does with them. That a run is never
   reported as NULL is a matter of runs of the allocator: page 0 is marked at the
   start and no call clears a bit (`Grows`). -/
namespace LineOS
open ByteMemory RunSearch

/-- `z` is the first zone one of whose flags is asked for. -/
structure Requested (flags : U32) (s : Sysmem) (z : Nat) : Prop where
  defined : z < s.numZones
  flag : flags &&& (s.zone z).allocationFlag ≠ 0
  first : ∀ y < z, flags &&& (s.zone y).allocationFlag = 0

/-- The `n` pages from `a` on are clear and in zone `z`, as far as there is memory. -/
structure ZoneRun (s : Sysmem) (z n a : Nat) : Prop where
  lo : (s.zone z).basePage ≤ a
  hi : a + n ≤ min (s.zone z).endPage s.totalPages
  clear : ∀ i, a ≤ i → i < a + n → i ∉ s.bitmap.toFinset

def Servable (pages flags : U32) (s : Sysmem) : Prop :=
  pages ≠ 0 ∧ ∃ z a, Requested flags s z ∧ ZoneRun s z pages.toNat a

/-- The call marks the lowest run and returns its address, or returns NULL and changes nothing. -/
structure FitsFirst (pages flags : U32) (s : Sysmem) : Prop where
  found : ∀ z a, pages ≠ 0 → Requested flags s z → ZoneRun s z pages.toNat a →
    (∀ b < a, ¬ ZoneRun s z pages.toNat b) →
    (allocPages pages flags s).1 = 4096 * BitVec.ofNat 32 a ∧
      (allocPages pages flags s).2.bitmap.toFinset = s.bitmap.toFinset ∪ Finset.Ico a (a + pages.toNat) ∧
      SameTable s (allocPages pages flags s).2
  refused : ¬ Servable pages flags s → allocPages pages flags s = (0, s)

section
variable {s s' s'' : Sysmem} {pages flags : U32} {total : Nat}

/-! The zone. -/

theorem Requested.bounds {z : Nat} (h : Requested flags s z) :
    zoneBounds flags s = ((s.zone z).basePage, (s.zone z).endPage) := by
  have hfind : (List.range s.numZones).find? (fun i => flags &&& (s.zone i).allocationFlag != 0) = some z := by
    rw [List.find?_range_eq_some]
    refine ⟨by simpa using h.flag, List.mem_range.mpr h.defined, fun y hy => ?_⟩
    simp [h.first y hy]
  rw [zoneBounds, hfind]

theorem bounds_none (h : ¬ ∃ z, Requested flags s z) : zoneBounds flags s = (0, 0) := by
  have hfind : (List.range s.numZones).find? (fun i => flags &&& (s.zone i).allocationFlag != 0) = none := by
    rw [List.find?_eq_none]
    intro z hz hp
    -- the first of the zones that are asked for
    have hex : ∃ z, flags &&& (s.zone z).allocationFlag ≠ 0 := ⟨z, by simpa using hp⟩
    have hle : Nat.find hex ≤ z := Nat.find_min' hex (by simpa using hp)
    have hlt := List.mem_range.mp hz
    exact h ⟨Nat.find hex, by omega, Nat.find_spec hex, fun y hy => not_not.mp (Nat.find_min hex hy)⟩
  rw [zoneBounds, hfind]

theorem Requested.run_iff {z n a : Nat} (h : Requested flags s z) :
    ZoneRun s z n a ↔ (zoneRange flags s).1 ≤ a ∧ a + n ≤ (zoneRange flags s).2 ∧ FreeRun s n a := by
  rw [zoneRange, h.bounds]
  exact ⟨fun hr => ⟨hr.lo, hr.hi, hr.clear⟩, fun hr => ⟨hr.1, hr.2.1, hr.2.2⟩⟩

/-! One call. -/

/-- On pages that lie in zones and have bits, the call is an exact first fit. -/
theorem fitsFirst (ht : ZoneTable s) (pages flags : U32) : FitsFirst pages flags s := by
  have hspec := allocPages_spec ht pages flags
  refine ⟨fun z a hp hz hrun hlow => ?_, fun hno => ?_⟩
  · have hiff : ∀ b, ZoneRun s z pages.toNat b ↔ _ := fun b => hz.run_iff
    obtain ⟨_, c, hc, he⟩ | ⟨hnone, _⟩ := hspec
    · have hcz : ZoneRun s z pages.toNat c := (hiff c).mpr ⟨hc.lo, hc.hi, hc.free⟩
      -- both are the lowest run
      have hac : a = c := by
        have h₁ : ¬ c < a := fun hlt => hlow c hlt hcz
        have h₂ : ¬ a < c := fun hlt => hc.first a ((hiff a).mp hrun).1 hlt hrun.clear
        omega
      subst hac
      have hend : a + pages.toNat ≤ s.totalPages := hrun.hi.trans (min_le_right _ _)
      obtain ⟨hsame, hused⟩ := markPagesUsed_used ht a pages.toNat hend
      rw [he]
      refine ⟨?_, hused, hsame⟩
      show BitVec.ofNat 32 (a * 4096) = _
      rw [BitVec.ofNat_mul, BitVec.mul_comm]
      rfl
    · obtain ⟨hlo, hhi, hfree⟩ := (hiff a).mp hrun
      exact absurd hfree (hnone.resolve_left hp a hlo hhi)
  · obtain ⟨hp, c, hc, _⟩ | ⟨_, he⟩ := hspec
    · refine absurd ?_ hno
      have hex : ∃ z, Requested flags s z := by
        by_contra hz
        have hhi := hc.hi
        rw [zoneRange, bounds_none hz] at hhi
        have hpos : 0 < pages.toNat := by bv_omega
        simp only [] at hhi
        omega
      obtain ⟨z, hz⟩ := hex
      exact ⟨hp, z, c, hz, hz.run_iff.mpr ⟨hc.lo, hc.hi, hc.free⟩⟩
    · exact he

theorem lowest_run {z n a : Nat} (h : ZoneRun s z n a) : ∃ c ≤ a, ZoneRun s z n c ∧ ∀ b < c, ¬ ZoneRun s z n b := by
  classical
  have hex : ∃ c, ZoneRun s z n c := ⟨a, h⟩
  exact ⟨Nat.find hex, Nat.find_min' hex h, Nat.find_spec hex, fun b hb => Nat.find_min hex hb⟩

theorem TableOf.zoneTable (h : TableOf total s) (hl : s.bitmap.limit = total) (hle : total ≤ 2 ^ 30) : ZoneTable s := by
  have ht : ZoneTable { s with zone := (LineOS.zoneTable total).1 } := zoneTable_ok h.totalPages rfl h.numZones hl hle
  have hholds : ∀ i page, (s.zone i).Holds page ↔ ((LineOS.zoneTable total).1 i).Holds page := by
    intro i page
    rw [PageZone.Holds, PageZone.Holds, h.basePage, h.endPage]
  refine ⟨fun i hi j hj hf => ?_, fun page hp => ?_, fun page i hi j hj hih hjh => ?_, ht.limit, ht.total_le⟩
  · rw [h.flag, h.flag] at hf
    exact ht.flags i hi j hj hf
  · obtain ⟨i, hi, hh⟩ := ht.covered page hp
    exact ⟨i, hi, (hholds i page).mpr hh⟩
  · exact ht.apart page i hi j hj ((hholds i page).mp hih) ((hholds j page).mp hjh)

/-! Runs. -/

/-- The table and the kernel's end stay, and no bit is cleared. -/
structure Grows (s s' : Sysmem) : Prop where
  table : ∀ total, TableOf total s → TableOf total s'
  limit : s'.bitmap.limit = s.bitmap.limit
  kernelEnd : s'.kernelEnd = s.kernelEnd
  used : s.used ⊆ s'.used

theorem Grows.refl (s : Sysmem) : Grows s s := ⟨fun _ h => h, rfl, rfl, Finset.Subset.refl _⟩

theorem Grows.trans (h : Grows s s') (h' : Grows s' s'') : Grows s s'' :=
  ⟨fun t ht => h'.table t (h.table t ht), h'.limit.trans h.limit, h'.kernelEnd.trans h.kernelEnd,
    h.used.trans h'.used⟩

theorem grows_getZone (page : Nat) (s : Sysmem) : Grows s (getZone page s).2 := by
  unfold getZone
  split
  · exact .refl s
  · exact ⟨fun _ h => ⟨h.totalPages, h.numZones, h.flag, h.basePage, h.endPage⟩, rfl, rfl, Finset.Subset.refl _⟩

theorem grows_countPage (j : Nat) (s : Sysmem) : Grows s (countPage j s) := by
  have hzone : ∀ i, ((countPage j s).zone i).allocationFlag = (s.zone i).allocationFlag ∧
      ((countPage j s).zone i).basePage = (s.zone i).basePage ∧ ((countPage j s).zone i).endPage = (s.zone i).endPage := by
    intro i
    show (Function.update s.zone j _ i).allocationFlag = _ ∧ _
    by_cases hi : i = j
    · subst hi
      simp [countPage]
    · simp [countPage, hi]
  exact ⟨fun _ h => ⟨h.totalPages, h.numZones, fun i => (hzone i).1.trans (h.flag i),
    fun i => (hzone i).2.1.trans (h.basePage i), fun i => (hzone i).2.2.trans (h.endPage i)⟩, rfl, rfl,
    Finset.Subset.refl _⟩

theorem bitset_any (b : Bitmap) (i : Nat) :
    (b.bitset i).2.limit = b.limit ∧ b.toFinset ⊆ (b.bitset i).2.toFinset ∧
    (i < b.limit → i ∈ (b.bitset i).2.toFinset) := by
  by_cases h : i < b.limit
  · obtain ⟨-, hl, hset⟩ := Bitmap.bitset_spec h
    rw [hset]
    exact ⟨hl, Finset.subset_insert _ _, fun _ => Finset.mem_insert_self _ _⟩
  · rw [Bitmap.bitset_out (by omega)]
    exact ⟨rfl, Finset.Subset.refl _, fun hi => absurd hi h⟩

theorem grows_markPage (s : Sysmem) (i : Nat) : Grows s (markPage s i) ∧
    (i < s.bitmap.limit → i ∈ (markPage s i).used) := by
  have hz := grows_getZone i s
  have hc := hz.trans (grows_countPage (zoneIndex (getZone i s).1 (getZone i s).2) (getZone i s).2)
  have hbit : (countPage (zoneIndex (getZone i s).1 (getZone i s).2) (getZone i s).2).bitmap = s.bitmap := by
    unfold getZone
    split <;> rfl
  unfold markPage
  simp only []
  generalize countPage (zoneIndex (getZone i s).1 (getZone i s).2) (getZone i s).2 = u at hc hbit ⊢
  obtain ⟨hl, hsub, hmem⟩ := bitset_any u.bitmap i
  have hb : Grows u { u with bitmap := (u.bitmap.bitset i).2 } :=
    ⟨fun _ h => ⟨h.totalPages, h.numZones, h.flag, h.basePage, h.endPage⟩, hl, rfl, hsub⟩
  have hb := hc.trans hb
  rw [hbit] at hmem
  split
  · exact ⟨⟨fun t ht => ⟨(hb.table t ht).totalPages, (hb.table t ht).numZones, (hb.table t ht).flag,
      (hb.table t ht).basePage, (hb.table t ht).endPage⟩, hb.limit, hb.kernelEnd, hb.used⟩, fun hi => hbit ▸ hmem hi⟩
  · exact ⟨hb, fun hi => hbit ▸ hmem hi⟩

theorem grows_marks : ∀ (is : List Nat) (s : Sysmem), Grows s (is.foldl markPage s)
  | [], s => .refl s
  | i :: is, s => (grows_markPage s i).1.trans (grows_marks is (markPage s i))

theorem grows_markPagesUsed (page n : Nat) (s : Sysmem) : Grows s (markPagesUsed page n s) := by
  have h := grows_marks (List.range' page ((page + n) % 2 ^ 32 - page)) s
  exact ⟨fun t ht => ⟨(h.table t ht).totalPages, (h.table t ht).numZones, (h.table t ht).flag,
    (h.table t ht).basePage, (h.table t ht).endPage⟩, h.limit, h.kernelEnd, h.used⟩

theorem grows_allocPages (pages flags : U32) (s : Sysmem) : Grows s (allocPages pages flags s).2 := by
  obtain ⟨-, a, -, -, -, -, he⟩ | ⟨-, he⟩ := allocPages_runs pages flags s
  · rw [he]
    exact grows_markPagesUsed a pages.toNat s
  · rw [he]
    exact .refl s

theorem PageReach.grows {s₀ : Sysmem} {rs : List (Nat × Nat)} (h : PageReach s₀ s rs) : Grows s₀ s := by
  induction h with
  | init => exact .refl _
  | alloc pages flags _ ih => exact ih.trans (grows_allocPages pages flags _)

theorem marksFrom_zero {n : Nat} (s : Sysmem) (hn : n + 1 < 2 ^ 32) :
    (markPagesUsed 0 (n + 1) s).used = ((List.range' 1 n).foldl markPage (markPage s 0)).used := by
  have hlen : (0 + (n + 1)) % 2 ^ 32 - 0 = n + 1 := by omega
  show ((List.range' 0 ((0 + (n + 1)) % 2 ^ 32 - 0)).foldl markPage s).used = _
  rw [hlen, List.range'_succ, List.foldl_cons]

/-- Wherever the image is, the first megabyte is marked last, and `kernel_end` moves behind the bitmap's pages. -/
theorem init_grown (kb : Nat) (ks ke es ee : U32) (raw : Nat → U8) :
    TableOf (kb / 4) (initPageAllocator es ee (initSysmem kb ks ke raw)) ∧
      (initPageAllocator es ee (initSysmem kb ks ke raw)).bitmap.limit = kb / 4 ∧
      (0 < kb / 4 → 0 ∈ (initPageAllocator es ee (initSysmem kb ks ke raw)).used) ∧
      (initPageAllocator es ee (initSysmem kb ks ke raw)).kernelEnd = ke + BitVec.ofNat 32 (bitmapPages (kb / 4) * 4096) := by
  obtain ⟨u, hu, he⟩ : ∃ u, Grows (initBitmap (initSysmem kb ks ke raw)) u ∧
      initPageAllocator es ee (initSysmem kb ks ke raw) =
        { markPagesUsed 0 256 u with
          kernelEnd := (markPagesUsed 0 256 u).kernelEnd + BitVec.ofNat 32 (bitmapPages (kb / 4) * 4096) } :=
    ⟨_, (grows_markPagesUsed _ _ _).trans (grows_markPagesUsed _ _ _), rfl⟩
  have htab := hu.table _ (initBitmap_table kb ks ke raw)
  have hlim : u.bitmap.limit = kb / 4 := hu.limit
  have hke : u.kernelEnd = ke := hu.kernelEnd
  have hm := grows_markPagesUsed 0 256 u
  -- page 0 is the first of them, and the others do not clear it
  have hzero : 0 < kb / 4 → 0 ∈ (markPagesUsed 0 256 u).used := by
    intro hpos
    obtain ⟨-, h0⟩ := grows_markPage u 0
    rw [marksFrom_zero (n := 255) u (by decide)]
    exact (grows_marks _ _).used (h0 (by omega))
  rw [he]
  generalize markPagesUsed 0 256 u = v at hm hzero
  have ht := hm.table _ htab
  refine ⟨⟨ht.totalPages, ht.numZones, ht.flag, ht.basePage, ht.endPage⟩, hm.limit.trans hlim, hzero, ?_⟩
  show v.kernelEnd + _ = _
  rw [hm.kernelEnd, hke]

end

/-- **`alloc_pages` is an exact first fit**, on every content of the bitmap and every zone table of `init_paging`;
and once `init_page_allocator` has run on memory that 32-bit addresses reach (the code's 32 MB or up to 4 GB), page 0
is in use, so that a run is not reported as address 0. -/
theorem alloc_first_fit :
    (∀ (total : Nat) (s : Sysmem), total ≤ 2 ^ 30 → TableOf total s → s.bitmap.limit = total →
      ∀ pages flags, FitsFirst pages flags s) ∧
    ∀ (kb : Nat) (ks ke es ee : U32) (raw : Nat → U8) (s : Sysmem) (rs : List (Nat × Nat)), kb ≤ 2 ^ 22 →
      PageReach (initPageAllocator es ee (initSysmem kb ks ke raw)) s rs → ∀ pages flags,
      FitsFirst pages flags s ∧ (Servable pages flags s → (allocPages pages flags s).1 ≠ 0) := by
  refine ⟨fun total s hle ht hl pages flags => fitsFirst (ht.zoneTable hl hle) pages flags, ?_⟩
  intro kb ks ke es ee raw s rs hkb h pages flags
  obtain ⟨htab, hlim, hzero, -⟩ := init_grown kb ks ke es ee raw
  have hg := h.grows
  have ht := hg.table _ htab
  have hfit := fitsFirst (ht.zoneTable (hg.limit.trans hlim) (by omega)) pages flags
  refine ⟨hfit, ?_⟩
  rintro ⟨hp, z, a, hz, hrun⟩
  obtain ⟨c, -, hc, hlow⟩ := lowest_run hrun
  have hpos : 0 < pages.toNat := by bv_omega
  have hend := hc.hi.trans (min_le_right _ _)
  rw [ht.totalPages] at hend
  have hne : c ≠ 0 := by
    rintro rfl
    exact hc.clear 0 (Nat.le_refl 0) (by omega) (hg.used (hzero (by omega)))
  rw [(hfit.found z c hp hz hc hlow).1]
  bv_omega

/-- Five pages of `samplePages`, in the normal zone. -/
theorem alloc_first_fit_sample : FitsFirst 5 zoneNormal samplePages ∧ Servable 5 zoneNormal samplePages ∧
    (allocPages 5 zoneNormal samplePages).1 ≠ 0 := by
  obtain ⟨htab, hlim, -⟩ := init_grown (32 * 1024) 0xC0000000 0xC0028000 0x100003 0x128003 (fun _ => 0xFF)
  have hfit : FitsFirst 5 zoneNormal samplePages :=
    alloc_first_fit.1 (32 * 1024 / 4) samplePages (by decide) htab hlim 5 zoneNormal
  obtain ⟨-, hne⟩ := alloc_first_fit.2 (32 * 1024) 0xC0000000 0xC0028000 0x100003 0x128003 (fun _ => 0xFF)
    samplePages [] (by decide) .init 5 zoneNormal
  have htab : TableOf (32 * 1024 / 4) samplePages := htab
  have hused : samplePages.used = Finset.range 297 :=
    (initPageAllocator_spec (k := 40) 0xC0000000 0xC0028000 (fun _ => 0xFF) (by decide) ⟨by decide, by decide⟩
      (by decide) (by decide)).2.2.1
  have hz : Requested zoneNormal samplePages 1 := by
    refine ⟨?_, ?_, ?_⟩
    · rw [htab.numZones]
      decide
    · rw [htab.flag]
      decide
    · simp only [htab.flag]
      decide
  have hrun : ZoneRun samplePages 1 5 4096 := by
    refine ⟨?_, ?_, fun i hi _ hm => ?_⟩
    · rw [htab.basePage]
      decide
    · rw [htab.endPage, htab.totalPages]
      decide
    · have hm : i ∈ Finset.range 297 := hused ▸ hm
      have := Finset.mem_range.mp hm
      omega
  have hserv : Servable 5 zoneNormal samplePages := ⟨by decide, 1, 4096, hz, hrun⟩
  exact ⟨hfit, hserv, hne hserv⟩

end LineOS
