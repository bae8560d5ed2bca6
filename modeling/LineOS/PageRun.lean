import LineOS.PageInv
import Mathlib.Order.Disjoint

/- Runs of the page frame allocator: the state `init_page_allocator` leaves, then
   any sequence of `alloc_pages` calls. `initPageAllocator_spec` says which pages
   are reserved, `alloc_inv` is one call, `page_run_inv` every run, and
   `page_accounting` reads off them that the counts agree with the bitmap and
   that no page is handed out twice. -/
namespace LineOS
open ByteMemory RunSearch

/-- The entries `init_page_allocator` reads map the kernel's start and end to the
image of `k` pages at 1 MB, where `link.ld` places it. -/
structure KernelImage (k : Nat) (startEntry endEntry : U32) : Prop where
  start : peMaskFlags startEntry = 0x100000
  stop : peMaskFlags endEntry = BitVec.ofNat 32 (0x100000 + k * 4096)

/-- The pages granted after a call that returned `p`: NULL grants none. -/
def granted (p pages : U32) (rs : List (Nat × Nat)) : List (Nat × Nat) :=
  if p = 0 then rs else (p.toNat / 4096, pages.toNat) :: rs

/-- `PageReach s₀ s rs`: some calls of `alloc_pages` lead from `s₀` to `s`, and `rs`
are the page ranges they returned, latest first. -/
inductive PageReach (s₀ : Sysmem) : Sysmem → List (Nat × Nat) → Prop
  | init : PageReach s₀ s₀ []
  | alloc {s rs} (pages flags : U32) : PageReach s₀ s rs →
      PageReach s₀ (allocPages pages flags s).2 (granted (allocPages pages flags s).1 pages rs)

def pagesOf (r : Nat × Nat) : Finset Nat := Finset.Ico r.1 (r.1 + r.2)

/-- Every granted range is in use, apart from the others and from `reserved`. -/
structure PageInv (reserved : Finset Nat) (s : Sysmem) (rs : List (Nat × Nat)) : Prop where
  table : ZoneTable s
  counted : Counted s
  small : s.totalPages ≤ 2 ^ 20
  kept : reserved ⊆ s.used
  inUse : ∀ r ∈ rs, pagesOf r ⊆ s.used
  apart : rs.Pairwise (fun x y => Disjoint (pagesOf x) (pagesOf y))
  fresh : ∀ r ∈ rs, Disjoint (pagesOf r) reserved

/-! Initialisation. -/

theorem zoneTable_ok {s : Sysmem} {total : Nat} (ht : s.totalPages = total) (hz : s.zone = (zoneTable total).1)
    (hn : s.numZones = (zoneTable total).2) (hl : s.bitmap.limit = total) (hle : total ≤ 2 ^ 30) :
    ZoneTable s := by
  unfold zoneTable at hz hn
  split at hz
  · next h =>
      -- too little memory for a high memory zone: two zones
    rw [if_pos h] at hn
    simp only [] at hz hn
    refine ⟨?_, ?_, ?_, by rw [hl, ht], by rw [ht]; exact hle⟩
    · intro i hi j hj
      rw [hn] at hi hj
      have hi' : i = 0 ∨ i = 1 := by omega
      have hj' : j = 0 ∨ j = 1 := by omega
      rcases hi' with rfl | rfl <;> rcases hj' with rfl | rfl <;> simp [hz, zoneDma, zoneNormal]
    · intro page hp
      rw [ht] at hp
      rw [hn, hz]
      by_cases hd : page ≤ 0xfff
      · exact ⟨0, by omega, by simp [PageZone.Holds]; omega⟩
      · exact ⟨1, by omega, by simp [PageZone.Holds]; omega⟩
    · intro page i hi j hj
      rw [hn] at hi hj
      have hi' : i = 0 ∨ i = 1 := by omega
      have hj' : j = 0 ∨ j = 1 := by omega
      rcases hi' with rfl | rfl <;> rcases hj' with rfl | rfl <;> simp [hz, PageZone.Holds] <;> omega
  · next h =>
      -- the high memory zone takes what is above the normal one
    rw [if_neg h] at hn
    simp only [] at hz hn
    refine ⟨?_, ?_, ?_, by rw [hl, ht], by rw [ht]; exact hle⟩
    · intro i hi j hj
      rw [hn] at hi hj
      have hi' : i = 0 ∨ i = 1 ∨ i = 2 := by omega
      have hj' : j = 0 ∨ j = 1 ∨ j = 2 := by omega
      rcases hi' with rfl | rfl | rfl <;> rcases hj' with rfl | rfl | rfl <;>
        simp [hz, zoneDma, zoneNormal, zoneHighmem]
    · intro page hp
      rw [ht] at hp
      rw [hn, hz]
      by_cases hd : page ≤ 0xfff
      · exact ⟨0, by omega, by simp [PageZone.Holds]; omega⟩
      · by_cases hm : page ≤ 0x36fff
        · exact ⟨1, by omega, by simp [PageZone.Holds]; omega⟩
        · exact ⟨2, by omega, by simp [PageZone.Holds]; omega⟩
    · intro page i hi j hj
      rw [hn] at hi hj
      have hi' : i = 0 ∨ i = 1 ∨ i = 2 := by omega
      have hj' : j = 0 ∨ j = 1 ∨ j = 2 := by omega
      rcases hi' with rfl | rfl | rfl <;> rcases hj' with rfl | rfl | rfl <;>
        simp [hz, PageZone.Holds] <;> omega

/-- The zones built for any amount of memory are in order, and count nothing yet. -/
theorem initBitmap_ok {kb : Nat} (hkb : kb < 2 ^ 32) (ks ke : U32) (raw : Nat → U8) :
    ZoneTable (initBitmap (initSysmem kb ks ke raw)) ∧ Counted (initBitmap (initSysmem kb ks ke raw)) ∧
      (initBitmap (initSysmem kb ks ke raw)).used = ∅ := by
  have hu : (initBitmap (initSysmem kb ks ke raw)).used = ∅ := Bitmap.init_toFinset _
  refine ⟨@zoneTable_ok _ (kb / 4) rfl rfl rfl rfl (by omega), ⟨?_, ?_⟩, hu⟩
  · rw [hu, Finset.card_empty]
    show (BitVec.ofNat 32 (kb / 4)).toNat + 0 = kb / 4
    rw [BitVec.toNat_ofNat]
    omega
  · intro j _
    rw [hu, Finset.filter_empty, Finset.card_empty]
    show (((zoneTable (kb / 4)).1 j).usedPages).toNat = 0
    unfold zoneTable
    split <;> simp only [] <;> split <;> first | rfl | (split <;> first | rfl | (split <;> rfl))

/-- `init_page_allocator` marks the image, the bitmap behind it and the first
megabyte, all of them clear before, and then moves the kernel's end. -/
theorem initPageAllocator_marks {kb k : Nat} {es ee : U32} (ks ke : U32) (raw : Nat → U8)
    (hkb : kb < 2 ^ 32) (himg : KernelImage k es ee) (hk : 256 + k < 2 ^ 20)
    (hfit : 256 + k + bitmapPages (kb / 4) ≤ kb / 4) :
    ∃ s, SameTable (initBitmap (initSysmem kb ks ke raw)) s ∧ Counted s ∧
      s.used = Finset.range (256 + k + bitmapPages (kb / 4)) ∧
      initPageAllocator es ee (initSysmem kb ks ke raw) =
        { s with kernelEnd := s.kernelEnd + BitVec.ofNat 32 (bitmapPages (kb / 4) * 4096) } := by
  obtain ⟨ht₀, hc₀, hu₀⟩ := initBitmap_ok hkb ks ke raw
  have htot : (initBitmap (initSysmem kb ks ke raw)).totalPages = kb / 4 := rfl
  have hlim : (initBitmap (initSysmem kb ks ke raw)).bitmap.limit = kb / 4 := rfl
  have e₁ : (0x100000 : U32).toNat / 4096 = 256 := by decide
  have e₂ : (BitVec.ofNat 32 (0x100000 + k * 4096)).toNat / 4096 = 256 + k := by
    rw [BitVec.toNat_ofNat]
    omega
  have e₃ : (BitVec.ofNat 32 (0x100000 + k * 4096) - 0x100000).toNat / 4096 = k := by
    have : BitVec.ofNat 32 (0x100000 + k * 4096) - 0x100000 = BitVec.ofNat 32 (k * 4096) := by
      bv_omega
    rw [this, BitVec.toNat_ofNat]
    omega
  simp only [initPageAllocator, hlim, himg.start, himg.stop, e₁, e₂, e₃]
  generalize bitmapPages (kb / 4) = bp at *
  generalize initBitmap (initSysmem kb ks ke raw) = s₀ at *
  -- the kernel image, then the bitmap behind it, then the first megabyte
  obtain ⟨hs₁, hc₁, hu₁⟩ := markPagesUsed_spec ht₀ hc₀ 256 k (by omega)
    (fun i _ _ => by rw [hu₀]; exact Finset.notMem_empty i)
  rw [hu₀, Finset.empty_union] at hu₁
  have ht₁ := hs₁.zoneTable ht₀
  obtain ⟨hs₂, hc₂, hu₂⟩ := markPagesUsed_spec ht₁ hc₁ (256 + k) bp
    (by rw [hs₁.totalPages]; omega) (fun i _ _ => by rw [hu₁, Finset.mem_Ico]; omega)
  rw [hu₁] at hu₂
  have hsame := hs₁.trans hs₂
  obtain ⟨hs₃, hc₃, hu₃⟩ := markPagesUsed_spec (hsame.zoneTable ht₀) hc₂ 0 256
    (by rw [hsame.totalPages]; omega)
    (fun i _ _ => by rw [hu₂, Finset.mem_union, Finset.mem_Ico, Finset.mem_Ico]; omega)
  rw [hu₂] at hu₃
  refine ⟨_, hsame.trans hs₃, hc₃, hu₃.trans ?_, rfl⟩
  ext i
  simp only [Finset.mem_union, Finset.mem_Ico, Finset.mem_range]
  omega

/-- **The pages in use after `init_page_allocator`** are the first megabyte, the
kernel image and the bitmap behind it. -/
theorem initPageAllocator_spec {kb k : Nat} {es ee : U32} (ks ke : U32) (raw : Nat → U8)
    (hkb : kb < 2 ^ 32) (himg : KernelImage k es ee) (hk : 256 + k < 2 ^ 20)
    (hfit : 256 + k + bitmapPages (kb / 4) ≤ kb / 4) :
    let s := initPageAllocator es ee (initSysmem kb ks ke raw)
    ZoneTable s ∧ Counted s ∧ s.used = Finset.range (256 + k + bitmapPages (kb / 4)) ∧
      s.totalPages = kb / 4 ∧ s.panics = [] ∧
      (∀ flags, zoneBounds flags s = zoneBounds flags (initSysmem kb ks ke raw)) ∧
      s.kernelEnd = ke + BitVec.ofNat 32 (bitmapPages (kb / 4) * 4096) := by
  obtain ⟨s, hs, hc, hu, he⟩ := initPageAllocator_marks ks ke raw hkb himg hk hfit
  have ht := hs.zoneTable (initBitmap_ok hkb ks ke raw).1
  simp only [he]
  refine ⟨⟨ht.flags, ht.covered, ht.apart, ht.limit, ht.total_le⟩, ⟨hc.free, hc.zones⟩, hu,
    hs.totalPages, hs.panics, fun flags => hs.zoneBounds_eq flags, ?_⟩
  rw [hs.kernelEnd]
  rfl

/-! Runs. -/

section
variable {reserved : Finset Nat} {s : Sysmem} {rs : List (Nat × Nat)}

theorem alloc_inv (h : PageInv reserved s rs) (pages flags : U32) :
    PageInv reserved (allocPages pages flags s).2 (granted (allocPages pages flags s).1 pages rs) := by
  rcases allocPages_spec h.table pages flags with ⟨hp, a, hrun, he⟩ | ⟨_, he⟩
  · have hhi : a + pages.toNat ≤ s.totalPages := hrun.hi.trans (min_le_right _ _)
    have hpos : 0 < pages.toNat := by bv_omega
    have hsmall := h.small
    obtain ⟨hs, hc, hu⟩ := markPagesUsed_spec h.table h.counted a pages.toNat hhi hrun.free
    have hsub : s.used ⊆ (markPagesUsed a pages.toNat s).used := hu ▸ Finset.subset_union_left
    have hnew : pagesOf (a, pages.toNat) ⊆ (markPagesUsed a pages.toNat s).used :=
      hu ▸ Finset.subset_union_right
    -- a run of clear pages misses every set of pages already in use
    have hdis : ∀ t ⊆ s.used, Disjoint (pagesOf (a, pages.toNat)) t := by
      intro t ht
      rw [Finset.disjoint_left]
      intro i hi hit
      obtain ⟨h₁, h₂⟩ := Finset.mem_Ico.mp hi
      exact hrun.free i h₁ h₂ (ht hit)
    have haddr : (BitVec.ofNat 32 (a * 4096)).toNat / 4096 = a := by
      rw [BitVec.toNat_ofNat]
      omega
    rw [he]
    refine ⟨hs.zoneTable h.table, hc, by rw [hs.totalPages]; exact hsmall, h.kept.trans hsub, ?_, ?_, ?_⟩ <;>
      simp only [granted] <;> split
    · exact fun r hr => (h.inUse r hr).trans hsub
    · rw [haddr]
      exact List.forall_mem_cons.mpr ⟨hnew, fun r hr => (h.inUse r hr).trans hsub⟩
    · exact h.apart
    · rw [haddr]
      exact List.pairwise_cons.mpr ⟨fun r hr => hdis _ (h.inUse r hr), h.apart⟩
    · exact h.fresh
    · rw [haddr]
      exact List.forall_mem_cons.mpr ⟨hdis _ h.kept, h.fresh⟩
  · rw [he]
    exact h

theorem page_run_inv {s₀ : Sysmem} (h₀ : PageInv reserved s₀ []) (h : PageReach s₀ s rs) :
    PageInv reserved s rs := by
  induction h with
  | init => exact h₀
  | alloc pages flags _ ih => exact alloc_inv ih pages flags

end

/-- The state after `init_paging`, with memory that is addressable. -/
theorem initPages_inv {kb k : Nat} {es ee : U32} (ks ke : U32) (raw : Nat → U8) (hkb : kb ≤ 2 ^ 22)
    (himg : KernelImage k es ee) (hfit : 256 + k + bitmapPages (kb / 4) ≤ kb / 4)
    (hk : 256 + k < 2 ^ 20) :
    PageInv (Finset.range (256 + k + bitmapPages (kb / 4))) (initPageAllocator es ee (initSysmem kb ks ke raw)) [] := by
  obtain ⟨ht, hc, hu, htot, _⟩ := initPageAllocator_spec ks ke raw (by omega) himg hk hfit
  exact ⟨ht, hc, by rw [htot]; omega, hu.ge, by simp, List.Pairwise.nil, by simp⟩

/-- On this machine: 32 MB, of which the image and one page of bitmap lie below
page `0xfff`. -/
theorem init_pageInv {k : Nat} {es ee : U32} (ks ke : U32) (raw : Nat → U8)
    (himg : KernelImage k es ee) (hfit : 256 + k + 1 ≤ 0xfff) :
    PageInv (Finset.range (256 + k + 1)) (initPageAllocator es ee (initSysmem (32 * 1024) ks ke raw)) [] := by
  have hb : bitmapPages (32 * 1024 / 4) = 1 := by decide
  have h := @initPages_inv (32 * 1024) k es ee ks ke raw (by omega) himg (by rw [hb]; omega) (by omega)
  rwa [hb] at h

/-- **The counts agree with the bitmap, and no page is granted twice.** After any
calls of `alloc_pages`: `free_pages` is what the bitmap leaves of `total_pages`;
each zone's `usedpages` counts the set bits that `__get_zone` puts in it; the
granted ranges are disjoint from one another and from the first megabyte, the
image and the bitmap. -/
theorem page_accounting {k : Nat} {es ee ks ke : U32} {raw : Nat → U8} {s : Sysmem}
    {rs : List (Nat × Nat)} (himg : KernelImage k es ee) (hfit : 256 + k + 1 ≤ 0xfff)
    (h : PageReach (initPageAllocator es ee (initSysmem (32 * 1024) ks ke raw)) s rs) :
    s.freePages.toNat + s.bitmap.toFinset.card = s.totalPages ∧
    (∀ j < s.numZones, (s.zone j).usedPages.toNat =
      (s.bitmap.toFinset.filter (fun page => (getZone page s).1 = (s.zone j).allocationFlag)).card) ∧
    rs.Pairwise (fun x y => Disjoint (pagesOf x) (pagesOf y)) ∧
    ∀ r ∈ rs, Disjoint (pagesOf r) (Finset.range (256 + k + 1)) := by
  have hi := page_run_inv (init_pageInv ks ke raw himg hfit) h
  refine ⟨hi.counted.free, ?_, hi.apart, hi.fresh⟩
  intro j hj
  rw [hi.counted.zones j hj]
  have hfilter : s.used.filter (fun page => (s.zone j).Holds page) =
      s.bitmap.toFinset.filter (fun page => (getZone page s).1 = (s.zone j).allocationFlag) := by
    refine Finset.filter_congr (fun page hp => ?_)
    have hlt := Bitmap.lt_limit hp
    rw [hi.table.limit] at hlt
    exact (getZone_flag_iff hi.table hlt hj).symm
  rw [hfilter]

/-- The allocator of an image of 40 pages. -/
def samplePages : Sysmem :=
  initPageAllocator 0x100003 0x128003 (initSysmem (32 * 1024) 0xC0000000 0xC0028000 (fun _ => 0xFF))

theorem FirstRun.allocPages {s : Sysmem} {pages flags : U32} {a : Nat} (h : FirstRun s flags pages.toNat a)
    (ht : ZoneTable s) (hp : pages ≠ 0) :
    allocPages pages flags s = (BitVec.ofNat 32 (a * 4096), markPagesUsed a pages.toNat s) := by
  rcases allocPages_spec ht pages flags with ⟨-, b, hb, he⟩ | ⟨hnone, -⟩
  · rcases Nat.lt_trichotomy a b with hlt | rfl | hlt
    · exact absurd h.free (hb.first a h.lo hlt)
    · exact he
    · exact absurd hb.free (h.first b hb.lo hlt)
  · exact absurd h.free (hnone.resolve_left hp a h.lo h.hi)

theorem samplePages_grants : ∃ s, PageReach samplePages s [(297, 3), (4096, 5)] := by
  obtain ⟨ht, hc, hu, htot, -, hz, -⟩ := @initPageAllocator_spec (32 * 1024) 40 0x100003 0x128003 0xC0000000 0xC0028000
    (fun _ => 0xFF) (by decide) ⟨by decide, by decide⟩ (by decide) (by decide)
  have hu : samplePages.used = Finset.range 297 := hu
  have hnormal : zoneRange zoneNormal samplePages = (4096, 8192) := by
    rw [zoneRange, samplePages, hz, htot]
    decide
  have h₁ : FirstRun samplePages zoneNormal (5 : U32).toNat 4096 := by
    refine ⟨by rw [hnormal], by rw [hnormal]; decide, fun i hi _ => ?_, fun b hb hlt => ?_⟩
    · rw [hu, Finset.mem_range]
      omega
    · rw [hnormal] at hb
      omega
  have e₁ := h₁.allocPages ht (by decide)
  obtain ⟨hs, hc₁, hu₁⟩ := markPagesUsed_spec ht hc 4096 5 (by rw [htot]; decide) fun i hi hlt => h₁.free i hi hlt
  have hdma : zoneRange zoneDma (markPagesUsed 4096 5 samplePages) = (0, 4095) := by
    rw [zoneRange, samplePages, hs.zoneBounds_eq, hz, hs.totalPages, htot]
    decide
  have hu₁ : (markPagesUsed 4096 5 samplePages).used = Finset.range 297 ∪ Finset.Ico 4096 (4096 + 5) := hu ▸ hu₁
  have h₂ : FirstRun (markPagesUsed 4096 5 samplePages) zoneDma (3 : U32).toNat 297 := by
    refine ⟨by rw [hdma]; decide, by rw [hdma]; decide, fun i hi hlt => ?_, fun b _ hlt hfree => ?_⟩
    · have h3 : (3 : U32).toNat = 3 := rfl
      rw [hu₁, Finset.mem_union, Finset.mem_range, Finset.mem_Ico]
      omega
    · refine hfree b (Nat.le_refl b) (Nat.lt_add_of_pos_right (by decide)) ?_
      rw [hu₁, Finset.mem_union, Finset.mem_range]
      exact .inl hlt
  have e₂ := h₂.allocPages (hs.zoneTable ht) (by decide)
  have hrun := PageReach.alloc 3 zoneDma (PageReach.alloc 5 zoneNormal (@PageReach.init samplePages))
  rw [e₁] at hrun
  dsimp only at hrun
  rw [show markPagesUsed 4096 (5 : U32).toNat samplePages = markPagesUsed 4096 5 samplePages from rfl, e₂] at hrun
  exact ⟨_, hrun⟩

theorem page_accounting_sample : ∃ s, PageReach samplePages s [(297, 3), (4096, 5)] ∧
    s.freePages.toNat + s.bitmap.toFinset.card = s.totalPages ∧
    (∀ j < s.numZones, (s.zone j).usedPages.toNat =
      (s.bitmap.toFinset.filter (fun page => (getZone page s).1 = (s.zone j).allocationFlag)).card) ∧
    Disjoint (pagesOf (297, 3)) (pagesOf (4096, 5)) ∧ Disjoint (pagesOf (297, 3)) (Finset.range 297) ∧
    Disjoint (pagesOf (4096, 5)) (Finset.range 297) := by
  obtain ⟨s, hs⟩ := samplePages_grants
  obtain ⟨hfree, hzones, hapart, hfresh⟩ := @page_accounting 40 _ _ _ _ _ _ _ ⟨by decide, by decide⟩ (by decide) hs
  exact ⟨s, hs, hfree, hzones, (List.pairwise_cons.mp hapart).1 _ List.mem_cons_self, hfresh _ List.mem_cons_self,
    hfresh _ (List.mem_cons_of_mem _ List.mem_cons_self)⟩

end LineOS
