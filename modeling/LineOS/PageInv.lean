import LineOS.PageAlloc
import Mathlib.Data.Finset.Union
import Mathlib.Order.Interval.Finset.Nat

/- What the allocator's calls do, on a zone table as `init_paging` builds it.
   `markPagesUsed_spec` and `allocPages_spec` say which pages a call adds to the
   set of pages in use and that the two redundant counts follow it (`Counted`);
   the proofs above them never unfold the loops again. -/
namespace LineOS
open ByteMemory RunSearch

/-- A page is within the bounds of a zone, as `__get_zone` reads them. -/
def PageZone.Holds (z : PageZone) (page : Nat) : Prop := z.basePage ≤ page ∧ page ≤ z.endPage

instance (z : PageZone) (page : Nat) : Decidable (z.Holds page) := inferInstanceAs (Decidable (_ ∧ _))

def Sysmem.used (s : Sysmem) : Finset Nat := s.bitmap.toFinset

/-- The zone table is one of those `init_paging` builds, and the bitmap covers all
pages: flags tell zones apart, and every page lies in exactly one. -/
structure ZoneTable (s : Sysmem) : Prop where
  flags : ∀ i < s.numZones, ∀ j < s.numZones, (s.zone i).allocationFlag = (s.zone j).allocationFlag → i = j
  covered : ∀ page < s.totalPages, ∃ i < s.numZones, (s.zone i).Holds page
  apart : ∀ page, ∀ i < s.numZones, ∀ j < s.numZones, (s.zone i).Holds page → (s.zone j).Holds page → i = j
  limit : s.bitmap.limit = s.totalPages
  total_le : s.totalPages ≤ 2 ^ 30

/-- What marking pages leaves alone. -/
structure SameTable (s s' : Sysmem) : Prop where
  numZones : s'.numZones = s.numZones
  totalPages : s'.totalPages = s.totalPages
  limit : s'.bitmap.limit = s.bitmap.limit
  flag : ∀ i, (s'.zone i).allocationFlag = (s.zone i).allocationFlag
  basePage : ∀ i, (s'.zone i).basePage = (s.zone i).basePage
  endPage : ∀ i, (s'.zone i).endPage = (s.zone i).endPage
  kernelEnd : s'.kernelEnd = s.kernelEnd
  kernelStart : s'.kernelStart = s.kernelStart
  kbInstalled : s'.kbInstalled = s.kbInstalled
  panics : s'.panics = s.panics

/-- Each zone counts the pages in use within its bounds. -/
def ZoneCounts (s : Sysmem) : Prop := ∀ j < s.numZones,
  (s.zone j).usedPages.toNat = (s.used.filter (fun page => (s.zone j).Holds page)).card

/-- Both counts agree with the set of pages in use. -/
structure Counted (s : Sysmem) : Prop where
  free : s.freePages.toNat + s.used.card = s.totalPages
  zones : ZoneCounts s

namespace SameTable
variable {s s₁ s₂ : Sysmem}

theorem refl (s : Sysmem) : SameTable s s :=
  ⟨rfl, rfl, rfl, fun _ => rfl, fun _ => rfl, fun _ => rfl, rfl, rfl, rfl, rfl⟩

theorem trans (h₁ : SameTable s s₁) (h₂ : SameTable s₁ s₂) : SameTable s s₂ :=
  ⟨h₂.numZones.trans h₁.numZones, h₂.totalPages.trans h₁.totalPages, h₂.limit.trans h₁.limit,
    fun i => (h₂.flag i).trans (h₁.flag i), fun i => (h₂.basePage i).trans (h₁.basePage i),
    fun i => (h₂.endPage i).trans (h₁.endPage i), h₂.kernelEnd.trans h₁.kernelEnd,
    h₂.kernelStart.trans h₁.kernelStart, h₂.kbInstalled.trans h₁.kbInstalled, h₂.panics.trans h₁.panics⟩

theorem holds (h : SameTable s s₁) (i page : Nat) : (s₁.zone i).Holds page ↔ (s.zone i).Holds page := by
  rw [PageZone.Holds, PageZone.Holds, h.basePage, h.endPage]

theorem zoneTable (h : SameTable s s₁) (ht : ZoneTable s) : ZoneTable s₁ := by
  refine ⟨?_, ?_, ?_, ?_, ?_⟩
  · intro i hi j hj
    rw [h.numZones] at hi hj
    rw [h.flag, h.flag]
    exact ht.flags i hi j hj
  · intro page hp
    rw [h.totalPages] at hp
    obtain ⟨i, hi, hh⟩ := ht.covered page hp
    exact ⟨i, by rw [h.numZones]; exact hi, (h.holds i page).mpr hh⟩
  · intro page i hi j hj hih hjh
    rw [h.numZones] at hi hj
    exact ht.apart page i hi j hj ((h.holds i page).mp hih) ((h.holds j page).mp hjh)
  · rw [h.limit, h.totalPages, ht.limit]
  · rw [h.totalPages]
    exact ht.total_le

end SameTable

section
variable {s : Sysmem}

/-! Zones. -/

theorem find_range {n i : Nat} {p : Nat → Bool} (hi : i < n) (hp : p i = true)
    (hu : ∀ j < n, p j = true → j = i) : (List.range n).find? p = some i := by
  cases hf : (List.range n).find? p with
  | none =>
    have := List.find?_eq_none.mp hf i (List.mem_range.mpr hi)
    exact absurd hp this
  | some j =>
    have hj := List.mem_range.mp (List.mem_of_find?_eq_some hf)
    rw [hu j hj (List.find?_some hf)]

theorem getZone_spec (ht : ZoneTable s) {page : Nat} (hp : page < s.totalPages) :
    ∃ i < s.numZones, (s.zone i).Holds page ∧ getZone page s = ((s.zone i).allocationFlag, s) ∧
      zoneIndex (s.zone i).allocationFlag s = i := by
  obtain ⟨i, hi, hh⟩ := ht.covered page hp
  refine ⟨i, hi, hh, ?_, ?_⟩
  · have hz : zoneAt page s = some i :=
      find_range hi (decide_eq_true hh) (fun j hj hjp => ht.apart page j hj i hi (of_decide_eq_true hjp) hh)
    rw [getZone, hz]
  · have hf : (List.range s.numZones).find? (fun j => (s.zone i).allocationFlag == (s.zone j).allocationFlag) =
        some i := find_range hi (by simp) (fun j hj hjp => ht.flags j hj i hi (by simpa using Eq.symm (by simpa using hjp)))
    rw [zoneIndex, hf, Option.getD_some]

/-- `__get_zone` answers with a zone's flag on exactly the pages within its bounds. -/
theorem getZone_flag_iff (ht : ZoneTable s) {page j : Nat} (hp : page < s.totalPages) (hj : j < s.numZones) :
    (getZone page s).1 = (s.zone j).allocationFlag ↔ (s.zone j).Holds page := by
  obtain ⟨i, hi, hh, hg, _⟩ := getZone_spec ht hp
  rw [hg]
  constructor
  · intro hf
    rw [← ht.flags i hi j hj hf]
    exact hh
  · intro hjh
    rw [ht.apart page i hi j hj hh hjh]

/-! Marking pages. -/

theorem markPage_eq (ht : ZoneTable s) {i : Nat} (hi : i < s.totalPages) :
    ∃ z < s.numZones, (s.zone z).Holds i ∧
      markPage s i = { countPage z s with bitmap := (s.bitmap.bitset i).2 } := by
  obtain ⟨z, hz, hh, hg, hx⟩ := getZone_spec ht hi
  obtain ⟨h0, _, _⟩ := Bitmap.bitset_spec (b := s.bitmap) (i := i) (by rw [ht.limit]; exact hi)
  refine ⟨z, hz, hh, ?_⟩
  simp only [markPage, hg, hx]
  have hb : (countPage z s).bitmap = s.bitmap := rfl
  rw [hb, h0, if_neg (by decide)]

theorem markPage_used (ht : ZoneTable s) {i : Nat} (hi : i < s.totalPages) :
    SameTable s (markPage s i) ∧ (markPage s i).freePages = s.freePages ∧
      (markPage s i).used = insert i s.used := by
  obtain ⟨z, hz, hh, he⟩ := markPage_eq ht hi
  obtain ⟨_, hl, hset⟩ := Bitmap.bitset_spec (b := s.bitmap) (i := i) (by rw [ht.limit]; exact hi)
  have hzone : ∀ j, (markPage s i).zone j =
      if j = z then { s.zone z with usedPages := (s.zone z).usedPages + 1 } else s.zone j := by
    intro j
    rw [he]
    show Function.update _ _ _ _ = _
    rw [Function.update_apply]
  refine ⟨?_, by rw [he]; rfl, by rw [he]; exact hset⟩
  refine ⟨by rw [he]; rfl, by rw [he]; rfl, by rw [he]; exact hl, ?_, ?_, ?_, by rw [he]; rfl,
    by rw [he]; rfl, by rw [he]; rfl, by rw [he]; rfl⟩ <;> intro j <;> rw [hzone] <;> split <;> simp [*]

theorem markPage_counts (ht : ZoneTable s) (hc : ZoneCounts s) {i : Nat} (hi : i < s.totalPages)
    (hn : i ∉ s.used) : ZoneCounts (markPage s i) := by
  obtain ⟨hsame, _, hused⟩ := markPage_used ht hi
  obtain ⟨z, hz, hh, he⟩ := markPage_eq ht hi
  have hzone : (markPage s i).zone =
      Function.update s.zone z { s.zone z with usedPages := (s.zone z).usedPages + 1 } := by rw [he]; rfl
  intro j hj
  rw [hsame.numZones] at hj
  have hcj := hc j hj
  simp only [hused, hsame.holds]
  rw [hzone, Function.update_apply, Finset.filter_insert]
  by_cases hjz : j = z
  · subst hjz
    rw [if_pos rfl, if_pos hh, Finset.card_insert_of_notMem (by simp [hn])]
    -- the counter is at most the number of pages: it does not wrap
    have hle : (s.used.filter (fun page => (s.zone j).Holds page)).card ≤ s.totalPages := by
      refine (Finset.card_filter_le _ _).trans ?_
      rw [← ht.limit]
      exact Bitmap.card_le s.bitmap
    have hlt := ht.total_le
    rw [← hcj] at hle ⊢
    bv_omega
  · have hnot : ¬ (s.zone j).Holds i := fun h => hjz (ht.apart i j hj z hz h hh)
    rw [if_neg hjz, if_neg hnot]
    exact hcj

theorem markLoop_used : ∀ (is : List Nat) {s : Sysmem}, ZoneTable s → (∀ i ∈ is, i < s.totalPages) →
    SameTable s (is.foldl markPage s) ∧ (is.foldl markPage s).freePages = s.freePages ∧
      (is.foldl markPage s).used = s.used ∪ is.toFinset
  | [], s, _, _ => ⟨SameTable.refl s, rfl, by simp⟩
  | i :: is, s, ht, hlt => by
    obtain ⟨hs₁, hf₁, hu₁⟩ := markPage_used ht (hlt i (by simp))
    have hlt₁ : ∀ k ∈ is, k < (markPage s i).totalPages := by
      intro k hk
      rw [hs₁.totalPages]
      exact hlt k (List.mem_cons_of_mem i hk)
    obtain ⟨hs₂, hf₂, hu₂⟩ := markLoop_used is (hs₁.zoneTable ht) hlt₁
    refine ⟨hs₁.trans hs₂, hf₂.trans hf₁, ?_⟩
    rw [List.foldl_cons, hu₂, hu₁, List.toFinset_cons, Finset.insert_union, Finset.union_insert]

theorem markLoop_counts : ∀ (is : List Nat) {s : Sysmem}, ZoneTable s → ZoneCounts s → is.Nodup →
    (∀ i ∈ is, i < s.totalPages) → (∀ i ∈ is, i ∉ s.used) → ZoneCounts (is.foldl markPage s)
  | [], s, _, hc, _, _, _ => hc
  | i :: is, s, ht, hc, hnd, hlt, hn => by
    obtain ⟨hi, hnd⟩ := List.nodup_cons.mp hnd
    obtain ⟨hs₁, _, hu₁⟩ := markPage_used ht (hlt i (by simp))
    have hc₁ := markPage_counts ht hc (hlt i (by simp)) (hn i (by simp))
    have hlt₁ : ∀ k ∈ is, k < (markPage s i).totalPages := by
      intro k hk
      rw [hs₁.totalPages]
      exact hlt k (List.mem_cons_of_mem i hk)
    have hn₁ : ∀ k ∈ is, k ∉ (markPage s i).used := by
      intro k hk
      rw [hu₁, Finset.mem_insert, not_or]
      exact ⟨fun e => hi (e ▸ hk), hn k (List.mem_cons_of_mem i hk)⟩
    exact markLoop_counts is (hs₁.zoneTable ht) hc₁ hnd hlt₁ hn₁

theorem markPagesUsed_eq (ht : ZoneTable s) {page n : Nat} (hle : page + n ≤ s.totalPages) :
    markPagesUsed page n s = { (List.range' page n).foldl markPage s with
      freePages := ((List.range' page n).foldl markPage s).freePages - BitVec.ofNat 32 n } := by
  have hlt := ht.total_le
  have hcount : (page + n) % 2 ^ 32 - page = n := by omega
  unfold markPagesUsed
  rw [hcount]

theorem markPagesUsed_used (ht : ZoneTable s) (page n : Nat) (hle : page + n ≤ s.totalPages) :
    SameTable s (markPagesUsed page n s) ∧
      (markPagesUsed page n s).used = s.used ∪ Finset.Ico page (page + n) := by
  obtain ⟨hs, _, hu⟩ := markLoop_used (List.range' page n) ht
    (fun i hi => by have := List.mem_range'_1.mp hi; omega)
  have hico : (List.range' page n).toFinset = Finset.Ico page (page + n) := by
    ext i
    rw [List.mem_toFinset, List.mem_range'_1, Finset.mem_Ico]
  rw [markPagesUsed_eq ht hle]
  exact ⟨⟨hs.numZones, hs.totalPages, hs.limit, hs.flag, hs.basePage, hs.endPage, hs.kernelEnd,
    hs.kernelStart, hs.kbInstalled, hs.panics⟩, hu.trans (by rw [hico])⟩

/-- **`__mark_pages_used` on clear pages** adds them to the pages in use, and both
counts follow. -/
theorem markPagesUsed_spec (ht : ZoneTable s) (hc : Counted s) (page n : Nat)
    (hle : page + n ≤ s.totalPages) (hn : ∀ i, page ≤ i → i < page + n → i ∉ s.used) :
    SameTable s (markPagesUsed page n s) ∧ Counted (markPagesUsed page n s) ∧
      (markPagesUsed page n s).used = s.used ∪ Finset.Ico page (page + n) := by
  obtain ⟨hs, hu⟩ := markPagesUsed_used ht page n hle
  refine ⟨hs, ⟨?_, ?_⟩, hu⟩
  · have hdis : Disjoint s.used (Finset.Ico page (page + n)) := by
      rw [Finset.disjoint_right]
      intro i hi
      rw [Finset.mem_Ico] at hi
      exact hn i hi.1 hi.2
    have hcard : (markPagesUsed page n s).used.card = s.used.card + n := by
      rw [hu, Finset.card_union_of_disjoint hdis, Nat.card_Ico]
      omega
    have htot : (markPagesUsed page n s).used.card ≤ s.totalPages := by
      rw [← ht.limit, ← hs.limit]
      exact Bitmap.card_le _
    have hlt := ht.total_le
    have hfree := hc.free
    have hf : (markPagesUsed page n s).freePages = s.freePages - BitVec.ofNat 32 n := by
      rw [markPagesUsed_eq ht hle, (markLoop_used (List.range' page n) ht
        (fun i hi => by have := List.mem_range'_1.mp hi; omega)).2.1]
    rw [hs.totalPages, hf, hcard]
    rw [hcard] at htot
    bv_omega
  · have hmem : ∀ i ∈ List.range' page n, page ≤ i ∧ i < page + n := fun i hi => List.mem_range'_1.mp hi
    rw [markPagesUsed_eq ht hle]
    exact markLoop_counts (List.range' page n) ht hc.zones (List.nodup_range' ..)
      (fun i hi => by have := hmem i hi; omega) (fun i hi => hn i (hmem i hi).1 (hmem i hi).2)

/-! `alloc_pages`. -/

theorem SameTable.zoneBounds_eq {s' : Sysmem} (h : SameTable s s') (flags : U32) :
    zoneBounds flags s' = zoneBounds flags s := by
  simp only [zoneBounds, h.numZones, h.flag, h.basePage, h.endPage]

/-- The pages the search goes through: the zone's, cut off at the end of memory. -/
def zoneRange (flags : U32) (s : Sysmem) : Nat × Nat :=
  ((zoneBounds flags s).1, min (zoneBounds flags s).2 s.totalPages)

def FreeRun (s : Sysmem) (n a : Nat) : Prop := ∀ i, a ≤ i → i < a + n → i ∉ s.used

theorem isRun_iff (ht : ZoneTable s) {n a : Nat} (hle : a + n ≤ s.totalPages) :
    IsRun (fun i => s.bitmap.bitget i == 0) n a ↔ FreeRun s n a := by
  have key : ∀ i < a + n, ((s.bitmap.bitget i == 0) = true ↔ i ∉ s.used) := by
    intro i hi
    rw [beq_iff_eq, Bitmap.bitget_eq_zero, ht.limit]
    exact ⟨fun h => h.2, fun h => ⟨by omega, h⟩⟩
  exact ⟨fun h i h₁ h₂ => (key i h₂).mp (h i h₁ h₂), fun h i h₁ h₂ => (key i h₂).mpr (h i h₁ h₂)⟩

/-- The two ways a call can go, in the code's terms: the lowest run of clear bits in
the zone's range is marked, or there is none. -/
theorem allocPages_runs (pages flags : U32) (s : Sysmem) :
    (pages ≠ 0 ∧ ∃ a, (zoneRange flags s).1 ≤ a ∧ a + pages.toNat ≤ (zoneRange flags s).2 ∧
      IsRun (fun i => s.bitmap.bitget i == 0) pages.toNat a ∧
      (∀ b, (zoneRange flags s).1 ≤ b → b < a → ¬ IsRun (fun i => s.bitmap.bitget i == 0) pages.toNat b) ∧
      allocPages pages flags s = (BitVec.ofNat 32 (a * 4096), markPagesUsed a pages.toNat s)) ∨
    (pages = 0 ∨ ∀ a, (zoneRange flags s).1 ≤ a → a + pages.toNat ≤ (zoneRange flags s).2 →
      ¬ IsRun (fun i => s.bitmap.bitget i == 0) pages.toNat a) ∧ allocPages pages flags s = (0, s) := by
  by_cases hp : pages = 0
  · exact Or.inr ⟨Or.inl hp, by rw [allocPages, if_pos hp]⟩
  have hpos : 0 < pages.toNat := by bv_omega
  -- the code clips the zone's end to the pages there are
  have hep : (if s.totalPages < (zoneBounds flags s).2 then s.totalPages else (zoneBounds flags s).2) =
      (zoneRange flags s).2 := by
    unfold zoneRange
    split <;> simp only [] <;> omega
  have hle : (zoneRange flags s).2 ≤ s.totalPages := by unfold zoneRange; simp only []; omega
  have hsp : (zoneBounds flags s).1 = (zoneRange flags s).1 := rfl
  rw [allocPages, if_neg hp]
  simp only [hep, hsp]
  -- a zone above the memory, and flags that name no zone, have no room for a run
  by_cases h₁ : s.totalPages < (zoneRange flags s).1
  · exact Or.inr ⟨Or.inr (fun a ha hae => by omega), by rw [if_pos h₁]⟩
  by_cases h₂ : (zoneRange flags s).1 = 0 ∧ (zoneRange flags s).2 = 0
  · exact Or.inr ⟨Or.inr (fun a ha hae => by omega), by rw [if_neg h₁, if_pos h₂]⟩
  rw [if_neg h₁, if_neg h₂]
  by_cases h₃ : (scan (fun i => s.bitmap.bitget i == 0) pages.toNat
      ((zoneRange flags s).2 - (zoneRange flags s).1) (zoneRange flags s).1 0 0).2 = pages.toNat
  · obtain ⟨hlo, hhi, hrun, hfirst⟩ := scan_found hpos h₃
    exact Or.inl ⟨hp, _, hlo, by omega, hrun, hfirst, by rw [if_neg (not_not.mpr h₃)]⟩
  · have hmiss := scan_missing hpos h₃
    exact Or.inr ⟨Or.inr fun a ha hae => hmiss a ha (by omega), by rw [if_pos h₃]⟩

/-- The request finds its run at page `a`: the lowest free one of the zone. -/
structure FirstRun (s : Sysmem) (flags : U32) (n a : Nat) : Prop where
  lo : (zoneRange flags s).1 ≤ a
  hi : a + n ≤ (zoneRange flags s).2
  free : FreeRun s n a
  first : ∀ b, (zoneRange flags s).1 ≤ b → b < a → ¬ FreeRun s n b

/-- **`alloc_pages` is an exact first fit**: it marks the lowest free run of the
zone's pages and returns its address, or it returns NULL because nothing was
asked or there is no such run, and changes nothing. -/
theorem allocPages_spec (ht : ZoneTable s) (pages flags : U32) :
    (pages ≠ 0 ∧ ∃ a, FirstRun s flags pages.toNat a ∧
      allocPages pages flags s = (BitVec.ofNat 32 (a * 4096), markPagesUsed a pages.toNat s)) ∨
    (pages = 0 ∨ ∀ a, (zoneRange flags s).1 ≤ a → a + pages.toNat ≤ (zoneRange flags s).2 →
      ¬ FreeRun s pages.toNat a) ∧ allocPages pages flags s = (0, s) := by
  have hle : (zoneRange flags s).2 ≤ s.totalPages := min_le_right _ _
  rcases allocPages_runs pages flags s with ⟨hp, a, hlo, hhi, hrun, hfirst, he⟩ | ⟨hnone, he⟩
  · refine Or.inl ⟨hp, a, ⟨hlo, hhi, (isRun_iff ht (by omega)).mp hrun, fun b hb hlt hfree => ?_⟩, he⟩
    exact hfirst b hb hlt ((isRun_iff ht (by omega)).mpr hfree)
  · refine Or.inr ⟨hnone.imp_right fun h a ha hae hfree => ?_, he⟩
    exact h a ha hae ((isRun_iff ht (by omega)).mpr hfree)

theorem allocPages_aligned (pages flags : U32) (s : Sysmem) : (allocPages pages flags s).1.toNat % 4096 = 0 := by
  rcases allocPages_runs pages flags s with ⟨-, a, -, -, -, -, he⟩ | ⟨-, he⟩
  · rw [he, BitVec.toNat_ofNat]
    omega
  · rw [he]
    rfl

theorem markPage_freePages (s : Sysmem) (i : Nat) : (markPage s i).freePages = s.freePages := by
  have hzone : (getZone i s).2.freePages = s.freePages := by
    unfold getZone
    split <;> rfl
  unfold markPage
  simp only []
  split <;> exact hzone

/-- Marking always counts the pages, whatever became of their bits. -/
theorem markPagesUsed_freePages (page n : Nat) (s : Sysmem) :
    (markPagesUsed page n s).freePages = s.freePages - BitVec.ofNat 32 n := by
  have hloop : ∀ (is : List Nat) (s : Sysmem), (is.foldl markPage s).freePages = s.freePages := by
    intro is
    induction is with
    | nil => exact fun _ => rfl
    | cons i is ih => exact fun s => (ih _).trans (markPage_freePages s i)
  rw [markPagesUsed, hloop]

end
end LineOS
