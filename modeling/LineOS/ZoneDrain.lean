import LineOS.ZoneBounds

/- Emptying a zone page by page, as `test_alloc_pages` does until it is told there
   is no memory left. `drain_turn` is one call, on a zone whose clear pages are
   listed in ascending order; `drain_spec` is the whole loop, by induction on
   that list, and `drain_zone` reads off it what the law says of a run from the
   boot state. What the loop needs beyond the accounting of `PageInv` is that page
   0 stays in use, since its address is the NULL that ends the loop, and that no
   page in use is the one `__get_zone` counts and `alloc_pages` leaves out. -/
namespace LineOS
open ByteMemory RunSearch

/-- `alloc_pages(1, flag)` until it returns NULL: what it returned, and the state
then. -/
def drain (flag : U32) : Nat → Sysmem → Option (List U32 × Sysmem)
  | 0, _ => none
  | fuel + 1, s =>
    let (p, s) := allocPages 1 flag s
    if p = 0 then some ([], s) else (drain flag fuel s).map (fun r => (p :: r.1, r.2))

/-- The pages of a zone whose bits are clear, in ascending order. -/
def clearPages (z : PageZone) (s : Sysmem) : List Nat :=
  (List.range' z.basePage (z.endPage - z.basePage)).filter (fun page => s.bitmap.bitget page == 0)

def pageAddress (page : Nat) : U32 := BitVec.ofNat 32 (page * 4096)

/-! Lists of positions. -/

theorem filter_range'_cons {p : Nat → Bool} {lo n a : Nat} (hlo : lo ≤ a) (hhi : a < lo + n) (ha : p a = true)
    (hfirst : ∀ b, lo ≤ b → b < a → p b = false) :
    (List.range' lo n).filter p = a :: (List.range' (a + 1) (lo + n - (a + 1))).filter p := by
  have hn : n = (a - lo) + (1 + (lo + n - (a + 1))) := by omega
  have hskip : (List.range' lo (a - lo)).filter p = [] := by
    refine List.filter_eq_nil_iff.mpr (fun b hb => ?_)
    have hb := List.mem_range'_1.mp hb
    rw [hfirst b hb.1 (by omega)]
    decide
  have ea : lo + (a - lo) = a := by omega
  calc (List.range' lo n).filter p
      = (List.range' lo (a - lo) ++ (List.range' a 1 ++ List.range' (a + 1) (lo + n - (a + 1)))).filter p := by
        conv_lhs => rw [hn]
        rw [← List.range'_append_1, ← List.range'_append_1, ea]
    _ = (List.range' a 1 ++ List.range' (a + 1) (lo + n - (a + 1))).filter p := by
        rw [List.filter_append, hskip, List.nil_append]
    _ = a :: (List.range' (a + 1) (lo + n - (a + 1))).filter p := by
        simp [List.range'_one, ha]

/-! What every call keeps. -/

/-- The page lies within the zone's bounds, as `alloc_pages` reads them. -/
def PageZone.Inner (z : PageZone) (page : Nat) : Prop := z.basePage ≤ page ∧ page < z.endPage

/-- The zone table is `init_paging`'s, the counts are right, page 0 is in use, and
so is no page outside the bounds `alloc_pages` reads. -/
structure ZoneInv (total : Nat) (s : Sysmem) : Prop where
  zones : ZoneTable s
  table : TableOf total s
  counted : Counted s
  small : total ≤ 2 ^ 20
  zero : 0 ∈ s.used
  inner : ∀ page ∈ s.used, ∃ i < s.numZones, (s.zone i).Inner page

section
variable {total : Nat} {s : Sysmem}

theorem SameTable.inner {s' : Sysmem} (h : SameTable s s') (i page : Nat) :
    (s'.zone i).Inner page ↔ (s.zone i).Inner page := by
  rw [PageZone.Inner, PageZone.Inner, h.basePage, h.endPage]

theorem zoneRange_inner {flags : U32} {page : Nat} (hlo : (zoneRange flags s).1 ≤ page)
    (hhi : page < (zoneRange flags s).2) : ∃ i < s.numZones, (s.zone i).Inner page := by
  unfold zoneRange at hlo hhi
  unfold LineOS.zoneBounds at hlo hhi
  cases hf : (List.range s.numZones).find? (fun i => flags &&& (s.zone i).allocationFlag != 0) with
  | none =>
    simp only [hf] at hhi
    omega
  | some i =>
    simp only [hf] at hlo hhi
    exact ⟨i, List.mem_range.mp (List.mem_of_find?_eq_some hf), hlo, by omega⟩

theorem alloc_zoneInv (h : ZoneInv total s) (pages flags : U32) : ZoneInv total (allocPages pages flags s).2 := by
  obtain ⟨_, a, hrun, he⟩ | ⟨_, he⟩ := allocPages_spec h.zones pages flags
  · have hend : a + pages.toNat ≤ s.totalPages := hrun.hi.trans (min_le_right _ _)
    obtain ⟨hs, hc, hu⟩ := markPagesUsed_spec h.zones h.counted a pages.toNat hend hrun.free
    have hinner : ∀ page ∈ (allocPages pages flags s).2.used, ∃ i < s.numZones, (s.zone i).Inner page := by
      intro page hp
      by_cases hold : page ∈ s.used
      · exact h.inner page hold
      · obtain ⟨hlo, hhi⟩ := alloc_takes h.zones hold hp
        exact zoneRange_inner hlo hhi
    rw [he] at hinner ⊢
    refine ⟨hs.zoneTable h.zones, hs.tableOf h.table, hc, h.small, ?_, ?_⟩
    · rw [hu]
      exact Finset.mem_union_left _ h.zero
    · intro page hp
      obtain ⟨i, hi, hin⟩ := hinner page hp
      exact ⟨i, by rw [hs.numZones]; exact hi, (hs.inner i page).mpr hin⟩
  · rw [he]
    exact h

theorem reach_zoneInv {s₀ : Sysmem} {rs : List (Nat × Nat)} (h₀ : ZoneInv total s₀) (h : PageReach s₀ s rs) :
    ZoneInv total s := by
  induction h with
  | init => exact h₀
  | alloc pages flags _ ih => exact alloc_zoneInv ih pages flags

/-! One turn of the loop. -/

theorem clearPages_sorted (z : PageZone) (s : Sysmem) : (clearPages z s).Pairwise (· < ·) :=
  (List.pairwise_lt_range' (s := z.basePage) (n := z.endPage - z.basePage)).filter _

theorem mem_clearPages {z : PageZone} {page : Nat} (ht : ZoneTable s) (hend : z.endPage ≤ s.totalPages) :
    page ∈ clearPages z s ↔ z.Inner page ∧ page ∉ s.used := by
  rw [clearPages, List.mem_filter, List.mem_range'_1, beq_iff_eq, Bitmap.bitget_eq_zero, ht.limit,
    PageZone.Inner]
  refine ⟨fun ⟨hr, _, hn⟩ => ⟨by omega, hn⟩, fun ⟨hr, hn⟩ => ⟨by omega, by omega, hn⟩⟩

theorem clearPages_take {s' : Sysmem} {z : PageZone} {a : Nat} (ht : ZoneTable s) (hs : SameTable s s')
    (hend : z.endPage ≤ s.totalPages) (ha : z.Inner a) (hn : a ∉ s.used)
    (hfirst : ∀ b, z.basePage ≤ b → b < a → b ∈ s.used) (hu : s'.used = insert a s.used) :
    clearPages z s = a :: clearPages z s' := by
  have hclear : ∀ {s : Sysmem}, ZoneTable s → ∀ page < s.totalPages,
      ((s.bitmap.bitget page == 0) = true ↔ page ∉ s.used) := by
    intro s ht page hp
    rw [beq_iff_eq, Bitmap.bitget_eq_zero, ht.limit]
    exact ⟨fun h => h.2, fun h => ⟨hp, h⟩⟩
  have ht' := hs.zoneTable ht
  have htot := hs.totalPages
  obtain ⟨hlo, hhi⟩ := ha
  have hsub : ∀ b, z.basePage ≤ b → b < a + 1 → (s'.bitmap.bitget b == 0) = false := by
    intro b hb hlt
    rw [← Bool.not_eq_true, hclear ht' b (by omega), hu, Finset.mem_insert, not_not]
    by_cases hba : b = a
    · exact Or.inl hba
    · exact Or.inr (hfirst b hb (by omega))
  -- before the call the list begins at `a`
  have hbefore : clearPages z s =
      a :: (List.range' (a + 1) (z.endPage - (a + 1))).filter (fun page => s.bitmap.bitget page == 0) := by
    have e : z.basePage + (z.endPage - z.basePage) = z.endPage := by omega
    rw [clearPages, filter_range'_cons hlo (by omega) ((hclear ht a (by omega)).mpr hn), e]
    intro b hb hlt
    rw [← Bool.not_eq_true, hclear ht b (by omega), not_not]
    exact hfirst b hb hlt
  -- after it the pages up to `a` are in use
  have hafter : clearPages z s' =
      (List.range' (a + 1) (z.endPage - (a + 1))).filter (fun page => s'.bitmap.bitget page == 0) := by
    have e : z.endPage - z.basePage = (a + 1 - z.basePage) + (z.endPage - (a + 1)) := by omega
    have ea : z.basePage + (a + 1 - z.basePage) = a + 1 := by omega
    rw [clearPages, e, ← List.range'_append_1, ea, List.filter_append]
    rw [List.filter_eq_nil_iff.mpr, List.nil_append]
    intro b hb
    have hb := List.mem_range'_1.mp hb
    rw [hsub b hb.1 (by omega)]
    decide
  rw [hbefore, hafter]
  refine congrArg (a :: ·) (List.filter_congr (fun b hb => ?_))
  have hb := List.mem_range'_1.mp hb
  have hiff : (s.bitmap.bitget b == 0) = true ↔ (s'.bitmap.bitget b == 0) = true := by
    rw [hclear ht b (by omega), hclear ht' b (by omega), hu, Finset.mem_insert, not_or]
    exact ⟨fun h => ⟨by omega, h⟩, fun h => h.2⟩
  exact Bool.eq_iff_iff.mpr hiff

/-- **One call**: NULL when the zone has no clear page, and nothing changes; or
else the address of the first of them, which is then in use. -/
theorem drain_turn (h : ZoneInv total s) {i : Nat} (hi : i < s.numZones)
    (hend : (s.zone i).endPage ≤ s.totalPages) :
    (clearPages (s.zone i) s = [] ∧ allocPages 1 (s.zone i).allocationFlag s = (0, s)) ∨
    ∃ a s', (s.zone i).Inner a ∧ clearPages (s.zone i) s = a :: clearPages (s.zone i) s' ∧
      allocPages 1 (s.zone i).allocationFlag s = (pageAddress a, s') ∧ pageAddress a ≠ 0 ∧
      SameTable s s' ∧ s'.used = insert a s.used := by
  have hrange : zoneRange (s.zone i).allocationFlag s = ((s.zone i).basePage, (s.zone i).endPage) := by
    rw [zoneRange, h.table.zoneBounds hi]
    simp only [Nat.min_eq_left hend]
  have hone : (1 : U32).toNat = 1 := rfl
  obtain ⟨_, a, hrun, he⟩ | ⟨hnone, he⟩ := allocPages_spec h.zones 1 (s.zone i).allocationFlag
  · have hlo := hrun.lo
    have hhi := hrun.hi
    have hfirst := hrun.first
    have hsmall := h.small
    have htotal := h.table.totalPages
    rw [hrange] at hlo hhi hfirst
    rw [hone] at he hhi hfirst
    simp only [] at hlo hhi hfirst
    have hfree : a ∉ s.used := hrun.free a le_rfl (by rw [hone]; omega)
    obtain ⟨hs, hu⟩ := markPagesUsed_used h.zones a 1 (by omega)
    have hu : (markPagesUsed a 1 s).used = insert a s.used := by
      rw [hu, Nat.Ico_succ_singleton, Finset.union_comm, Finset.insert_eq]
    have hin : (s.zone i).Inner a := ⟨hlo, by omega⟩
    -- a single page is free or in use: every page before the first free one is in use
    have hbefore : ∀ b, (s.zone i).basePage ≤ b → b < a → b ∈ s.used := by
      intro b hb hlt
      by_contra hn
      refine hfirst b hb hlt (fun j h₁ h₂ => ?_)
      have hj : j = b := by omega
      rw [hj]
      exact hn
    have hne : pageAddress a ≠ 0 := by
      have h0 : a ≠ 0 := fun e => hfree (e ▸ h.zero)
      unfold pageAddress
      intro e
      have := congrArg BitVec.toNat e
      rw [BitVec.toNat_ofNat, show (0 : U32).toNat = 0 from rfl] at this
      omega
    exact Or.inr ⟨a, _, hin, clearPages_take h.zones hs hend hin hfree hbefore hu, he, hne, hs, hu⟩
  · refine Or.inl ⟨List.eq_nil_iff_forall_not_mem.mpr (fun a ha => ?_), he⟩
    obtain ⟨⟨hlo, hhi⟩, hn⟩ := (mem_clearPages h.zones hend).mp ha
    obtain h0 | hno := hnone
    · exact absurd h0 (by decide)
    · rw [hrange, hone] at hno
      refine hno a hlo (by simp only []; omega) (fun j h₁ h₂ => ?_)
      have hj : j = a := by omega
      rw [hj]
      exact hn

/-! The loop. -/

/-- What the loop leaves: every page of the zone is in use, and no other bit has
changed. -/
theorem drain_spec {i : Nat} : ∀ (fuel : Nat) {s : Sysmem}, ZoneInv total s → i < s.numZones →
    (s.zone i).endPage ≤ s.totalPages → (clearPages (s.zone i) s).length < fuel →
    ∃ s', drain (s.zone i).allocationFlag fuel s = some ((clearPages (s.zone i) s).map pageAddress, s') ∧
      ZoneInv total s' ∧ SameTable s s' ∧
      ∀ page, page ∈ s'.used ↔ page ∈ s.used ∨ (s.zone i).Inner page
  | 0, _, _, _, _, hf => absurd hf (Nat.not_lt_zero _)
  | fuel + 1, s, h, hi, hend, hf => by
    -- induction on the fuel: a turn either finds nothing or takes the lowest clear page
    obtain ⟨hnil, he⟩ | ⟨a, s₁, hin, hcons, he, hne, hs₁, hu₁⟩ := drain_turn h hi hend
    · have hd : drain (s.zone i).allocationFlag (fuel + 1) s = some ([], s) := by
        rw [drain, he]
        rfl
      refine ⟨s, by rw [hd, hnil]; rfl, h, SameTable.refl s, fun page => ⟨Or.inl, ?_⟩⟩
      rintro (hp | hp)
      · exact hp
      · by_contra hn
        have := (mem_clearPages h.zones hend).mpr ⟨hp, hn⟩
        rw [hnil] at this
        exact absurd this List.not_mem_nil
    · have h₁ : ZoneInv total s₁ := by
        have := alloc_zoneInv h 1 (s.zone i).allocationFlag
        rwa [he] at this
      have hz : clearPages (s₁.zone i) s₁ = clearPages (s.zone i) s₁ := by
        rw [clearPages, clearPages, hs₁.basePage, hs₁.endPage]
      rw [hcons, List.length_cons] at hf
      obtain ⟨s₂, hd, h₂, hs₂, hu₂⟩ := drain_spec fuel h₁ (by rw [hs₁.numZones]; exact hi)
        (by rw [hs₁.endPage, hs₁.totalPages]; exact hend) (by rw [hz]; omega)
      rw [hs₁.flag, hz] at hd
      have hd' : drain (s.zone i).allocationFlag (fuel + 1) s =
          some (pageAddress a :: (clearPages (s.zone i) s₁).map pageAddress, s₂) := by
        rw [drain, he]
        simp only [if_neg hne, hd, Option.map_some]
      refine ⟨s₂, by rw [hd', hcons, List.map_cons], h₂, hs₁.trans hs₂, fun page => ?_⟩
      rw [hu₂, hu₁, Finset.mem_insert, hs₁.inner]
      refine ⟨?_, ?_⟩
      · rintro ((rfl | hp) | hp)
        · exact Or.inr hin
        · exact Or.inl hp
        · exact Or.inr hp
      · rintro (hp | hp)
        · exact Or.inl (Or.inr hp)
        · exact Or.inr hp

/-- The counters follow from the bits: a zone without a new bit counts as before. -/
theorem usedPages_eq {s' : Sysmem} (h : ZoneInv total s) (h' : ZoneInv total s') (hs : SameTable s s') {j : Nat}
    (hj : j < s.numZones) (hsame : ∀ page, (s.zone j).Holds page → (page ∈ s'.used ↔ page ∈ s.used)) :
    s'.zone j = s.zone j := by
  have hcount : (s'.zone j).usedPages = (s.zone j).usedPages := by
    refine BitVec.eq_of_toNat_eq ?_
    rw [h'.counted.zones j (by rw [hs.numZones]; exact hj), h.counted.zones j hj]
    refine congrArg Finset.card (Finset.ext (fun page => ?_))
    rw [Finset.mem_filter, Finset.mem_filter, hs.holds]
    exact ⟨fun ⟨hu, hh⟩ => ⟨(hsame page hh).mp hu, hh⟩, fun ⟨hu, hh⟩ => ⟨(hsame page hh).mpr hu, hh⟩⟩
  have hf := hs.flag j
  have hb := hs.basePage j
  have he := hs.endPage j
  cases hz : s.zone j
  cases hz' : s'.zone j
  simp_all

theorem usedPages_full (h : ZoneInv total s) {i : Nat} (hi : i < s.numZones)
    (hall : ∀ page, (s.zone i).Inner page → page ∈ s.used) :
    (s.zone i).usedPages.toNat = (s.zone i).endPage - (s.zone i).basePage := by
  rw [h.counted.zones i hi, ← Nat.card_Ico]
  refine congrArg Finset.card (Finset.ext (fun page => ?_))
  rw [Finset.mem_filter, Finset.mem_Ico]
  refine ⟨fun ⟨hu, hh⟩ => ?_, fun hin => ⟨hall page hin, hin.1, by omega⟩⟩
  -- the page lies in some zone's inner bounds: by `apart`, in this one's
  obtain ⟨j, hj, hin⟩ := h.inner page hu
  obtain rfl := h.zones.apart page j hj i hi ⟨hin.1, Nat.le_of_lt hin.2⟩ hh
  exact hin

end

/-! From the boot state. -/

/-- The state after `init_page_allocator`: the reserved pages are the DMA zone's
first ones. -/
theorem init_zoneInv {kb k : Nat} {es ee : U32} (ks ke : U32) (raw : Nat → U8) (hkb : kb ≤ 2 ^ 22)
    (himg : KernelImage k es ee) (hmem : 256 + k + bitmapPages (kb / 4) ≤ kb / 4)
    (hfit : 256 + k + bitmapPages (kb / 4) ≤ 0xfff) :
    ZoneInv (kb / 4) (initPageAllocator es ee (initSysmem kb ks ke raw)) := by
  obtain ⟨s, hs, hc, hu, he⟩ := initPageAllocator_marks ks ke raw (by omega) himg (by omega) hmem
  have ht := hs.zoneTable (initBitmap_ok (by omega) ks ke raw).1
  have htab := hs.tableOf (initBitmap_table kb ks ke raw)
  have hdma : 0 < s.numZones ∧ (s.zone 0).basePage = 0 ∧ (s.zone 0).endPage = 0xfff := by
    rw [htab.numZones, htab.basePage, htab.endPage]
    unfold zoneTable
    split <;> exact ⟨by simp, rfl, rfl⟩
  rw [he]
  refine ⟨⟨ht.flags, ht.covered, ht.apart, ht.limit, ht.total_le⟩,
    ⟨htab.totalPages, htab.numZones, htab.flag, htab.basePage, htab.endPage⟩, ⟨hc.free, hc.zones⟩,
    by omega, ?_, ?_⟩
  · show 0 ∈ s.used
    rw [hu, Finset.mem_range]
    omega
  · intro page hp
    have hp : page ∈ s.used := hp
    rw [hu, Finset.mem_range] at hp
    refine ⟨0, hdma.1, ?_⟩
    show (s.zone 0).basePage ≤ page ∧ page < (s.zone 0).endPage
    omega

/-- **Draining a zone.** From any state calls of `alloc_pages` lead to, in a zone
within memory, asking for one page until the answer is NULL returns the zone's
clear pages, each once and in ascending order. Then all its bits are set and it
counts them, and neither a bit outside it nor another zone's entry has changed.
`start.asm` maps 4 MB for the kernel, so its image and the bitmap end below page
0xfff. -/
theorem drain_zone {kb k : Nat} {es ee ks ke : U32} {raw : Nat → U8} {s : Sysmem} {rs : List (Nat × Nat)}
    (hkb : kb ≤ 2 ^ 22) (himg : KernelImage k es ee) (hmem : 256 + k + bitmapPages (kb / 4) ≤ kb / 4)
    (hfit : 256 + k + bitmapPages (kb / 4) ≤ 0xfff)
    (h : PageReach (initPageAllocator es ee (initSysmem kb ks ke raw)) s rs) {i : Nat} (hi : i < s.numZones)
    (hend : (s.zone i).endPage ≤ s.totalPages) {fuel : Nat} (hfuel : (clearPages (s.zone i) s).length < fuel) :
    ∃ s', drain (s.zone i).allocationFlag fuel s = some ((clearPages (s.zone i) s).map pageAddress, s') ∧
      (clearPages (s.zone i) s).Pairwise (· < ·) ∧
      (∀ page, (s.zone i).basePage ≤ page → page < (s.zone i).endPage → s'.bitmap.bitget page = 1) ∧
      (s'.zone i).usedPages.toNat = (s.zone i).endPage - (s.zone i).basePage ∧
      (∀ page, ¬ ((s.zone i).basePage ≤ page ∧ page < (s.zone i).endPage) →
        s'.bitmap.bitget page = s.bitmap.bitget page) ∧
      ∀ j < s.numZones, j ≠ i → s'.zone j = s.zone j := by
  have hz := reach_zoneInv (init_zoneInv ks ke raw hkb himg hmem hfit) h
  obtain ⟨s', hd, hz', hs, hu⟩ := drain_spec fuel hz hi hend hfuel
  have hlim := hz.zones.limit
  have hlim' : s'.bitmap.limit = s.totalPages := hs.limit.trans hlim
  refine ⟨s', hd, clearPages_sorted _ s, ?_, ?_, ?_, ?_⟩
  · intro page h₁ h₂
    have hin : page ∈ s'.bitmap.toFinset := (hu page).mpr (Or.inr ⟨h₁, h₂⟩)
    rw [Bitmap.bitget_eq (by omega), if_pos hin]
  · rw [usedPages_full hz' (by rw [hs.numZones]; exact hi), hs.basePage, hs.endPage]
    exact fun page hp => (hu page).mpr (Or.inr ((hs.inner i page).mp hp))
  · intro page hout
    have hiff : page ∈ s'.bitmap.toFinset ↔ page ∈ s.bitmap.toFinset :=
      (hu page).trans (or_iff_left hout)
    by_cases hp : page < s.totalPages
    · rw [Bitmap.bitget_eq (by omega), Bitmap.bitget_eq (by omega)]
      simp only [hiff]
    · rw [Bitmap.bitget, Bitmap.bitget, if_pos (by omega), if_pos (by omega)]
  · intro j hj hji
    -- a page taken from zone i is in no other zone
    refine usedPages_eq hz hz' hs hj (fun page hh => (hu page).trans (or_iff_left (fun hin => hji ?_)))
    exact hz.zones.apart page j hj i hi hh ⟨hin.1, Nat.le_of_lt hin.2⟩

/-- The DMA zone of the machine's 32 MB, just after the boot. -/
theorem drain_zone_sample : ∃ ps s', drain (samplePages.zone 0).allocationFlag 4096 samplePages = some (ps, s') ∧
    ps.length = (clearPages (samplePages.zone 0) samplePages).length ∧ (s'.zone 0).usedPages.toNat = 0xfff := by
  have himg : KernelImage 40 0x100003 0x128003 := ⟨by decide, by decide⟩
  have htab : TableOf (32 * 1024 / 4) samplePages :=
    (@init_zoneInv (32 * 1024) 40 0x100003 0x128003 _ _ _ (by decide) himg (by decide) (by decide)).table
  have hbase : (samplePages.zone 0).basePage = 0 := htab.basePage 0
  have hend : (samplePages.zone 0).endPage = 0xfff := htab.endPage 0
  have htot : samplePages.totalPages = 8192 := htab.totalPages
  have hnum : samplePages.numZones = 2 := htab.numZones
  have hlen : (clearPages (samplePages.zone 0) samplePages).length < 4096 := by
    refine lt_of_le_of_lt (List.length_filter_le _ _) ?_
    rw [List.length_range', hbase, hend]
    omega
  obtain ⟨s', hd, _, _, hu, _⟩ := @drain_zone (32 * 1024) 40 _ _ _ _ _ _ _ (by decide) himg (by decide) (by decide)
    (@PageReach.init samplePages) 0 (by rw [hnum]; omega) (by rw [hend, htot]; omega) 4096 hlen
  refine ⟨_, s', hd, List.length_map _, ?_⟩
  rw [hu, hend, hbase]

end LineOS
