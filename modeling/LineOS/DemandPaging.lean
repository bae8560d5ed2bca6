import LineOS.PageRun
import LineOS.PageTables

/- What a page fault works with: an allocator that hands out a frame from
   `ZONE_NORMAL` and may hand out a second one for a table, and page tables to
   put it in. `Backed` is what every fault keeps of allocator and directory,
   `Owned` what it keeps of the pages mapped so far. `take_spec` is one frame
   taken, `mapAt_backed` and `mapAt_owned` one page mapped. -/
namespace LineOS
open ByteMemory RunSearch

/-- `ZONE_NORMAL` has a free page. -/
def NormalFree (s : Sysmem) : Prop :=
  ∃ page, (zoneRange zoneNormal s).1 ≤ page ∧ page < (zoneRange zoneNormal s).2 ∧ page ∉ s.used

/-! One page from `ZONE_NORMAL`. -/

section
variable {s : Sysmem}

theorem freeRun_one {a : Nat} : FreeRun s 1 a ↔ a ∉ s.used := by
  constructor
  · exact fun h => h a (Nat.le_refl a) (by omega)
  · intro h i h₁ h₂
    obtain rfl : i = a := by omega
    exact h

theorem allocOne_free (ht : ZoneTable s) (hc : Counted s) (hf : NormalFree s) :
    ∃ a, a ∉ s.used ∧ a < s.totalPages ∧ (allocPages 1 zoneNormal s).1 = BitVec.ofNat 32 (a * 4096) ∧
      SameTable s (allocPages 1 zoneNormal s).2 ∧ Counted (allocPages 1 zoneNormal s).2 ∧
      (allocPages 1 zoneNormal s).2.used = insert a s.used := by
  have h1 : (1 : U32).toNat = 1 := rfl
  rcases allocPages_spec ht 1 zoneNormal with ⟨_, a, hrun, he⟩ | ⟨hnone, _⟩
  · have hfree := hrun.free
    have hhi : a + 1 ≤ s.totalPages := hrun.hi.trans (min_le_right _ _)
    rw [h1] at hfree he
    obtain ⟨hs, hc', hu⟩ := markPagesUsed_spec ht hc a 1 hhi hfree
    rw [he]
    refine ⟨a, freeRun_one.mp hfree, by omega, rfl, hs, hc', ?_⟩
    show (markPagesUsed a 1 s).used = _
    rw [hu, Nat.Ico_succ_singleton, Finset.union_comm, Finset.insert_eq]
  · obtain ⟨page, hlo, hhi, hn⟩ := hf
    have hno := hnone.resolve_left (by decide)
    exact absurd (freeRun_one.mpr hn) (hno page hlo (by rw [h1]; omega))

theorem allocOne_full (ht : ZoneTable s) (hf : ¬ NormalFree s) : allocPages 1 zoneNormal s = (0, s) := by
  have h1 : (1 : U32).toNat = 1 := rfl
  rcases allocPages_spec ht 1 zoneNormal with ⟨_, a, hrun, _⟩ | ⟨_, he⟩
  · have hfree := hrun.free
    have hhi := hrun.hi
    rw [h1] at hfree hhi
    exact absurd ⟨a, hrun.lo, by omega, freeRun_one.mp hfree⟩ hf
  · exact he

theorem NormalFree.of_insert {s' : Sysmem} (hs : SameTable s s') (hu : s.used ⊆ s'.used)
    (h : NormalFree s') : NormalFree s := by
  obtain ⟨page, hlo, hhi, hn⟩ := h
  have hz : zoneRange zoneNormal s' = zoneRange zoneNormal s := by
    rw [zoneRange, zoneRange, hs.zoneBounds_eq, hs.totalPages]
  rw [hz] at hlo hhi
  exact ⟨page, hlo, hhi, fun hp => hn (hu hp)⟩

end

/-- The zones are where they were, and at most `n` more pages are in use. -/
structure FewTaken (n : Nat) (s s' : Sysmem) : Prop where
  total : s'.totalPages = s.totalPages
  range : zoneRange zoneNormal s' = zoneRange zoneNormal s
  card : s'.used.card ≤ s.used.card + n

namespace FewTaken
variable {n k : Nat} {s s₁ s₂ : Sysmem}

theorem refl (s : Sysmem) : FewTaken 0 s s := ⟨rfl, rfl, Nat.le_refl _⟩

theorem mono (h : FewTaken n s s₁) (hle : n ≤ k) : FewTaken k s s₁ :=
  ⟨h.total, h.range, h.card.trans (by omega)⟩

theorem trans (h₁ : FewTaken n s s₁) (h₂ : FewTaken k s₁ s₂) : FewTaken (n + k) s s₂ := by
  refine ⟨h₂.total.trans h₁.total, h₂.range.trans h₁.range, ?_⟩
  have := h₁.card
  have := h₂.card
  omega

end FewTaken

theorem NormalFree.of_card {s : Sysmem} {lo hi : Nat} (hz : zoneRange zoneNormal s = (lo, hi))
    (hc : s.used.card < hi - lo) : NormalFree s := by
  by_contra hno
  have hsub : Finset.Ico lo hi ⊆ s.used := by
    intro page hp
    rw [Finset.mem_Ico] at hp
    by_contra hn
    exact hno ⟨page, by rw [hz]; exact hp.1, by rw [hz]; exact hp.2, hn⟩
  have hle := Finset.card_le_card hsub
  rw [Nat.card_Ico] at hle
  omega

/-! What every fault keeps. -/

/-- The allocator counts right and keeps `reserved`; the directory is in order; its
tables lie in frames in use, and frame 0 is a table only once `ZONE_NORMAL` is full. -/
structure Backed (reserved : Finset Nat) (m : Machine) : Prop where
  dir : DirOk m
  cr3 : m.cr3 ≠ 0
  table : ZoneTable m.sys
  counted : Counted m.sys
  small : m.sys.totalPages ≤ 2 ^ 20
  zero : 0 ∈ reserved
  kept : reserved ⊆ m.sys.used
  inUse : ∀ i < 1024, present (m.dir i) = true → frameOf (m.dir i) ∈ m.sys.used
  zeroTable : ∀ i < 1024, present (m.dir i) = true → frameOf (m.dir i) = 0 → ¬ NormalFree m.sys

/-- The pages mapped by faults so far, with their frames: each is translated so, and
its frame is in use but no table's, not reserved, and no other page's. -/
structure Owned (reserved : Finset Nat) (m : Machine) (hist : List (Nat × Nat)) : Prop where
  walks : ∀ x ∈ hist, x.1 / 1024 < 1023 ∧ m.walk x.1 = some x.2
  inUse : ∀ x ∈ hist, x.2 ∈ m.sys.used
  fresh : ∀ x ∈ hist, x.2 ∉ reserved
  notTable : ∀ x ∈ hist, ∀ i < 1024, present (m.dir i) = true → frameOf (m.dir i) ≠ x.2
  distinct : hist.Pairwise (fun x y => x.2 ≠ y.2)

/-- The machine after `alloc_pages` took a page. -/
def Machine.take (m : Machine) : Machine := { m with sys := (allocPages 1 zoneNormal m.sys).2 }

section
variable {reserved : Finset Nat} {m : Machine} {hist : List (Nat × Nat)}

/-- Taking a page: the frame is one nobody used, or 0 when there is none. -/
theorem take_spec (h : Backed reserved m) : Backed reserved m.take ∧ m.sys.used ⊆ m.take.sys.used ∧
    (NormalFree m.sys → newFrame m ∉ m.sys.used ∧ newFrame m ∈ m.take.sys.used ∧ newFrame m < 1048576 ∧
      (allocPages 1 zoneNormal m.sys).1 = BitVec.ofNat 32 (newFrame m * 4096)) ∧
    (¬ NormalFree m.sys → (allocPages 1 zoneNormal m.sys).1 = 0 ∧ m.take = m) := by
  have hsmall := h.small
  by_cases hf : NormalFree m.sys
  · obtain ⟨a, hn, hlt, ha, hs, hc, hu⟩ := allocOne_free h.table h.counted hf
    have hfr : newFrame m = a := by
      rw [newFrame, ha, BitVec.toNat_ofNat]
      omega
    have hsub : m.sys.used ⊆ m.take.sys.used := by
      show _ ⊆ (allocPages 1 zoneNormal m.sys).2.used
      rw [hu]
      exact Finset.subset_insert _ _
    refine ⟨⟨h.dir.congr rfl (fun _ _ => rfl), h.cr3, hs.zoneTable h.table, hc, ?_, h.zero, h.kept.trans hsub,
      fun i hi hp => hsub (h.inUse i hi hp),
      fun i hi hp h0 hf' => h.zeroTable i hi hp h0 (hf'.of_insert hs hsub)⟩, hsub, fun _ => ?_, fun hc => absurd hf hc⟩
    · show (allocPages 1 zoneNormal m.sys).2.totalPages ≤ _
      rw [hs.totalPages]
      exact hsmall
    · rw [hfr]
      refine ⟨hn, ?_, by omega, ha⟩
      show a ∈ (allocPages 1 zoneNormal m.sys).2.used
      rw [hu]
      exact Finset.mem_insert_self _ _
  · have he := allocOne_full h.table hf
    have hm : m.take = m := by rw [Machine.take, he]
    rw [hm]
    exact ⟨h, Finset.Subset.refl _, fun hc => absurd hc hf, fun _ => ⟨by rw [he], rfl⟩⟩

theorem take_used (h : Backed reserved m) (hf : NormalFree m.sys) :
    SameTable m.sys m.take.sys ∧ m.take.sys.used = insert (newFrame m) m.sys.used := by
  obtain ⟨p, hn, hlt, hp, hs, _, hu⟩ := allocOne_free h.table h.counted hf
  have hsmall := h.small
  have hfr : newFrame m = p := by
    rw [newFrame, hp, BitVec.toNat_ofNat]
    omega
  exact ⟨hs, by rw [hfr]; exact hu⟩

theorem take_few (h : Backed reserved m) : FewTaken 1 m.sys m.take.sys := by
  by_cases hf : NormalFree m.sys
  · obtain ⟨hs, hu⟩ := take_used h hf
    refine ⟨hs.totalPages, by rw [zoneRange, zoneRange, hs.zoneBounds_eq, hs.totalPages], ?_⟩
    rw [hu]
    exact Finset.card_insert_le _ _
  · rw [((take_spec h).2.2.2 hf).2]
    exact (FewTaken.refl _).mono (by omega)

/-- With a page to give, a new table goes to a frame no table uses. If that was the
last page, the frame is 0, which no table had yet. -/
theorem take_spare (h : Backed reserved m) (hf : NormalFree m.sys) (v : U32) : Spare m.take v := by
  obtain ⟨h', hsub, _, _⟩ := take_spec h
  intro _ i hi hp
  by_cases hf' : NormalFree m.take.sys
  · have hn := ((take_spec h').2.2.1 hf').1
    exact fun e => hn (e ▸ h'.inUse i hi hp)
  · have h0 : newFrame m.take = 0 := by rw [newFrame, ((take_spec h').2.2.2 hf').1]; rfl
    rw [h0]
    exact fun e => h.zeroTable i hi hp e hf

/-- The frame of a new table: one nobody used, or 0 when there is none. -/
theorem newFrame_cases (h : Backed reserved m) :
    newFrame m ∉ m.sys.used ∧ newFrame m ∈ m.take.sys.used ∨
      newFrame m = 0 ∧ ¬ NormalFree m.take.sys ∧ m.take = m := by
  obtain ⟨_, _, hfree, hfull⟩ := take_spec h
  by_cases hf : NormalFree m.sys
  · exact Or.inl ⟨(hfree hf).1, (hfree hf).2.1⟩
  · obtain ⟨h0, hm⟩ := hfull hf
    refine Or.inr ⟨by rw [newFrame, h0]; rfl, ?_, hm⟩
    rw [hm]
    exact hf

theorem newFrame_ne_cr3 (h : Backed reserved m) : newFrame m ≠ m.cr3 := by
  rcases newFrame_cases h with ⟨hn, _⟩ | ⟨h0, _, _⟩
  · intro e
    have hu := h.inUse 1023 (by omega) h.dir.self
    rw [h.dir.selfFrame, ← e] at hu
    exact hn hu
  · rw [h0]
    exact h.cr3.symm

/-! `__map_page`, on a backed machine. -/

variable {v : U32}

theorem withTable_frames (h : Backed reserved m) {i : Nat} (hp : present ((m.withTable v).dir i) = true) :
    i = pdeOf v ∧ m.dir (pdeOf v) = 0 ∧ frameOf ((m.withTable v).dir i) = newFrame m ∨
      present (m.dir i) = true ∧ frameOf ((m.withTable v).dir i) = frameOf (m.dir i) := by
  have hdir := withTable_dir (v := v) (fun _ => newFrame_ne_cr3 h) i
  by_cases hi : i = pdeOf v ∧ m.dir (pdeOf v) = 0
  · rw [if_pos hi] at hdir
    exact Or.inl ⟨hi.1, hi.2, by rw [hdir]; exact (newEntry _).2⟩
  · rw [if_neg hi] at hdir
    rw [hdir] at hp ⊢
    exact Or.inr ⟨hp, rfl⟩

/-- The allocator after `v` has its table: as it was, or one page further. -/
theorem withTable_sys (h : Backed reserved m) (v : U32) : ZoneTable (m.withTable v).sys ∧
    Counted (m.withTable v).sys ∧ (m.withTable v).sys.totalPages ≤ 2 ^ 20 ∧
    m.sys.used ⊆ (m.withTable v).sys.used ∧ (NormalFree (m.withTable v).sys → NormalFree m.sys) ∧
    (m.dir (pdeOf v) = 0 → (m.withTable v).sys.used = m.take.sys.used ∧
      (NormalFree (m.withTable v).sys ↔ NormalFree m.take.sys)) := by
  by_cases hz : m.dir (pdeOf v) = 0
  · obtain ⟨ht, hsub, hfree, hfull⟩ := take_spec h
    have hmono : NormalFree m.take.sys → NormalFree m.sys := by
      intro hf
      by_contra hc
      rw [(hfull hc).2] at hf
      exact hc hf
    -- a panic leaves everything the allocator goes by
    have hsame : ∀ s : Sysmem, ∀ msg, s = m.take.sys ∨ s = m.take.sys.panic msg →
        ZoneTable s ∧ Counted s ∧ s.totalPages ≤ 2 ^ 20 ∧ s.used = m.take.sys.used ∧
          (NormalFree s ↔ NormalFree m.take.sys) := by
      rintro s msg (rfl | rfl)
      · exact ⟨ht.table, ht.counted, ht.small, rfl, Iff.rfl⟩
      · exact ⟨⟨ht.table.flags, ht.table.covered, ht.table.apart, ht.table.limit, ht.table.total_le⟩,
          ⟨ht.counted.free, ht.counted.zones⟩, ht.small, rfl, Iff.rfl⟩
    have hsys : (m.withTable v).sys = m.take.sys ∨
        (m.withTable v).sys = m.take.sys.panic "Unable to alloc_pages while mapping page!\n" := by
      rw [Machine.withTable, if_pos hz]
      show (if _ then _ else _) = _ ∨ (if _ then _ else _) = _
      split
      · exact Or.inr rfl
      · exact Or.inl rfl
    obtain ⟨h₁, h₂, h₃, h₄, h₅⟩ := hsame _ _ hsys
    exact ⟨h₁, h₂, h₃, by rw [h₄]; exact hsub, fun hf => hmono (h₅.mp hf), fun _ => ⟨h₄, h₅⟩⟩
  · rw [withTable_set hz]
    exact ⟨h.table, h.counted, h.small, Finset.Subset.refl _, id, fun hc => absurd hc hz⟩

theorem withTable_few (h : Backed reserved m) (v : U32) :
    FewTaken (if m.dir (pdeOf v) = 0 then 1 else 0) m.sys (m.withTable v).sys := by
  by_cases hz : m.dir (pdeOf v) = 0
  · have ht := take_few h
    rw [Machine.withTable, if_pos hz, if_pos hz]
    show FewTaken 1 m.sys (if _ then _ else _)
    split
    · exact ⟨ht.total, ht.range, ht.card⟩
    · exact ht
  · rw [withTable_set hz, if_neg hz]
    exact FewTaken.refl _

theorem withTable_backed (h : Backed reserved m) (hs : Spare m v) : Backed reserved (m.withTable v) := by
  obtain ⟨ht, hc, hle, hsub, hfree, hnew⟩ := withTable_sys h v
  have hcr : (m.withTable v).cr3 = m.cr3 := by
    unfold Machine.withTable
    split <;> rfl
  refine ⟨withTable_ok h.dir hs, by rw [hcr]; exact h.cr3, ht, hc, hle, h.zero, h.kept.trans hsub, ?_, ?_⟩
  · intro i hi hp
    rcases withTable_frames h hp with ⟨_, hz, he⟩ | ⟨hp', he⟩
    · rw [he, (hnew hz).1]
      rcases newFrame_cases h with ⟨_, hu⟩ | ⟨h0, _, hm⟩
      · exact hu
      · rw [h0, hm]
        exact h.kept h.zero
    · rw [he]
      exact hsub (h.inUse i hi hp')
  · intro i hi hp h0 hf
    rcases withTable_frames h hp with ⟨_, hz, he⟩ | ⟨hp', he⟩
    · rcases newFrame_cases h with ⟨hn, _⟩ | ⟨_, hno, _⟩
      · rw [he] at h0
        rw [h0] at hn
        exact hn (h.kept h.zero)
      · exact hno ((hnew hz).2.mp hf)
    · exact h.zeroTable i hi hp' (he ▸ h0) (hfree hf)

/-- An entry stored in a table leaves the directory and the allocator. -/
theorem setEntry_backed (h : Backed reserved m) (hv : pdeOf v ≠ 1023) (hp : present (m.dir (pdeOf v)) = true)
    (e : U32) : Backed reserved (m.setWord (frameOf (m.dir (pdeOf v))) (pteOf v) e) := by
  have hdir := dir_setWord_off (h.dir.table_ne (pdeOf_lt v) hv hp) (pteOf v) e
  refine ⟨h.dir.congr rfl (fun i _ => hdir i), h.cr3, h.table, h.counted, h.small, h.zero, h.kept, ?_, ?_⟩
  · intro i hi
    rw [hdir]
    exact h.inUse i hi
  · intro i hi
    rw [hdir]
    exact h.zeroTable i hi

theorem mapAt_backed (h : Backed reserved m) (hv : pdeOf v ≠ 1023) (hs : Spare m v) (p : U32) :
    Backed reserved (m.mapAt p v) :=
  setEntry_backed (withTable_backed h hs) hv
    (withTable_table (h.dir.entry _ (pdeOf_lt v)) (fun _ => newFrame_ne_cr3 h)).1 _

theorem mapAt_dir (h : Backed reserved m) (hv : pdeOf v ≠ 1023) (hs : Spare m v) (p : U32) (i : Nat) :
    (m.mapAt p v).dir i = (m.withTable v).dir i :=
  dir_setWord_off ((withTable_ok h.dir hs).table_ne (pdeOf_lt v) hv
    (withTable_table (h.dir.entry _ (pdeOf_lt v)) (fun _ => newFrame_ne_cr3 h)).1) _ _ i

/-- A clear entry translates nothing. -/
theorem walk_clear (hc : m.dir (pdeOf v) = 0 ∨ m.entry v = 0) : m.walk (v.toNat / 4096) = none := by
  have h₁ : v.toNat / 4096 / 1024 = pdeOf v := by unfold pdeOf; omega
  have h₂ : v.toNat / 4096 % 1024 = pteOf v := rfl
  rw [Machine.walk, h₁, h₂]
  rcases hc with hc | hc
  · rw [hc, present_zero, if_neg (by decide)]
  · have hz : present (m.phys (frameOf (m.dir (pdeOf v))) (pteOf v)) = false := by
      rw [Machine.entry] at hc
      rw [hc]
      exact present_zero
    simp [hz]

/-- **Mapping a page to a frame nobody used** adds it to the pages owned. -/
theorem mapAt_owned (h : Backed reserved m) (ho : Owned reserved m hist) (hv : pdeOf v ≠ 1023)
    (hs : Spare m v) (hc : m.dir (pdeOf v) = 0 ∨ m.entry v = 0) {p : U32} {f : Nat} (hp : p.toNat / 4096 = f)
    (hu : f ∈ m.sys.used) (hr : f ∉ reserved) (ht : ∀ i < 1024, present (m.dir i) = true → frameOf (m.dir i) ≠ f)
    (hd : ∀ x ∈ hist, x.2 ≠ f) : Owned reserved (m.mapAt p v) ((v.toNat / 4096, f) :: hist) := by
  have hsub : m.sys.used ⊆ (m.mapAt p v).sys.used := (withTable_sys h v).2.2.2.1
  have hpage : v.toNat / 4096 / 1024 < 1023 := by
    have := pdeOf_lt v
    unfold pdeOf at *
    omega
  -- a frame in use that no table has: the new table does not get it either
  have hnot : ∀ g ∈ m.sys.used, g ∉ reserved → (∀ i < 1024, present (m.dir i) = true → frameOf (m.dir i) ≠ g) →
      ∀ i < 1024, present ((m.mapAt p v).dir i) = true → frameOf ((m.mapAt p v).dir i) ≠ g := by
    intro g hg hgr hgt i hi hpi
    rw [mapAt_dir h hv hs] at hpi ⊢
    rcases withTable_frames h hpi with ⟨_, _, he⟩ | ⟨hpi', he⟩
    · rw [he]
      rcases newFrame_cases h with ⟨hn, _⟩ | ⟨h0, _, _⟩
      · exact fun e => hn (e ▸ hg)
      · exact fun e => hgr (by rw [← e, h0]; exact h.zero)
    · rw [he]
      exact hgt i hi hpi'
  have hwalk := mapAt_walk h.dir hv hs p
  refine ⟨?_, ?_, ?_, ?_, ?_⟩
  · refine List.forall_mem_cons.mpr ⟨⟨hpage, ?_⟩, fun x hx => ⟨(ho.walks x hx).1, ?_⟩⟩
    · rw [hwalk _ hpage, mapped, Function.update_self, hp]
    · obtain ⟨hxp, hxw⟩ := ho.walks x hx
      have hne : x.1 ≠ v.toNat / 4096 := by
        intro e
        rw [e, walk_clear hc] at hxw
        cases hxw
      rw [hwalk _ hxp, mapped, Function.update_of_ne hne, hxw]
  · exact List.forall_mem_cons.mpr ⟨hsub hu, fun x hx => hsub (ho.inUse x hx)⟩
  · exact List.forall_mem_cons.mpr ⟨hr, ho.fresh⟩
  · exact List.forall_mem_cons.mpr ⟨hnot f hu hr ht,
      fun x hx => hnot x.2 (ho.inUse x hx) (ho.fresh x hx) (ho.notTable x hx)⟩
  · exact List.pairwise_cons.mpr ⟨fun x hx => (hd x hx).symm, ho.distinct⟩

end
end LineOS
