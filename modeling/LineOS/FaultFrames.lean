import LineOS.FaultRun

/- The frames a page fault takes against the entries it installs. `page_fault`
   takes a frame before it knows anything of the faulting page and drops what
   `__map_page` returns; `fault_leaks` and `fault_balances` are the two ways a
   fault can go, and `fault_balanced_iff` says which goes where. -/
namespace LineOS
open ByteMemory RunSearch

def TwoFree (s : Sysmem) : Prop :=
  ∃ p q, p ≠ q ∧ ((zoneRange zoneNormal s).1 ≤ p ∧ p < (zoneRange zoneNormal s).2 ∧ p ∉ s.used) ∧
    (zoneRange zoneNormal s).1 ≤ q ∧ q < (zoneRange zoneNormal s).2 ∧ q ∉ s.used

def newBits (m m' : Machine) : Nat := (m'.sys.used \ m.sys.used).card

/-- The directory entries installed between two states. -/
def newDirs (m m' : Machine) : Nat :=
  ((Finset.range 1024).filter (fun i => m.dir i = 0 ∧ m'.dir i ≠ 0)).card

/-- The page table entries installed between two states, outside the window. -/
def newPtes (m m' : Machine) : Nat :=
  ((Finset.range (1023 * 1024)).filter (fun page => m.pte page = 0 ∧ m'.pte page ≠ 0)).card

/-- No frame is leaked: as many bits are set as entries installed, and the allocator
is as before if there is none. -/
structure Balanced (m m' : Machine) : Prop where
  bits : newBits m m' = newPtes m m' + newDirs m m'
  idle : newPtes m m' + newDirs m m' = 0 →
    m'.sys.bitmap = m.sys.bitmap ∧ m'.sys.freePages = m.sys.freePages ∧ m'.sys.zone = m.sys.zone

section
variable {reserved : Finset Nat} {m : Machine} {a : U32}

/-! Taking one page, and a second. -/

theorem TwoFree.normalFree {s : Sysmem} (h : TwoFree s) : NormalFree s := by
  obtain ⟨p, _, _, hp, _⟩ := h
  exact ⟨p, hp⟩

theorem TwoFree.take (h : TwoFree m.sys) (hb : Backed reserved m) : NormalFree m.take.sys := by
  obtain ⟨hs, hu⟩ := take_used hb h.normalFree
  obtain ⟨p, q, hpq, ⟨hp₁, hp₂, hp₃⟩, hq₁, hq₂, hq₃⟩ := h
  have hz : zoneRange zoneNormal m.take.sys = zoneRange zoneNormal m.sys := by
    rw [zoneRange, zoneRange, hs.zoneBounds_eq, hs.totalPages]
  rw [NormalFree, hz, hu]
  by_cases hpn : p = newFrame m
  · have hqn : q ≠ newFrame m := fun hq => hpq (hpn.trans hq.symm)
    exact ⟨q, hq₁, hq₂, by rw [Finset.mem_insert, not_or]; exact ⟨hqn, hq₃⟩⟩
  · exact ⟨p, hp₁, hp₂, by rw [Finset.mem_insert, not_or]; exact ⟨hpn, hp₃⟩⟩

theorem newBits_insert {m' : Machine} {f : Nat} (hn : f ∉ m.sys.used) (hu : m'.sys.used = insert f m.sys.used) :
    newBits m m' = 1 := by
  rw [newBits, hu, Finset.insert_sdiff_of_notMem _ hn, Finset.sdiff_self]
  rfl

/-! The entry set already. -/

/-- The fault takes a frame, and maps nothing. -/
theorem fault_leaks (h : Backed reserved m) (hf : NormalFree m.sys) (he : EntrySet a m) :
    ∃ r, pageFault a m = some r ∧ newBits m r.2.2 = 1 ∧ newPtes m r.2.2 = 0 ∧ newDirs m r.2.2 = 0 := by
  refine ⟨_, fault_set h he, newBits_insert (((take_spec h).2.2.1 hf).1) (take_used h hf).2, ?_, ?_⟩
  · refine Finset.card_eq_zero.mpr (Finset.filter_eq_empty_iff.mpr (fun page _ hc => hc.2 ?_))
    exact hc.1
  · refine Finset.card_eq_zero.mpr (Finset.filter_eq_empty_iff.mpr (fun i _ hc => hc.2 ?_))
    exact hc.1

/-! The entry clear. -/

theorem pte_clear (he : ¬ EntrySet a m) : m.pte (a.toNat / 4096) = 0 := by
  have h₁ : a.toNat / 4096 / 1024 = pdeOf a := by unfold pdeOf; omega
  have h₂ : a.toNat / 4096 % 1024 = pteOf a := rfl
  rw [Machine.pte, h₁, h₂]
  by_cases hz : m.dir (pdeOf a) = 0
  · rw [hz, present_zero, if_neg (by decide)]
  · have h0 : m.phys (frameOf (m.dir (pdeOf a))) (pteOf a) = 0 := by
      by_contra hc
      exact he ⟨hz, hc⟩
    rw [h0, ite_self]

theorem newPtes_mapAt (h : Backed reserved m) (hf : NormalFree m.sys) (ha : pdeOf a ≠ 1023)
    (he : ¬ EntrySet a m) (p : U32) : newPtes m (m.take.mapAt p (pageBase a)) = 1 := by
  have ht := (take_spec h).1
  have hv : pdeOf (pageBase a) ≠ 1023 := by rw [(pageBase_spec a).2.1]; exact ha
  have hpte := fun {page} => @mapAt_pte m.take (pageBase a) ht.dir hv (take_spare h hf _) p page
  have hpage : (pageBase a).toNat / 4096 = a.toNat / 4096 := by rw [(pageBase_spec a).1]; omega
  have hset : p ||| pPresent ||| pWrite ||| pUser ≠ 0 := by
    intro hc
    have hp := (userEntry p).1
    rw [hc, present_zero] at hp
    cases hp
  have hin : a.toNat / 4096 < 1023 * 1024 := by
    have := pdeOf_lt a
    unfold pdeOf at *
    omega
  rw [newPtes, Finset.card_eq_one]
  refine ⟨a.toNat / 4096, Finset.ext (fun page => ?_)⟩
  rw [Finset.mem_filter, Finset.mem_range, Finset.mem_singleton]
  refine ⟨fun ⟨hlt, h0, h1⟩ => ?_, fun e => ?_⟩
  · rw [hpte (by omega), hpage] at h1
    by_contra hne
    rw [if_neg hne] at h1
    exact h1 h0
  · subst e
    rw [hpte (by omega), hpage, if_pos rfl]
    exact ⟨hin, pte_clear he, hset⟩

theorem newDirs_mapAt (h : Backed reserved m) (hf : NormalFree m.sys) (ha : pdeOf a ≠ 1023) (p : U32) :
    newDirs m (m.take.mapAt p (pageBase a)) = if m.dir (pdeOf a) = 0 then 1 else 0 := by
  have ht := (take_spec h).1
  have hv : pdeOf (pageBase a) ≠ 1023 := by rw [(pageBase_spec a).2.1]; exact ha
  have hdir : ∀ i, (m.take.mapAt p (pageBase a)).dir i = if i = pdeOf a ∧ m.dir (pdeOf a) = 0 then
      (allocPages 1 zoneNormal m.take.sys).1 ||| pPresent ||| pWrite else m.dir i := by
    intro i
    rw [mapAt_dir ht hv (take_spare h hf _), withTable_dir (fun _ => newFrame_ne_cr3 ht), (pageBase_spec a).2.1]
    rfl
  rw [newDirs]
  by_cases hz : m.dir (pdeOf a) = 0
  · rw [if_pos hz, Finset.card_eq_one]
    refine ⟨pdeOf a, Finset.ext (fun i => ?_)⟩
    rw [Finset.mem_filter, Finset.mem_range, Finset.mem_singleton, hdir]
    refine ⟨fun ⟨_, h0, h1⟩ => ?_, fun e => ?_⟩
    · by_contra hne
      rw [if_neg (fun hc => hne hc.1)] at h1
      exact h1 h0
    · subst e
      rw [if_pos ⟨rfl, hz⟩]
      refine ⟨pdeOf_lt a, hz, fun hc => ?_⟩
      have hp := (newEntry (allocPages 1 zoneNormal m.take.sys).1).1
      rw [hc, present_zero] at hp
      cases hp
  · rw [if_neg hz, Finset.card_eq_zero, Finset.filter_eq_empty_iff]
    intro i _ hc
    rw [hdir, if_neg (fun h => hz h.2)] at hc
    exact hc.2 hc.1

/-- The fault maps the page, and takes a frame for it and one for its table if that
is new. -/
theorem fault_balances (h : Backed reserved m) (h2 : TwoFree m.sys) (ha : pdeOf a ≠ 1023) (he : ¬ EntrySet a m) :
    ∃ r, pageFault a m = some r ∧ newPtes m r.2.2 = 1 ∧
      newDirs m r.2.2 = (if m.dir (pdeOf a) = 0 then 1 else 0) ∧
      newBits m r.2.2 = 1 + if m.dir (pdeOf a) = 0 then 1 else 0 := by
  have hf := h2.normalFree
  obtain ⟨ht, _, hfree, _⟩ := take_spec h
  have hn := (hfree hf).1
  have hu := (take_used h hf).2
  refine ⟨_, fault_clear h he, newPtes_mapAt h hf ha he _, newDirs_mapAt h hf ha _, ?_⟩
  have hsys : (m.take.mapAt (allocPages 1 zoneNormal m.sys).1 (pageBase a)).sys = (m.take.withTable (pageBase a)).sys :=
    rfl
  have hpde : m.take.dir (pdeOf (pageBase a)) = m.dir (pdeOf a) := by rw [(pageBase_spec a).2.1]; rfl
  by_cases hz : m.dir (pdeOf a) = 0
  · -- the table takes the second page
    have hf' := h2.take h
    have hn' := ((take_spec ht).2.2.1 hf').1
    have hused := (((withTable_sys ht (pageBase a)).2.2.2.2.2) (hpde.trans hz)).1
    rw [(take_used ht hf').2, hu] at hused
    rw [hu] at hn'
    have hd : newFrame m.take ∉ m.sys.used := fun hc => hn' (Finset.mem_insert_of_mem hc)
    have hne : newFrame m.take ∉ ({newFrame m} : Finset Nat) :=
      fun hc => hn' (by rw [Finset.mem_singleton.mp hc]; exact Finset.mem_insert_self _ _)
    rw [if_pos hz, newBits, hsys, hused, Finset.insert_sdiff_of_notMem _ hd, Finset.insert_sdiff_of_notMem _ hn,
      Finset.sdiff_self]
    exact Finset.card_insert_of_notMem hne
  · rw [if_neg hz]
    refine newBits_insert hn ?_
    rw [hsys, withTable_set (by rw [hpde]; exact hz)]
    exact hu

/-- **A fault leaks no frame exactly when the page's entry was clear.** On a
paging state in order, with two free pages, for an address outside the window. -/
theorem fault_balanced_iff (h : Backed reserved m) (h2 : TwoFree m.sys) (ha : pdeOf a ≠ 1023) :
    ∃ r, pageFault a m = some r ∧ (Balanced m r.2.2 ↔ ¬ EntrySet a m) := by
  by_cases he : EntrySet a m
  · obtain ⟨r, hr, hb, hp, hd⟩ := fault_leaks h h2.normalFree he
    refine ⟨r, hr, iff_of_false (fun hbal => ?_) (not_not.mpr he)⟩
    have := hbal.bits
    omega
  · obtain ⟨r, hr, hp, hd, hb⟩ := fault_balances h h2 ha he
    refine ⟨r, hr, iff_of_true ⟨by omega, fun h0 => by omega⟩ he⟩

end

/-! The tables of `start.asm`, with the allocator just initialised for an image of
60 pages. -/

def bootMachine : Machine :=
  startMachine 300 (fun _ _ => 0) (initPageAllocator 0x100003 0x13C003
    (initSysmem (32 * 1024) 0xC0000000 (0xC0000000 + BitVec.ofNat 32 (60 * 4096)) (fun _ => 0xFF)))

theorem bootMachine_backed : Backed (Finset.range 317) bootMachine ∧ TwoFree bootMachine.sys := by
  have hki : KernelImage 60 0x100003 0x13C003 := ⟨by decide, by decide⟩
  obtain ⟨hb, hz, hu, _, _⟩ := @start_backed 300 60 (fun _ _ => 0) 0x100003 0x13C003 (fun _ => 0xFF) _ hki
    (by decide) (by decide) (by decide) rfl
  refine ⟨hb, 4096, 4097, by decide, ?_, ?_⟩ <;> rw [bootMachine, startMachine, hz, hu] <;> decide

theorem fault_balanced_sample : ∃ r, pageFault 0x400000 bootMachine = some r ∧ Balanced bootMachine r.2.2 := by
  obtain ⟨hb, h2⟩ := bootMachine_backed
  have hclear : ¬ EntrySet 0x400000 bootMachine := fun he => he.1 (by decide)
  obtain ⟨r, hr, hiff⟩ := fault_balanced_iff hb h2 (a := 0x400000) (by decide)
  exact ⟨r, hr, hiff.mpr hclear⟩

/-- A fault at the kernel's first page, which is present: a frame is taken and
nothing mapped. -/
theorem fault_leaks_frame : ∃ r, pageFault 0xC0000000 bootMachine = some r ∧ newBits bootMachine r.2.2 = 1 ∧
    newPtes bootMachine r.2.2 = 0 ∧ newDirs bootMachine r.2.2 = 0 ∧ ¬ Balanced bootMachine r.2.2 := by
  obtain ⟨hb, h2⟩ := bootMachine_backed
  have hset : EntrySet 0xC0000000 bootMachine := ⟨by decide, by decide⟩
  obtain ⟨r, hr, hbits, hp, hd⟩ := fault_leaks hb h2.normalFree hset
  refine ⟨r, hr, hbits, hp, hd, fun hbal => ?_⟩
  have := hbal.bits
  omega

end LineOS
