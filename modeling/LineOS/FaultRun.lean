import LineOS.DemandPaging

/- Runs of page faults. `fault_covered` and `fault_uncovered` are one fault on a
   backed machine, `init_backed` the machine `init_paging` leaves, and
   `demand_paging_iff` every run whose faults were covered: the frames stay apart,
   and they stay so after one more fault if and only if that one is covered too.
   `faults_alias` runs the zone dry by faulting at page after page, and then maps
   frame 0. -/
namespace LineOS
open ByteMemory RunSearch

/-- The entry of the faulting page is set already, as for a protection fault. -/
def EntrySet (a : U32) (m : Machine) : Prop := m.dir (pdeOf a) ≠ 0 ∧ m.entry a ≠ 0

/-- A fault that can be served, or has nothing to map. -/
def Covered (a : U32) (m : Machine) : Prop := NormalFree m.sys ∨ EntrySet a m

/-- An address outside the window and the first 4 MB. -/
def DemandAddr (a : U32) : Prop := pdeOf a ≠ 0 ∧ pdeOf a ≠ 1023

/-- The pages mapped after a fault with result `r`: the page `__map_page` returned,
if it did, with the frame it was given. -/
def faultHist (r : U32 × U32 × Machine) (hist : List (Nat × Nat)) : List (Nat × Nat) :=
  if r.2.1 = 0 then hist else (r.2.1.toNat / 4096, r.1.toNat / 4096) :: hist

/-- Faults that all meet `ok`, from `m₀`, with the pages they mapped, latest first. -/
inductive FaultReach (ok : U32 → Machine → Prop) (m₀ : Machine) : Machine → List (Nat × Nat) → Prop
  | init : FaultReach ok m₀ m₀ []
  | fault {m hist} (a : U32) (r : U32 × U32 × Machine) : FaultReach ok m₀ m hist → DemandAddr a → ok a m →
      pageFault a m = some r → FaultReach ok m₀ r.2.2 (faultHist r hist)

/-- What demand paging promises: the pages mapped by faults are translated to
frames that are no other page's, not reserved and no table's. -/
structure NoAlias (reserved : Finset Nat) (m : Machine) (hist : List (Nat × Nat)) : Prop where
  walks : ∀ x ∈ hist, m.walk x.1 = some x.2
  distinct : hist.Pairwise (fun x y => x.2 ≠ y.2)
  fresh : ∀ x ∈ hist, x.2 ∉ reserved
  notTable : ∀ x ∈ hist, ∀ i < 1024, present (m.dir i) = true → frameOf (m.dir i) ≠ x.2

section
variable {reserved : Finset Nat} {m : Machine} {hist : List (Nat × Nat)} {a : U32}

theorem Owned.noAlias (h : Owned reserved m hist) : NoAlias reserved m hist :=
  ⟨fun x hx => (h.walks x hx).2, h.distinct, h.fresh, h.notTable⟩

/-! One fault. -/

def pageBase (a : U32) : U32 := BitVec.ofNat 32 (a.toNat / 4096 * 4096)

theorem pageFault_eq (a : U32) (m : Machine) : pageFault a m =
    (mapPage (allocPages 1 zoneNormal m.sys).1 (pageBase a) m.take).map fun r =>
      ((allocPages 1 zoneNormal m.sys).1, r.1, r.2) := rfl

theorem pageBase_spec (a : U32) : (pageBase a).toNat = a.toNat / 4096 * 4096 ∧ pdeOf (pageBase a) = pdeOf a ∧
    pteOf (pageBase a) = pteOf a := by
  have h : (pageBase a).toNat = a.toNat / 4096 * 4096 := by
    have hlt := a.isLt
    rw [pageBase, BitVec.toNat_ofNat]
    omega
  refine ⟨h, ?_, ?_⟩
  · rw [pdeOf, pdeOf, h]
    omega
  · rw [pteOf, pteOf, h]
    omega

theorem entry_pageBase (m : Machine) (a : U32) : m.entry (pageBase a) = m.entry a := by
  rw [Machine.entry, Machine.entry, (pageBase_spec a).2.1, (pageBase_spec a).2.2]

/-- A fault at a page whose entry is set maps nothing, and keeps the frame it took. -/
theorem fault_set (h : Backed reserved m) (he : EntrySet a m) :
    pageFault a m = some ((allocPages 1 zoneNormal m.sys).1, 0, m.take) := by
  have ht := (take_spec h).1
  have hm : ¬ Mappable (allocPages 1 zoneNormal m.sys).1 (pageBase a) m.take := by
    rintro ⟨_, _, hc | hc⟩
    · rw [(pageBase_spec a).2.1] at hc
      exact he.1 hc
    · rw [entry_pageBase] at hc
      exact he.2 hc
  rw [pageFault_eq, mapPage_refuse ht.dir.toSelfMapped (ht.dir.entry _ (pdeOf_lt _)) (fun _ => newFrame_ne_cr3 ht) hm]
  rfl

/-- A fault at a page whose entry is clear maps it, to whatever `alloc_pages` returned. -/
theorem fault_clear (h : Backed reserved m) (he : ¬ EntrySet a m) : pageFault a m =
    some ((allocPages 1 zoneNormal m.sys).1, pageBase a,
      m.take.mapAt (allocPages 1 zoneNormal m.sys).1 (pageBase a)) := by
  have ht := (take_spec h).1
  have hm : Mappable (allocPages 1 zoneNormal m.sys).1 (pageBase a) m.take := by
    refine ⟨allocPages_aligned _ _ _, ?_, ?_⟩
    · rw [(pageBase_spec a).1]
      omega
    · rw [(pageBase_spec a).2.1, entry_pageBase]
      by_contra hc
      rw [not_or] at hc
      exact he hc
  rw [pageFault_eq, mapPage_clear ht.dir.toSelfMapped (ht.dir.entry _ (pdeOf_lt _)) (fun _ => newFrame_ne_cr3 ht) hm]
  rfl

theorem pageBase_ne_zero (ha : DemandAddr a) : pageBase a ≠ 0 := by
  intro e
  have h := (pageBase_spec a).2.1
  rw [e] at h
  exact ha.1 h.symm

theorem take_owned (h : Backed reserved m) (ho : Owned reserved m hist) : Owned reserved m.take hist :=
  ⟨ho.walks, fun x hx => (take_spec h).2.1 (ho.inUse x hx), ho.fresh, ho.notTable, ho.distinct⟩

/-- **A covered fault keeps the frames apart.** It takes a page if there is one, and
touches no directory entry but its own. -/
theorem fault_covered (h : Backed reserved m) (ho : Owned reserved m hist) (ha : DemandAddr a)
    (hc : Covered a m) : ∃ r, pageFault a m = some r ∧ Backed reserved r.2.2 ∧
      Owned reserved r.2.2 (faultHist r hist) ∧ m.take.sys.used ⊆ r.2.2.sys.used ∧
      ∀ i, i ≠ pdeOf a → r.2.2.dir i = m.dir i := by
  obtain ⟨ht, _, hfree, _⟩ := take_spec h
  by_cases he : EntrySet a m
  · exact ⟨_, fault_set h he, ht, by rw [faultHist, if_pos rfl]; exact take_owned h ho,
      Finset.Subset.refl _, fun _ _ => rfl⟩
  · have hf : NormalFree m.sys := hc.resolve_right he
    obtain ⟨hn, hu, hlt, haddr⟩ := hfree hf
    have hv : pdeOf (pageBase a) ≠ 1023 := by rw [(pageBase_spec a).2.1]; exact ha.2
    have hs := take_spare h hf (pageBase a)
    refine ⟨_, fault_clear h he, mapAt_backed ht hv hs _, ?_, (withTable_sys ht _).2.2.2.1, fun i hi => ?_⟩
    swap
    · rw [mapAt_dir ht hv hs, withTable_dir (fun _ => newFrame_ne_cr3 ht), (pageBase_spec a).2.1,
        if_neg (fun hc => hi hc.1)]
      rfl
    rw [faultHist, if_neg (pageBase_ne_zero ha)]
    have hp : (allocPages 1 zoneNormal m.sys).1.toNat / 4096 = newFrame m := rfl
    have hclear : m.take.dir (pdeOf (pageBase a)) = 0 ∨ m.take.entry (pageBase a) = 0 := by
      rw [(pageBase_spec a).2.1, entry_pageBase]
      by_contra hno
      rw [not_or] at hno
      exact he hno
    refine mapAt_owned ht (take_owned h ho) hv hs hclear hp hu (fun hr => hn (h.kept hr)) ?_ ?_
    · intro i hi hpi e
      have e' : frameOf (m.dir i) = newFrame m := e
      exact hn (e' ▸ h.inUse i hi hpi)
    · intro x hx e
      have e' : x.2 = newFrame m := e
      exact hn (e' ▸ ho.inUse x hx)

theorem fault_few (h : Backed reserved m) (a : U32) {r : U32 × U32 × Machine} (hr : pageFault a m = some r) :
    FewTaken 2 m.sys r.2.2.sys := by
  by_cases he : EntrySet a m
  · rw [fault_set h he] at hr
    obtain rfl := Option.some.inj hr
    exact (take_few h).mono (by omega)
  · rw [fault_clear h he] at hr
    obtain rfl := Option.some.inj hr
    have hw : FewTaken 1 m.take.sys (m.take.withTable (pageBase a)).sys :=
      (withTable_few (take_spec h).1 (pageBase a)).mono (by split <;> omega)
    exact (take_few h).trans hw

/-- **A fault that is not covered maps frame 0.** -/
theorem fault_uncovered (hist : List (Nat × Nat)) (h : Backed reserved m) (ha : DemandAddr a) (hc : ¬ Covered a m) :
    ∃ r, pageFault a m = some r ∧ ¬ NoAlias reserved r.2.2 (faultHist r hist) := by
  rw [Covered, not_or] at hc
  have h0 := ((take_spec h).2.2.2 hc.1).1
  refine ⟨_, fault_clear h hc.2, fun hno => ?_⟩
  rw [faultHist, if_neg (pageBase_ne_zero ha), h0] at hno
  exact hno.fresh _ List.mem_cons_self h.zero

/-! Runs. -/

theorem fault_run {m₀ : Machine} (h₀ : Backed reserved m₀) (h : FaultReach Covered m₀ m hist) :
    Backed reserved m ∧ Owned reserved m hist := by
  induction h with
  | init => exact ⟨h₀, by simp, by simp, by simp, by simp, List.Pairwise.nil⟩
  | fault a r _ ha hc hr ih =>
    obtain ⟨r', hr', hb, ho, _⟩ := fault_covered ih.1 ih.2 ha hc
    rw [hr] at hr'
    obtain rfl := Option.some.inj hr'
    exact ⟨hb, ho⟩

/-! The cleaning loop of `init_paging`. -/

variable {v : U32}

theorem pteAddr_page (v : U32) : (pteAddr v).toNat / 4096 = 1047552 + pdeOf v := by
  have h := pteAddr_toNat v
  have hlt := pteOf_lt v
  omega

theorem touch_window (h : SelfMapped m) (hp : present (m.dir (pdeOf v)) = true) : touch (pteAddr v) m = some m := by
  rw [touch, pteAddr_page, walk_window h (pdeOf_lt v) hp, Option.isSome_some, if_pos rfl]

theorem pPresent_or (e : U32) : e ||| pPresent ≠ 0 := by
  intro hc
  have hp := present_or e
  rw [hc] at hp
  cases hp

/-- `__unmap_page` after its first access, which left the table there: one entry is cleared. -/
theorem unmapPage_touched {m₁ : Machine} (h : SelfMapped m₁) (hv : v ≠ 0) (ht : touch (pteAddr v) m = some m₁)
    (hp : present (m₁.dir (pdeOf v)) = true) :
    unmapPage v m = some (m₁.setWord (frameOf (m₁.dir (pdeOf v))) (pteOf v) 0) := by
  rw [unmapPage, if_neg hv, ht, Option.bind_some, getPageTableEntry_eq h hp, Option.bind_some,
    if_pos (pPresent_or _), touch_window h hp, Option.bind_some, setPageTableEntry_eq h 0 hp]

theorem unmapPage_eq (h : SelfMapped m) (hv : v ≠ 0) (hp : present (m.dir (pdeOf v)) = true) :
    unmapPage v m = some (m.setWord (frameOf (m.dir (pdeOf v))) (pteOf v) 0) :=
  unmapPage_touched h hv (touch_window h hp) hp

theorem pteAddr_index : pdeOf (pteAddr v) = 1023 ∧ pteOf (pteAddr v) = pdeOf v := by
  have hpage := pteAddr_page v
  have hlt := pdeOf_lt v
  refine ⟨?_, ?_⟩
  · unfold pdeOf at *
    omega
  · unfold pteOf
    omega

theorem walk_missing (h : SelfMapped m) (hn : present (m.dir (pdeOf v)) = false) :
    m.walk (1047552 + pdeOf v) = none := by
  have h₁ : (1047552 + pdeOf v) / 1024 = 1023 := by have := pdeOf_lt v; omega
  have h₂ : (1047552 + pdeOf v) % 1024 = pdeOf v := by have := pdeOf_lt v; omega
  have h₃ : m.phys m.cr3 (pdeOf v) = m.dir (pdeOf v) := rfl
  simp only [Machine.walk, h₁, h₂, h.self, h.selfFrame, h₃, hn, if_true]
  rfl

/-- The machine once the handler has linked the frame it took as the table of `v`, with
whatever the frame held. -/
def Machine.linkTaken (m : Machine) (v : U32) : Machine :=
  m.take.setWord m.cr3 (pdeOf v) ((allocPages 1 zoneNormal m.sys).1 ||| pPresent ||| pWrite ||| pUser)

theorem linkTaken_dir (m : Machine) (v : U32) (i : Nat) : (m.linkTaken v).dir i =
    if i = pdeOf v then (allocPages 1 zoneNormal m.sys).1 ||| pPresent ||| pWrite ||| pUser else m.dir i :=
  @setDir_dir m.take _ _ i

theorem linkTaken_self (h : SelfMapped m) (hv : pdeOf v ≠ 1023) : SelfMapped (m.linkTaken v) :=
  h.congr rfl (by rw [linkTaken_dir, if_neg hv.symm])

/-- A fault at an access to the table of `v`: a directory entry that is set is left as it is. -/
theorem fault_window (h : SelfMapped m) (v : U32) : ∃ r, pageFault (pteAddr v) m = some r ∧
    r.2.2 = if m.dir (pdeOf v) = 0 then m.linkTaken v else m.take := by
  obtain ⟨hpde, hpte⟩ := pteAddr_index (v := v)
  have ht : SelfMapped m.take := h.congr rfl rfl
  have hb : pdeOf (pageBase (pteAddr v)) = 1023 := (pageBase_spec _).2.1.trans hpde
  have hset : m.take.dir (pdeOf (pageBase (pteAddr v))) ≠ 0 := fun hc => ht.ne hc hb
  have hself : frameOf (m.take.dir (pdeOf (pageBase (pteAddr v)))) = m.cr3 := by rw [hb]; exact h.selfFrame
  have hentry : m.take.entry (pageBase (pteAddr v)) = m.dir (pdeOf v) := by
    rw [Machine.entry, hself, (pageBase_spec _).2.2, hpte]
    rfl
  have hpr : present (m.take.dir (pdeOf (pageBase (pteAddr v)))) = true := by rw [hb]; exact h.self
  have haligned : (pageBase (pteAddr v)).toNat % 4096 = 0 := by rw [(pageBase_spec _).1]; omega
  have hphys := allocPages_aligned 1 zoneNormal m.sys
  rw [pageFault_eq, mapPage_eq ht (.inr hpr) (fun hc => absurd hc hset), withTable_set hset, hentry, if_neg (by omega)]
  by_cases hz : m.dir (pdeOf v) = 0
  · rw [if_neg (not_not.mpr hz), if_pos hz, hself, (pageBase_spec _).2.2, hpte]
    exact ⟨_, rfl, rfl⟩
  · rw [if_pos hz, if_neg hz]
    exact ⟨_, rfl, rfl⟩

/-- Where the table is missing, the access to `pd[index]` faults and finds it linked. -/
theorem touch_links (h : SelfMapped m) (hz : m.dir (pdeOf v) = 0) : touch (pteAddr v) m = some (m.linkTaken v) := by
  obtain ⟨r, hr, hm⟩ := fault_window h v
  rw [if_pos hz] at hm
  have hw := walk_window (linkTaken_self h (h.ne hz)) (pdeOf_lt v)
    (by rw [linkTaken_dir, if_pos rfl]; exact (userEntry _).1)
  rw [touch, pteAddr_page, walk_missing h (by rw [hz]; exact present_zero), Option.isSome_none, if_neg (by decide), hr,
    Option.bind_some, hm, hw, Option.isSome_some, if_pos rfl]

/-- A directory entry that is set but not present makes every access fault, again and again. -/
theorem touch_stuck (h : SelfMapped m) (hn : present (m.dir (pdeOf v)) = false) (hz : m.dir (pdeOf v) ≠ 0) :
    touch (pteAddr v) m = none := by
  obtain ⟨r, hr, hm⟩ := fault_window h v
  rw [if_neg hz] at hm
  have hw := walk_missing h hn
  have hw' : m.take.walk (1047552 + pdeOf v) = none := hw
  rw [touch, pteAddr_page, hw, Option.isSome_none, if_neg (by decide), hr, Option.bind_some, hm, hw',
    Option.isSome_none, if_neg (by decide)]

theorem link_backed (h : Backed reserved m) (hf : NormalFree m.sys) (hz : m.dir (pdeOf v) = 0) {e : U32}
    (hpr : present e = true) (hfr : frameOf e = newFrame m) :
    Backed reserved (m.take.setWord m.take.cr3 (pdeOf v) e) := by
  obtain ⟨ht, hsub, hfree, _⟩ := take_spec h
  obtain ⟨hn, hu, _, _⟩ := hfree hf
  have hnew : ∀ i < 1024, present (m.take.dir i) = true → frameOf (m.take.dir i) ≠ frameOf e := by
    intro i hi hpi hc
    rw [hfr] at hc
    exact hn (hc ▸ h.inUse i hi hpi)
  refine ⟨setDir_ok ht.dir (h.dir.ne hz) hpr hnew, ht.cr3, ht.table, ht.counted, ht.small, ht.zero, ht.kept, ?_, ?_⟩
  · intro i hi hpi
    rw [setDir_dir] at hpi ⊢
    by_cases hid : i = pdeOf v
    · rw [if_pos hid, hfr]
      exact hu
    · rw [if_neg hid] at hpi ⊢
      exact hsub (h.inUse i hi hpi)
  · intro i hi hpi h0 hf'
    rw [setDir_dir] at hpi h0
    by_cases hid : i = pdeOf v
    · rw [if_pos hid, hfr] at h0
      exact hn (h0 ▸ h.kept h.zero)
    · rw [if_neg hid] at hpi h0
      exact ht.zeroTable i hi hpi h0 hf'

theorem linkTaken_backed (h : Backed reserved m) (hf : NormalFree m.sys) (hz : m.dir (pdeOf v) = 0) :
    Backed reserved (m.linkTaken v) := by
  obtain ⟨hpr, hfr⟩ := userEntry (allocPages 1 zoneNormal m.sys).1
  exact link_backed h hf hz hpr hfr

theorem unmapPage_backed (h : Backed reserved m) (hv : v ≠ 0) (hpde : pdeOf v ≠ 1023)
    (hf : m.dir (pdeOf v) = 0 → NormalFree m.sys) : ∃ m', unmapPage v m = some m' ∧ Backed reserved m' ∧
      present (m'.dir (pdeOf v)) = true ∧ (∀ i, i ≠ pdeOf v → m'.dir i = m.dir i) ∧
      FewTaken (if m.dir (pdeOf v) = 0 then 1 else 0) m.sys m'.sys := by
  have hpresent : ∀ {m₁ : Machine}, Backed reserved m₁ → present (m₁.dir (pdeOf v)) = true →
      Backed reserved (m₁.setWord (frameOf (m₁.dir (pdeOf v))) (pteOf v) 0) ∧
        ∀ i, (m₁.setWord (frameOf (m₁.dir (pdeOf v))) (pteOf v) 0).dir i = m₁.dir i := by
    intro m₁ h₁ hp
    exact ⟨setEntry_backed h₁ hpde hp 0, dir_setWord_off (h₁.dir.table_ne (pdeOf_lt v) hpde hp) _ _⟩
  have hself := h.dir.toSelfMapped
  rcases h.dir.entry _ (pdeOf_lt v) with hz | hp
  · have hp : present ((m.linkTaken v).dir (pdeOf v)) = true := by
      rw [linkTaken_dir, if_pos rfl]
      exact (userEntry _).1
    obtain ⟨hb', hd'⟩ := hpresent (linkTaken_backed h (hf hz) hz) hp
    refine ⟨_, unmapPage_touched (linkTaken_self hself hpde) hv (touch_links hself hz) hp, hb', by rw [hd']; exact hp,
      fun i hi => ?_, ?_⟩
    · rw [hd', linkTaken_dir, if_neg hi]
    · rw [if_pos hz]
      exact take_few h
  · obtain ⟨hb', hd'⟩ := hpresent h hp
    exact ⟨_, unmapPage_eq hself hv hp, hb', by rw [hd']; exact hp, fun i _ => hd' i, (FewTaken.refl _).mono (by omega)⟩

/-- The loop, inside one 4 MB region: the first access may miss the region's
table, the later ones do not. -/
theorem cleanPages_spec {d : Nat} {cleanTo : U32} (hd0 : d ≠ 0) (hd : d < 1023)
    (hto : cleanTo.toNat = 4194304 * (d + 1)) (n : Nat) : ∀ (fuel : Nat) (cp : U32) (m : Machine),
    Backed reserved m → cp.toNat + 4096 * n = 4194304 * (d + 1) → n ≤ 1024 → n < fuel →
    (m.dir d = 0 → NormalFree m.sys) →
    ∃ m', cleanPages cleanTo fuel cp m = some m' ∧ Backed reserved m' ∧ (∀ i, i ≠ d → m'.dir i = m.dir i) ∧
      FewTaken (if m.dir d = 0 then 1 else 0) m.sys m'.sys := by
  induction n with
  | zero =>
    intro fuel cp m h hcp _ hfuel _
    obtain ⟨fuel, rfl⟩ := Nat.exists_eq_succ_of_ne_zero (by omega : fuel ≠ 0)
    have hlt : ¬ cp < cleanTo := by bv_omega
    exact ⟨m, by rw [cleanPages, if_neg hlt], h, fun _ _ => rfl, (FewTaken.refl _).mono (by omega)⟩
  | succ n ih =>
    intro fuel cp m h hcp hn hfuel hf
    obtain ⟨fuel, rfl⟩ := Nat.exists_eq_succ_of_ne_zero (by omega : fuel ≠ 0)
    have hlt : cp < cleanTo := by bv_omega
    have hpde : pdeOf cp = d := by unfold pdeOf; omega
    have hne : cp ≠ 0 := by
      rintro rfl
      exact hd0 (hpde.symm.trans (by decide))
    obtain ⟨m₁, hu, hb, hp, hdir, hg⟩ := unmapPage_backed h hne (by omega) (by rw [hpde]; exact hf)
    rw [hpde] at hp hdir hg
    have hset : m₁.dir d ≠ 0 := by
      intro hz
      rw [hz] at hp
      cases hp
    have hcp' : (cp + 4096).toNat + 4096 * n = 4194304 * (d + 1) := by bv_omega
    obtain ⟨m', hm, hb', hd', hg'⟩ := ih fuel (cp + 4096) m₁ hb hcp' (by omega) (by omega) (fun hz => absurd hz hset)
    rw [if_neg hset] at hg'
    exact ⟨m', by rw [cleanPages, if_pos hlt, hu, Option.bind_some, hm], hb',
      fun i hi => (hd' i hi).trans (hdir i hi), hg.trans hg'⟩

end
/-! The machine `init_paging` leaves. -/

section
variable {pd k : Nat} {phys : Nat → Nat → U32} {s : Sysmem}

theorem peMaskFlags_eq (e : U32) : peMaskFlags e = BitVec.ofNat 32 (frameOf e * 4096) := by
  apply BitVec.eq_of_toNat_eq
  have hlt := e.isLt
  rw [peMaskFlags, BitVec.toNat_shiftLeft, BitVec.toNat_ushiftRight, Nat.shiftRight_eq_div_pow,
    Nat.shiftLeft_eq, BitVec.toNat_ofNat, frameOf]

/-- The entry of the kernel's page `i`, as `start.asm` fills the table. -/
theorem start_kernel_entry (hpd : pd + 2 < 1048576) {v : U32} (hv : pdeOf v = 768) :
    getPageTableEntry v (startMachine pd phys s) =
      some (BitVec.ofNat 32 (0x100000 + pteOf v * 4096) ||| pPresent ||| pWrite) := by
  have hdir : (startMachine pd phys s).dir 768 =
      BitVec.ofNat 32 ((pd + 2) * 4096) ||| pPresent ||| pWrite ||| pUser := by
    show startTables pd phys pd 768 = _
    rw [startTables, if_pos rfl]
    rfl
  have hp : present ((startMachine pd phys s).dir (pdeOf v)) = true := by
    rw [hv, hdir]
    exact (userEntry _).1
  rw [getPageTableEntry_eq (start_ok hpd).toSelfMapped hp, Machine.entry, hv, hdir, userEntry_frame (by omega)]
  show some (startTables pd phys (pd + 2) (pteOf v)) = _
  rw [startTables, if_neg (by omega), if_neg (by omega), if_pos rfl]

theorem start_image (hpd : pd + 2 < 1048576) (hk : k ≤ 1023) : ∃ es ee,
    getPageTableEntry 0xC0000000 (startMachine pd phys s) = some es ∧
    getPageTableEntry (0xC0000000 + BitVec.ofNat 32 (k * 4096)) (startMachine pd phys s) = some ee ∧
    KernelImage k es ee := by
  have hend : (0xC0000000 + BitVec.ofNat 32 (k * 4096) : U32).toNat = 3221225472 + k * 4096 := by bv_omega
  have hpde : pdeOf (0xC0000000 + BitVec.ofNat 32 (k * 4096)) = 768 := by
    rw [pdeOf, hend]
    omega
  have hpte : pteOf (0xC0000000 + BitVec.ofNat 32 (k * 4096)) = k := by
    rw [pteOf, hend]
    omega
  have he₁ := @start_kernel_entry pd phys s hpd 0xC0000000 (by decide)
  have he₂ := @start_kernel_entry pd phys s hpd _ hpde
  refine ⟨_, _, he₁, he₂, ?_, ?_⟩
  · rw [peMaskFlags_eq, (newEntry _).2]
    decide
  · rw [peMaskFlags_eq, (newEntry _).2, hpte, BitVec.toNat_ofNat]
    congr 1
    omega

theorem zoneBounds_init (ks ke : U32) (raw : Nat → U8) :
    zoneBounds zoneNormal (initSysmem (32 * 1024) ks ke raw) = (4096, 8192) := by
  have hz : (initSysmem (32 * 1024) ks ke raw).zone = (zoneTable 8192).1 := rfl
  have hn : (initSysmem (32 * 1024) ks ke raw).numZones = 2 := rfl
  rw [zoneBounds, hz, hn]
  decide

theorem cleanEnd_toNat {c : U32} {d : Nat} (hd : c.toNat / 4194304 = d) (hle : d ≤ 769) :
    (cleanEnd c).toNat = 4194304 * (d + 1) := by
  have hq : (c / 0x400000).toNat = d := by
    rw [BitVec.toNat_udiv]
    exact hd
  unfold cleanEnd
  generalize c / 0x400000 = q at hq ⊢
  bv_omega

theorem initPaging_eq {raw : Nat → U8} {m : Machine} {es ee : U32} (h₁ : getPageTableEntry 0xC0000000 m = some es)
    (h₂ : getPageTableEntry (0xC0000000 + BitVec.ofNat 32 (k * 4096)) m = some ee) {u : Sysmem}
    (hu : u = initPageAllocator es ee (initSysmem (32 * 1024) 0xC0000000
      (0xC0000000 + BitVec.ofNat 32 (k * 4096)) raw)) :
    initPaging k raw m = cleanPages (cleanEnd u.kernelEnd) pageFuel u.kernelEnd { m with sys := u } := by
  subst hu
  rw [initPaging, h₁, Option.bind_some, h₂, Option.bind_some]

/-- The tables of `start.asm` and the allocator just initialised, for an image that
holds the tables. -/
theorem start_backed {es ee : U32} {raw : Nat → U8} {u : Sysmem} (hki : KernelImage k es ee) (hpd : 256 ≤ pd)
    (himg : pd + 3 ≤ 256 + k) (hk : k ≤ 1023) (hu : u = initPageAllocator es ee (initSysmem (32 * 1024) 0xC0000000
      (0xC0000000 + BitVec.ofNat 32 (k * 4096)) raw)) :
    Backed (Finset.range (256 + k + 1)) (startMachine pd phys u) ∧ zoneRange zoneNormal u = (4096, 8192) ∧
      u.used = Finset.range (256 + k + 1) ∧ u.kernelEnd.toNat = 3221225472 + (k + 1) * 4096 ∧ u.totalPages = 8192 := by
  have hbp : bitmapPages (32 * 1024 / 4) = 1 := by decide
  obtain ⟨ht, hc, hused, htot, _, hzb, hke⟩ := @initPageAllocator_spec (32 * 1024) k es ee 0xC0000000
    (0xC0000000 + BitVec.ofNat 32 (k * 4096)) raw (by omega) hki (by omega) (by rw [hbp]; omega)
  rw [← hu] at ht hc hused htot hzb hke
  rw [hbp] at hused hke
  have hframes : ∀ i, present ((startMachine pd phys u).dir i) = true →
      pd ≤ frameOf ((startMachine pd phys u).dir i) ∧ frameOf ((startMachine pd phys u).dir i) ≤ pd + 2 := by
    intro i hp
    have h := (@start_dir pd phys u (by omega) i).resolve_left (fun hz => by rw [hz] at hp; cases hp)
    omega
  refine ⟨⟨start_ok (by omega), by show pd ≠ 0; omega, ht, hc, ?_, by simp, hused.ge, ?_, ?_⟩, ?_, hused, ?_, htot⟩
  · show u.totalPages ≤ _
    omega
  · intro i _ hp
    have h := hframes i hp
    show frameOf ((startMachine pd phys u).dir i) ∈ u.used
    rw [hused, Finset.mem_range]
    omega
  · intro i _ hp h0
    have h := hframes i hp
    omega
  · rw [zoneRange, hzb, zoneBounds_init, htot]
    decide
  · rw [hke]
    bv_omega

/-- **`init_paging` succeeds**, for an image of at most 1023 pages that holds the
first directory and tables, and leaves a backed machine with next to all of
`ZONE_NORMAL` free. -/
theorem init_backed (raw : Nat → U8) (hpd : 256 ≤ pd) (himg : pd + 3 ≤ 256 + k) (hk : k ≤ 1023) :
    ∃ m₀, initPaging k raw (startMachine pd phys s) = some m₀ ∧ Backed (Finset.range (256 + k + 1)) m₀ ∧
      (∀ i, i ≠ 768 → i ≠ 769 → m₀.dir i = (startMachine pd phys s).dir i) ∧
      m₀.sys.totalPages = 8192 ∧ zoneRange zoneNormal m₀.sys = (4096, 8192) ∧ m₀.sys.used.card ≤ 256 + k + 2 := by
  obtain ⟨es, ee, he₁, he₂, hki⟩ := @start_image pd k phys s (by omega) hk
  have hinit := @initPaging_eq k raw _ es ee he₁ he₂ _ rfl
  obtain ⟨hb, hz, hu, hfrom, htot⟩ := @start_backed pd k phys es ee raw _ hki hpd himg hk rfl
  generalize initPageAllocator es ee _ = u at *
  rw [hinit]
  have hgrown : ∀ {c : Prop} [Decidable c] {m : Machine}, FewTaken (if c then 1 else 0) u m.sys →
      m.sys.totalPages = 8192 ∧ zoneRange zoneNormal m.sys = (4096, 8192) ∧ m.sys.used.card ≤ 256 + k + 2 := by
    intro c _ m hg
    have hc := hg.card
    rw [hu, Finset.card_range] at hc
    refine ⟨hg.total.trans htot, hg.range.trans hz, ?_⟩
    split at hc <;> omega
  have hnf : NormalFree u := ⟨4096, by rw [hz], by rw [hz]; decide, by rw [hu, Finset.mem_range]; omega⟩
  -- the loop cleans the last page's region, or the one behind it
  by_cases hlast : k = 1023
  · have hd : u.kernelEnd.toNat / 4194304 = 769 := by omega
    obtain ⟨m₀, hm, hb₀, hdir, hg⟩ := cleanPages_spec (by omega) (by omega) (cleanEnd_toNat hd (by omega)) 1024 pageFuel
      u.kernelEnd _ hb (by omega) (by omega) (by decide) (fun _ => hnf)
    exact ⟨m₀, hm, hb₀, fun i _ hi => hdir i hi, hgrown hg⟩
  · have hd : u.kernelEnd.toNat / 4194304 = 768 := by omega
    obtain ⟨m₀, hm, hb₀, hdir, hg⟩ := cleanPages_spec (by omega) (by omega) (cleanEnd_toNat hd (by omega)) (1023 - k)
      pageFuel u.kernelEnd _ hb (by omega) (by omega) (by unfold pageFuel; omega) (fun _ => hnf)
    exact ⟨m₀, hm, hb₀, fun i hi _ => hdir i hi, hgrown hg⟩

end

/-- **Demand paging keeps frames apart exactly while faults are covered.** For every
kernel image, `init_paging` succeeds; after any covered faults outside the
window and the first 4 MB, no page mapped by a fault shares its frame with
another, with anything reserved at start, or with a page table; and one more
fault keeps this if and only if it is covered. -/
theorem demand_paging_iff {pd k : Nat} (phys : Nat → Nat → U32) (s : Sysmem) (raw : Nat → U8)
    (hpd : 256 ≤ pd) (himg : pd + 3 ≤ 256 + k) (hk : k ≤ 1023) :
    ∃ m₀, initPaging k raw (startMachine pd phys s) = some m₀ ∧
      ∀ m hist, FaultReach Covered m₀ m hist →
        NoAlias (Finset.range (256 + k + 1)) m hist ∧
        ∀ a, DemandAddr a → ∃ r, pageFault a m = some r ∧
          (NoAlias (Finset.range (256 + k + 1)) r.2.2 (faultHist r hist) ↔ Covered a m) := by
  obtain ⟨m₀, hm, hb₀, _⟩ := @init_backed pd k phys s raw hpd himg hk
  refine ⟨m₀, hm, fun m hist h => ?_⟩
  obtain ⟨hb, ho⟩ := fault_run hb₀ h
  refine ⟨ho.noAlias, fun a ha => ?_⟩
  by_cases hc : Covered a m
  · obtain ⟨r, hr, _, ho', _⟩ := fault_covered hb ho ha hc
    exact ⟨r, hr, iff_of_true ho'.noAlias hc⟩
  · obtain ⟨r, hr, hno⟩ := fault_uncovered hist hb ha hc
    exact ⟨r, hr, iff_of_false hno hc⟩

/-! Page after page. -/

theorem FaultReach.mono {ok ok' : U32 → Machine → Prop} {m₀ m : Machine} {hist : List (Nat × Nat)}
    (himp : ∀ a m, ok a m → ok' a m) (h : FaultReach ok m₀ m hist) : FaultReach ok' m₀ m hist := by
  induction h with
  | init => exact FaultReach.init
  | fault a r _ ha hc hr ih => exact FaultReach.fault a r ih ha (himp _ _ hc) hr

/-- Faults at clear pages, all different and below `page`; from there to the kernel's
first page every entry is clear still. -/
structure Upwards (m₀ : Machine) (page : Nat) (m : Machine) (hist : List (Nat × Nat)) : Prop where
  run : FaultReach (fun a m => Covered a m ∧ ¬ EntrySet a m) m₀ m hist
  pages : hist.Pairwise (fun x y => x.1 ≠ y.1)
  below : ∀ x ∈ hist, x.1 < page
  clear : ∀ q, page ≤ q → q < 786432 → m.pte q = 0

def pageAddr (page : Nat) : U32 := BitVec.ofNat 32 (page * 4096)

theorem pageAddr_spec {page : Nat} (hlo : 1024 ≤ page) (hhi : page < 786432) :
    (pageAddr page).toNat = page * 4096 ∧ DemandAddr (pageAddr page) := by
  have h : (pageAddr page).toNat = page * 4096 := by
    rw [pageAddr, BitVec.toNat_ofNat]
    omega
  refine ⟨h, ?_, ?_⟩ <;> rw [pdeOf, h] <;> omega

section
variable {reserved : Finset Nat} {m₀ m : Machine} {hist : List (Nat × Nat)} {page : Nat}

theorem pageAddr_clear (h : Backed reserved m) (hlo : 1024 ≤ page) (hhi : page < 786432) (hz : m.pte page = 0) :
    ¬ EntrySet (pageAddr page) m := by
  rintro ⟨hdir, hentry⟩
  have ha := (pageAddr_spec hlo hhi).1
  have hp := (h.dir.entry _ (pdeOf_lt _)).resolve_left hdir
  have hde : pdeOf (pageAddr page) = page / 1024 := by rw [pdeOf, ha]; omega
  have hte : pteOf (pageAddr page) = page % 1024 := by rw [pteOf, ha]; omega
  rw [Machine.entry, hde, hte] at hentry
  rw [hde] at hp
  rw [Machine.pte, if_pos hp] at hz
  exact hentry hz

/-- A fault at a clear page maps it to the frame taken, or to frame 0. -/
theorem FaultReach.map_page {ok : U32 → Machine → Prop} (h : FaultReach ok m₀ m hist) (hb : Backed reserved m)
    (hlo : 1024 ≤ page) (hhi : page < 786432) (hz : m.pte page = 0) (hok : ok (pageAddr page) m) :
    ∃ r, pageFault (pageAddr page) m = some r ∧ FaultReach ok m₀ r.2.2 ((page, newFrame m) :: hist) ∧
      r.2.2 = m.take.mapAt (allocPages 1 zoneNormal m.sys).1 (pageBase (pageAddr page)) := by
  obtain ⟨ha, hd⟩ := pageAddr_spec hlo hhi
  have hr := fault_clear hb (pageAddr_clear hb hlo hhi hz)
  have hreach := FaultReach.fault _ _ h hd hok hr
  rw [faultHist, if_neg (pageBase_ne_zero hd)] at hreach
  have hp : (pageBase (pageAddr page)).toNat / 4096 = page := by rw [(pageBase_spec _).1, ha]; omega
  rw [hp] at hreach
  exact ⟨_, hr, hreach, rfl⟩

theorem Upwards.next (h₀ : Backed reserved m₀) (h : Upwards m₀ page m hist) (hlo : 1024 ≤ page)
    (hhi : page < 786432) (hf : NormalFree m.sys) :
    ∃ m', Upwards m₀ (page + 1) m' ((page, newFrame m) :: hist) ∧ FewTaken 2 m.sys m'.sys ∧
      m.sys.used.card < m'.sys.used.card := by
  have hb : Backed reserved m := (fault_run h₀ (h.run.mono fun _ _ hc => hc.1)).1
  have hz := h.clear page (Nat.le_refl _) hhi
  obtain ⟨r, hr, hreach, hm⟩ := h.run.map_page hb hlo hhi hz ⟨Or.inl hf, pageAddr_clear hb hlo hhi hz⟩
  obtain ⟨ht, hsub, hfree, _⟩ := take_spec hb
  obtain ⟨hn, hu, _, _⟩ := hfree hf
  obtain ⟨ha, hd⟩ := pageAddr_spec hlo hhi
  have hmore : m.take.sys.used ⊆ r.2.2.sys.used := by
    rw [hm]
    exact (withTable_sys ht _).2.2.2.1
  refine ⟨r.2.2, ⟨hreach, List.pairwise_cons.mpr ⟨fun x hx => ?_, h.pages⟩, ?_, ?_⟩, fault_few hb _ hr, ?_⟩
  · have := h.below x hx
    show page ≠ x.1
    omega
  · refine List.forall_mem_cons.mpr ⟨Nat.lt_succ_self _, fun x hx => ?_⟩
    have := h.below x hx
    omega
  · intro q hq hq'
    have hv : pdeOf (pageBase (pageAddr page)) ≠ 1023 := by rw [(pageBase_spec _).2.1]; exact hd.2
    have hp : (pageBase (pageAddr page)).toNat / 4096 = page := by rw [(pageBase_spec _).1, ha]; omega
    rw [hm, mapAt_pte ht.dir hv (take_spare hb hf _) _ (by omega), hp, if_neg (by omega)]
    exact h.clear q (by omega) hq'
  · exact Finset.card_lt_card (Finset.ssubset_iff_subset_ne.mpr
      ⟨hsub.trans hmore, fun e => hn (e ▸ hmore hu)⟩)

theorem exhaust (h₀ : Backed reserved m₀) (n : Nat) : ∀ {page : Nat} {m : Machine} {hist : List (Nat × Nat)},
    Upwards m₀ page m hist → m.sys.totalPages < m.sys.used.card + n → 1024 ≤ page → page + n < 786432 →
    ∃ page' m' hist', Upwards m₀ page' m' hist' ∧ 1024 ≤ page' ∧ page' < 786432 ∧ ¬ NormalFree m'.sys := by
  induction n with
  | zero =>
    intro page m hist h hcard _ _
    have hb := (fault_run h₀ (h.run.mono fun _ _ hc => hc.1)).1
    have hle : m.sys.used.card ≤ m.sys.totalPages := by
      have hle := Bitmap.card_le m.sys.bitmap
      rwa [hb.table.limit] at hle
    omega
  | succ n ih =>
    intro page m hist h hcard hlo hhi
    by_cases hf : NormalFree m.sys
    · obtain ⟨m', h', hg, hmore⟩ := h.next h₀ hlo (by omega) hf
      have htot := hg.total
      exact ih h' (by omega) (by omega) (by omega)
    · exact ⟨page, m, hist, h, hlo, by omega, hf⟩

end

/-- Where the runs start, for an image of 60 pages: no page has faulted. -/
theorem upwards_boot : ∃ m₀, initPaging 60 (fun _ => 0xFF) (startMachine 300 (fun _ _ => 0) sampleSys) = some m₀ ∧
    Backed (Finset.range 317) m₀ ∧ Upwards m₀ 1024 m₀ [] ∧ m₀.sys.totalPages = 8192 ∧
    zoneRange zoneNormal m₀.sys = (4096, 8192) ∧ m₀.sys.used.card ≤ 318 := by
  obtain ⟨m₀, hm, hb₀, hdir, htot, hz, hc⟩ := @init_backed 300 60 (fun _ _ => 0) sampleSys (fun _ => 0xFF)
    (by decide) (by decide) (by decide)
  refine ⟨m₀, hm, hb₀, ⟨FaultReach.init, List.Pairwise.nil, by simp, fun q hq hq' => ?_⟩, htot, hz, hc⟩
  have hd : m₀.dir (q / 1024) = 0 := by
    rw [hdir _ (by omega) (by omega)]
    refine (start_dir (by decide) (q / 1024)).resolve_right fun hc => ?_
    rcases hc.2 with h | h | h <;> omega
  rw [Machine.pte, hd, present_zero, if_neg (by decide)]

/-- Two pages of one region fault: each has a frame of its own, and so does a third. -/
theorem demand_paging_sample : ∃ m₀ m f g r,
    initPaging 60 (fun _ => 0xFF) (startMachine 300 (fun _ _ => 0) sampleSys) = some m₀ ∧
      FaultReach Covered m₀ m [(1025, g), (1024, f)] ∧ m.walk 1024 = some f ∧ m.walk 1025 = some g ∧ f ≠ g ∧
      pageFault 0x402000 m = some r ∧ NoAlias (Finset.range 317) r.2.2 (faultHist r [(1025, g), (1024, f)]) := by
  obtain ⟨m₀, hm, hb₀, h₀, _, hz, hc⟩ := upwards_boot
  obtain ⟨m₁, h₁, hg₁, _⟩ := h₀.next hb₀ (by decide) (by decide) (NormalFree.of_card hz (by omega))
  have hz₁ := hg₁.range.trans hz
  have hc₁ := hg₁.card
  obtain ⟨m₂, h₂, hg₂, _⟩ := h₁.next hb₀ (by decide) (by decide) (NormalFree.of_card hz₁ (by omega))
  have hc₂ := hg₂.card
  have hrun : FaultReach Covered m₀ m₂ [(1025, newFrame m₁), (1024, newFrame m₀)] := h₂.run.mono fun _ _ hc => hc.1
  have hc₃ : Covered 0x402000 m₂ := Or.inl (NormalFree.of_card (hg₂.range.trans hz₁) (by omega))
  obtain ⟨m₀', hm', h⟩ := @demand_paging_iff 300 60 (fun _ _ => 0) sampleSys (fun _ => 0xFF)
    (by decide) (by decide) (by decide)
  obtain rfl := Option.some.inj (hm.symm.trans hm')
  obtain ⟨hno, hiff⟩ := h m₂ _ hrun
  obtain ⟨r, hr, hr'⟩ := hiff 0x402000 ⟨by decide, by decide⟩
  refine ⟨m₀, m₂, newFrame m₀, newFrame m₁, r, hm, hrun, hno.walks (1024, newFrame m₀) (by simp),
    hno.walks (1025, newFrame m₁) (by simp), ?_, hr, hr'.mpr hc₃⟩
  exact (List.rel_of_pairwise_cons hno.distinct (List.mem_singleton.mpr rfl)).symm

/-- **Demand paging does alias frames**: faults at pages all different, none of them
mapped, take every frame of `ZONE_NORMAL`; the last one maps the reserved frame 0. -/
theorem faults_alias : ∃ m₀ m hist,
    initPaging 60 (fun _ => 0xFF) (startMachine 300 (fun _ _ => 0) sampleSys) = some m₀ ∧
      FaultReach (fun a m => ¬ EntrySet a m) m₀ m hist ∧ hist.Pairwise (fun x y => x.1 ≠ y.1) ∧
      ¬ NoAlias (Finset.range 317) m hist := by
  obtain ⟨m₀, hm, hb₀, h₀, htot, _, _⟩ := upwards_boot
  obtain ⟨page, m, hist, h, hlo, hhi, hfull⟩ := exhaust hb₀ 8193 h₀ (by omega) (by decide) (by decide)
  have hb := (fault_run hb₀ (h.run.mono fun _ _ hc => hc.1)).1
  have hz := h.clear page (Nat.le_refl _) hhi
  have hclear := pageAddr_clear hb hlo hhi hz
  have hrun : FaultReach (fun a m => ¬ EntrySet a m) m₀ m hist := h.run.mono fun _ _ hc => hc.2
  obtain ⟨r, _, hreach, _⟩ := hrun.map_page hb hlo hhi hz hclear
  refine ⟨m₀, r.2.2, _, hm, hreach, List.pairwise_cons.mpr ⟨fun x hx => ?_, h.pages⟩, fun hno => ?_⟩
  · have := h.below x hx
    show page ≠ x.1
    omega
  · have h0 : newFrame m = 0 := by rw [newFrame, ((take_spec hb).2.2.2 hfull).1]; rfl
    have hfresh := hno.fresh _ List.mem_cons_self
    rw [h0] at hfresh
    exact hfresh hb.zero

end LineOS
