import LineOS.KernelWindow
import LineOS.UnmapPage
import LineOS.VirtualMemory

/- The memory the kernel runs in after `init_paging`. The pages of the first
   megabyte and of the kernel image translate from the start, every other page
   below the window is mapped when it is touched (`BootSpace`). `kernel_memory`
   puts this together with `paged_lazy`: a program that keeps off the page tables
   and the bitmap, and whose footprint the zone can hold, runs as it would on a
   flat memory of bytes. The allocator's variables (`k_sysmem`, the zones) are
   fields of the machine's state: the programs are those that leave them to it. -/
namespace LineOS
open ByteMemory LazyMemory

/-- The pages a kernel program may use: the first megabyte, and everything from 4 MB
to the window but the three pages of the first directory and tables and the page
of the bitmap. Between lie the aliases of the image. -/
def ClientPage (pd k p : Nat) : Prop :=
  p < 256 ∨ 1024 ≤ p ∧ p < 1023 * 1024 ∧ p ≠ 786432 + k ∧
    ¬ (786432 + (pd - 256) ≤ p ∧ p ≤ 786432 + (pd - 256) + 2)

instance (pd k p : Nat) : Decidable (ClientPage pd k p) := by
  unfold ClientPage
  infer_instance

/-- How the pages translate when `init_paging` is done. -/
structure BootSpace (pd k : Nat) (m : Machine) : Prop where
  backed : Backed (Finset.range (256 + k + 1)) m
  low : ∀ p < 1024, m.walk p = some p
  image : ∀ i ≤ k, i < 1024 → m.walk (786432 + i) = some (256 + i)
  others : ∀ p, 1024 ≤ p → p < 1023 * 1024 → ¬ (786432 ≤ p ∧ p ≤ 786432 + k) → m.pte p = 0
  tables : ∀ i < 1024, present (m.dir i) = true →
    pd ≤ frameOf (m.dir i) ∧ frameOf (m.dir i) ≤ pd + 2 ∨ 256 + k < frameOf (m.dir i)
  free : 4095 ≤ (spare m.sys).card

section
variable {pd k : Nat} {m : Machine} {reserved P : Finset Nat}

/-! The cleaning loop, by entries. -/

/-- In a region that has a table, the loop clears the entries from `cp` on. -/
theorem cleanPages_ptes {cleanTo : U32} {d : Nat} (hd0 : d ≠ 0) (hd : d < 1023)
    (hto : cleanTo.toNat = 4194304 * (d + 1)) (n : Nat) : ∀ (fuel : Nat) (cp : U32) (m : Machine),
    DirOk m → present (m.dir d) = true → cp.toNat + 4096 * n = 4194304 * (d + 1) → n ≤ 1024 → n < fuel →
    ∃ m', cleanPages cleanTo fuel cp m = some m' ∧ m'.sys = m.sys ∧ (∀ i, m'.dir i = m.dir i) ∧
      ∀ page < 1048576, m'.pte page = if cp.toNat / 4096 ≤ page ∧ page < 1024 * (d + 1) then 0 else m.pte page := by
  induction n with
  | zero =>
    intro fuel cp m _ _ hcp _ hfuel
    obtain ⟨fuel, rfl⟩ := Nat.exists_eq_succ_of_ne_zero (by omega : fuel ≠ 0)
    have hlt : ¬ cp < cleanTo := by bv_omega
    exact ⟨m, by rw [cleanPages, if_neg hlt], rfl, fun _ => rfl, fun page _ => by rw [if_neg (by omega)]⟩
  | succ n ih =>
    intro fuel cp m hok hp hcp hn hfuel
    obtain ⟨fuel, rfl⟩ := Nat.exists_eq_succ_of_ne_zero (by omega : fuel ≠ 0)
    have hlt : cp < cleanTo := by bv_omega
    have hpde : pdeOf cp = d := by unfold pdeOf; omega
    have hne : cp ≠ 0 := by
      rintro rfl
      exact hd0 (hpde.symm.trans (by decide))
    have hself : pdeOf cp ≠ 1023 := by omega
    rw [← hpde] at hp
    have hu := unmapPage_eq hok.toSelfMapped hne hp
    have hdir := dir_setWord_off (hok.table_ne (pdeOf_lt cp) hself hp) (pteOf cp) 0
    have hok₁ : DirOk (m.setWord (frameOf (m.dir (pdeOf cp))) (pteOf cp) 0) := hok.congr rfl (fun i _ => hdir i)
    have hsys : (m.setWord (frameOf (m.dir (pdeOf cp))) (pteOf cp) 0).sys = m.sys := rfl
    have hpte := fun page hpage => @pte_setEntry m cp hok hself hp 0 page hpage
    generalize m.setWord (frameOf (m.dir (pdeOf cp))) (pteOf cp) 0 = m₁ at hu hdir hok₁ hsys hpte
    have hp₁ : present (m₁.dir d) = true := by rw [hdir, ← hpde]; exact hp
    have hcp' : (cp + 4096).toNat + 4096 * n = 4194304 * (d + 1) := by bv_omega
    have hpage : (cp + 4096).toNat / 4096 = cp.toNat / 4096 + 1 := by omega
    obtain ⟨m', hm, hsys', hdir', hpte'⟩ := ih fuel (cp + 4096) m₁ hok₁ hp₁ hcp' (by omega) (by omega)
    refine ⟨m', by rw [cleanPages, if_pos hlt, hu, Option.bind_some, hm], hsys'.trans hsys,
      fun i => (hdir' i).trans (hdir i), fun page hlim => ?_⟩
    rw [hpte' page hlim, hpte page hlim, hpage]
    by_cases hthis : page = cp.toNat / 4096
    · rw [if_neg (by omega), if_pos hthis, if_pos (by omega)]
    · by_cases hin : cp.toNat / 4096 ≤ page ∧ page < 1024 * (d + 1)
      · rw [if_pos (by omega), if_pos hin]
      · rw [if_neg (by omega), if_neg hthis, if_neg hin]

/-- A table linked for `v` leaves the entries of the other regions. -/
theorem linkTaken_pte (h : DirOk m) {v : U32} {page : Nat} (hpg : page / 1024 < 1023) (hne : page / 1024 ≠ pdeOf v) :
    (m.linkTaken v).pte page = m.pte page := by
  rw [Machine.pte, Machine.pte, linkTaken_dir, if_neg hne]
  by_cases hp : present (m.dir (page / 1024)) = true
  · rw [if_pos hp, if_pos hp]
    exact if_neg (fun hc => h.table_ne (by omega) (by omega) hp hc.1)
  · rw [if_neg hp, if_neg hp]

/-- **The cleaning loop of a whole region** that had no table: a table is linked for it,
and all its entries are clear. -/
theorem cleanRegion (h : Backed reserved m) {cleanTo cp : U32} {d : Nat} (hd0 : d ≠ 0) (hd : d < 1023)
    (hto : cleanTo.toNat = 4194304 * (d + 1)) (hcp : cp.toNat = 4194304 * d) (hf : NormalFree m.sys)
    (hz : m.dir d = 0) {fuel : Nat} (hfuel : 1025 < fuel) :
    ∃ m', cleanPages cleanTo fuel cp m = some m' ∧ Backed reserved (m.linkTaken cp) ∧ m'.sys = m.take.sys ∧
      (∀ i, m'.dir i = (m.linkTaken cp).dir i) ∧
      ∀ page < 1023 * 1024, m'.pte page = if page / 1024 = d then 0 else m.pte page := by
  obtain ⟨fuel, rfl⟩ := Nat.exists_eq_succ_of_ne_zero (by omega : fuel ≠ 0)
  have hlt : cp < cleanTo := by bv_omega
  have hpde : pdeOf cp = d := by unfold pdeOf; omega
  have hne : cp ≠ 0 := by bv_omega
  have hself : pdeOf cp ≠ 1023 := by omega
  rw [← hpde] at hz
  have hb := linkTaken_backed h hf hz
  have hp : present ((m.linkTaken cp).dir (pdeOf cp)) = true := by
    rw [linkTaken_dir, if_pos rfl]
    exact (userEntry _).1
  have hu := unmapPage_touched (linkTaken_self h.dir.toSelfMapped hself) hne (touch_links h.dir.toSelfMapped hz) hp
  have hdir := dir_setWord_off (hb.dir.table_ne (pdeOf_lt cp) hself hp) (pteOf cp) 0
  have hok : DirOk ((m.linkTaken cp).setWord (frameOf ((m.linkTaken cp).dir (pdeOf cp))) (pteOf cp) 0) :=
    hb.dir.congr rfl (fun i _ => hdir i)
  have hpte := fun page hpage => @pte_setEntry (m.linkTaken cp) cp hb.dir hself hp 0 page hpage
  have hsys : ((m.linkTaken cp).setWord (frameOf ((m.linkTaken cp).dir (pdeOf cp))) (pteOf cp) 0).sys = m.take.sys := rfl
  generalize (m.linkTaken cp).setWord (frameOf ((m.linkTaken cp).dir (pdeOf cp))) (pteOf cp) 0 = m₁
    at hu hdir hok hpte hsys
  have hcp' : (cp + 4096).toNat + 4096 * 1023 = 4194304 * (d + 1) := by bv_omega
  obtain ⟨m', hm, hsys', hdir', hpte'⟩ := cleanPages_ptes hd0 hd hto 1023 fuel (cp + 4096) m₁ hok
    (by rw [hdir, ← hpde]; exact hp) hcp' (by omega) (by omega)
  refine ⟨m', by rw [cleanPages, if_pos hlt, hu, Option.bind_some, hm], hb, hsys'.trans hsys,
    fun i => (hdir' i).trans (hdir i), fun page hlim => ?_⟩
  have hpage : (cp + 4096).toNat / 4096 = cp.toNat / 4096 + 1 := by omega
  rw [hpte' page (by omega), hpte page (by omega), hpage]
  by_cases hr : page / 1024 = d
  · rw [if_pos hr]
    split
    · rfl
    · rw [if_pos (by omega)]
  · rw [if_neg hr, if_neg (by omega), if_neg (by omega), linkTaken_pte h.dir (by omega) (by omega)]

/-! The tables of `start.asm`. -/

section
variable {phys : Nat → Nat → U32} {u : Sysmem}

theorem start_low (hpd : pd + 2 < 1048576) {p : Nat} (hp : p < 1024) : (startMachine pd phys u).walk p = some p := by
  have hdir : (startMachine pd phys u).dir 0 = BitVec.ofNat 32 ((pd + 1) * 4096) ||| pPresent ||| pWrite ||| pUser := by
    show startTables pd phys pd 0 = _
    rw [startTables, if_pos rfl, if_pos rfl]
  have hentry : (startMachine pd phys u).phys (pd + 1) p = BitVec.ofNat 32 (p * 4096) ||| pPresent ||| pWrite := by
    show startTables pd phys (pd + 1) p = _
    rw [startTables, if_neg (by omega), if_pos rfl]
  have hpr : present ((startMachine pd phys u).dir 0) = true := by
    rw [hdir]
    exact (userEntry _).1
  have h₁ : p / 1024 = 0 := by omega
  have h₂ : p % 1024 = p := by omega
  simp only [Machine.walk, h₁, h₂, hpr, if_true]
  rw [hdir, userEntry_frame (by omega), hentry, (newEntry _).1, if_pos rfl, (newEntry _).2, BitVec.toNat_ofNat]
  congr 1
  omega

theorem start_none {i : Nat} (h₀ : i ≠ 0) (h₁ : i ≠ 768) (h₂ : i ≠ 1023) : (startMachine pd phys u).dir i = 0 := by
  show startTables pd phys pd i = 0
  have h₁' : i ≠ 0xC0000000 / (4096 * 1024) := h₁
  rw [startTables, if_pos rfl, if_neg h₀, if_neg h₁', if_neg h₂]

theorem start_frames (hpd : pd + 2 < 1048576) {i : Nat} (hp : present ((startMachine pd phys u).dir i) = true) :
    pd ≤ frameOf ((startMachine pd phys u).dir i) ∧ frameOf ((startMachine pd phys u).dir i) ≤ pd + 2 := by
  have h := (@start_dir pd phys u hpd i).resolve_left (fun hz => by rw [hz] at hp; cases hp)
  omega

/-! `init_paging`. -/

/-- Entries that are as at the start, but for the pages the loop cleaned. -/
theorem bootSpace_of (hpd : 256 ≤ pd) (himg : pd + 3 ≤ 256 + k) (hk : k ≤ 1023)
    (hb : Backed (Finset.range (256 + k + 1)) m) {lo hi : Nat} (hlo : lo = 786432 + k + 1)
    (hhi : 1024 * 769 ≤ hi)
    (hpte : ∀ p < 1023 * 1024, m.pte p = if lo ≤ p ∧ p < hi then 0 else (startMachine pd phys u).pte p)
    (ht : ∀ i < 1024, present (m.dir i) = true →
      pd ≤ frameOf (m.dir i) ∧ frameOf (m.dir i) ≤ pd + 2 ∨ 256 + k < frameOf (m.dir i))
    (hfree : 4095 ≤ (spare m.sys).card) : BootSpace pd k m := by
  have hwalk : ∀ p < 1023 * 1024, p < lo → m.walk p = (startMachine pd phys u).walk p := by
    intro p hp hlt
    have hno : ¬ (lo ≤ p ∧ p < hi) := by omega
    rw [walk_eq, hpte p hp, if_neg hno, walk_eq (startMachine pd phys u)]
  refine ⟨hb, fun p hp => ?_, fun i hi hlt => ?_, fun p hlo' hhi' hno => ?_, ht, hfree⟩
  · rw [hwalk p (by omega) (by omega)]
    exact start_low (by omega) hp
  · rw [hwalk _ (by omega) (by omega)]
    exact (start_walk (by omega) hlt).1
  · rw [hpte p (by omega)]
    by_cases hin : lo ≤ p ∧ p < hi
    · rw [if_pos hin]
    · rw [if_neg hin]
      exact pte_missing (start_none (by omega) (by omega) (by omega))

/-- **What `init_paging` leaves**, for every image that holds the first tables. -/
theorem init_space (s : Sysmem) (raw : Nat → U8) (hpd : 256 ≤ pd) (himg : pd + 3 ≤ 256 + k) (hk : k ≤ 1023) :
    ∃ m₀, initPaging k raw (startMachine pd phys s) = some m₀ ∧ BootSpace pd k m₀ := by
  obtain ⟨es, ee, he₁, he₂, hki⟩ := @start_image pd k phys s (by omega) hk
  have hinit := @initPaging_eq k raw _ es ee he₁ he₂ _ rfl
  obtain ⟨hb, hz, hu, hfrom, _⟩ := @start_backed pd k phys es ee raw _ hki hpd himg hk rfl
  generalize initPageAllocator es ee _ = u at *
  have hspare : (spare u).card = 4096 := by
    have hdisj : Disjoint (Finset.Ico 4096 8192) (Finset.range (256 + k + 1)) := by
      rw [Finset.disjoint_left]
      intro p hp hp'
      rw [Finset.mem_Ico] at hp
      rw [Finset.mem_range] at hp'
      omega
    rw [spare, hz, hu, Finset.sdiff_eq_self_of_disjoint hdisj, Nat.card_Ico]
  have hnf : NormalFree u := (normalFree_iff u).mpr (Finset.card_pos.mp (by omega))
  obtain ⟨m₁, hm₁, hbk, _, _⟩ := @init_backed pd k phys s raw hpd himg hk
  rw [hinit] at hm₁ ⊢
  by_cases hlast : k = 1023
  · -- the loop cleans the region behind the window, which has no table yet
    have hd : u.kernelEnd.toNat / 4194304 = 769 := by omega
    obtain ⟨m₀, hm, hbl, hsys, hdir, hpte⟩ := @cleanRegion _ _ hb _ u.kernelEnd _ (by omega)
      (by omega) (cleanEnd_toNat hd (by omega)) (by omega) hnf (start_none (by omega) (by omega) (by omega)) pageFuel
      (by unfold pageFuel; omega)
    obtain rfl := Option.some.inj (hm.symm.trans hm₁)
    have hpde : pdeOf u.kernelEnd = 769 := hd
    have hn : newFrame (startMachine pd phys u) ∉ u.used := ((take_spec hb).2.2.1 hnf).1
    rw [hu, Finset.mem_range] at hn
    refine ⟨m₀, hm, @bootSpace_of pd k m₀ phys u hpd himg hk hbk _ (1024 * 770) rfl (by omega) (fun p hp => ?_)
      (fun i _ hi => ?_) ?_⟩
    · rw [hpte p hp]
      by_cases hr : p / 1024 = 769
      · rw [if_pos hr, if_pos (by omega)]
      · rw [if_neg hr, if_neg (by omega)]
    · rw [hdir, linkTaken_dir, hpde] at hi ⊢
      by_cases hi769 : i = 769
      · rw [if_pos hi769, (userEntry _).2]
        show _ ∨ 256 + k < newFrame (startMachine pd phys u)
        exact Or.inr (by omega)
      · rw [if_neg hi769] at hi ⊢
        exact Or.inl (start_frames (by omega) hi)
    · have hcard := card_le_erase (spare u) (newFrame (startMachine pd phys u))
      have htake := spare_take hb hnf
      rw [hsys, htake]
      show 4095 ≤ ((spare u).erase _).card
      omega
  · have hd : u.kernelEnd.toNat / 4194304 = 768 := by omega
    obtain ⟨m₀, hm, hsys, hdir, hpte⟩ := cleanPages_ptes (d := 768) (by omega) (by omega)
      (cleanEnd_toNat hd (by omega)) (1023 - k) pageFuel u.kernelEnd (startMachine pd phys u) (start_ok (by omega))
      (start_walk (by omega) (by omega : 0 < 1024)).2 (by omega) (by omega) (by unfold pageFuel; omega)
    obtain rfl := Option.some.inj (hm.symm.trans hm₁)
    refine ⟨m₀, hm, @bootSpace_of pd k m₀ phys u hpd himg hk hbk _ (1024 * 769) rfl (Nat.le_refl _) (fun p hp => ?_)
      (fun i _ hi => Or.inl ?_) ?_⟩
    · rw [hpte p (by omega)]
      have hq : u.kernelEnd.toNat / 4096 = 786432 + k + 1 := by omega
      rw [hq]
    · rw [hdir] at hi ⊢
      exact start_frames (by omega) hi
    · rw [hsys]
      show 4095 ≤ (spare u).card
      omega

end

/-! Footprints after `init_paging`. -/

theorem client_walk (h : BootSpace pd k m) (hk : k ≤ 1023) {p : Nat} (hp : ClientPage pd k p) :
    p < 256 ∧ m.walk p = some p ∨ (∃ i ≤ k, p = 786432 + i ∧ m.walk p = some (256 + i)) ∨
      1024 ≤ p ∧ ¬ (786432 ≤ p ∧ p ≤ 786432 + k) ∧ m.pte p = 0 := by
  rcases hp with hlow | ⟨hlo, hhi, _, _⟩
  · exact Or.inl ⟨hlow, h.low p (by omega)⟩
  · by_cases him : 786432 ≤ p ∧ p ≤ 786432 + k
    · obtain ⟨i, rfl⟩ := Nat.exists_eq_add_of_le him.1
      exact Or.inr (Or.inl ⟨i, by omega, rfl, h.image i (by omega) (by omega)⟩)
    · exact Or.inr (Or.inr ⟨hlo, him, h.others p hlo hhi him⟩)

theorem walk_zero {p : Nat} (h : m.pte p = 0) : m.walk p = none :=
  (walk_none_iff m p).mpr (by rw [h]; exact present_zero)

theorem present_of_walk {p f : Nat} (h : m.walk p = some f) : present (m.pte p) = true := by
  by_contra hc
  rw [(walk_none_iff m p).mpr (Bool.eq_false_of_not_eq_true hc)] at h
  cases h

theorem client_frame (h : BootSpace pd k m) (hk : k ≤ 1023) {p f : Nat} (hp : ClientPage pd k p)
    (hw : m.walk p = some f) : p < 256 ∧ f = p ∨ ∃ i ≤ k, p = 786432 + i ∧ f = 256 + i := by
  rcases client_walk h hk hp with ⟨hlow, hw'⟩ | ⟨i, hi, rfl, hw'⟩ | ⟨_, _, hz⟩
  · rw [hw] at hw'
    exact Or.inl ⟨hlow, Option.some.inj hw'⟩
  · rw [hw] at hw'
    exact Or.inr ⟨i, hi, rfl, Option.some.inj hw'⟩
  · rw [walk_zero hz] at hw
    cases hw

theorem boot_placed (h : BootSpace pd k m) (hpd : 256 ≤ pd) (himg : pd + 3 ≤ 256 + k) (hk : k ≤ 1023)
    (hP : ∀ p ∈ P, ClientPage pd k p) : KeptApart P m := by
  refine ⟨?_, ?_, ?_, ?_, ?_⟩
  · intro p hp
    rcases hP p hp with h | h <;> omega
  · intro p hp
    rcases client_walk h hk (hP p hp) with ⟨_, hw⟩ | ⟨_, _, _, hw⟩ | ⟨_, _, hz⟩
    · exact Or.inr (present_of_walk hw)
    · exact Or.inr (present_of_walk hw)
    · exact Or.inl hz
  · intro p hp f hw
    apply h.backed.kept
    rw [Finset.mem_range]
    rcases client_frame h hk (hP p hp) hw with ⟨_, rfl⟩ | ⟨i, _, _, rfl⟩ <;> omega
  · intro p hp q hq f hw hw'
    rcases client_frame h hk (hP p hp) hw with ⟨_, rfl⟩ | ⟨i, _, rfl, rfl⟩ <;>
      rcases client_frame h hk (hP q hq) hw' with ⟨_, _⟩ | ⟨j, _, rfl, _⟩ <;> omega
  · intro p hp f hw i hi hpr e
    have ht := h.tables i hi hpr
    have hcl := hP p hp
    rcases client_frame h hk hcl hw with ⟨_, rfl⟩ | ⟨j, _, rfl, rfl⟩
    · omega
    · unfold ClientPage at hcl
      omega

/-- The frames a footprint takes: one for each page that does not translate at first,
and one for each region other than those of the identity map and of the kernel. -/
def framesFor (k : Nat) (P : Finset Nat) : Nat :=
  (P.filter fun p => 1024 ≤ p ∧ ¬ (786432 ≤ p ∧ p ≤ 786432 + k)).card +
    ((P.image (· / 1024)).filter fun d => d ≠ 0 ∧ d ≠ 768).card

theorem boot_needs (h : BootSpace pd k m) (hk : k ≤ 1023) (hP : ∀ p ∈ P, ClientPage pd k p) :
    needs P m ≤ framesFor k P := by
  have hdir : ∀ {p f}, m.walk p = some f → m.dir (p / 1024) ≠ 0 := by
    intro p f hw hz
    rw [walk_zero (pte_missing hz)] at hw
    cases hw
  apply Nat.add_le_add
  · apply Finset.card_le_card
    intro p hp
    obtain ⟨hpP, hn⟩ := Finset.mem_filter.mp hp
    rcases client_walk h hk (hP p hpP) with ⟨_, hw⟩ | ⟨_, _, _, hw⟩ | ⟨hlo, him, _⟩
    · rw [hn] at hw
      cases hw
    · rw [hn] at hw
      cases hw
    · exact Finset.mem_filter.mpr ⟨hpP, hlo, him⟩
  · apply Finset.card_le_card
    intro d hd
    obtain ⟨hdP, hz⟩ := Finset.mem_filter.mp hd
    refine Finset.mem_filter.mpr ⟨hdP, ?_, ?_⟩
    · rintro rfl
      exact hdir (h.low 0 (by omega)) hz
    · rintro rfl
      exact hdir (h.image 0 (by omega) (by omega)) hz

theorem boot_supplied (h : BootSpace pd k m) (hpd : 256 ≤ pd) (himg : pd + 3 ≤ 256 + k) (hk : k ≤ 1023)
    (hP : ∀ p ∈ P, ClientPage pd k p) (hn : framesFor k P ≤ 4095) :
    Supplied (Finset.range (256 + k + 1)) P m :=
  ⟨h.backed, boot_placed h hpd himg hk hP, ((boot_needs h hk hP).trans hn).trans h.free⟩

end

/-- **The kernel's memory is flat.** After `init_paging`, for every image that holds the
first tables, a program whose footprint avoids tables and bitmap and takes no
more frames than the zone has runs to its end through all its page faults. No
page that translated has moved then, and whatever bytes are supposed where
nothing was touched yet, the run is that of a flat memory, with the same result. -/
theorem kernel_memory {pd k : Nat} {R : Type} (phys : Nat → Nat → U32) (s : Sysmem) (raw : Nat → U8)
    (hpd : 256 ≤ pd) (himg : pd + 3 ≤ 256 + k) (hk : k ≤ 1023) :
    ∃ m₀, initPaging k raw (startMachine pd phys s) = some m₀ ∧ ∀ (P : Finset Nat) (p : Prog U32 U8 R),
      (∀ q ∈ P, ClientPage pd k q) → framesFor k P ≤ 4095 →
      (∀ f, Fills (shown P m₀) f → p.Stays (fun a => a.toNat / 4096 ∈ P) f) →
      ∃ r m, paged.run p m₀ = some (r, m) ∧ WalksOn m₀ m ∧
        ∀ f', Fills (shown P m) f' → ∃ f, Fills (shown P m₀) f ∧ p.flat f = (r, f') := by
  obtain ⟨m₀, hm, h⟩ := @init_space pd k phys s raw hpd himg hk
  refine ⟨m₀, hm, fun P p hP hn hst => ?_⟩
  obtain ⟨r, m, hr, ⟨-, hon⟩, hback⟩ := (paged_lazy_walks _ P m₀).run p m₀
    ⟨boot_supplied h hpd himg hk hP hn, fun _ _ _ hg => hg⟩ hst
  exact ⟨r, m, hr, hon, hback⟩

/-- A byte stored at 4 MB, in a page that faults, and read back. -/
def storeAndLoad : Prog U32 U8 U8 := .store 0x400010 7 (.store 0x401010 9 (.load 0x400010 .ret))

theorem kernel_memory_sample : ∃ m₀ m, initPaging 60 (fun _ => 0xFF) (startMachine 300 (fun _ _ => 0) sampleSys) =
    some m₀ ∧ paged.run storeAndLoad m₀ = some (7, m) := by
  obtain ⟨m₀, hm, h⟩ := @kernel_memory 300 60 U8 (fun _ _ => 0) sampleSys (fun _ => 0xFF)
    (by decide) (by decide) (by decide)
  obtain ⟨r, m, hr, -, hback⟩ := h {1024, 1025} storeAndLoad (by decide) (by decide)
    (fun f _ => ⟨by decide, by decide, by decide, trivial⟩)
  obtain ⟨f, _, hf⟩ := hback (fun a => (shown {1024, 1025} m a).getD 0) (by
    intro a v ha
    simp only [ha, Option.getD_some])
  have hflat : (storeAndLoad.flat f).1 = 7 := rfl
  rw [hf] at hflat
  exact ⟨m₀, m, hm, hflat ▸ hr⟩

end LineOS
