import LineOS.AllocFit
import LineOS.BitmapBytes
import LineOS.FaultRun

/- The memory behind the kernel image once `init_paging` has run. The bitmap has the
   pages that `init_page_allocator` moves `kernel_end` by, and may or may not stay
   inside them, by the size of memory (`bitmap_room_iff`). The cleaning loop of
   `init_paging` then unmaps what `start.asm` mapped behind `kernel_end`, up to the
   end of the 4 MB region it lies in; `WindowReserved` is what the window should
   be then. -/
namespace LineOS
open ByteMemory

/-! The room of the bitmap. -/

/-- The bytes from the old `kernel_end` on that `init_page_allocator` puts aside. -/
def reservedBytes (es ee : U32) (s : Sysmem) : Nat := ((initPageAllocator es ee s).kernelEnd - s.kernelEnd).toNat

/-- No run of bitmap operations leaves the array, if it has `n` bytes. -/
def StaysIn (n : Nat) (limit : U32) : Prop :=
  ∀ base : List U8, base.length = n → ∀ ops, BitmapArray.steps ⟨base, limit⟩ ops ≠ none

theorem bitmapBytes_pages (limit : Nat) :
    bitmapBytes limit ≤ bitmapPages limit * 4096 ↔ ¬ (0 < limit % 32768 ∧ limit % 32768 < 8) := by
  unfold bitmapBytes bitmapPages
  simp only []
  split <;> split <;> omega

theorem staysIn_iff (n : Nat) (limit : U32) : StaysIn n limit ↔ bitmapBytes limit.toNat ≤ n := by
  constructor
  · intro h
    by_contra hlt
    have hpos : 0 < limit.toNat := by
      by_contra h0
      have h0 : limit.toNat = 0 := by omega
      rw [h0] at hlt
      exact hlt (Nat.zero_le n)
    have hbit : limit - 1 < limit := by bv_omega
    have hby : n ≤ ((limit - 1) / 8).toNat := by
      have hdiv : ((limit - 1) / 8).toNat = (limit - 1).toNat / 8 := rfl
      have hsub : (limit - 1).toNat = limit.toNat - 1 := by bv_omega
      rw [hdiv, hsub]
      unfold bitmapBytes at hlt
      split at hlt <;> omega
    refine h (List.replicate n 0) List.length_replicate [.bitget (limit - 1)] ?_
    have hin : ¬ limit ≤ limit - 1 := by bv_omega
    have hread : (List.replicate n (0 : U8))[((limit - 1) / 8).toNat]? = none :=
      List.getElem?_eq_none (by rw [List.length_replicate]; exact hby)
    simp only [BitmapArray.steps, BitmapArray.step, BitmapArray.bitget, if_neg hin, hread]
    rfl
  · intro h base hlen ops hnone
    have hfit : BitmapArray.Fits ⟨base, limit⟩ := h.trans (Nat.le_of_eq hlen.symm)
    obtain ⟨b', -, -, -, hrun⟩ := BitmapArray.steps_tail ops ⟨base, limit⟩ hfit
    have hrun := hrun []
    simp only [List.append_nil] at hrun
    rw [hnone] at hrun
    cases hrun

theorem reservedBytes_eq (kb ks ke es ee : U32) (raw : Nat → U8) :
    reservedBytes es ee (initSysmem kb.toNat ks ke raw) = bitmapPages (kb.toNat / 4) * 4096 := by
  have hend := (init_grown kb.toNat ks ke es ee raw).2.2.2
  have hold : (initSysmem kb.toNat ks ke raw).kernelEnd = ke := rfl
  have hlt : bitmapPages (kb.toNat / 4) * 4096 < 2 ^ 32 := by
    have := kb.isLt
    unfold bitmapPages
    simp only []
    split <;> omega
  rw [reservedBytes, hend, hold]
  generalize bitmapPages (kb.toNat / 4) * 4096 = n at hlt
  bv_omega

/-- **The bitmap stays in its pages** unless the pages of memory are one to seven more than a multiple of 32768:
`bitmap_init` rounds bits up to bytes, `init_page_allocator` rounds down first. -/
theorem bitmap_room_iff (kb ks ke es ee : U32) (raw : Nat → U8) :
    StaysIn (reservedBytes es ee (initSysmem kb.toNat ks ke raw))
      (BitVec.ofNat 32 (initPageAllocator es ee (initSysmem kb.toNat ks ke raw)).bitmap.limit) ↔
    ¬ (0 < kb.toNat / 4 % 32768 ∧ kb.toNat / 4 % 32768 < 8) := by
  have hlim := (init_grown kb.toNat ks ke es ee raw).2.1
  have hlt := kb.isLt
  have htoNat : (BitVec.ofNat 32 (kb.toNat / 4)).toNat = kb.toNat / 4 := by
    rw [BitVec.toNat_ofNat]
    omega
  rw [reservedBytes_eq, hlim, staysIn_iff, htoNat, bitmapBytes_pages]

/-- With 128 MB and one page, the bit of the last page lies behind the one page put aside. -/
theorem bitmap_room_fails : ¬ ∀ (kb ks ke es ee : U32) (raw : Nat → U8),
    StaysIn (reservedBytes es ee (initSysmem kb.toNat ks ke raw))
      (BitVec.ofNat 32 (initPageAllocator es ee (initSysmem kb.toNat ks ke raw)).bitmap.limit) := by
  intro h
  have hs := h 131076 0xC0000000 0xC0028000 0x100003 0x128003 (fun _ => 0)
  have hlim := (init_grown (131076 : U32).toNat 0xC0000000 0xC0028000 0x100003 0x128003 (fun _ => 0)).2.1
  rw [reservedBytes_eq, hlim, staysIn_iff] at hs
  revert hs
  decide

/-! The cleaning loop. -/

/-- The addresses `__unmap_page` reads and writes: the entry of `v` in the window `pd`. -/
def unmapAccesses (v : U32) : List U32 := if v = 0 then [] else [pteAddr v, pteAddr v]

def cleanAccesses (cleanTo : U32) : Nat → U32 → List U32
  | 0, _ => []
  | fuel + 1, cp => if cp < cleanTo then unmapAccesses cp ++ cleanAccesses cleanTo fuel (cp + 4096) else []

/-- The loop runs with these bounds, once `init_page_allocator` has moved `kernel_end`. -/
def initPagingAccesses (k : Nat) (raw : Nat → U8) (m : Machine) : Option (List U32) :=
  let kernelStart : U32 := 0xC0000000
  let kernelEnd : U32 := 0xC0000000 + BitVec.ofNat 32 (k * 4096)
  let sys := initSysmem (32 * 1024) kernelStart kernelEnd raw
  (getPageTableEntry kernelStart m).bind fun startEntry =>
    (getPageTableEntry kernelEnd m).map fun endEntry =>
      let sys := initPageAllocator startEntry endEntry sys
      cleanAccesses (cleanEnd sys.kernelEnd) pageFuel sys.kernelEnd

/-- `init_paging` returns with the window's pages mapped that are the image's or the bitmap's, and no others,
their frames marked, and no page table accessed but the window's, which is seen at page `1047552 + 768`. -/
def WindowReserved (k : Nat) (raw : Nat → U8) (m₀ : Machine) : Prop :=
  ∃ m as, initPaging k raw m₀ = some m ∧ initPagingAccesses k raw m₀ = some as ∧
    (∀ i < 1024, (m.walk (786432 + i)).isSome = true ↔ i < k + bitmapPages (32 * 1024 / 4)) ∧
    (∀ i < 1024, ∀ f, m.walk (786432 + i) = some f → f ∈ m.sys.used) ∧
    ∀ a ∈ as, a.toNat / 4096 = 1047552 + 768

section
variable {m : Machine} {cleanTo : U32} {d : Nat}

/-- In a region that has a table, the loop unmaps the pages from `cp` on, and touches nothing else. -/
theorem cleanPages_walk (hd0 : d ≠ 0) (hd : d < 1023) (hto : cleanTo.toNat = 4194304 * (d + 1)) (n : Nat) :
    ∀ (fuel : Nat) (cp : U32) (m : Machine), DirOk m → present (m.dir d) = true →
    cp.toNat + 4096 * n = 4194304 * (d + 1) → n ≤ 1024 → n < fuel →
    ∃ m', cleanPages cleanTo fuel cp m = some m' ∧ m'.sys = m.sys ∧
      (∀ page < 1048576, m'.walk page =
        if cp.toNat / 4096 ≤ page ∧ page < 1024 * (d + 1) then none else m.walk page) ∧
      ∀ a ∈ cleanAccesses cleanTo fuel cp, a.toNat / 4096 = 1047552 + d := by
  induction n with
  | zero =>
    intro fuel cp m _ _ hcp _ hfuel
    obtain ⟨fuel, rfl⟩ := Nat.exists_eq_succ_of_ne_zero (by omega : fuel ≠ 0)
    have hlt : ¬ cp < cleanTo := by bv_omega
    refine ⟨m, by rw [cleanPages, if_neg hlt], rfl, fun page _ => ?_, fun a ha => ?_⟩
    · rw [if_neg (by omega)]
    · rw [cleanAccesses, if_neg hlt] at ha
      cases ha
  | succ n ih =>
    intro fuel cp m hok hp hcp hn hfuel
    obtain ⟨fuel, rfl⟩ := Nat.exists_eq_succ_of_ne_zero (by omega : fuel ≠ 0)
    have hlt : cp < cleanTo := by bv_omega
    have hpde : pdeOf cp = d := by unfold pdeOf; omega
    have hne : cp ≠ 0 := by
      rintro rfl
      exact hd0 (hpde.symm.trans (by decide))
    have hself : pdeOf cp ≠ 1023 := by omega
    rw [← hpde] at hp
    have hu := unmapPage_eq hok.toSelfMapped hne hp
    have hdir := dir_setWord_off (hok.table_ne (pdeOf_lt cp) hself hp) (pteOf cp) 0
    have hok₁ : DirOk (m.setWord (frameOf (m.dir (pdeOf cp))) (pteOf cp) 0) := hok.congr rfl (fun i _ => hdir i)
    have hsys : (m.setWord (frameOf (m.dir (pdeOf cp))) (pteOf cp) 0).sys = m.sys := rfl
    have hwalk := fun page hpage => @walk_setEntry m cp hok hself hp 0 page hpage
    generalize m.setWord (frameOf (m.dir (pdeOf cp))) (pteOf cp) 0 = m₁ at hu hdir hok₁ hsys hwalk
    have hp₁ : present (m₁.dir d) = true := by rw [hdir, ← hpde]; exact hp
    have hcp' : (cp + 4096).toNat + 4096 * n = 4194304 * (d + 1) := by bv_omega
    have hpage : (cp + 4096).toNat / 4096 = cp.toNat / 4096 + 1 := by omega
    obtain ⟨m', hm, hsys', hwalk', has⟩ := ih fuel (cp + 4096) m₁ hok₁ hp₁ hcp' (by omega) (by omega)
    refine ⟨m', by rw [cleanPages, if_pos hlt, hu, Option.bind_some, hm], hsys'.trans hsys, fun page hlim => ?_,
      fun a ha => ?_⟩
    · rw [hwalk' page hlim, hwalk page hlim, hpage]
      -- the page just unmapped, one of the others, or one outside
      by_cases hthis : page = cp.toNat / 4096
      · rw [if_neg (by omega), if_pos hthis, present_zero, if_neg Bool.false_ne_true, if_pos (by omega)]
      · by_cases hin : cp.toNat / 4096 ≤ page ∧ page < 1024 * (d + 1)
        · rw [if_pos (by omega), if_pos hin]
        · rw [if_neg (by omega), if_neg hthis, if_neg hin]
    · rw [cleanAccesses, if_pos hlt, unmapAccesses, if_neg hne] at ha
      rcases List.mem_append.mp ha with ha | ha
      · simp only [List.mem_cons, List.not_mem_nil, or_false, or_self] at ha
        rw [ha, pteAddr_page, hpde]
      · exact has a ha

theorem start_walk {pd : Nat} {phys : Nat → Nat → U32} {s : Sysmem} (hpd : pd + 2 < 1048576) {i : Nat} (hi : i < 1024) :
    (startMachine pd phys s).walk (786432 + i) = some (256 + i) ∧
      present ((startMachine pd phys s).dir 768) = true := by
  have hdir : (startMachine pd phys s).dir 768 =
      BitVec.ofNat 32 ((pd + 2) * 4096) ||| pPresent ||| pWrite ||| pUser := by
    show startTables pd phys pd 768 = _
    rw [startTables, if_pos rfl]
    rfl
  have hp : present ((startMachine pd phys s).dir 768) = true := by
    rw [hdir]
    exact (userEntry _).1
  have hentry : (startMachine pd phys s).phys (pd + 2) i = BitVec.ofNat 32 (0x100000 + i * 4096) ||| pPresent ||| pWrite := by
    show startTables pd phys (pd + 2) i = _
    rw [startTables, if_neg (by omega), if_neg (by omega), if_pos rfl]
  have h₁ : (786432 + i) / 1024 = 768 := by omega
  have h₂ : (786432 + i) % 1024 = i := by omega
  refine ⟨?_, hp⟩
  simp only [Machine.walk, h₁, h₂, hp, if_true]
  rw [hdir, userEntry_frame (by omega), hentry, (newEntry _).1, if_pos rfl, (newEntry _).2, BitVec.toNat_ofNat]
  congr 1
  omega

/-- What `init_paging` starts the loop with: the tables of `start.asm`, and the allocator just initialised. -/
theorem init_loop {pd k : Nat} (phys : Nat → Nat → U32) (s : Sysmem) (raw : Nat → U8) (hpd : 256 ≤ pd)
    (himg : pd + 3 ≤ 256 + k) (hk : k ≤ 1023) : ∃ u : Sysmem,
    initPaging k raw (startMachine pd phys s) =
      cleanPages (cleanEnd u.kernelEnd) pageFuel u.kernelEnd (startMachine pd phys u) ∧
    initPagingAccesses k raw (startMachine pd phys s) =
      some (cleanAccesses (cleanEnd u.kernelEnd) pageFuel u.kernelEnd) ∧
    u.used = Finset.range (256 + k + 1) ∧ u.kernelEnd.toNat = 3221225472 + (k + 1) * 4096 := by
  obtain ⟨es, ee, he₁, he₂, hki⟩ := @start_image pd k phys s (by omega) hk
  obtain ⟨-, -, hu, hfrom, -⟩ := @start_backed pd k phys es ee raw _ hki hpd himg hk rfl
  refine ⟨_, initPaging_eq he₁ he₂ rfl, ?_, hu, hfrom⟩
  rw [initPagingAccesses, he₁, Option.bind_some, he₂, Option.map_some]

theorem window_below {pd k : Nat} (phys : Nat → Nat → U32) (s : Sysmem) (raw : Nat → U8) (hpd : 256 ≤ pd)
    (himg : pd + 3 ≤ 256 + k) (hk : k < 1023) : WindowReserved k raw (startMachine pd phys s) := by
  obtain ⟨u, hinit, hacc, hu, hfrom⟩ := init_loop phys s raw hpd himg (by omega)
  have hbp : bitmapPages (32 * 1024 / 4) = 1 := by decide
  have hstart := fun i hi => @start_walk pd phys u (by omega) i hi
  have hd : u.kernelEnd.toNat / 4194304 = 768 := by omega
  obtain ⟨m, hm, hsys, hwalk, has⟩ := cleanPages_walk (by omega) (by omega) (cleanEnd_toNat hd (by omega)) (1023 - k)
    pageFuel u.kernelEnd (startMachine pd phys u) (start_ok (by omega)) (hstart 0 (by omega)).2 (by omega) (by omega)
    (by unfold pageFuel; omega)
  have hmapped : ∀ i < 1024, m.walk (786432 + i) = if i < k + 1 then some (256 + i) else none := by
    intro i hi
    rw [hwalk _ (by omega), (hstart i hi).1]
    by_cases hik : i < k + 1
    · rw [if_neg (by omega), if_pos hik]
    · rw [if_pos (by omega), if_neg hik]
  refine ⟨m, _, hinit.trans hm, hacc, fun i hi => ?_, fun i hi f hf => ?_, has⟩
  · rw [hmapped i hi, hbp]
    split <;> simp [*]
  · rw [hmapped i hi] at hf
    split at hf
    · next hik =>
      obtain rfl := Option.some.inj hf
      rw [hsys]
      show 256 + i ∈ u.used
      rw [hu, Finset.mem_range]
      omega
    · cases hf

/-- The window is full: the loop starts at the end of it, with the page table behind. -/
theorem window_full {pd : Nat} (phys : Nat → Nat → U32) (s : Sysmem) (raw : Nat → U8) (hpd : 256 ≤ pd)
    (himg : pd + 3 ≤ 256 + 1023) : ¬ WindowReserved 1023 raw (startMachine pd phys s) := by
  rintro ⟨m, as, -, has, -, -, hin⟩
  obtain ⟨u, -, hacc, -, hfrom⟩ := init_loop phys s raw hpd himg (by omega)
  rw [hacc] at has
  obtain rfl := Option.some.inj has
  have hd : u.kernelEnd.toNat / 4194304 = 769 := by omega
  have hto := cleanEnd_toNat hd (by omega)
  have hlt : u.kernelEnd < cleanEnd u.kernelEnd := by bv_omega
  have hne : u.kernelEnd ≠ 0 := by bv_omega
  have hmem : pteAddr u.kernelEnd ∈ cleanAccesses (cleanEnd u.kernelEnd) pageFuel u.kernelEnd := by
    unfold pageFuel
    rw [cleanAccesses, if_pos hlt, unmapAccesses, if_neg hne]
    simp
  have hpage := hin _ hmem
  rw [pteAddr_page, pdeOf, hd] at hpage
  omega

end

/-- **In the kernel window, mapped is reserved**, for every image that holds the first tables and leaves room for the
bitmap, exactly if image and bitmap end before the window does: the loop's end is the end of the region `kernel_end`
lies in, which is the next one when the window is full. -/
theorem window_reserved_iff {pd k : Nat} (phys : Nat → Nat → U32) (s : Sysmem) (raw : Nat → U8) (hpd : 256 ≤ pd)
    (himg : pd + 3 ≤ 256 + k) (hk : k + bitmapPages (32 * 1024 / 4) ≤ 1024) :
    WindowReserved k raw (startMachine pd phys s) ↔ k + bitmapPages (32 * 1024 / 4) < 1024 := by
  have hbp : bitmapPages (32 * 1024 / 4) = 1 := by decide
  rw [hbp] at hk ⊢
  by_cases hlt : k < 1023
  · exact iff_of_true (window_below phys s raw hpd himg hlt) (by omega)
  · obtain rfl : k = 1023 := by omega
    exact iff_of_false (window_full phys s raw hpd himg) (by omega)

theorem window_reserved_sample : WindowReserved 60 (fun _ => 0xFF) (startMachine 300 (fun _ _ => 0) sampleSys) :=
  (window_reserved_iff (fun _ _ => 0) sampleSys (fun _ => 0xFF) (by decide) (by decide) (by decide)).mpr (by decide)

/-- An image of 1023 pages fills the window together with the bitmap, and the loop goes on in the next region. -/
theorem window_reserved_fails : 300 + 3 ≤ 256 + 1023 ∧ 1023 + bitmapPages (32 * 1024 / 4) ≤ 1024 ∧
    ¬ WindowReserved 1023 (fun _ => 0xFF) (startMachine 300 (fun _ _ => 0) sampleSys) :=
  ⟨by decide, by decide, window_full (fun _ _ => 0) sampleSys (fun _ => 0xFF) (by decide) (by decide)⟩

end LineOS
