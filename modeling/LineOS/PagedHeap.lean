import LineOS.BootMemory
import LineOS.HeapProgram
import LineOS.HeapSafety

/- The kernel heap on demand-paged memory. A `Client` calls `kmalloc` and `kfree`,
   and loads and stores bytes of what it was given, each step depending on the
   results so far. `Client.on` runs it on the heap of the model, whose memory is
   flat; `Client.prog` is the same client as a program of loads and stores.
   `client_run` relates the two, and `paged_heap` runs the program on the machine
   `init_paging` leaves: its result is one the model gives, and what its pages
   show at the end is the memory of a reachable heap. -/
namespace LineOS
open ByteMemory ByteMemory.Mem LazyMemory Tiling

inductive Client (R : Type) where
  | done (r : R)
  | kmalloc (bytes : U32) (next : U32 → Client R)
  | kfree (p : U32) (next : Client R)
  | load (a : U32) (next : U8 → Client R)
  | store (a : U32) (v : U8) (next : Client R)

namespace Client
variable {R : Type}

def on (L : HeapLayout) : Client R → Heap → Option (R × Heap)
  | done r, s => some (r, s)
  | kmalloc bytes next, s => (LineOS.kmalloc L bytes s).bind fun x => (next x.1).on L x.2
  | kfree p next, s => next.on L (LineOS.kfree p s)
  | load a next, s => (next (s.mem.byte a)).on L s
  | store a v next, s => next.on L { s with mem := s.mem.store8 a v }

/-- The client after a call of `kmalloc`. A search that does not end gives no result. -/
def goOn (next : U32 → Heap → ByteProg (Option R)) : Option (U32 × Heap) → ByteProg (Option R)
  | none => .ret none
  | some x => next x.1 x.2

def prog (L : HeapLayout) : Client R → Heap → ByteProg (Option R)
  | done r, _ => .ret (some r)
  | kmalloc bytes next, s => (kmallocP L bytes s).bind (goOn fun p s => (next p).prog L s)
  | kfree p next, s => (kfreeP p s).bind (next.prog L)
  | load a next, s => .load a fun v => (next v).prog L s
  | store a v next, s => .store a v (next.prog L s)

/-- The client keeps to the rules, with the payloads `live` in its hands: it frees what
it has, loads and stores inside it, and the break stays up to `top`. -/
def Fair (L : HeapLayout) (top : Nat) : Client R → Heap → List (U32 × U32) → Prop
  | done _, _, _ => True
  | kmalloc bytes next, s, live =>
    (bytes ≠ 0 → FreeFits L bytes s.mem ∨ s.brk.toNat + 20 + bytes.toNat ≤ top) ∧
      ∀ p s', LineOS.kmalloc L bytes s = some (p, s') →
        (next p).Fair L top s' (if bytes = 0 then live else (p, bytes) :: live)
  | kfree p next, s, live => ∃ l ∈ live, l.1 = p ∧ next.Fair L top (LineOS.kfree p s) (live.erase l)
  | load a next, s, live => (∃ l ∈ live, InSpan l.1 l.2.toNat a) ∧ (next (s.mem.byte a)).Fair L top s live
  | store a v next, s, live =>
    (∃ l ∈ live, InSpan l.1 l.2.toNat a) ∧ next.Fair L top { s with mem := s.mem.store8 a v } live

end Client

section
variable {L : HeapLayout} {top : Nat} {s : Heap} {live : List (U32 × U32)}

/-! One call. -/

/-- A request of a fair client is served, and the break stays up to `top`. -/
theorem fair_kmalloc (h : Reach L s live) {bytes : U32} (hne : bytes ≠ 0) (ht : top < brkMax.toNat)
    (hbrk : s.brk.toNat ≤ top) (hroom : FreeFits L bytes s.mem ∨ s.brk.toNat + 20 + bytes.toNat ≤ top) :
    ∃ p s', kmalloc L bytes s = some (p, s') ∧ Reach L s' ((p, bytes) :: live) ∧ s'.brk.toNat ≤ top := by
  obtain ⟨bs, hi, _⟩ := run_inv h
  have had : Admissible L bytes s := hroom.imp_right (fun hr => by omega)
  obtain ⟨s', _, y, hk, _⟩ := kmalloc_step hi hne had
  refine ⟨y.payload, s', hk, h.kmalloc hne had hk, ?_⟩
  cases hf : firstFit bytes bs with
  | none =>
    have hlt := hroom.resolve_left (fun hff => (freeFits_iff hi bytes).mp hff hf)
    obtain ⟨s₁, hk₁, _, hb₁, _⟩ := kmalloc_grow hi hne hf (by omega)
    rw [hk] at hk₁
    obtain ⟨_, rfl⟩ := Prod.mk.inj (Option.some.inj hk₁)
    have hmax := brkMax_toNat
    rw [hb₁]
    unfold headLen
    bv_omega
  | some b =>
    obtain ⟨_, _, pre, post, rfl⟩ := firstFit_some hf
    obtain ⟨s₁, hk₁, _, hb₁, _⟩ := kmalloc_reuse hi hne hf
    rw [hk] at hk₁
    obtain ⟨_, rfl⟩ := Prod.mk.inj (Option.some.inj hk₁)
    rw [hb₁]
    exact hbrk

theorem live_addr (h : Reach L s live) (hbrk : s.brk.toNat ≤ top) {a : U32}
    (ha : ∃ l ∈ live, InSpan l.1 l.2.toNat a) : HeapAddr L top a := by
  obtain ⟨bs, hi, hl⟩ := run_inv h
  obtain ⟨l, hlm, hspan⟩ := ha
  have hb := (live_apart hi hl).1 l hlm
  rw [hi.base_eq] at hb
  unfold InSpan at hspan
  exact Or.inr (Or.inr ⟨by omega, by omega⟩)

/-! The whole client. -/

/-- **A fair client runs alike on the model and as a program.** It ends, in a reachable
heap, and the program touches only the heap, its chain and the byte at `NULL + 16`. -/
theorem client_run {R : Type} (ht : top < brkMax.toNat) (c : Client R) : ∀ (s : Heap) (live : List (U32 × U32)) (s₀ : Heap),
    Reach L s live → s.brk.toNat ≤ top → s₀.over s.mem = s → c.Fair L top s live →
    ∃ r s' live', c.on L s = some (r, s') ∧ Reach L s' live' ∧
      (c.prog L s₀).flat s.mem.byte = (some r, s'.mem.byte) ∧ (c.prog L s₀).Stays (HeapAddr L top) s.mem.byte := by
  have hmax := brkMax_toNat
  induction c with
  | done r => exact fun s live s₀ h _ _ _ => ⟨r, s, live, rfl, h, rfl, trivial⟩
  | kmalloc bytes next ih =>
    intro s live s₀ h hbrk hs₀ hfair
    obtain ⟨hroom, hnext⟩ := hfair
    obtain ⟨bs, hi, _⟩ := run_inv h
    have hflat := kmallocP_flat (L := L) bytes s₀ s.mem
    rw [hs₀] at hflat
    -- asking for nothing leaves the heap alone
    by_cases hz : bytes = 0
    · have hk : kmalloc L bytes s = some (0, s) := by rw [kmalloc, if_pos hz]
      have hf := hnext 0 s hk
      rw [if_pos hz] at hf
      rw [hk] at hflat
      obtain ⟨r, s', live', hon, hr, hfl, hst⟩ := ih 0 s live (s.over s₀.mem) h hbrk rfl hf
      refine ⟨r, s', live', ?_, hr, ?_, Prog.stays_bind.mpr ⟨?_, ?_⟩⟩
      · rw [Client.on, hk, Option.bind_some]
        exact hon
      · rw [Client.prog, Prog.flat_bind, hflat]
        exact hfl
      · rw [kmallocP, if_pos hz]
        trivial
      · rw [hflat]
        exact hst
    · obtain ⟨p, s₁, hk, hr₁, hb₁⟩ := fair_kmalloc h hz ht hbrk (hroom hz)
      have hf := hnext p s₁ hk
      rw [if_neg hz] at hf
      rw [hk] at hflat
      obtain ⟨r, s', live', hon, hr, hfl, hst⟩ := ih p s₁ _ (s₁.over s₀.mem) hr₁ hb₁ rfl hf
      refine ⟨r, s', live', ?_, hr, ?_, Prog.stays_bind.mpr ⟨?_, ?_⟩⟩
      · rw [Client.on, hk, Option.bind_some]
        exact hon
      · rw [Client.prog, Prog.flat_bind, hflat]
        exact hfl
      · exact kmallocP_stays hs₀ hi ((hroom hz).imp_right (fun hle => by omega)) (hroom hz) hbrk (by omega)
      · rw [hflat]
        exact hst
  | kfree p next ih =>
    intro s live s₀ h hbrk hs₀ hfair
    obtain ⟨l, hlm, rfl, hf⟩ := hfair
    obtain ⟨bs, hi, hl⟩ := run_inv h
    obtain ⟨b, hb, _, hbp, _⟩ := hl.owner l hlm
    have hbrk' : (kfree l.1 s).brk = s.brk := by
      obtain ⟨pre, post, rfl⟩ := List.append_of_mem hb
      rw [hbp]
      exact (kfree_step hi).2.1
    have hflat := kfreeP_flat l.1 s₀ s.mem
    rw [hs₀] at hflat
    obtain ⟨r, s', live', hon, hr, hfl, hst⟩ := ih _ _ ((kfree l.1 s).over s₀.mem) (h.kfree l hlm)
      (by rw [hbrk']; exact hbrk) rfl hf
    refine ⟨r, s', live', hon, hr, ?_, Prog.stays_bind.mpr ⟨?_, ?_⟩⟩
    · rw [Client.prog, Prog.flat_bind, hflat]
      exact hfl
    · rw [hbp]
      exact kfreeP_stays hi hb hbrk s₀
    · rw [hflat]
      exact hst
  | load a next ih =>
    intro s live s₀ h hbrk hs₀ hfair
    obtain ⟨r, s', live', hon, hr, hfl, hst⟩ := ih (s.mem.byte a) s live s₀ h hbrk hs₀ hfair.2
    exact ⟨r, s', live', hon, hr, hfl, live_addr h hbrk hfair.1, hst⟩
  | store a v next ih =>
    intro s live s₀ h hbrk hs₀ hfair
    obtain ⟨l, hlm, hspan⟩ := hfair.1
    have hr₁ : Reach L { s with mem := s.mem.store8 a v } live := h.client a v (Or.inl ⟨l, hlm, hspan⟩)
    have hs₁ : s₀.over (s.mem.store8 a v) = { s with mem := s.mem.store8 a v } := by rw [← hs₀]; rfl
    obtain ⟨r, s', live', hon, hr, hfl, hst⟩ := ih _ live s₀ hr₁ hbrk hs₁ hfair.2
    refine ⟨r, s', live', hon, hr, ?_, live_addr h hbrk hfair.1, ?_⟩
    · rw [Client.prog, Prog.flat, byte_update]
      exact hfl
    · show Prog.Stays _ _ (Function.update s.mem.byte a v)
      rw [byte_update]
      exact hst

/-! The footprint of the heap. -/

/-- The pages of `k_malloc_chain` and `k_temp_map`. -/
def imagePages (L : HeapLayout) : Finset Nat :=
  Finset.Icc (L.chain.toNat / 4096) ((L.chain.toNat + 7) / 4096) ∪
    Finset.Icc (L.tempMap.toNat / 4096) ((L.tempMap.toNat + 7) / 4096)

/-- Those, the page at NULL, and the pages of the heap up to `top`. -/
def heapPages (L : HeapLayout) (top : Nat) : Finset Nat :=
  insert 0 (imagePages L ∪ Finset.Icc (L.kernelEnd.toNat / 4096) (top / 4096))

theorem heapAddr_page {a : U32} (ha : HeapAddr L top a) : a.toNat / 4096 ∈ heapPages L top := by
  simp only [heapPages, imagePages, Finset.mem_insert, Finset.mem_union, Finset.mem_Icc]
  rcases ha with rfl | ha | ha
  · exact Or.inl rfl
  · unfold InSpan at ha
    exact Or.inr (Or.inl (Or.inl ⟨by omega, by omega⟩))
  · exact Or.inr (Or.inr ⟨by omega, by omega⟩)

theorem tempMap_page {a : U32} (ha : InSpan L.tempMap 8 a) : a.toNat / 4096 ∈ heapPages L top := by
  simp only [heapPages, imagePages, Finset.mem_insert, Finset.mem_union, Finset.mem_Icc]
  unfold InSpan at ha
  exact Or.inr (Or.inl (Or.inr ⟨by omega, by omega⟩))

section
variable {pd k : Nat} (hend : L.kernelEnd.toNat = 3221225472 + (k + 1) * 4096) (hk : k ≤ 1023)
include hend hk

theorem heapPages_client (hpd : 256 ≤ pd) (himg : pd + 3 ≤ 256 + k) (himage : ∀ q ∈ imagePages L, ClientPage pd k q)
    (hhi : top ≤ L.kernelEnd.toNat + 0xF00000) : ∀ q ∈ heapPages L top, ClientPage pd k q := by
  intro q hq
  rcases Finset.mem_insert.mp hq with rfl | hq
  · exact Or.inl (by omega)
  · rcases Finset.mem_union.mp hq with hq | hq
    · exact himage q hq
    · rw [Finset.mem_Icc] at hq
      unfold ClientPage
      omega

theorem imagePages_le {q : Nat} (hq : q ∈ imagePages L) : 786432 ≤ q ∧ q ≤ 786432 + k := by
  have hc := chain_bounds L
  have h₁ := L.temp_lo
  have h₂ := L.temp_hi
  rw [kVirStart_toNat] at h₁
  rw [imagePages, Finset.mem_union, Finset.mem_Icc, Finset.mem_Icc] at hq
  omega

theorem heapPages_frames (hlo : L.kernelEnd.toNat ≤ top) (hhi : top ≤ L.kernelEnd.toNat + 0xF00000) :
    framesFor k (heapPages L top) ≤ 4095 := by
  have hheap : ∀ q ∈ heapPages L top, 1024 ≤ q → ¬ (786432 ≤ q ∧ q ≤ 786432 + k) →
      q ∈ Finset.Icc (L.kernelEnd.toNat / 4096) (top / 4096) := by
    intro q hq hlow hno
    rcases Finset.mem_insert.mp hq with rfl | hq
    · omega
    · exact (Finset.mem_union.mp hq).resolve_left (fun hc => hno (imagePages_le hend hk hc))
  have hpages : ((heapPages L top).filter fun p => 1024 ≤ p ∧ ¬ (786432 ≤ p ∧ p ≤ 786432 + k)).card ≤ 3841 := by
    have hsub : ((heapPages L top).filter fun p => 1024 ≤ p ∧ ¬ (786432 ≤ p ∧ p ≤ 786432 + k)) ⊆
        Finset.Icc (L.kernelEnd.toNat / 4096) (top / 4096) := by
      intro q hq
      obtain ⟨hq, hlow, hno⟩ := Finset.mem_filter.mp hq
      exact hheap q hq hlow hno
    have hle := Finset.card_le_card hsub
    rw [Nat.card_Icc] at hle
    omega
  have hregions : (((heapPages L top).image (· / 1024)).filter fun d => d ≠ 0 ∧ d ≠ 768).card ≤ 5 := by
    have hsub : (((heapPages L top).image (· / 1024)).filter fun d => d ≠ 0 ∧ d ≠ 768) ⊆
        Finset.Icc (L.kernelEnd.toNat / 4096 / 1024) (top / 4096 / 1024) := by
      intro d hd
      obtain ⟨hd, h₀, h₁⟩ := Finset.mem_filter.mp hd
      obtain ⟨q, hq, rfl⟩ := Finset.mem_image.mp hd
      have hq' := Finset.mem_Icc.mp (hheap q hq (by omega) (by omega))
      rw [Finset.mem_Icc]
      omega
    have hle := Finset.card_le_card hsub
    rw [Nat.card_Icc] at hle
    omega
  unfold framesFor
  omega

end
end

/-- `init_heap`, and then the client. -/
def heapProg {R : Type} (L : HeapLayout) (c : Client R) : ByteProg (Option R) :=
  (initHeapP L).bind fun _ => c.prog L (initHeap L ⟨fun _ => 0, []⟩)

theorem heapProg_run {R : Type} {L : HeapLayout} {top : Nat} (hlo : L.kernelEnd.toNat ≤ top) (ht : top < brkMax.toNat)
    {c : Client R} {f : U32 → U8} (hc : c.Fair L top (initHeap L ⟨f, []⟩) []) :
    ∃ r s live, c.on L (initHeap L ⟨f, []⟩) = some (r, s) ∧ Reach L s live ∧
      (heapProg L c).flat f = (some r, s.mem.byte) ∧
      (heapProg L c).Stays (fun a => a.toNat / 4096 ∈ heapPages L top) f := by
  have hb := chain_bounds L
  have htm := L.temp_hi
  have hflat := @initHeapP_flat L ⟨f, []⟩
  obtain ⟨r, s, live, hon, hr, hfl, hst⟩ := client_run ht c (initHeap L ⟨f, []⟩) [] (initHeap L ⟨fun _ => 0, []⟩)
    (Reach.init _) hlo rfl hc
  refine ⟨r, s, live, hon, hr, ?_, ?_⟩
  · show ((initHeapP L).bind _).flat (Mem.mk f []).byte = _
    rw [Prog.flat_bind, hflat]
    exact hfl
  · show ((initHeapP L).bind _).Stays _ (Mem.mk f []).byte
    refine Prog.stays_bind.mpr ⟨Prog.stays_bind.mpr ⟨?_, ?_⟩, ?_⟩
    · exact initListHeadP_stays (by omega) (fun x hx => heapAddr_page (Or.inr (Or.inl hx))) _
    · rw [initListHeadP_flat]
      exact initListHeadP_stays (by omega) (fun x hx => tempMap_page hx) _
    · rw [hflat]
      exact hst.mono (fun a => heapAddr_page)

/-- **The heap on demand-paged memory.** After `init_paging` and `init_heap`, for every
image, every layout in it and every fair client of up to fifteen megabytes, the
calls run to their end through all page faults; the client gets a result it gets
on the model's flat heap, and the pages then show the memory of a reachable heap. -/
theorem paged_heap {pd k : Nat} {R : Type} (phys : Nat → Nat → U32) (s : Sysmem) (raw : Nat → U8) (hpd : 256 ≤ pd)
    (himg : pd + 3 ≤ 256 + k) (hk : k ≤ 1023) (L : HeapLayout) (hend : L.kernelEnd.toNat = 3221225472 + (k + 1) * 4096)
    (himage : ∀ q ∈ imagePages L, ClientPage pd k q) (top : Nat) (hlo : L.kernelEnd.toNat ≤ top)
    (hhi : top ≤ L.kernelEnd.toNat + 0xF00000) (c : Client R) (hc : ∀ f, c.Fair L top (initHeap L ⟨f, []⟩) []) :
    ∃ m₀ r m, initPaging k raw (startMachine pd phys s) = some m₀ ∧ paged.run (heapProg L c) m₀ = some (some r, m) ∧
      ∀ f', Fills (shown (heapPages L top) m) f' →
        ∃ f s' live, c.on L (initHeap L ⟨f, []⟩) = some (r, s') ∧ Reach L s' live ∧ s'.mem.byte = f' := by
  have ht : top < brkMax.toNat := by rw [brkMax_toNat]; omega
  obtain ⟨m₀, hm, h⟩ := @init_space pd k phys s raw hpd himg hk
  have hrun := fun f => heapProg_run hlo ht (hc f)
  have hsup := boot_supplied h hpd himg hk (heapPages_client hend hk hpd himg himage hhi) (heapPages_frames hend hk hlo hhi)
  obtain ⟨r, m, hr, _, hback⟩ := (paged_lazy _ (heapPages L top)).run (heapProg L c) m₀ hsup
    (fun f _ => by
      obtain ⟨_, _, _, _, _, _, hst⟩ := hrun f
      exact hst)
  -- some filling of the end exists, and it tells the result
  obtain ⟨f, _, hf⟩ := hback (fun a => (shown (heapPages L top) m a).getD 0) (by
    intro a v ha
    simp only [ha, Option.getD_some])
  obtain ⟨r₀, _, _, _, _, hfl, _⟩ := hrun f
  rw [hf] at hfl
  obtain ⟨rfl, _⟩ := Prod.mk.inj hfl
  refine ⟨m₀, r₀, m, hm, hr, fun f' hf' => ?_⟩
  obtain ⟨f, _, hf⟩ := hback f' hf'
  obtain ⟨r₁, s', live, hon, hreach, hfl, _⟩ := hrun f
  rw [hf] at hfl
  obtain ⟨hr₁, hs'⟩ := Prod.mk.inj hfl
  obtain rfl := Option.some.inj hr₁
  exact ⟨f, s', live, hon, hreach, hs'.symm⟩

/-- A kernel of nine pages, with the tables in pages 2 to 4 and the bitmap behind. -/
def ninePages : HeapLayout :=
  ⟨0xC0008100, 0xC0008120, 0xC000A000, by decide, by decide, by decide, by decide, by decide, sampleLayout.end_lt⟩

/-- A block, a byte stored in it, and the byte read back. -/
def oneByte : Client U8 := .kmalloc 100 fun p => .store p 7 (.load p .done)

theorem oneByte_fair (f : U32 → U8) : oneByte.Fair ninePages 0xC000B000 (initHeap ninePages ⟨f, []⟩) [] := by
  have hroom : ninePages.kernelEnd.toNat + 20 + (100 : U32).toNat ≤ 0xC000B000 := by decide
  have hpos : 0 < (100 : U32).toNat := by decide
  refine ⟨fun _ => Or.inr hroom, fun p s' _ => ?_⟩
  have hspan : ∃ l ∈ [(p, (100 : U32))], InSpan l.1 l.2.toNat p :=
    ⟨_, List.mem_cons_self, Nat.le_refl _, Nat.lt_add_of_pos_right hpos⟩
  exact ⟨hspan, hspan, trivial⟩

theorem paged_heap_sample : ∃ m₀ m, initPaging 9 (fun _ => 0xFF) (startMachine 258 (fun _ _ => 0xAB) sampleSys) = some m₀ ∧
    paged.run (heapProg ninePages oneByte) m₀ = some (some 7, m) := by
  obtain ⟨m₀, r, m, hm, hr, hback⟩ := @paged_heap 258 9 U8 (fun _ _ => 0xAB) sampleSys (fun _ => 0xFF) (by decide)
    (by decide) (by decide) ninePages (by decide) (by decide) 0xC000B000 (by decide) (by decide) oneByte oneByte_fair
  obtain ⟨f, s', _, hon, _⟩ := hback (fun a => (shown (heapPages ninePages 0xC000B000) m a).getD 0) (by
    intro a v ha
    simp only [ha, Option.getD_some])
  have hseven : r = 7 := by
    rw [oneByte, Client.on] at hon
    obtain ⟨x, _, hx⟩ := Option.bind_eq_some_iff.mp hon
    have hr : (x.2.mem.store8 x.1 7).byte x.1 = r := congrArg Prod.fst (Option.some.inj hx)
    rw [← hr, byte_store8_same]
  exact ⟨m₀, m, hm, hseven ▸ hr⟩

end LineOS
