import LineOS.HeapStep

/- Runs of the heap. `Reach L s live`: the kernel is in heap state `s` after
   `init_heap` and any sequence of `kmalloc` and `kfree` calls, with the heap's
   clients writing where they like outside its own memory; `live` lists the
   payloads handed out and not yet freed, with the size asked for. A request in
   a run is served by a free block or keeps the break below `brk_max` in exact
   arithmetic; what a request beyond that does is stated separately, for every
   reachable heap.

   `run_inv` is the invariant of every run: memory holds a list of blocks
   (`HeapInv`), and every live payload is the start of a used block of its own. -/
namespace LineOS
open ByteMemory ByteMemory.Mem Tiling

/-- A request the heap can serve: some free block fits, or the break has room. -/
def Admissible (L : HeapLayout) (bytes : U32) (s : Heap) : Prop :=
  FreeFits L bytes s.mem ∨ s.brk.toNat + 20 + bytes.toNat < brkMax.toNat

/-- Where a client of the heap may write: a live payload, or memory outside the
heap and outside `k_malloc_chain`. -/
def ClientByte (L : HeapLayout) (s : Heap) (live : List (U32 × U32)) (x : U32) : Prop :=
  (∃ l ∈ live, InSpan l.1 l.2.toNat x) ∨
    ¬ InSpan L.chain 16 x ∧ (x.toNat < s.base.toNat ∨ s.brk.toNat ≤ x.toNat)

inductive Reach (L : HeapLayout) : Heap → List (U32 × U32) → Prop
  | init (m : Mem) : Reach L (initHeap L m) []
  | kmalloc {s live bytes p s'} : Reach L s live → bytes ≠ 0 → Admissible L bytes s →
      kmalloc L bytes s = some (p, s') → Reach L s' ((p, bytes) :: live)
  | kfree {s live} (l : U32 × U32) : Reach L s live → l ∈ live → Reach L (kfree l.1 s) (live.erase l)
  | client {s live} (x : U32) (v : U8) : Reach L s live → ClientByte L s live x →
      Reach L { s with mem := s.mem.store8 x v } live

/-- Every live payload is the start of a used block, and no two are the same. -/
structure LiveIn (bs : List Block) (live : List (U32 × U32)) : Prop where
  owner : ∀ l ∈ live, ∃ b ∈ bs, b.used = true ∧ l.1 = b.payload ∧ l.2 ≤ b.size
  distinct : live.Pairwise (fun x y => x.1 ≠ y.1)

theorem LiveIn.mono {bs bs' : List Block} {live : List (U32 × U32)} (hl : LiveIn bs live)
    (h : ∀ c ∈ bs, c.used = true → c ∈ bs') : LiveIn bs' live := by
  refine ⟨fun l hlm => ?_, hl.distinct⟩
  obtain ⟨b, hb, hu, hp, hs⟩ := hl.owner l hlm
  exact ⟨b, h b hb hu, hu, hp, hs⟩

section
variable {L : HeapLayout} {s : Heap} {bs : List Block} {live : List (U32 × U32)}

theorem payload_inj {b c : Block} (h : b.payload = c.payload) : b.addr = c.addr := by
  rw [← payload_sub b, ← payload_sub c, h]

theorem payload_toNat (hi : HeapInv L s bs) {b : Block} (hb : b ∈ bs) :
    b.payload.toNat = b.addr.toNat + 20 := by
  have h := hi.bounds hb
  unfold Block.payload headLen
  bv_omega

/-! The steps of a run. -/

theorem init_inv (L : HeapLayout) (m : Mem) : HeapInv L (initHeap L m) [] := by
  have hc := chain_bounds L
  have ht := L.temp_hi
  have hap := L.apart
  refine ⟨?_, by simp, Covers.nil, rfl, L.end_lt⟩
  refine (ring_initListHead m (p := L.chain) (by omega)).frame
    (writes_initListHead _ (by omega)) (fun a ha => ?_) ?_
  · obtain rfl : a = L.chain := by simpa using ha
    omega
  · rintro x ⟨a, ha, hx⟩ hx'
    obtain rfl : a = L.chain := by simpa using ha
    unfold InSpan at hx hx'
    omega

theorem used_middle {pre post : List Block} {b c : Block} (hfree : b.used = false)
    (hc : c ∈ pre ++ b :: post) (hu : c.used = true) : c ∈ pre ++ post := by
  rcases List.mem_append.mp hc with h | h
  · simp [h]
  · rcases List.mem_cons.mp h with rfl | h
    · rw [hfree] at hu
      cases hu
    · simp [h]

/-- After a successful `kmalloc` the payload starts a used block that was not a
used block before, and the used blocks of before are still there. -/
theorem kmalloc_step {bytes : U32} (hi : HeapInv L s bs) (hne : bytes ≠ 0)
    (had : Admissible L bytes s) : ∃ s' bs' y, kmalloc L bytes s = some (y.payload, s') ∧
      HeapInv L s' bs' ∧ y ∈ bs' ∧ y.used = true ∧ bytes ≤ y.size ∧
      (∀ c ∈ bs, c.used = true → c ∈ bs' ∧ c.addr ≠ y.addr) ∧
      s.brk.toNat ≤ s'.brk.toNat ∧ s'.panics = s.panics := by
  cases hf : firstFit bytes bs with
  | none =>
    -- no free block fits: the heap grows by the new block
    have hlt : s.brk.toNat + 20 + bytes.toNat < brkMax.toNat := by
      rcases had with h | h
      · exact absurd hf ((freeFits_iff hi bytes).mp h)
      · exact h
    obtain ⟨s', hk, hi', hbrk, hp⟩ := kmalloc_grow hi hne hf hlt
    refine ⟨s', _, Block.take ⟨s.brk, bytes, headState s.mem s.brk⟩, hk, hi', List.mem_cons_self,
      Block.take_used _, BitVec.le_refl _, ?_, ?_, hp⟩
    · intro c hc _
      refine ⟨List.mem_cons_of_mem _ hc, ?_⟩
      have := hi.bounds hc
      intro e
      have e' : c.addr.toNat = s.brk.toNat := congrArg BitVec.toNat e
      omega
    · rw [brkMax_toNat] at hlt
      rw [hbrk]
      unfold headLen
      bv_omega
  | some b =>
    obtain ⟨hfit, hfree, pre, post, rfl⟩ := firstFit_some hf
    obtain ⟨s', hk, hi', hbrk, hp, _⟩ := kmalloc_reuse hi hne hf
    have haddr : ∀ c ∈ pre ++ post, c.addr ≠ b.addr := by
      intro c hc e
      have := apart_middle hi.covers hc
      simp only [Block.lo, Block.hi, e] at this
      omega
    -- a block is split only where the rest has room for a head and 8 bytes
    by_cases hl : headLen + 8 ≤ b.size - bytes
    · rw [reused, if_pos hl] at hi'
      refine ⟨s', _, Block.take { b with size := bytes }, hk, hi', by simp, Block.take_used _,
        BitVec.le_refl _, ?_, by rw [hbrk], hp⟩
      intro c hc hu
      have hm := used_middle hfree hc hu
      exact ⟨List.mem_cons_of_mem _ (mem_middle hm), haddr c hm⟩
    · rw [reused, if_neg hl] at hi'
      refine ⟨s', _, b.take, hk, hi', by simp, Block.take_used _, hfit, ?_, by rw [hbrk], hp⟩
      intro c hc hu
      have hm := used_middle hfree hc hu
      exact ⟨mem_middle hm, haddr c hm⟩

theorem live_kmalloc {bs' : List Block} {y : Block} {bytes : U32} (hl : LiveIn bs live) (hy : y ∈ bs')
    (hu : y.used = true) (hs : bytes ≤ y.size)
    (hold : ∀ c ∈ bs, c.used = true → c ∈ bs' ∧ c.addr ≠ y.addr) :
    LiveIn bs' ((y.payload, bytes) :: live) := by
  refine ⟨?_, List.pairwise_cons.mpr ⟨?_, hl.distinct⟩⟩
  · exact List.forall_mem_cons.mpr
      ⟨⟨y, hy, hu, rfl, hs⟩, (hl.mono (fun c hc hcu => (hold c hc hcu).1)).owner⟩
  · intro l hlm
    obtain ⟨b, hb, hbu, hbp, _⟩ := hl.owner l hlm
    show y.payload ≠ l.1
    rw [hbp]
    exact fun e => (hold b hb hbu).2 (payload_inj e).symm

theorem erase_ne (hd : live.Pairwise (fun x y => x.1 ≠ y.1)) {l l' : U32 × U32} (hl : l ∈ live)
    (hl' : l' ∈ live.erase l) : l' ∈ live ∧ l'.1 ≠ l.1 := by
  induction live with
  | nil => cases hl
  | cons a live ih =>
    obtain ⟨ha, hd⟩ := List.pairwise_cons.mp hd
    by_cases h : a = l
    · subst h
      rw [List.erase_cons_head] at hl'
      exact ⟨List.mem_cons_of_mem _ hl', (ha l' hl').symm⟩
    · have hlm : l ∈ live := (List.mem_cons.mp hl).resolve_left (fun e => h e.symm)
      rw [List.erase_cons_tail (by simpa using h)] at hl'
      rcases List.mem_cons.mp hl' with rfl | hl'
      · exact ⟨List.mem_cons_self, ha l hlm⟩
      · obtain ⟨h1, h2⟩ := ih hd hlm hl'
        exact ⟨List.mem_cons_of_mem _ h1, h2⟩

theorem live_kfree {pre post : List Block} {b : Block} {l : U32 × U32}
    (hl : LiveIn (pre ++ b :: post) live) (hlm : l ∈ live) (hb : l.1 = b.payload) :
    LiveIn (pre ++ { b with state := 0 } :: post) (live.erase l) := by
  refine ⟨?_, hl.distinct.sublist List.erase_sublist⟩
  intro l' hl'
  obtain ⟨hm, hne⟩ := erase_ne hl.distinct hlm hl'
  obtain ⟨c, hc, hcu, hcp, hcs⟩ := hl.owner l' hm
  refine ⟨c, ?_, hcu, hcp, hcs⟩
  rcases List.mem_append.mp hc with h | h
  · simp [h]
  · rcases List.mem_cons.mp h with rfl | h
    · exact absurd (hcp.trans hb.symm) hne
    · simp [h]

/-- A live payload lies past the header of its own block and apart from every
other block: no byte of the representation is in it. -/
theorem payload_not_own (hi : HeapInv L s bs) (hl : LiveIn bs live) {x : U32} {l : U32 × U32}
    (hlm : l ∈ live) (hx : InSpan l.1 l.2.toNat x) : ¬ OwnByte L bs x := by
  have hc := chain_bounds L
  obtain ⟨b, hb, _, hbp, hbs⟩ := hl.owner l hlm
  have hbb := hi.bounds hb
  have hsz : l.2.toNat ≤ b.size.toNat := hbs
  unfold InSpan at hx
  rw [hbp, payload_toNat hi hb] at hx
  have hap : ∀ c ∈ bs, c.addr.toNat + 20 ≤ x.toNat ∨ x.toNat < c.addr.toNat := by
    intro c hcm
    by_cases h : c = b
    · subst h; omega
    · have := hi.covers.apart c hcm b hb h
      simp only [Apart, Block.lo, Block.hi] at this
      omega
  rintro (⟨a, ha, hya⟩ | ⟨c, hcm, hyc⟩)
  · unfold InSpan at hya
    rcases List.mem_cons.mp ha with rfl | ha
    · omega
    · obtain ⟨c, hcm, rfl⟩ := List.mem_map.mp ha
      have := hap c hcm
      omega
  · have := hap c hcm
    unfold DataByte at hyc
    omega

/-- What a client may write is no byte of the representation. -/
theorem client_not_own (hi : HeapInv L s bs) (hl : LiveIn bs live) {x : U32} (hx : ClientByte L s live x) :
    ¬ OwnByte L bs x := by
  intro hy
  -- the byte is in one of the client's own blocks, or outside the heap and the chain head
  rcases hx with ⟨l, hlm, hspan⟩ | ⟨hnc, hout⟩
  · exact payload_not_own hi hl hlm hspan hy
  · rw [hi.base_eq] at hout
    rcases hy with ⟨a, ha, hya⟩ | ⟨c, hcm, hyc⟩
    · unfold InSpan at hya hnc
      rcases List.mem_cons.mp ha with rfl | ha
      · omega
      · obtain ⟨c, hcm, rfl⟩ := List.mem_map.mp ha
        have := hi.bounds hcm
        omega
    · have := hi.bounds hcm
      unfold DataByte at hyc
      omega

theorem client_inv (hi : HeapInv L s bs) (hl : LiveIn bs live) {x : U32} (v : U8)
    (hx : ClientByte L s live x) : HeapInv L { s with mem := s.mem.store8 x v } bs := by
  refine hi.frame (P := (· = x)) (WritesOnly.store8 _ v rfl) ?_
  rintro y hy rfl
  exact client_not_own hi hl hx hy

/-- A heap in order, with the payloads `live` handed out. -/
def Sound (L : HeapLayout) (s : Heap) (live : List (U32 × U32)) : Prop := ∃ bs, HeapInv L s bs ∧ LiveIn bs live

theorem Sound.kmalloc {bytes p : U32} {s' : Heap} (h : Sound L s live) (hne : bytes ≠ 0) (had : Admissible L bytes s)
    (hk : kmalloc L bytes s = some (p, s')) : Sound L s' ((p, bytes) :: live) := by
  obtain ⟨bs, hi, hl⟩ := h
  obtain ⟨s', bs', y, hk', hi', hy, hu, hs, hold, _⟩ := kmalloc_step hi hne had
  rw [hk] at hk'
  obtain ⟨rfl, rfl⟩ := Prod.mk.inj (Option.some.inj hk')
  exact ⟨bs', hi', live_kmalloc hl hy hu hs hold⟩

theorem Sound.kfree {l : U32 × U32} (h : Sound L s live) (hlm : l ∈ live) :
    Sound L (kfree l.1 s) (live.erase l) := by
  obtain ⟨bs, hi, hl⟩ := h
  obtain ⟨b, hb, _, hbp, _⟩ := hl.owner l hlm
  obtain ⟨pre, post, rfl⟩ := List.append_of_mem hb
  rw [hbp]
  exact ⟨_, (kfree_step hi).1, live_kfree hl hlm hbp⟩

theorem Sound.client {P : U32 → Prop} {m' : Mem} (h : Sound L s live) (hw : WritesOnly P s.mem m')
    (hP : ∀ x, P x → ClientByte L s live x) : Sound L { s with mem := m' } live := by
  obtain ⟨bs, hi, hl⟩ := h
  exact ⟨bs, hi.frame hw fun x hx hp => client_not_own hi hl (hP x hp) hx, hl⟩

/-- `kfree` leaves the bytes of its clients. -/
theorem kfree_client {l : U32 × U32} (h : Sound L s live) (hlm : l ∈ live) {x : U32} (hx : ClientByte L s live x) :
    (kfree l.1 s).mem.byte x = s.mem.byte x := by
  obtain ⟨bs, hi, hl⟩ := h
  obtain ⟨b, hb, _, hbp, _⟩ := hl.owner l hlm
  obtain ⟨pre, post, rfl⟩ := List.append_of_mem hb
  rw [hbp]
  obtain ⟨-, -, -, hw⟩ := kfree_step hi
  exact hw.2 x fun hd => client_not_own hi hl hx (.inr ⟨b, hb, hd⟩)

/-- A client that goes on storing to what it has freed, before the next `kmalloc`, does no harm. -/
theorem Sound.stale {P : U32 → Prop} {m' : Mem} {l : U32 × U32} (h : Sound L s live) (hlm : l ∈ live)
    (hw : WritesOnly P (LineOS.kfree l.1 s).mem m') (hP : ∀ x, P x → ClientByte L s live x) :
    Sound L { LineOS.kfree l.1 s with mem := m' } (live.erase l) := by
  obtain ⟨bs, hi, hl⟩ := h
  obtain ⟨b, hb, _, hbp, _⟩ := hl.owner l hlm
  obtain ⟨pre, post, rfl⟩ := List.append_of_mem hb
  rw [hbp] at hw ⊢
  refine ⟨_, (kfree_step hi).1.frame hw fun x hx hp => client_not_own hi hl (hP x hp) ?_, live_kfree hl hlm hbp⟩
  -- the headers are where they were
  refine hx.imp (fun h => by simpa using h) ?_
  rintro ⟨c, hc, hd⟩
  simp only [List.mem_append, List.mem_cons] at hc
  rcases hc with hc | rfl | hc
  · exact ⟨c, by simp [hc], hd⟩
  · exact ⟨b, hb, hd⟩
  · exact ⟨c, by simp [hc], hd⟩

/-- **The invariant of every run.** -/
theorem run_inv (h : Reach L s live) : Sound L s live := by
  induction h with
  | init m => exact ⟨[], init_inv L m, by simp, List.Pairwise.nil⟩
  | kmalloc _ hne had hk ih => exact ih.kmalloc hne had hk
  | kfree l _ hlm ih => exact ih.kfree hlm
  | client x v _ hx ih => exact ih.client (WritesOnly.store8 _ v (P := (· = x)) rfl) fun _ e => e ▸ hx

end
end LineOS
