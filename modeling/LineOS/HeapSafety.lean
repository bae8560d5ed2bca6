import LineOS.HeapRun

/- What the runs of the heap promise, stated on memory and the code's own
   functions: the chain's extents tile the heap (`heap_tiling`), growing the
   break is safe exactly when its 32-bit sums do not wrap and what a refusal goes
   on with is still in the heap (`kmalloc_growth_iff`), exhaustion is reported
   without a trace only for the request of zero bytes (`kmalloc_oom_iff`), and the
   code stores to nothing but the allocator's own bytes exactly when it does not
   grow the break (`heap_stores_iff`). -/
namespace LineOS
open ByteMemory ByteMemory.Mem Tiling

section
variable {L : HeapLayout} {s : Heap} {live : List (U32 × U32)}

/-! The blocks tile the heap. -/

/-- Where a block's extent starts and ends, read from its header. -/
def extentLo (a : U32) : Nat := a.toNat
def extentHi (m : Mem) (a : U32) : Nat := a.toNat + headLen.toNat + (headSize m a).toNat

theorem live_apart {bs : List Block} (hi : HeapInv L s bs) (hl : LiveIn bs live) :
    (∀ l ∈ live, s.base.toNat ≤ l.1.toNat ∧ l.1.toNat + l.2.toNat ≤ s.brk.toNat) ∧
      live.Pairwise (fun x y => x.1.toNat + x.2.toNat ≤ y.1.toNat ∨ y.1.toNat + y.2.toNat ≤ x.1.toNat) := by
  have hown : ∀ l ∈ live, ∃ b ∈ bs, l.1 = b.payload ∧ l.1.toNat = b.addr.toNat + 20 ∧
      l.2.toNat ≤ b.size.toNat := by
    intro l hlm
    obtain ⟨b, hb, _, hbp, hbs⟩ := hl.owner l hlm
    exact ⟨b, hb, hbp, hbp ▸ payload_toNat hi hb, hbs⟩
  refine ⟨?_, hl.distinct.imp_of_mem ?_⟩
  · intro l hlm
    obtain ⟨b, hb, _, hp, hs⟩ := hown l hlm
    have := hi.bounds hb
    rw [hi.base_eq]
    omega
  · intro x y hx hy hne
    obtain ⟨b, hb, hbp, hp, hs⟩ := hown x hx
    obtain ⟨c, hc, hcp, hp', hs'⟩ := hown y hy
    have hbc : b ≠ c := fun e => hne (by rw [hbp, hcp, e])
    have := hi.covers.apart b hb c hc hbc
    simp only [Apart, Block.lo, Block.hi] at this
    omega

theorem chain_covers {bs : List Block} (hi : HeapInv L s bs) :
    Covers extentLo (extentHi s.mem) (bs.map Block.addr) s.base.toNat s.brk.toNat := by
  refine hi.covers.map Block.addr (fun b hb => ⟨rfl, ?_⟩)
  rw [extentHi, (hi.headers b hb).size]
  rfl

/-- **The blocks of the chain tile the heap.** In every reachable heap the walk of
`k_malloc_chain` ends, meets every block once, each with its magic; the extents,
taken in address order, cover `[base, brk)` with no gap and no overlap; and the
live payloads lie inside the heap, disjoint from one another. -/
theorem heap_tiling (h : Reach L s live) : ∃ as, chainBlocks L s.mem = some as ∧ as.Nodup ∧
    (∀ a ∈ as, headMagic s.mem a = 0xBEEF) ∧
    Covers extentLo (extentHi s.mem) as s.base.toNat s.brk.toNat ∧
    as.Pairwise (Apart extentLo (extentHi s.mem)) ∧
    (∀ l ∈ live, s.base.toNat ≤ l.1.toNat ∧ l.1.toNat + l.2.toNat ≤ s.brk.toNat) ∧
    live.Pairwise (fun x y => x.1.toNat + x.2.toNat ≤ y.1.toNat ∨ y.1.toNat + y.2.toNat ≤ x.1.toNat) := by
  obtain ⟨bs, hi, hl⟩ := run_inv h
  have hc := chain_covers hi
  obtain ⟨hin, hdis⟩ := live_apart hi hl
  refine ⟨bs.map Block.addr, chainBlocks_eq hi, addr_nodup hi.cover, ?_, hc, hc.pairwise, hin, hdis⟩
  intro a ha
  obtain ⟨b, hb, rfl⟩ := List.mem_map.mp ha
  exact (hi.headers b hb).magic

end

/-! A heap to run: the layout of one build of the kernel, and memory full of `0xFF`. -/

def sampleLayout : HeapLayout :=
  ⟨0xC0009100, 0xC0009120, 0xC000A000, by decide, by decide, by decide, by decide, by decide, by decide⟩

def dirtyMem : Mem := ⟨fun _ => 0xFF, []⟩

/-- Two blocks, the first freed and taken again for less. -/
def sampleRun : Option (U32 × Heap) :=
  (kmalloc sampleLayout 100 (initHeap sampleLayout dirtyMem)).bind fun r₁ =>
    (kmalloc sampleLayout 4096 r₁.2).bind fun r₂ =>
      kmalloc sampleLayout 40 (kfree r₁.1 r₂.2)

def sampleHeap : Heap := (sampleRun.getD (0, initHeap sampleLayout dirtyMem)).2

theorem sampleHeap_reach : Reach sampleLayout sampleHeap [(0xC000A014, 40), (0xC000A08C, 4096)] := by
  have h₁ : Reach sampleLayout _ [(0xC000A014, 100)] :=
    Reach.kmalloc (Reach.init dirtyMem) (by decide) (Or.inr (by decide)) rfl
  have h₂ : Reach sampleLayout _ [(0xC000A08C, 4096), (0xC000A014, 100)] :=
    Reach.kmalloc h₁ (by decide) (Or.inr (by decide)) rfl
  have h₃ := Reach.kfree (0xC000A014, 100) h₂ (by decide)
  exact Reach.kmalloc h₃ (by decide) (Or.inr (by decide)) rfl

theorem heap_tiling_sample : ∃ as, chainBlocks sampleLayout sampleHeap.mem = some as ∧ as.Nodup ∧
    Covers extentLo (extentHi sampleHeap.mem) as sampleHeap.base.toNat sampleHeap.brk.toNat := by
  obtain ⟨as, h1, h2, _, h3, _⟩ := heap_tiling sampleHeap_reach
  exact ⟨as, h1, h2, h3⟩

/-! Growing the break in 32-bit arithmetic. -/

/-- `kmalloc` reports failure. -/
def Failed (p : U32) : Prop := p = 0

/-- What growth promises: a payload that is not NULL is inside the heap and does not
run past the top of memory, and the break never moves down. -/
def GrowthSafe (bytes p : U32) (s s' : Heap) : Prop :=
  (¬ Failed p → p.toNat + bytes.toNat < 2 ^ 32 ∧ s'.base.toNat ≤ p.toNat ∧
    p.toNat + bytes.toNat ≤ s'.brk.toNat) ∧ s.brk.toNat ≤ s'.brk.toNat

/-- The break is not asked to move, or moves below `brk_max` without wrapping; or it
is refused without wrapping, and the `bytes` bytes below it are all of the heap:
that is what `kmalloc` goes on with after the panic. -/
def NoWrap (L : HeapLayout) (bytes : U32) (s : Heap) : Prop :=
  bytes = 0 ∨ FreeFits L bytes s.mem ∨ s.brk.toNat + 20 + bytes.toNat < brkMax.toNat ∨
    s.brk.toNat + 20 + bytes.toNat < 2 ^ 32 ∧ s.base.toNat + bytes.toNat ≤ s.brk.toNat

section
variable {L : HeapLayout} {s : Heap} {bs : List Block} {live : List (U32 × U32)}

theorem firstFit_bounds {bytes : U32} {b : Block} (hi : HeapInv L s bs) (hf : firstFit bytes bs = some b) :
    s.base.toNat ≤ b.payload.toNat ∧ b.payload.toNat + bytes.toNat ≤ s.brk.toNat := by
  have hb : b ∈ bs := List.mem_of_find?_eq_some hf
  have h := hi.bounds hb
  have hfit : bytes.toNat ≤ b.size.toNat := (firstFit_some hf).1
  rw [payload_toNat hi hb, hi.base_eq]
  omega

/-- The grow path keeps its promise exactly when the break moves up below `brk_max`,
or a refusal leaves `kmalloc` inside the heap. -/
theorem growth_grow {bytes : U32} (hi : HeapInv L s bs) (hne : bytes ≠ 0) (hf : firstFit bytes bs = none) :
    ∃ p s', kmalloc L bytes s = some (p, s') ∧
      (GrowthSafe bytes p s s' ↔ s.brk.toNat + 20 + bytes.toNat < brkMax.toNat ∨
        s.brk.toNat + 20 + bytes.toNat < 2 ^ 32 ∧ s.base.toNat + bytes.toNat ≤ s.brk.toNat) := by
  obtain ⟨s', hk, hbase, hbrk, -, -, -⟩ := kmalloc_grow_any hi hne hf
  have hlt := hi.brk_lt
  have hle := hi.covers.le
  have hlo : 3221225472 ≤ s.base.toNat := by
    have hbounds := chain_bounds L
    rw [hi.base_eq]
    omega
  refine ⟨_, s', hk, ?_⟩
  have hn : (headLen + bytes).toNat = (20 + bytes.toNat) % 2 ^ 32 := by
    rw [BitVec.toNat_add]
    rfl
  have hb := bytes.isLt
  have h0 : bytes.toNat ≠ 0 := fun h => hne (BitVec.eq_of_toNat_eq h)
  have hbrk0 : (s.brk + headLen).toNat = s.brk.toNat + 20 := by
    rw [brkMax_toNat] at hlt
    unfold headLen
    bv_omega
  have hbrkne : s.brk + headLen ≠ 0 := fun h => by
    rw [h] at hbrk0
    exact absurd hbrk0 (by simp)
  rw [brkMax_toNat] at hlt ⊢
  unfold GrowthSafe Failed
  rw [hbrk, hbase]
  rcases ksbrk_cases (headLen + bytes) s with ⟨hz, e⟩ | ⟨hnz, hmax, e⟩ | ⟨hnz, hmax, e⟩
  · -- the header and the request add up to exactly 2^32: nothing is asked of the break
    have hz' : (20 + bytes.toNat) % 2 ^ 32 = 0 := by
      rw [← hn, hz]
      rfl
    simp only [e, hbrk0, hbrkne, not_false_eq_true, true_implies]
    omega
  · -- refused: the break stays, and the block goes below it
    have hm : brkMax.toNat ≤ (s.brk + (headLen + bytes)).toNat := hmax
    rw [brkMax_toNat, BitVec.toNat_add, hn] at hm
    have hp : s.brk - (headLen + bytes) + headLen = s.brk - bytes := by
      unfold headLen
      bv_omega
    have hpn : (s.brk - bytes).toNat = (s.brk.toNat + 2 ^ 32 - bytes.toNat) % 2 ^ 32 := by
      rw [BitVec.toNat_sub]
      congr 1
      omega
    have hpne : s.brk - bytes ≠ 0 := fun h => by
      have heq : s.brk.toNat = bytes.toNat := by bv_omega
      omega
    simp only [e, Heap.panic, hp, hpne, hpn, not_false_eq_true, true_implies]
    omega
  · -- moved: down, if the sum wrapped
    have hm : ¬ brkMax.toNat ≤ (s.brk + (headLen + bytes)).toNat := hmax
    rw [brkMax_toNat, BitVec.toNat_add, hn] at hm
    simp only [e, hbrk0, hbrkne, not_false_eq_true, true_implies, BitVec.toNat_add, hn]
    omega

/-- **When growth is safe.** For every reachable heap and every request, `kmalloc`
returns, and keeps the promise of `GrowthSafe` if and only if `NoWrap` holds before
the call. -/
theorem kmalloc_growth_iff (h : Reach L s live) (bytes : U32) : ∃ p s', kmalloc L bytes s = some (p, s') ∧
    (GrowthSafe bytes p s s' ↔ NoWrap L bytes s) := by
  obtain ⟨bs, hi, _⟩ := run_inv h
  by_cases hne : bytes = 0
  · subst hne
    refine ⟨0, s, by rw [kmalloc, if_pos rfl], ?_⟩
    simp [GrowthSafe, Failed, NoWrap]
  · cases hf : firstFit bytes bs with
    | none =>
      have hnf : ¬ FreeFits L bytes s.mem := fun h => (freeFits_iff hi bytes).mp h hf
      obtain ⟨p, s', hk, hiff⟩ := growth_grow hi hne hf
      exact ⟨p, s', hk, hiff.trans
        ⟨fun h => Or.inr (Or.inr h), fun h => (h.resolve_left hne).resolve_left hnf⟩⟩
    | some b =>
      have hff : FreeFits L bytes s.mem := (freeFits_iff hi bytes).mpr (by simp [hf])
      obtain ⟨_, _, pre, post, rfl⟩ := firstFit_some hf
      obtain ⟨s', hk, hi', hbrk, _, _⟩ := kmalloc_reuse hi hne hf
      have hb := firstFit_bounds hi hf
      have hlt := hi.brk_lt
      rw [brkMax_toNat] at hlt
      refine ⟨_, s', hk, iff_of_true ⟨fun _ => ?_, by rw [hbrk]⟩ (Or.inr (Or.inl hff))⟩
      rw [hbrk, hi'.base_eq, ← hi.base_eq]
      omega

end

/-- A thousand bytes move the break up; a request that `brk_max` refuses comes back
with an address below the heap. -/
theorem kmalloc_growth_sample : (∃ p s', kmalloc sampleLayout 1000 sampleHeap = some (p, s') ∧
      GrowthSafe 1000 p sampleHeap s') ∧
    ∃ p s', kmalloc sampleLayout 0x3FC00000 sampleHeap = some (p, s') ∧
      ¬ GrowthSafe 0x3FC00000 p sampleHeap s' := by
  obtain ⟨p, s', hk, hiff⟩ := kmalloc_growth_iff sampleHeap_reach 1000
  obtain ⟨q, t, hk', hiff'⟩ := kmalloc_growth_iff sampleHeap_reach 0x3FC00000
  refine ⟨⟨p, s', hk, hiff.mpr (.inr (.inr (.inl (by decide))))⟩, q, t, hk', fun h => ?_⟩
  have hno : ¬ NoWrap sampleLayout 0x3FC00000 sampleHeap := by
    rintro (h | h | h | h)
    · exact absurd h (by decide)
    · exact absurd h (by decide)
    · exact absurd h (by decide)
    · exact absurd h (by decide)
  exact hno (hiff'.mp h)

/-- A gigabyte wraps: the break moves below the heap, and nothing is reported. -/
theorem kmalloc_growth_wraps : Reach sampleLayout (initHeap sampleLayout dirtyMem) [] ∧
    ∃ p s', kmalloc sampleLayout 0x40000000 (initHeap sampleLayout dirtyMem) = some (p, s') ∧
      ¬ GrowthSafe 0x40000000 p (initHeap sampleLayout dirtyMem) s' :=
  ⟨Reach.init dirtyMem, _, _, rfl, fun h => absurd h.2 (by decide)⟩

/-! Exhaustion. -/

/-- A failed request leaves no trace: NULL comes back, and the break, the chain,
the counters, every header and every live payload are what they were. -/
structure Untouched (L : HeapLayout) (live : List (U32 × U32)) (p : U32) (s s' : Heap) : Prop where
  null : p = 0
  base : s'.base = s.base
  brk : s'.brk = s.brk
  total : s'.totalBlocks = s.totalBlocks
  used : s'.usedBlocks = s.usedBlocks
  chain : chainBlocks L s'.mem = chainBlocks L s.mem
  headers : ∀ as, chainBlocks L s.mem = some as → ∀ a ∈ as, ∀ x, InSpan a headLen.toNat x →
    s'.mem.byte x = s.mem.byte x
  payloads : ∀ l ∈ live, ∀ x, InSpan l.1 l.2.toNat x → s'.mem.byte x = s.mem.byte x

section
variable {L : HeapLayout} {s : Heap} {bs : List Block} {live : List (U32 × U32)}

/-- A request the break cannot hold: `panic` returns, and `kmalloc` goes on with
the break it did not move. It counts a block and hands out `brk - bytes`. -/
theorem kmalloc_refused {bytes : U32} (hi : HeapInv L s bs) (hne : bytes ≠ 0) (hf : firstFit bytes bs = none)
    (hmax : brkMax.toNat ≤ s.brk.toNat + 20 + bytes.toNat) (hw : s.brk.toNat + 20 + bytes.toNat < 2 ^ 32) :
    ∃ s', kmalloc L bytes s = some (s.brk - bytes, s') ∧ s'.brk = s.brk ∧
      s'.panics = "Unable to kbrk - Reached max_brk!\n" :: s.panics ∧ s'.totalBlocks = s.totalBlocks + 1 := by
  have hn : (headLen + bytes).toNat = 20 + bytes.toNat := by unfold headLen; bv_omega
  have hs : (s.brk + (headLen + bytes)).toNat = s.brk.toNat + 20 + bytes.toNat := by
    rw [BitVec.toNat_add, hn]; omega
  obtain ⟨s', hk, _, hbrk, hpan, htot, _⟩ := kmalloc_grow_any hi hne hf
  rcases ksbrk_cases (headLen + bytes) s with ⟨hz, _⟩ | ⟨_, _, e⟩ | ⟨_, hlt, _⟩
  · rw [hz] at hn
    simp at hn
    omega
  · have hp : s.brk - (headLen + bytes) + headLen = s.brk - bytes := by unfold headLen; bv_omega
    rw [e] at hk hbrk hpan
    rw [← hp]
    exact ⟨s', hk, hbrk, hpan, htot⟩
  · exact absurd (show brkMax.toNat ≤ (s.brk + (headLen + bytes)).toNat by omega) hlt

/-- **Exhaustion is never reported without a trace**, the request of zero bytes
apart: in every reachable heap, a request that no free block and no room below
`brk_max` can serve leaves the heap as it was if and only if it asks for nothing. -/
theorem kmalloc_oom_iff (h : Reach L s live) (bytes : U32) (hf : ¬ FreeFits L bytes s.mem)
    (hmax : brkMax.toNat ≤ s.brk.toNat + 20 + bytes.toNat) (hw : s.brk.toNat + 20 + bytes.toNat < 2 ^ 32) :
    ∃ p s', kmalloc L bytes s = some (p, s') ∧ (Untouched L live p s s' ↔ bytes = 0) := by
  by_cases hne : bytes = 0
  · subst hne
    exact ⟨0, s, by rw [kmalloc, if_pos rfl], iff_of_true
      ⟨rfl, rfl, rfl, rfl, rfl, rfl, fun _ _ _ _ _ _ => rfl, fun _ _ _ _ => rfl⟩ rfl⟩
  · obtain ⟨bs, hi, _⟩ := run_inv h
    have hnone : firstFit bytes bs = none := by
      by_contra hc
      exact hf ((freeFits_iff hi bytes).mpr hc)
    obtain ⟨s', hk, _, _, htot⟩ := kmalloc_refused hi hne hnone hmax hw
    refine ⟨_, s', hk, iff_of_false (fun hu => ?_) hne⟩
    have hsame := hu.total
    rw [htot] at hsame
    bv_omega

end

theorem kmalloc_oom_sample : ∃ p s', kmalloc sampleLayout 0x3FC00000 sampleHeap = some (p, s') ∧
    ¬ Untouched sampleLayout [(0xC000A014, 40), (0xC000A08C, 4096)] p sampleHeap s' := by
  obtain ⟨p, s', hk, hiff⟩ :=
    kmalloc_oom_iff sampleHeap_reach 0x3FC00000 (by decide) (by decide) (by decide)
  exact ⟨p, s', hk, fun hu => absurd (hiff.mp hu) (by decide)⟩

/-- On the empty heap the refused request gets an address below the heap. -/
theorem kmalloc_oom_returns : Reach sampleLayout (initHeap sampleLayout dirtyMem) [] ∧
    ¬ FreeFits sampleLayout 0x3FC00000 (initHeap sampleLayout dirtyMem).mem ∧
    ∃ p s', kmalloc sampleLayout 0x3FC00000 (initHeap sampleLayout dirtyMem) = some (p, s') ∧
      p = 0x8040A000 ∧ ¬ Untouched sampleLayout [] p (initHeap sampleLayout dirtyMem) s' :=
  ⟨Reach.init dirtyMem, by decide, _, _, rfl, by decide, fun h => absurd h.null (by decide)⟩

/-! Where the code stores. -/

/-- The allocator's own memory: `k_malloc_chain`, and the headers of the blocks
that lie between the base and the break. -/
def AllocatorByte (L : HeapLayout) (s : Heap) (x : U32) : Prop :=
  InSpan L.chain 16 x ∨ ∃ as, chainBlocks L s.mem = some as ∧ ∃ a ∈ as,
    s.base.toNat ≤ extentLo a ∧ extentHi s.mem a ≤ s.brk.toNat ∧ InSpan a headLen.toNat x

/-- A call stores to the allocator's own memory only, and to no live payload. -/
def StoresOwn (L : HeapLayout) (live : List (U32 × U32)) (s s' : Heap) : Prop :=
  WritesOnly (fun x => AllocatorByte L s' x ∧ ∀ l ∈ live, ¬ InSpan l.1 l.2.toNat x) s.mem s'.mem

section
variable {L : HeapLayout} {s s' : Heap} {bs : List Block} {live : List (U32 × U32)}

theorem own_allocator (hi : HeapInv L s bs) {x : U32} (hx : OwnByte L bs x) : AllocatorByte L s x := by
  have hblock : ∀ b ∈ bs, InSpan b.addr 20 x → AllocatorByte L s x := by
    intro b hb hspan
    have h := hi.bounds hb
    have e : extentHi s.mem b.addr = b.addr.toNat + 20 + b.size.toNat := by
      rw [extentHi, (hi.headers b hb).size]
      rfl
    refine Or.inr ⟨_, chainBlocks_eq hi, b.addr, List.mem_map_of_mem hb, ?_, ?_, hspan⟩
    · rw [hi.base_eq]
      exact h.1
    · rw [e]
      exact h.2.1
  rcases hx with ⟨a, ha, hxa⟩ | ⟨b, hb, hxb⟩
  · rcases List.mem_cons.mp ha with rfl | ha
    · exact Or.inl ⟨hxa.1, by have := hxa.2; omega⟩
    · obtain ⟨b, hb, rfl⟩ := List.mem_map.mp ha
      exact hblock b hb ⟨hxa.1, by have := hxa.2; omega⟩
  · exact hblock b hb (by unfold DataByte at hxb; unfold InSpan; omega)

/-- A call that stores to the representation alone, as the heap stands after it. -/
theorem stores_own (hi : HeapInv L s' bs) (hl : LiveIn bs live)
    (hw : WritesOnly (OwnByte L bs) s.mem s'.mem) : StoresOwn L live s s' :=
  hw.mono (fun _ hx => ⟨own_allocator hi hx, fun _ hlm hspan => payload_not_own hi hl hlm hspan hx⟩)

theorem mem_reused {pre post : List Block} {b c : Block} (bytes : U32) (hc : c ∈ pre ++ post) :
    c ∈ reused pre post b bytes := by
  unfold reused
  split
  · exact List.mem_cons_of_mem _ (mem_middle hc)
  · exact mem_middle hc

/-- Every store of the reuse path is to a link or header of the blocks it leaves. -/
theorem reuse_own {pre post : List Block} {b : Block} {bytes x : U32}
    (hx : DataByte b.addr x ∨ SplitByte L (pre ++ b :: post) b bytes x ∧ headLen + 8 ≤ b.size - bytes) :
    OwnByte L (reused pre post b bytes) x := by
  have hmem : ∃ c ∈ reused pre post b bytes, c.addr = b.addr := by
    unfold reused
    split
    · exact ⟨Block.take { b with size := bytes }, by simp, rfl⟩
    · exact ⟨b.take, by simp, rfl⟩
  have hdata : DataByte b.addr x → OwnByte L (reused pre post b bytes) x := by
    obtain ⟨c, hc, e⟩ := hmem
    exact fun h => Or.inr ⟨c, hc, e ▸ h⟩
  rcases hx with hx | ⟨hx | hx | ⟨a, ha, hxa⟩, hl⟩
  · exact hdata hx
  · exact hdata hx
  · exact Or.inr ⟨b.rest bytes, by rw [reused, if_pos hl]; exact List.mem_cons_self, hx⟩
  · refine Or.inl ⟨a, ?_, hxa⟩
    rw [reused, if_pos hl]
    simpa [Block.take] using ha

theorem sixteen_not_own (hbase : s.base = L.kernelEnd) : ¬ AllocatorByte L s 16 := by
  have hc := chain_bounds L
  have h16 : (16 : U32).toNat = 16 := by decide
  rintro (h | ⟨as, _, a, _, hlo, _, h⟩)
  · unfold InSpan at h
    omega
  · unfold InSpan at h
    unfold extentLo at hlo
    rw [hbase] at hlo
    omega

/-- **The heap stores to its own memory exactly when it does not grow.** In every
reachable heap, `kmalloc` keeps its stores to the allocator's memory if and only
if nothing is asked or a free block fits; `kfree` of a live payload always does. -/
theorem heap_stores_iff (h : Reach L s live) :
    (∀ bytes, ∃ p s', kmalloc L bytes s = some (p, s') ∧
      (StoresOwn L live s s' ↔ bytes = 0 ∨ FreeFits L bytes s.mem)) ∧
    ∀ l ∈ live, StoresOwn L live s (kfree l.1 s) := by
  obtain ⟨bs, hi, hl⟩ := run_inv h
  refine ⟨fun bytes => ?_, fun l hlm => ?_⟩
  · by_cases hne : bytes = 0
    · subst hne
      exact ⟨0, s, by rw [kmalloc, if_pos rfl], iff_of_true (WritesOnly.refl _) (Or.inl rfl)⟩
    · cases hf : firstFit bytes bs with
      | none =>
        have hnf : ¬ FreeFits L bytes s.mem := fun h => (freeFits_iff hi bytes).mp h hf
        obtain ⟨s', hk, hbase, _, _, _, h16⟩ := kmalloc_grow_any hi hne hf
        refine ⟨_, s', hk, iff_of_false (fun hw => ?_) (not_or.mpr ⟨hne, hnf⟩)⟩
        exact sixteen_not_own (hbase.trans hi.base_eq) (h16.allowed hw).1
      | some b =>
        have hff : FreeFits L bytes s.mem := (freeFits_iff hi bytes).mpr (by simp [hf])
        obtain ⟨_, hfree, pre, post, rfl⟩ := firstFit_some hf
        obtain ⟨s', hk, hi', _, _, hw⟩ := kmalloc_reuse hi hne hf
        have hl' := hl.mono (fun c hc hu => mem_reused (b := b) bytes (used_middle hfree hc hu))
        exact ⟨_, s', hk, iff_of_true (stores_own hi' hl' (hw.mono (fun _ => reuse_own))) (Or.inr hff)⟩
  · obtain ⟨b, hb, _, hbp, _⟩ := hl.owner l hlm
    obtain ⟨pre, post, rfl⟩ := List.append_of_mem hb
    rw [hbp]
    obtain ⟨hi', _, _, hw⟩ := kfree_step hi
    have hm : ({ b with state := 0 } : Block) ∈ pre ++ { b with state := 0 } :: post := by simp
    refine hw.mono (fun x hx => ⟨own_allocator hi' (Or.inr ⟨_, hm, hx⟩), fun l' hl' hspan => ?_⟩)
    exact payload_not_own hi hl hl' hspan (Or.inr ⟨b, hb, hx⟩)

end

theorem heap_stores_sample : StoresOwn sampleLayout [(0xC000A014, 40), (0xC000A08C, 4096)] sampleHeap
    (kfree 0xC000A08C sampleHeap) :=
  (heap_stores_iff sampleHeap_reach).2 (0xC000A08C, 4096) (by decide)

/-- The first request of all grows the break, and writes below the heap. -/
theorem heap_stores_null : Reach sampleLayout (initHeap sampleLayout dirtyMem) [] ∧
    ∃ p s', kmalloc sampleLayout 100 (initHeap sampleLayout dirtyMem) = some (p, s') ∧
      s'.mem.byte 16 ≠ (initHeap sampleLayout dirtyMem).mem.byte 16 ∧
      ¬ AllocatorByte sampleLayout s' 16 :=
  ⟨Reach.init dirtyMem, _, _, rfl, by decide, sixteen_not_own rfl⟩

end LineOS
