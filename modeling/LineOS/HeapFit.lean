import LineOS.HeapSafety

/- What `kmalloc` makes of the blocks, on every reachable heap. The blocks are read
   from memory, in chain order (`blocksAt`); `FirstFit` is what one request does with
   them, when a free block is large enough and when none is. -/
namespace LineOS
open ByteMemory LinkedRing Tiling

/-- The header at an address, as a block. -/
def blockAt (m : Mem) (a : U32) : Block := ⟨a, headSize m a, headState m a⟩

def blocksAt (L : HeapLayout) (m : Mem) : Option (List Block) := (chainBlocks L m).map (List.map (blockAt m))

def Block.Fits (bytes : U32) (b : Block) : Prop := bytes ≤ b.size ∧ b.used = false

/-- Request `bytes` served by the block `b` between `pre` and `post`: it stays where it is and is in use, with
`b'` for its new header, and what is cut off is a free block up to the old end. -/
structure TakesBlock (bytes : U32) (pre : List Block) (b b' : Block) (post bs' : List Block) : Prop where
  addr : b'.addr = b.addr
  used : b'.used = true
  lo : bytes.toNat ≤ b'.size.toNat
  waste : b'.size.toNat ≤ bytes.toNat + headLen.toNat + 7
  rest : bs' = pre ++ b' :: post ∧ b'.hi = b.hi ∨
    ∃ r : Block, bs' = r :: (pre ++ b' :: post) ∧ r.used = false ∧ r.lo = b'.hi ∧ r.hi = b.hi

/-- Request `bytes` turned the heap `s` with the blocks `bs` into `s'` with `bs'`, and returned `p`. -/
structure FirstFit (bytes : U32) (s : Heap) (bs : List Block) (p : U32) (s' : Heap) (bs' : List Block) : Prop where
  reuses : ∀ pre b post, bs = pre ++ b :: post → b.Fits bytes → (∀ c ∈ pre, ¬ c.Fits bytes) →
    p = b.payload ∧ s'.brk = s.brk ∧ ∃ b', TakesBlock bytes pre b b' post bs'
  grows : (∀ c ∈ bs, ¬ c.Fits bytes) →
    p = s.brk + headLen ∧ s'.brk.toNat = s.brk.toNat + headLen.toNat + bytes.toNat ∧
      ∃ b' : Block, b'.addr = s.brk ∧ b'.size = bytes ∧ b'.used = true ∧ bs' = b' :: bs

section
variable {L : HeapLayout} {s : Heap} {bs : List Block} {bytes : U32}

theorem blocksAt_eq (hi : HeapInv L s bs) : blocksAt L s.mem = some bs := by
  rw [blocksAt, chainBlocks_eq hi, Option.map_some, List.map_map]
  have hself : ∀ b ∈ bs, (blockAt s.mem ∘ Block.addr) b = b := by
    intro b hb
    obtain ⟨-, hsize, hstate⟩ := hi.headers b hb
    simp only [Function.comp_apply, blockAt, hsize, hstate]
  rw [List.map_congr_left hself, List.map_id']

theorem fits_iff (b : Block) : (decide (bytes ≤ b.size) && !b.used) = true ↔ b.Fits bytes := by
  rw [Block.Fits, Bool.and_eq_true, decide_eq_true_eq, Bool.not_eq_true']

theorem firstFit_of_first {pre post : List Block} {b : Block} (hb : b.Fits bytes) (hpre : ∀ c ∈ pre, ¬ c.Fits bytes) :
    firstFit bytes (pre ++ b :: post) = some b := by
  refine List.find?_eq_some_iff_append.mpr ⟨(fits_iff b).mpr hb, pre, post, rfl, fun c hc => ?_⟩
  rw [Bool.not_eq_true', Bool.eq_false_iff]
  exact fun h => hpre c hc ((fits_iff c).mp h)

theorem reused_takes {pre post : List Block} {b : Block} (hb : b.Fits bytes)
    (ht : b.addr.toNat + 20 + b.size.toNat ≤ 2 ^ 32) :
    ∃ b', TakesBlock bytes pre b b' post (reused pre post b bytes) := by
  have hle : bytes.toNat ≤ b.size.toNat := hb.1
  have hlen : headLen.toNat = 20 := rfl
  by_cases hl : headLen + 8 ≤ b.size - bytes
  · obtain ⟨hlo, hhi, -⟩ := rest_extent ht hb.1 hl
    refine ⟨Block.take { b with size := bytes }, rfl, Block.take_used _, Nat.le_refl _, ?_, .inr ⟨b.rest bytes, ?_, ?_, ?_, ?_⟩⟩
    · show bytes.toNat ≤ _
      omega
    · rw [reused, if_pos hl]
    · show stateUsed 0 = false
      decide
    · exact hlo
    · exact hhi
  · refine ⟨b.take, rfl, Block.take_used _, hle, ?_, .inl ⟨?_, rfl⟩⟩
    · show b.size.toNat ≤ _
      unfold headLen at hl ⊢
      bv_omega
    · rw [reused, if_neg hl]

end

/-- **`kmalloc` is a first fit with bounded waste**: on every reachable heap, for every request that is not
empty and that a free block or the break has room for. -/
theorem kmalloc_first_fit {L : HeapLayout} {s : Heap} {live : List (U32 × U32)} {bytes : U32} (h : Reach L s live)
    (hne : bytes ≠ 0) (had : Admissible L bytes s) : ∃ bs p s' bs', blocksAt L s.mem = some bs ∧
      kmalloc L bytes s = some (p, s') ∧ blocksAt L s'.mem = some bs' ∧ FirstFit bytes s bs p s' bs' := by
  obtain ⟨bs, hi, -⟩ := run_inv h
  by_cases hf : firstFit bytes bs = none
  · have hlt : s.brk.toNat + 20 + bytes.toNat < brkMax.toNat := by
      refine had.resolve_left fun hfree => ?_
      exact (freeFits_iff hi bytes).mp hfree hf
    obtain ⟨s', hk, hi', hbrk, -⟩ := kmalloc_grow hi hne hf hlt
    refine ⟨bs, _, s', _, blocksAt_eq hi, hk, blocksAt_eq hi', ?_, fun _ => ⟨rfl, ?_, _, rfl, rfl, Block.take_used _, rfl⟩⟩
    · intro pre b post hbs hb hpre
      rw [hbs, firstFit_of_first hb hpre] at hf
      cases hf
    · rw [brkMax_toNat] at hlt
      rw [hbrk]
      unfold headLen
      bv_omega
  · obtain ⟨b, hb⟩ := Option.ne_none_iff_exists'.mp hf
    obtain ⟨hle, hfree, pre, post, rfl⟩ := firstFit_some hb
    obtain ⟨s', hk, hi', -, -⟩ := kmalloc_reuse hi hne hb
    refine ⟨_, _, s', _, blocksAt_eq hi, hk, blocksAt_eq hi', ?_, fun hno => absurd ⟨hle, hfree⟩ (hno b (by simp))⟩
    -- the same call, seen from where the first block that fits is said to be
    intro pre₂ b₂ post₂ hbs hb₂ hpre₂
    rw [hbs] at hi
    obtain ⟨s₂, hk₂, hi₂, hbrk, -⟩ := kmalloc_reuse hi hne (firstFit_of_first hb₂ hpre₂)
    obtain ⟨hp, rfl⟩ := Prod.mk.inj (Option.some.inj (hk.symm.trans hk₂))
    have hblocks := Option.some.inj ((blocksAt_eq hi').symm.trans (blocksAt_eq hi₂))
    obtain ⟨-, hend, htop⟩ := hi.bounds (b := b₂) (by simp)
    rw [hblocks]
    exact ⟨hp, hbrk, reused_takes hb₂ (by omega)⟩

/-- On `sampleHeap`, whose free block has 40 bytes: 32 of them, and 100 that do not fit. -/
theorem kmalloc_first_fit_sample : (∃ bs p s' bs', blocksAt sampleLayout sampleHeap.mem = some bs ∧
      kmalloc sampleLayout 32 sampleHeap = some (p, s') ∧ blocksAt sampleLayout s'.mem = some bs' ∧
      FirstFit 32 sampleHeap bs p s' bs') ∧
    ∃ bs p s' bs', blocksAt sampleLayout sampleHeap.mem = some bs ∧
      kmalloc sampleLayout 100 sampleHeap = some (p, s') ∧ blocksAt sampleLayout s'.mem = some bs' ∧
      FirstFit 100 sampleHeap bs p s' bs' :=
  ⟨kmalloc_first_fit sampleHeap_reach (by decide) (.inr (by decide)),
    kmalloc_first_fit sampleHeap_reach (by decide) (.inr (by decide))⟩

end LineOS
