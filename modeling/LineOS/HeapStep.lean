import LineOS.HeapInv
import Mathlib.Data.List.Find

/- One call on a well-formed heap. `firstFit` is the search loop on the list of
   blocks; `kmalloc_grow` and `kmalloc_reuse` say what `kmalloc` does when it
   finds nothing and when it finds a block, and `kfree_step` what freeing a used
   block does. Callers use these and never unfold the code again. -/
namespace LineOS
open ByteMemory ByteMemory.Mem LinkedRing Tiling

/-- The block the search stops at: the first in chain order that is free and
large enough. -/
def firstFit (bytes : U32) (bs : List Block) : Option Block :=
  bs.find? (fun b => decide (bytes ≤ b.size) && !b.used)

section
variable {L : HeapLayout} {s : Heap} {bs : List Block}

/-! The loops over the chain. -/

theorem chain_notMem (hi : HeapInv L s bs) : L.chain ∉ bs.map Block.addr := by
  have hb := hi.brk_lt
  rw [brkMax_toNat] at hb
  exact (List.nodup_cons.mp (cover_spread hi.cover (by omega)).nodup).1

theorem chain_length (hi : HeapInv L s bs) : (bs.map Block.addr).length < 2 ^ 32 := by
  have hb := hi.brk_lt
  have hl := hi.covers.length_le (k := 20) (fun b _ => by simp only [Block.lo, Block.hi]; omega)
  rw [brkMax_toNat] at hb
  rw [List.length_map]
  omega

theorem chainBlocks_eq (hi : HeapInv L s bs) : chainBlocks L s.mem = some (bs.map Block.addr) :=
  hi.ring.nodes_eq (chain_notMem hi) (chain_length hi)

theorem fits_eq (hi : HeapInv L s bs) (bytes : U32) {b : Block} (hb : b ∈ bs) :
    fits bytes s.mem b.addr = (decide (bytes ≤ b.size) && !b.used) := by
  have h := hi.headers b hb
  rw [fits, h.size, h.state, Block.used]

/-- The search ends, and finds what `firstFit` finds. -/
theorem searchChain_eq (hi : HeapInv L s bs) (bytes : U32) :
    searchChain L bytes s.mem = some ((firstFit bytes bs).map Block.addr) := by
  rw [searchChain, hi.ring.seek_eq (chain_notMem hi) _ (chain_length hi), List.find?_map, firstFit]
  have h : ∀ b ∈ bs, (fits bytes s.mem ∘ Block.addr) b = (decide (bytes ≤ b.size) && !b.used) :=
    fun b hb => fits_eq hi bytes hb
  rw [List.find?_congr h]

/-- Some block of the chain is free and large enough. -/
def FreeFits (L : HeapLayout) (bytes : U32) (m : Mem) : Prop :=
  ∃ as, chainBlocks L m = some as ∧ ∃ a ∈ as, fits bytes m a = true

instance (L : HeapLayout) (bytes : U32) (m : Mem) : Decidable (FreeFits L bytes m) :=
  decidable_of_iff ((chainBlocks L m).any (fun as => as.any (fits bytes m)) = true) (by
    simp [FreeFits, Option.any_eq_true])

theorem freeFits_iff (hi : HeapInv L s bs) (bytes : U32) :
    FreeFits L bytes s.mem ↔ firstFit bytes bs ≠ none := by
  have hsome : firstFit bytes bs ≠ none ↔ ∃ b ∈ bs, (decide (bytes ≤ b.size) && !b.used) = true := by
    rw [firstFit, Option.ne_none_iff_isSome, List.find?_isSome]
  rw [hsome]
  constructor
  · rintro ⟨as, has, a, ha, hfit⟩
    rw [chainBlocks_eq hi] at has
    obtain rfl := Option.some.inj has
    obtain ⟨b, hb, rfl⟩ := List.mem_map.mp ha
    exact ⟨b, hb, (fits_eq hi bytes hb).symm.trans hfit⟩
  · rintro ⟨b, hb, hfit⟩
    exact ⟨_, chainBlocks_eq hi, b.addr, List.mem_map_of_mem hb, (fits_eq hi bytes hb).trans hfit⟩

/-- What stopping at a block says: it fits, it is free, and where it stands. -/
theorem firstFit_some {bytes : U32} {b : Block} (h : firstFit bytes bs = some b) :
    bytes ≤ b.size ∧ b.used = false ∧ ∃ pre post, bs = pre ++ b :: post := by
  obtain ⟨hp, pre, post, rfl, _⟩ := List.find?_eq_some_iff_append.mp h
  simp only [Bool.and_eq_true, decide_eq_true_eq, Bool.not_eq_true'] at hp
  exact ⟨hp.1, hp.2, pre, post, rfl⟩

/-! `kmalloc`. -/

theorem kmalloc_unfold_grow {bytes : U32} (hi : HeapInv L s bs) (hne : bytes ≠ 0)
    (hf : firstFit bytes bs = none) : kmalloc L bytes s =
      some (kmallocTake (kmallocGrow L bytes s).1 (kmallocGrow L bytes s).2) := by
  rw [kmalloc, if_neg hne, searchChain_eq hi, hf]
  rfl

theorem kmalloc_unfold_reuse {bytes : U32} {b : Block} (hi : HeapInv L s bs) (hne : bytes ≠ 0)
    (hf : firstFit bytes bs = some b) : kmalloc L bytes s =
      some (kmallocTake b.addr (kmallocReuse L bytes b.addr s)) := by
  have hb : b ∈ bs := List.mem_of_find?_eq_some hf
  have hm := (hi.headers b hb).magic
  rw [kmalloc, if_neg hne, searchChain_eq hi, hf]
  simp [hm]

theorem stateUsed_or (v : U8) : stateUsed (v ||| 1) = true := by
  have h : (v ||| 1) &&& 1 = (1 : U8) := by
    ext i hi
    simp
    grind
  rw [stateUsed, h]
  rfl

/-- The allocated block: the state byte has its low bit set. -/
def Block.take (b : Block) : Block := { b with state := b.state ||| 1 }

theorem Block.take_used (b : Block) : b.take.used = true := stateUsed_or b.state

theorem take_inv {pre post : List Block} {b : Block} (hi : HeapInv L s (pre ++ b :: post)) :
    (kmallocTake b.addr s).1 = b.payload ∧
      HeapInv L (kmallocTake b.addr s).2 (pre ++ b.take :: post) ∧
      WritesOnly (DataByte b.addr) s.mem (kmallocTake b.addr s).2.mem := by
  have hb := hi.bounds (b := b) (by simp)
  have hs := (hi.headers b (by simp)).state
  have e16 : (b.addr + 16).toNat = b.addr.toNat + 16 := by bv_omega
  refine ⟨rfl, ?_, ?_⟩
  · simp only [kmallocTake, hs]
    exact setState_inv hi _ _
  · exact WritesOnly.store8 _ _ (by unfold DataByte; omega)

/-- No block fits: the new one lies at the old break. -/
theorem kmalloc_grow {bytes : U32} (hi : HeapInv L s bs) (hne : bytes ≠ 0)
    (hf : firstFit bytes bs = none) (hlt : s.brk.toNat + 20 + bytes.toNat < brkMax.toNat) :
    ∃ s', kmalloc L bytes s = some (s.brk + headLen, s') ∧
      HeapInv L s' (Block.take ⟨s.brk, bytes, headState s.mem s.brk⟩ :: bs) ∧
      s'.brk = s.brk + (headLen + bytes) ∧ s'.panics = s.panics := by
  obtain ⟨hg, _⟩ := grow_inv hi hlt
  rw [kmalloc_unfold_grow hi hne hf]
  have hg₁ : (kmallocGrow L bytes s).1 = s.brk := by rw [kmallocGrow_eq hlt]
  rw [← List.nil_append (_ :: bs)] at hg
  have ht := (take_inv hg).2.1
  rw [List.nil_append] at ht
  rw [hg₁]
  refine ⟨_, rfl, ht, ?_, ?_⟩ <;> rw [kmallocGrow_eq hlt]

/-- `ksbrk` on any request: nothing asked, refused with a panic, or moved. -/
theorem ksbrk_cases (n : U32) (s : Heap) :
    n = 0 ∧ ksbrk n s = (s.brk, s) ∨
    n ≠ 0 ∧ brkMax ≤ s.brk + n ∧
      ksbrk n s = (s.brk - n, s.panic "Unable to kbrk - Reached max_brk!\n") ∨
    n ≠ 0 ∧ ¬ brkMax ≤ s.brk + n ∧ ksbrk n s = (s.brk, { s with brk := s.brk + n }) := by
  by_cases hn : n = 0
  · exact Or.inl ⟨hn, by rw [ksbrk, if_pos hn]⟩
  · by_cases hm : brkMax ≤ s.brk + n
    · refine Or.inr (Or.inl ⟨hn, hm, ?_⟩)
      rw [ksbrk, if_neg hn]
      simp [kbrk, hm, Heap.panic]
    · have e : s.brk + n - n = s.brk := by bv_omega
      refine Or.inr (Or.inr ⟨hn, hm, ?_⟩)
      rw [ksbrk, if_neg hn]
      simp [kbrk, hm, e]

/-- No block fits, whatever the request: the branch goes on with what `ksbrk`
returned, counts a block, and stores to `NULL + 16`. -/
theorem kmalloc_grow_any {bytes : U32} (hi : HeapInv L s bs) (hne : bytes ≠ 0)
    (hf : firstFit bytes bs = none) :
    ∃ s', kmalloc L bytes s = some ((ksbrk (headLen + bytes) s).1 + headLen, s') ∧
      s'.base = s.base ∧ s'.brk = (ksbrk (headLen + bytes) s).2.brk ∧
      s'.panics = (ksbrk (headLen + bytes) s).2.panics ∧
      s'.totalBlocks = s.totalBlocks + 1 ∧ Stored 16 s.mem s'.mem := by
  have hkeep : (ksbrk (headLen + bytes) s).2.mem = s.mem ∧
      (ksbrk (headLen + bytes) s).2.base = s.base ∧
      (ksbrk (headLen + bytes) s).2.totalBlocks = s.totalBlocks := by
    rcases ksbrk_cases (headLen + bytes) s with ⟨_, e⟩ | ⟨_, _, e⟩ | ⟨_, _, e⟩ <;>
      simp [e, Heap.panic]
  rw [kmalloc_unfold_grow hi hne hf]
  refine ⟨_, rfl, hkeep.2.1, rfl, rfl, ?_, ?_⟩
  · show (ksbrk (headLen + bytes) s).2.totalBlocks + 1 = _
    rw [hkeep.2.2]
  · have h : Stored 16 s.mem (kmallocGrow L bytes s).2.mem := by
      have hw : WritesOnly (fun _ => True) s.mem (writeHead (ksbrk (headLen + bytes) s).1 bytes s.mem) :=
        (WritesOnly.store32_any _ _ _).trans (WritesOnly.store32_any _ _ _)
      have h16 : Stored 16 s.mem ((writeHead (ksbrk (headLen + bytes) s).1 bytes s.mem).store8 (0 + 16) 0) :=
        Stored.before hw (Stored.store8 _ _ _)
      show Stored 16 s.mem (listAdd _ L.chain
        ((writeHead (ksbrk (headLen + bytes) s).1 bytes (ksbrk (headLen + bytes) s).2.mem).store8 (0 + 16) 0))
      rw [hkeep.1]
      exact h16.after (writes_listAdd_any _ _ _)
    exact h.after (WritesOnly.store8 (P := fun _ => True) _ _ trivial)

/-- The blocks after `b` was taken for `bytes`, among `pre` and `post`. -/
def reused (pre post : List Block) (b : Block) (bytes : U32) : List Block :=
  if headLen + 8 ≤ b.size - bytes then
    b.rest bytes :: (pre ++ Block.take { b with size := bytes } :: post)
  else pre ++ b.take :: post

/-- A free block fits: it is taken where it stands, and split if it is worth it. -/
theorem kmalloc_reuse {bytes : U32} {pre post : List Block} {b : Block}
    (hi : HeapInv L s (pre ++ b :: post)) (hne : bytes ≠ 0)
    (hf : firstFit bytes (pre ++ b :: post) = some b) :
    ∃ s', kmalloc L bytes s = some (b.payload, s') ∧ HeapInv L s' (reused pre post b bytes) ∧
      s'.brk = s.brk ∧ s'.panics = s.panics ∧
      WritesOnly (fun x => DataByte b.addr x ∨ SplitByte L (pre ++ b :: post) b bytes x ∧
        headLen + 8 ≤ b.size - bytes) s.mem s'.mem := by
  have hfit := (firstFit_some hf).1
  have hbh := hi.headers b (by simp)
  rw [kmalloc_unfold_reuse hi hne hf]
  by_cases hl : headLen + 8 ≤ b.size - bytes
  · obtain ⟨hs, hw⟩ := split_inv hi hfit hl
    rw [← List.cons_append] at hs
    obtain ⟨_, ht, hwt⟩ := take_inv hs
    refine ⟨_, rfl, ?_, ?_, ?_, ?_⟩
    · rw [reused, if_pos hl]
      exact ht
    · rw [kmallocReuse_split hbh hl]
    · rw [kmallocReuse_split hbh hl]
    · exact (hw.mono (fun x hx => Or.inr ⟨hx, hl⟩)).trans (hwt.mono (fun x hx => Or.inl hx))
  · rw [kmallocReuse_whole hbh hl]
    obtain ⟨_, ht, hwt⟩ := take_inv hi
    refine ⟨_, rfl, ?_, rfl, rfl, hwt.mono (fun x hx => Or.inl hx)⟩
    rw [reused, if_neg hl]
    exact ht

/-! `kfree`. -/

theorem payload_sub (b : Block) : b.payload - headLen = b.addr := by
  unfold Block.payload
  bv_omega

theorem payload_ne_zero (hi : HeapInv L s bs) {b : Block} (hb : b ∈ bs) : b.payload ≠ 0 := by
  have h := hi.bounds hb
  have hc := chain_bounds L
  unfold Block.payload headLen
  bv_omega

theorem kfree_step {pre post : List Block} {b : Block} (hi : HeapInv L s (pre ++ b :: post)) :
    HeapInv L (kfree b.payload s) (pre ++ { b with state := 0 } :: post) ∧
      (kfree b.payload s).brk = s.brk ∧ (kfree b.payload s).panics = s.panics ∧
      WritesOnly (DataByte b.addr) s.mem (kfree b.payload s).mem := by
  have hb := hi.bounds (b := b) (by simp)
  have hh := hi.headers b (by simp)
  have e16 : (b.addr + 16).toNat = b.addr.toNat + 16 := by bv_omega
  have hk : kfree b.payload s =
      { s with mem := s.mem.store8 (b.addr + 16) 0, usedBlocks := s.usedBlocks - 1 } := by
    rw [kfree, if_neg (payload_ne_zero hi (b := b) (by simp))]
    simp [payload_sub, hh.magic, hh.state]
  rw [hk]
  exact ⟨setState_inv hi 0 _, rfl, rfl, WritesOnly.store8 _ _ (by unfold DataByte; omega)⟩

end
end LineOS
