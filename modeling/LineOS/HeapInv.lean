import LineOS.Heap
import LineOS.Tiling
import Mathlib.Data.List.Nodup

/- What heap memory represents. A `Block` is a header as a value; `HeapInv L s bs`
   says that memory holds exactly the blocks `bs`, in chain order, and that
   their extents tile `[base, brk)`. Chain order and address order differ: a
   block is pushed at the head of the chain when it is made, wherever it lies.

   Each branch of `kmalloc`, and `kfree`, is one lemma here: what the list of
   blocks becomes (`grow_inv`, `split_inv`, `setState_inv`) and which bytes the
   branch stores to (`GrowByte`, `SplitByte`). -/
namespace LineOS
open ByteMemory ByteMemory.Mem LinkedRing Tiling

structure Block where
  addr : U32
  size : U32
  state : U8
  deriving DecidableEq, Repr

namespace Block
def lo (b : Block) : Nat := b.addr.toNat
def hi (b : Block) : Nat := b.addr.toNat + 20 + b.size.toNat
def used (b : Block) : Bool := stateUsed b.state
def payload (b : Block) : U32 := b.addr + headLen
end Block

/-- Memory holds the header of `b`. -/
structure HeaderAt (m : Mem) (b : Block) : Prop where
  magic : headMagic m b.addr = 0xBEEF
  size : headSize m b.addr = b.size
  state : headState m b.addr = b.state

structure HeapInv (L : HeapLayout) (s : Heap) (bs : List Block) : Prop where
  ring : MemRing s.mem L.chain (bs.map Block.addr)
  headers : ∀ b ∈ bs, HeaderAt s.mem b
  covers : Covers Block.lo Block.hi bs s.base.toNat s.brk.toNat
  base_eq : s.base = L.kernelEnd
  brk_lt : s.brk.toNat < brkMax.toNat

theorem brkMax_toNat : brkMax.toNat = 4290756608 := by decide

theorem kVirStart_toNat : kVirStart.toNat = 3221225472 := by decide

/-- The bytes of a header that hold no links: magic, size and state. -/
def DataByte (a : U32) (x : U32) : Prop := a.toNat + 8 ≤ x.toNat ∧ x.toNat < a.toNat + 17

section
variable {L : HeapLayout} {s : Heap} {bs : List Block} {m m' : Mem}

/-! Where the blocks lie. -/

theorem chain_bounds (L : HeapLayout) :
    3221225472 ≤ L.chain.toNat ∧ L.chain.toNat + 16 ≤ L.kernelEnd.toNat ∧
      L.kernelEnd.toNat < 4290756608 := by
  have h1 := L.chain_lo
  have h2 := L.end_lt
  rw [kVirStart_toNat] at h1
  rw [brkMax_toNat] at h2
  exact ⟨h1, L.chain_hi, h2⟩

theorem cover_bounds {e : Nat} (h : Covers Block.lo Block.hi bs L.kernelEnd.toNat e) :
    ∀ b ∈ bs, L.kernelEnd.toNat ≤ b.addr.toNat ∧ b.addr.toNat + 20 + b.size.toNat ≤ e := by
  intro b hb
  obtain ⟨h1, _, h2⟩ := h.bounds b hb
  exact ⟨h1, h2⟩

theorem HeapInv.cover (hi : HeapInv L s bs) :
    Covers Block.lo Block.hi bs L.kernelEnd.toNat s.brk.toNat := hi.base_eq ▸ hi.covers

theorem HeapInv.bounds (hi : HeapInv L s bs) {b : Block} (hb : b ∈ bs) :
    L.kernelEnd.toNat ≤ b.addr.toNat ∧ b.addr.toNat + 20 + b.size.toNat ≤ s.brk.toNat ∧
      s.brk.toNat < 4290756608 := by
  have h := cover_bounds hi.cover b hb
  have hl := hi.brk_lt
  rw [brkMax_toNat] at hl
  exact ⟨h.1, h.2, hl⟩

theorem addr_nodup {e : Nat} (h : Covers Block.lo Block.hi bs L.kernelEnd.toNat e) :
    (bs.map Block.addr).Nodup := by
  have hn := h.lo_nodup (fun b _ => by simp only [Block.lo, Block.hi]; omega)
  refine List.Nodup.of_map BitVec.toNat ?_
  rwa [List.map_map]

/-- The chain's head and the headers of a cover are spread list heads. -/
theorem cover_spread {e : Nat} (h : Covers Block.lo Block.hi bs L.kernelEnd.toNat e)
    (he : e ≤ 2 ^ 32) : Spread 8 (L.chain :: bs.map Block.addr) := by
  have hc := chain_bounds L
  have hb := cover_bounds h
  refine ⟨?_, ?_, ?_⟩
  · refine List.nodup_cons.mpr ⟨?_, addr_nodup h⟩
    intro hmem
    obtain ⟨b, hbm, e⟩ := List.mem_map.mp hmem
    have := hb b hbm
    rw [e] at this
    omega
  · intro a ha c hcm hne
    -- the chain head lies below the heap, and the blocks do not meet
    rcases List.mem_cons.mp ha with rfl | ha <;> rcases List.mem_cons.mp hcm with rfl | hcm
    · exact absurd rfl hne
    · obtain ⟨b, hbm, rfl⟩ := List.mem_map.mp hcm
      have := hb b hbm
      omega
    · obtain ⟨b, hbm, rfl⟩ := List.mem_map.mp ha
      have := hb b hbm
      omega
    · obtain ⟨b, hbm, rfl⟩ := List.mem_map.mp ha
      obtain ⟨d, hdm, rfl⟩ := List.mem_map.mp hcm
      have := h.apart b hbm d hdm (fun e => hne (by rw [e]))
      simp only [Apart, Block.lo, Block.hi] at this
      omega
  · intro a ha
    rcases List.mem_cons.mp ha with rfl | ha
    · omega
    · obtain ⟨b, hbm, rfl⟩ := List.mem_map.mp ha
      have := hb b hbm
      omega

theorem Spread.perm {n : Nat} {as cs : List U32} (h : Spread n as) (hp : as.Perm cs) : Spread n cs :=
  ⟨hp.nodup_iff.mp h.nodup,
    fun a ha c hc => h.apart a (hp.mem_iff.mpr ha) c (hp.mem_iff.mpr hc),
    fun a ha => h.top a (hp.mem_iff.mpr ha)⟩

/-! Frames for headers. -/

theorem HeaderAt.frame {b : Block} {P : U32 → Prop} (h : HeaderAt m b) (hw : WritesOnly P m m')
    (ht : b.addr.toNat + 20 ≤ 2 ^ 32) (hP : ∀ x, DataByte b.addr x → ¬ P x) : HeaderAt m' b := by
  have e8 : (b.addr + 8).toNat = b.addr.toNat + 8 := by bv_omega
  have e12 : (b.addr + 12).toNat = b.addr.toNat + 12 := by bv_omega
  have e16 : (b.addr + 16).toNat = b.addr.toNat + 16 := by bv_omega
  refine ⟨?_, ?_, ?_⟩
  · rw [headMagic, hw.load32_eq (by omega) (fun x hx => hP x (by unfold InSpan at hx; unfold DataByte; omega))]
    exact h.magic
  · rw [headSize, hw.load32_eq (by omega) (fun x hx => hP x (by unfold InSpan at hx; unfold DataByte; omega))]
    exact h.size
  · rw [headState, hw.2 _ (hP _ (by unfold DataByte; omega))]
    exact h.state

theorem headers_listAdd {new head : U32} {as : List U32} {b : Block} (h : HeaderAt m b)
    (hr : MemRing m head as) (hs : Spread 8 (new :: head :: as)) (ht : b.addr.toNat + 20 ≤ 2 ^ 32)
    (hoff : ∀ a ∈ new :: head :: as, a.toNat + 8 ≤ b.addr.toNat + 8 ∨ b.addr.toNat + 17 ≤ a.toNat) :
    HeaderAt (listAdd new head m) b := by
  refine h.frame (writes_listAdd hr hs) ht ?_
  rintro x hx ⟨a, ha, hxa⟩
  have := hoff a ha
  unfold DataByte at hx
  unfold InSpan at hxa
  omega

/-! Frames for the whole heap. -/

/-- The bytes the heap's representation lives in: links and header data. -/
def OwnByte (L : HeapLayout) (bs : List Block) (x : U32) : Prop :=
  LinkByte (L.chain :: bs.map Block.addr) x ∨ ∃ b ∈ bs, DataByte b.addr x

/-- Stores that miss every link and header leave the heap as it was. -/
theorem HeapInv.frame {P : U32 → Prop} (hi : HeapInv L s bs) (hw : WritesOnly P s.mem m')
    (hP : ∀ x, OwnByte L bs x → ¬ P x) : HeapInv L { s with mem := m' } bs := by
  have hbrk := hi.brk_lt
  rw [brkMax_toNat] at hbrk
  refine ⟨?_, ?_, hi.covers, hi.base_eq, hi.brk_lt⟩
  · exact hi.ring.frame hw (fun a ha => (cover_spread hi.cover (by omega)).top a ha)
      (fun x hx => hP x (Or.inl hx))
  · intro b hb
    have hbb := hi.bounds hb
    exact (hi.headers b hb).frame hw (by omega) (fun x hx => hP x (Or.inr ⟨b, hb, hx⟩))

def InnerByte (b : Block) (x : U32) : Prop := b.addr.toNat + 8 ≤ x.toNat ∧ x.toNat < b.hi

theorem apart_middle {pre post : List Block} {b c : Block} {lo hi : Nat}
    (h : Covers Block.lo Block.hi (pre ++ b :: post) lo hi) (hc : c ∈ pre ++ post) :
    c.hi ≤ b.lo ∨ b.hi ≤ c.lo := by
  have hp := (List.perm_middle.pairwise_iff (fun h => Apart.symm h)).mp h.pairwise
  exact ((List.pairwise_cons.mp hp).1 c hc).symm

theorem mem_middle {pre post : List Block} {b c : Block} (hc : c ∈ pre ++ post) :
    c ∈ pre ++ b :: post := by
  rcases List.mem_append.mp hc with h | h <;> simp [h]

theorem forall_middle {p : Block → Prop} {pre post : List Block} {b : Block} (hb : p b)
    (h : ∀ c ∈ pre ++ post, p c) : ∀ c ∈ pre ++ b :: post, p c := by
  intro c hc
  rcases List.mem_append.mp hc with hc | hc
  · exact h c (by simp [hc])
  · rcases List.mem_cons.mp hc with rfl | hc
    · exact hb
    · exact h c (by simp [hc])

/-- Stores inside one block, past its links, keep the chain and the other headers. -/
theorem inner_frame {pre post : List Block} {b : Block} (hi : HeapInv L s (pre ++ b :: post))
    (hw : WritesOnly (InnerByte b) s.mem m') :
    MemRing m' L.chain ((pre ++ b :: post).map Block.addr) ∧ ∀ c ∈ pre ++ post, HeaderAt m' c := by
  have hb := hi.bounds (b := b) (by simp)
  have hch := chain_bounds L
  refine ⟨?_, ?_⟩
  · refine hi.ring.frame hw (fun a ha => (cover_spread hi.cover (by omega)).top a ha) ?_
    rintro x ⟨a, ha, hxa⟩ hx
    simp only [InSpan, InnerByte, Block.hi] at hxa hx
    rcases List.mem_cons.mp ha with rfl | ha
    · omega
    · obtain ⟨c, hc, rfl⟩ := List.mem_map.mp ha
      have key : c.addr = b.addr ∨ c.hi ≤ b.lo ∨ b.hi ≤ c.lo :=
        forall_middle (p := fun c => c.addr = b.addr ∨ c.hi ≤ b.lo ∨ b.hi ≤ c.lo) (Or.inl rfl)
          (fun c hc => Or.inr (apart_middle hi.covers hc)) c hc
      simp only [Block.lo, Block.hi] at key
      rcases key with h | h
      · rw [h] at hxa; omega
      · omega
  · intro c hc
    have hcb := hi.bounds (mem_middle hc)
    have hap := apart_middle hi.covers hc
    refine (hi.headers c (mem_middle hc)).frame hw (by omega) ?_
    intro x hx hx'
    simp only [DataByte, InnerByte, Block.lo, Block.hi] at hx hx' hap
    omega

/-! The state byte of a block. -/

/-- Storing a state byte changes that block's state and nothing else of the heap. -/
theorem setState_inv {pre post : List Block} {b : Block} (hi : HeapInv L s (pre ++ b :: post))
    (v : U8) (u : U32) :
    HeapInv L { s with mem := s.mem.store8 (b.addr + 16) v, usedBlocks := u }
      (pre ++ { b with state := v } :: post) := by
  have hb := hi.bounds (b := b) (by simp)
  have e16 : (b.addr + 16).toNat = b.addr.toNat + 16 := by bv_omega
  have e8 : (b.addr + 8).toNat = b.addr.toNat + 8 := by bv_omega
  have e12 : (b.addr + 12).toNat = b.addr.toNat + 12 := by bv_omega
  have hw : WritesOnly (InnerByte b) s.mem (s.mem.store8 (b.addr + 16) v) :=
    WritesOnly.store8 _ v (by simp only [InnerByte, Block.hi]; omega)
  obtain ⟨hr, hh⟩ := inner_frame hi hw
  refine ⟨?_, forall_middle ?_ hh, hi.covers.replace rfl rfl, hi.base_eq, hi.brk_lt⟩
  · simpa using hr
  · have h := hi.headers b (by simp)
    refine ⟨?_, ?_, byte_store8_same _ _ _⟩
    · show (s.mem.store8 (b.addr + 16) v).load32 (b.addr + 8) = _
      rw [load32_store8_off _ _ (by omega) (by unfold InSpan; omega)]
      exact h.magic
    · show (s.mem.store8 (b.addr + 16) v).load32 (b.addr + 12) = _
      rw [load32_store8_off _ _ (by omega) (by unfold InSpan; omega)]
      exact h.size

/-! Making a block: write its size and magic, link it in. -/

/-- The two stores that make a header, at `p`. -/
def writeHead (p size : U32) (m : Mem) : Mem := (m.store32 (p + 12) size).store32 (p + 8) 0xBEEF

theorem writeHead_reads {p : U32} (size : U32) (hp : p.toNat + 20 ≤ 2 ^ 32) :
    headMagic (writeHead p size m) p = 0xBEEF ∧ headSize (writeHead p size m) p = size ∧
      WritesOnly (fun x => p.toNat + 8 ≤ x.toNat ∧ x.toNat < p.toNat + 16) m (writeHead p size m) := by
  have e8 : (p + 8).toNat = p.toNat + 8 := by bv_omega
  have e12 : (p + 12).toNat = p.toNat + 12 := by bv_omega
  refine ⟨?_, ?_, ?_⟩
  · rw [headMagic, writeHead, load32_store32_same]
  · rw [headSize, writeHead, load32_store32_off _ _ (by omega) (by omega) (by omega), load32_store32_same]
  · exact (WritesOnly.store32 m size (by omega) (fun x hx => by unfold InSpan at hx; omega)).trans
      (WritesOnly.store32 _ _ (by omega) (fun x hx => by unfold InSpan at hx; omega))

/-- Linking a block with a good header into a chain with good headers. -/
theorem link_block {x : Block} {e : Nat} (hr : MemRing m L.chain (bs.map Block.addr))
    (hh : ∀ b ∈ x :: bs, HeaderAt m b)
    (hc : Covers Block.lo Block.hi (x :: bs) L.kernelEnd.toNat e) (he : e ≤ 2 ^ 32) :
    MemRing (listAdd x.addr L.chain m) L.chain ((x :: bs).map Block.addr) ∧
      (∀ b ∈ x :: bs, HeaderAt (listAdd x.addr L.chain m) b) ∧
      WritesOnly (LinkByte (L.chain :: (x :: bs).map Block.addr)) m (listAdd x.addr L.chain m) := by
  have hs := cover_spread hc he
  have hs' : Spread 8 (x.addr :: L.chain :: bs.map Block.addr) := hs.perm (List.Perm.swap _ _ _)
  refine ⟨ring_listAdd hr hs', ?_, ?_⟩
  · intro b hb
    have hbb := cover_bounds hc b hb
    refine headers_listAdd (hh b hb) hr hs' (by omega) ?_
    intro a ha
    by_cases hab : a = b.addr
    · left; rw [hab]
    · have ha' : a ∈ L.chain :: (x :: bs).map Block.addr := (List.Perm.swap _ _ _).mem_iff.mp ha
      rcases List.mem_cons.mp ha' with rfl | ha'
      · have := chain_bounds L; omega
      · obtain ⟨c, hcm, rfl⟩ := List.mem_map.mp ha'
        have := hc.apart b hb c hcm (fun h => hab (by rw [h]))
        simp only [Apart, Block.lo, Block.hi] at this
        omega
  · refine (writes_listAdd hr hs').mono ?_
    rintro y ⟨a, ha, hy⟩
    exact ⟨a, (List.Perm.swap _ _ _).mem_iff.mp ha, hy⟩

/-! The grow branch. -/

theorem ksbrk_ok {n : U32} (hn : n ≠ 0) (hlt : (s.brk + n).toNat < brkMax.toNat) :
    ksbrk n s = (s.brk, { s with brk := s.brk + n }) := by
  have h : ¬ brkMax ≤ s.brk + n := by bv_omega
  have e : s.brk + n - n = s.brk := by bv_omega
  rw [ksbrk, if_neg hn]
  simp [kbrk, h, e]

/-- The bytes `kmallocGrow` may store to: the new header, the links of the chain,
and the byte at `NULL + 16`. -/
def GrowByte (L : HeapLayout) (bs : List Block) (p x : U32) : Prop :=
  x = 16 ∨ DataByte p x ∨ LinkByte (L.chain :: p :: bs.map Block.addr) x

theorem kmallocGrow_eq {bytes : U32}
    (hlt : s.brk.toNat + 20 + bytes.toNat < brkMax.toNat) :
    kmallocGrow L bytes s = (s.brk,
      { s with
        mem := listAdd s.brk L.chain ((writeHead s.brk bytes s.mem).store8 (0 + 16) 0)
        brk := s.brk + (headLen + bytes)
        totalBlocks := s.totalBlocks + 1 }) := by
  rw [brkMax_toNat] at hlt
  have hn : headLen + bytes ≠ 0 := by unfold headLen; bv_omega
  have hl : (s.brk + (headLen + bytes)).toNat < brkMax.toNat := by
    rw [brkMax_toNat]; unfold headLen; bv_omega
  rw [kmallocGrow, ksbrk_ok hn hl]
  rfl

/-- The header at the break: up to the linking, only the byte at NULL + 16 and bytes
past the break are written. -/
theorem grow_head (m : Mem) (p bytes : U32) (hlo : 17 ≤ p.toNat) (hhi : p.toNat + 20 ≤ 2 ^ 32) :
    WritesOnly (fun x => x = 16 ∨ DataByte p x) m ((writeHead p bytes m).store8 (0 + 16) 0) ∧
      HeaderAt ((writeHead p bytes m).store8 (0 + 16) 0) ⟨p, bytes, headState m p⟩ := by
  have e16 : (p + 16).toNat = p.toNat + 16 := by bv_omega
  have z16 : ((0 : U32) + 16).toNat = 16 := by decide
  obtain ⟨hmg, hsz, hw⟩ := writeHead_reads (m := m) (p := p) bytes hhi
  generalize writeHead p bytes m = m₂ at *
  refine ⟨?_, ?_, ?_, ?_⟩
  · exact (hw.mono (fun x hx => Or.inr ⟨hx.1, by omega⟩)).trans (WritesOnly.store8 _ _ (Or.inl (by decide)))
  · rw [← hmg]
    exact load32_store8_off _ _ (by bv_omega) (by unfold InSpan; bv_omega)
  · rw [← hsz]
    exact load32_store8_off _ _ (by bv_omega) (by unfold InSpan; bv_omega)
  · show (m₂.store8 (0 + 16) 0).byte (p + 16) = m.byte (p + 16)
    rw [byte_store8_ne _ _ (by bv_omega), hw.2 _ (by omega)]

theorem grow_frame {m' : Mem} (hi : HeapInv L s bs) (hw : WritesOnly (fun x => x = 16 ∨ DataByte s.brk x) s.mem m') :
    HeapInv L { s with mem := m' } bs := by
  have hch := chain_bounds L
  have hle := hi.cover.le
  refine hi.frame hw ?_
  intro x hx hx'
  have hout : x.toNat = 16 ∨ s.brk.toNat + 8 ≤ x.toNat := by
    rcases hx' with rfl | hx'
    · exact Or.inl rfl
    · exact Or.inr hx'.1
  rcases hx with ⟨a, ha, hxa⟩ | ⟨b, hb, hxb⟩
  · unfold InSpan at hxa
    rcases List.mem_cons.mp ha with rfl | ha
    · omega
    · obtain ⟨b, hb, rfl⟩ := List.mem_map.mp ha
      have := hi.bounds hb
      omega
  · have := hi.bounds hb
    unfold DataByte at hxb
    omega

theorem grow_inv {bytes : U32} (hi : HeapInv L s bs)
    (hlt : s.brk.toNat + 20 + bytes.toNat < brkMax.toNat) :
    HeapInv L (kmallocGrow L bytes s).2 (⟨s.brk, bytes, headState s.mem s.brk⟩ :: bs) ∧
      WritesOnly (GrowByte L bs s.brk) s.mem (kmallocGrow L bytes s).2.mem := by
  rw [kmallocGrow_eq hlt]
  have hch := chain_bounds L
  have hle := hi.cover.le
  have hlt' := hlt
  rw [brkMax_toNat] at hlt
  have ebrk : (s.brk + (headLen + bytes)).toNat = s.brk.toNat + 20 + bytes.toNat := by
    unfold headLen; bv_omega
  obtain ⟨hw₃, hnew⟩ := grow_head s.mem s.brk bytes (by omega) (by omega)
  have hi₃ := grow_frame hi hw₃
  have hcov : Covers Block.lo Block.hi (⟨s.brk, bytes, headState s.mem s.brk⟩ :: bs)
      L.kernelEnd.toNat (s.brk + (headLen + bytes)).toNat := by
    rw [ebrk]
    exact hi.cover.grow rfl (by simp only [Block.lo, Block.hi]; omega)
  obtain ⟨hr₄, hh₄, hw₄⟩ := link_block hi₃.ring
    (fun b hb => (List.mem_cons.mp hb).elim (fun e => e ▸ hnew) (hi₃.headers b)) hcov (by omega)
  refine ⟨⟨hr₄, hh₄, hi.base_eq.symm ▸ hcov, hi.base_eq, by rw [ebrk]; exact hlt'⟩, ?_⟩
  refine (hw₃.mono (fun x hx => ?_)).trans (hw₄.mono (fun x hx => Or.inr (Or.inr hx)))
  rcases hx with hx | hx
  · exact Or.inl hx
  · exact Or.inr (Or.inl hx)

/-! The reuse branch, when it splits the block. -/

def Block.rest (b : Block) (bytes : U32) : Block :=
  ⟨b.addr + headLen + bytes, b.size - bytes - headLen, 0⟩

/-- The bytes a split may store to: the data of the two headers, and links. -/
def SplitByte (L : HeapLayout) (bs : List Block) (b : Block) (bytes x : U32) : Prop :=
  DataByte b.addr x ∨ DataByte (b.rest bytes).addr x ∨
    LinkByte (L.chain :: (b.rest bytes).addr :: bs.map Block.addr) x

theorem kmallocReuse_split {bytes : U32} {b : Block} (hb : HeaderAt s.mem b)
    (hl : headLen + 8 ≤ b.size - bytes) :
    kmallocReuse L bytes b.addr s =
      { s with
        mem := listAdd (b.rest bytes).addr L.chain
          (((writeHead (b.rest bytes).addr (b.rest bytes).size s.mem).store8
            ((b.rest bytes).addr + 16) 0).store32 (b.addr + 12) bytes)
        totalBlocks := s.totalBlocks + 1 } := by
  rw [kmallocReuse, hb.size]
  simp only [if_pos hl]
  rfl

theorem kmallocReuse_whole {bytes : U32} {b : Block} (hb : HeaderAt s.mem b)
    (hl : ¬ headLen + 8 ≤ b.size - bytes) : kmallocReuse L bytes b.addr s = s := by
  rw [kmallocReuse, hb.size]
  simp only [if_neg hl]

/-- The two parts of a split tile the extent of the whole. -/
theorem rest_extent {b : Block} {bytes : U32} (ht : b.addr.toNat + 20 + b.size.toNat ≤ 2 ^ 32)
    (hf : bytes ≤ b.size) (hl : headLen + 8 ≤ b.size - bytes) :
    (b.rest bytes).addr.toNat = b.addr.toNat + 20 + bytes.toNat ∧
      (b.rest bytes).addr.toNat + 20 + (b.rest bytes).size.toNat = b.addr.toNat + 20 + b.size.toNat ∧
      8 ≤ (b.rest bytes).size.toNat := by
  unfold Block.rest headLen at *
  refine ⟨?_, ?_, ?_⟩ <;> bv_omega

theorem rest_head (m : Mem) (sb : Block) (hst : sb.state = 0) (hhi : sb.addr.toNat + 20 ≤ 2 ^ 32) :
    WritesOnly (DataByte sb.addr) m ((writeHead sb.addr sb.size m).store8 (sb.addr + 16) 0) ∧
      HeaderAt ((writeHead sb.addr sb.size m).store8 (sb.addr + 16) 0) sb := by
  obtain ⟨hmg, hsz, hw⟩ := writeHead_reads (m := m) (p := sb.addr) sb.size hhi
  generalize writeHead sb.addr sb.size m = m₁ at *
  have s8 : (sb.addr + 8).toNat = sb.addr.toNat + 8 := by bv_omega
  have s12 : (sb.addr + 12).toNat = sb.addr.toNat + 12 := by bv_omega
  have s16 : (sb.addr + 16).toNat = sb.addr.toNat + 16 := by bv_omega
  refine ⟨?_, ?_, ?_, ?_⟩
  · exact (hw.mono (fun x hx => ⟨hx.1, by omega⟩)).trans (WritesOnly.store8 m₁ 0 (by unfold DataByte; omega))
  · rw [← hmg]
    exact load32_store8_off _ _ (by omega) (by unfold InSpan; omega)
  · rw [← hsz]
    exact load32_store8_off _ _ (by omega) (by unfold InSpan; omega)
  · rw [headState, byte_store8_same, hst]

theorem split_heads {b : Block} {bytes : U32} (hb : HeaderAt m b)
    (ht : b.addr.toNat + 20 + b.size.toNat < 2 ^ 32) (hf : bytes ≤ b.size)
    (hl : headLen + 8 ≤ b.size - bytes)
    (hm : m' = ((writeHead (b.rest bytes).addr (b.rest bytes).size m).store8
      ((b.rest bytes).addr + 16) 0).store32 (b.addr + 12) bytes) :
    HeaderAt m' { b with size := bytes } ∧ HeaderAt m' (b.rest bytes) ∧
      WritesOnly (fun x => DataByte b.addr x ∨ DataByte (b.rest bytes).addr x) m m' := by
  subst hm
  obtain ⟨hra, hrs, hr8⟩ := rest_extent (b := b) (by omega) hf hl
  obtain ⟨hw₂, hsb₂⟩ := rest_head m (b.rest bytes) rfl (by omega)
  generalize b.rest bytes = sb at *
  generalize (writeHead sb.addr sb.size m).store8 (sb.addr + 16) 0 = m₂ at *
  have e8 : (b.addr + 8).toNat = b.addr.toNat + 8 := by bv_omega
  have e12 : (b.addr + 12).toNat = b.addr.toNat + 12 := by bv_omega
  have e16 : (b.addr + 16).toNat = b.addr.toNat + 16 := by bv_omega
  have hw₃ : WritesOnly (InSpan (b.addr + 12) 4) m₂ (m₂.store32 (b.addr + 12) bytes) :=
    WritesOnly.store32 _ bytes (by omega) (fun _ hx => hx)
  have hb₂ : HeaderAt m₂ b :=
    hb.frame hw₂ (by omega) (fun x hx hx' => by unfold DataByte at hx hx'; omega)
  refine ⟨⟨?_, load32_store32_same _ _ _, ?_⟩, ?_, ?_⟩
  · show Mem.load32 _ (b.addr + 8) = _
    rw [load32_store32_off _ _ (by omega) (by omega) (by omega)]
    exact hb₂.magic
  · show Mem.byte _ (b.addr + 16) = _
    rw [byte_store32_off _ _ (by omega) (by unfold InSpan; omega)]
    exact hb₂.state
  · refine hsb₂.frame hw₃ (by omega) ?_
    intro x hx hx'
    unfold DataByte at hx
    unfold InSpan at hx'
    omega
  · refine (hw₂.mono (fun x hx => Or.inr hx)).trans (hw₃.mono (fun x hx => Or.inl ?_))
    unfold InSpan at hx
    unfold DataByte
    omega

theorem split_inv {pre post : List Block} {b : Block} {bytes : U32}
    (hi : HeapInv L s (pre ++ b :: post)) (hf : bytes ≤ b.size) (hl : headLen + 8 ≤ b.size - bytes) :
    HeapInv L (kmallocReuse L bytes b.addr s)
        (b.rest bytes :: (pre ++ { b with size := bytes } :: post)) ∧
      WritesOnly (SplitByte L (pre ++ b :: post) b bytes) s.mem (kmallocReuse L bytes b.addr s).mem := by
  have hbh := hi.headers b (by simp)
  have hb := hi.bounds (b := b) (by simp)
  rw [kmallocReuse_split hbh hl]
  obtain ⟨hra, hrs, hr8⟩ := rest_extent (b := b) (by omega) hf hl
  obtain ⟨hwhole, hrest, hw₃⟩ := split_heads hbh (by omega) hf hl rfl
  generalize ((writeHead (b.rest bytes).addr (b.rest bytes).size s.mem).store8
    ((b.rest bytes).addr + 16) 0).store32 (b.addr + 12) bytes = m₃ at *
  obtain ⟨hr₃, hh₃⟩ := inner_frame hi (hw₃.mono (fun x hx => by
    simp only [DataByte] at hx
    simp only [InnerByte, Block.hi]
    omega))
  have hcov : Covers Block.lo Block.hi (b.rest bytes :: (pre ++ { b with size := bytes } :: post))
      L.kernelEnd.toNat s.brk.toNat := by
    refine hi.cover.split rfl ?_ ?_ ?_ ?_ <;> simp only [Block.lo, Block.hi] <;> omega
  have hmap : (pre ++ { b with size := bytes } :: post).map Block.addr =
      (pre ++ b :: post).map Block.addr := by simp
  -- the heads are written before the link, so the chain is still the old one here
  obtain ⟨hr₄, hh₄, hw₄⟩ := link_block (x := b.rest bytes) (hmap ▸ hr₃)
    (fun c hc => (List.mem_cons.mp hc).elim (fun e => e ▸ hrest) (forall_middle hwhole hh₃ c)) hcov
    (by omega)
  refine ⟨⟨hr₄, hh₄, hi.base_eq.symm ▸ hcov, hi.base_eq, hi.brk_lt⟩, ?_⟩
  refine (hw₃.mono (fun x hx => ?_)).trans (hw₄.mono (fun x hx => Or.inr (Or.inr ?_)))
  · rcases hx with hx | hx
    · exact Or.inl hx
    · exact Or.inr (Or.inl hx)
  · rwa [List.map_cons, hmap] at hx

end
end LineOS
