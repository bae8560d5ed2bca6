import LineOS.KmallocRace

/- The calls of the heap, a statement at a time, while the processes write to their
   payloads whenever they like. `KmallocAt` and `KfreeAt` say what holds at each
   statement, with the blocks of the chain as a list. A new block's header is
   written where nobody looks (`Grown`, `Splitting`); in the middle of `list_add` the
   chain is not a ring, and `Linking` is what holds between its stores. But a walk
   along `next` is whole at every statement (`Walkable`): the last store of
   `list_add` is the one that leads to the new block, and nothing ever leaves the
   chain. `kmallocStmt_kept` and `kfreeStmt_kept` are the step lemmas. -/
namespace LineOS
open ByteMemory ByteMemory.Mem LinkedRing Tiling Interleave

/-! The code. -/

inductive KfreePc where
  | start (p : U32)
  | magic (ptr : U32)
  | state (ptr : U32)
  | count
  | done
  deriving DecidableEq

/-- One statement of `kfree`. -/
def kfreeStmt : Heap × KfreePc → Heap × KfreePc
  | (s, .start p) => (s, if p = 0 then .done else .magic (p - headLen))
  | (s, .magic ptr) =>
    (if headMagic s.mem ptr != 0xBEEF then s.panic "Attempt to free corrupt/non existent block!" else s, .state ptr)
  | (s, .state ptr) => ({ s with mem := s.mem.store8 (ptr + 16) (headState s.mem ptr &&& 0) }, .count)
  | (s, .count) => ({ s with usedBlocks := s.usedBlocks - 1 }, .done)
  | (s, .done) => (s, .done)

/-- A call left alone is `kfree`. -/
theorem kfree_alone (p : U32) (s : Heap) : kfreeStmt^[4] (s, .start p) = (kfree p s, .done) := by
  by_cases hp : p = 0
  · simp [kfreeStmt, kfree, hp]
  · simp only [Function.iterate_succ, Function.iterate_zero, Function.comp_apply, id_eq, kfreeStmt, kfree, if_neg hp]

/-! A walk of the chain. -/

/-- `next` leads from the head through `as` and back, and each has its magic. -/
structure Walkable (L : HeapLayout) (m : Mem) (as : List U32) : Prop where
  links : (L.chain :: (as ++ [L.chain])).IsChain (fun x y => listNext m x = y)
  magic : ∀ a ∈ as, headMagic m a = 0xBEEF
  notMem : L.chain ∉ as
  short : as.length < 2 ^ 32

section
variable {L : HeapLayout} {m m' : Mem} {s : Heap} {bs : List Block} {as pre post : List U32} {a x : U32}
  {live : List (U32 × U32)} {bytes : U32}

theorem walk_first {c : U32} : (a :: (as ++ [c])).IsChain (fun x y => listNext m x = y) → listNext m a = first c as := by
  cases as with
  | nil => exact fun h => (List.isChain_cons_cons.mp h).1
  | cons b bs => exact fun h => (List.isChain_cons_cons.mp h).1

theorem Walkable.first (h : Walkable L m as) : listNext m L.chain = first L.chain as := walk_first h.links

theorem Walkable.next (h : Walkable L m (pre ++ a :: post)) : listNext m a = LinkedRing.first L.chain post := by
  have hl := h.links
  rw [List.append_assoc, List.cons_append, ← List.cons_append] at hl
  exact walk_first (List.isChain_append.mp hl).2.1

theorem nodes_walk {c : U32} : ∀ (as : List U32) (fuel : Nat), c ∉ as → as.length < fuel →
    (as ++ [c]).IsChain (fun x y => listNext m x = y) → nodes (listNext m) c fuel (LinkedRing.first c as) = some as
  | [], fuel + 1, _, _, _ => by simp [nodes, LinkedRing.first]
  | a :: as, fuel + 1, hc, hf, h => by
    have ha : a ≠ c := fun e => hc (by simp [e])
    have ih := nodes_walk as fuel (fun h => hc (List.mem_cons_of_mem _ h)) (by simpa using hf) h.tail
    show nodes (listNext m) c (fuel + 1) a = _
    rw [nodes, if_neg ha, walk_first h, ih, Option.map_some]

/-- Whoever has come to some place of the chain has the rest of it before him. -/
theorem Walkable.nodes (h : Walkable L m (pre ++ post)) :
    LinkedRing.nodes (listNext m) L.chain (2 ^ 32) (LinkedRing.first L.chain post) = some post := by
  have hl := h.links
  rw [List.append_assoc, ← List.cons_append] at hl
  have hshort := h.short
  rw [List.length_append] at hshort
  exact nodes_walk post _ (fun hm => h.notMem (List.mem_append_right _ hm)) (by omega) (List.isChain_append.mp hl).2.1

theorem Walkable.chain (h : Walkable L m as) : chainBlocks L m = some as := by
  rw [chainBlocks, h.first]
  exact @Walkable.nodes L m [] as h

/-! What holds while a call is on. -/

/-- Between the calls, and while nothing of the heap has been touched yet. -/
structure AtRest (L : HeapLayout) (live : List (U32 × U32)) (bs : List Block) (s : Heap) : Prop where
  heap : HeapInv L s bs
  liveIn : LiveIn bs live

def Unowned (live : List (U32 × U32)) (b : Block) : Prop := ∀ l ∈ live, l.1 ≠ b.payload

def Room (bytes p : U32) : Prop := p.toNat + 20 + bytes.toNat < brkMax.toNat

/-- One of the blocks will do, or the heap can grow. -/
def Serves (bytes : U32) (bs : List Block) (s : Heap) : Prop :=
  (∃ b ∈ bs, bytes ≤ b.size ∧ b.used = false) ∨ Room bytes s.brk

/-- The first `k` fields of a header at `p`: size, magic, state. -/
def HeaderPart (k : Nat) (b : Block) (m : Mem) : Prop :=
  (1 ≤ k → headSize m b.addr = b.size) ∧ (2 ≤ k → headMagic m b.addr = 0xBEEF) ∧ (3 ≤ k → headState m b.addr = b.state)

/-- The break is moved, and the header of the new block at `p` half written. -/
structure Grown (L : HeapLayout) (bytes : U32) (live : List (U32 × U32)) (bs : List Block) (s : Heap) (p : U32) (k : Nat) :
    Prop where
  steady : AtRest L live bs { s with brk := p }
  brk : s.brk = p + (headLen + bytes)
  room : Room bytes p
  head : HeaderPart k ⟨p, bytes, 0⟩ s.mem

/-- The free block `b` is large enough. -/
def FoundAt (bytes : U32) (bs : List Block) (ptr : U32) (b : Block) : Prop :=
  (∃ pre post, bs = pre ++ b :: post) ∧ ptr = b.addr ∧ bytes ≤ b.size ∧ b.used = false

/-- The free block `b` is to be split, and the header of the rest half written. -/
structure Splitting (L : HeapLayout) (bytes : U32) (live : List (U32 × U32)) (bs : List Block) (s : Heap) (ptr : U32)
    (b : Block) (k : Nat) : Prop where
  steady : AtRest L live bs s
  found : FoundAt bytes bs ptr b
  large : headLen + 8 ≤ b.size - bytes
  head : HeaderPart k (b.rest bytes) s.mem

/-- `x` is a block of the heap but not of the chain, and `k` stores of `list_add` are done. -/
structure Linking (L : HeapLayout) (live : List (U32 × U32)) (bs : List Block) (s : Heap) (x : Block) (k : Nat) : Prop where
  headers : ∀ b ∈ x :: bs, HeaderAt s.mem b
  covers : Covers Block.lo Block.hi (x :: bs) s.base.toNat s.brk.toNat
  base_eq : s.base = L.kernelEnd
  brk_lt : s.brk.toNat < brkMax.toNat
  liveIn : LiveIn bs live
  spare : Unowned live x
  old : ∃ prev, Ring (listNext s.mem) prev L.chain (bs.map Block.addr) ∧ ∀ z ∈ L.chain :: bs.map Block.addr,
    (1 ≤ k → z ≠ first L.chain (bs.map Block.addr)) → listPrev s.mem z = prev z
  back : 1 ≤ k → listPrev s.mem (first L.chain (bs.map Block.addr)) = x.addr
  next : 2 ≤ k → listNext s.mem x.addr = first L.chain (bs.map Block.addr)
  prev : 3 ≤ k → listPrev s.mem x.addr = L.chain

/-- The block at `ptr`, to be returned, is large enough and nobody's. -/
def ReadyAt (bytes : U32) (live : List (U32 × U32)) (bs : List Block) (ptr : U32) : Prop :=
  ∃ pre b post, bs = pre ++ b :: post ∧ ptr = b.addr ∧ bytes ≤ b.size ∧ Unowned live b

def GivenAt (bytes : U32) (live : List (U32 × U32)) (bs : List Block) (p : U32) : Prop :=
  ∃ b ∈ bs, b.used = true ∧ p = b.payload ∧ bytes ≤ b.size ∧ Unowned live b

/-- What holds at each statement of `kmalloc`, with the blocks `bs` in the chain. -/
def KmallocAt (L : HeapLayout) (bytes : U32) (live : List (U32 × U32)) (bs : List Block) (s : Heap) : KmallocPc → Prop
  | .start => AtRest L live bs s ∧ (bytes ≠ 0 → Serves bytes bs s)
  | .first => AtRest L live bs s ∧ Serves bytes bs s
  | .test this => AtRest L live bs s ∧
      ∃ pre post, bs = pre ++ post ∧ this = first L.chain (post.map Block.addr) ∧ Serves bytes post s
  | .next this => AtRest L live bs s ∧ ∃ pre b post, bs = pre ++ b :: post ∧ this = b.addr ∧ Serves bytes post s
  | .magic ptr | .curbrk (some ptr) | .leftover ptr => AtRest L live bs s ∧ ∃ b, FoundAt bytes bs ptr b
  | .curbrk none | .sbrk => AtRest L live bs s ∧ Room bytes s.brk
  | .kbrk e | .setBrk e => AtRest L live bs s ∧ Room bytes s.brk ∧ e = s.brk + (headLen + bytes)
  | .refused => False
  | .got => ∃ p, Grown L bytes live bs s p 0
  | .size p => Grown L bytes live bs s p 0
  | .setMagic p => Grown L bytes live bs s p 1
  | .nullState p => Grown L bytes live bs s p 2
  | .restSize ptr leftover => ∃ b, Splitting L bytes live bs s ptr b 0 ∧ leftover = b.size - bytes
  | .restMagic ptr => ∃ b, Splitting L bytes live bs s ptr b 1
  | .restState ptr => ∃ b, Splitting L bytes live bs s ptr b 2
  | .cut ptr => ∃ b, Splitting L bytes live bs s ptr b 3
  | .link new ptr => ∃ x, Linking L live bs s x 0 ∧ new = x.addr ∧ ReadyAt bytes live (x :: bs) ptr
  | .linkPrev new ptr next => ∃ x, Linking L live bs s x 0 ∧ new = x.addr ∧ ReadyAt bytes live (x :: bs) ptr ∧
      next = first L.chain (bs.map Block.addr)
  | .linkNewNext new ptr next => ∃ x, Linking L live bs s x 1 ∧ new = x.addr ∧ ReadyAt bytes live (x :: bs) ptr ∧
      next = first L.chain (bs.map Block.addr)
  | .linkNewPrev new ptr => ∃ x, Linking L live bs s x 2 ∧ new = x.addr ∧ ReadyAt bytes live (x :: bs) ptr
  | .linkNext new ptr => ∃ x, Linking L live bs s x 3 ∧ new = x.addr ∧ ReadyAt bytes live (x :: bs) ptr
  | .total ptr | .mark ptr => AtRest L live bs s ∧ ReadyAt bytes live bs ptr
  | .count ptr => AtRest L live bs s ∧ GivenAt bytes live bs (ptr + headLen)
  | .done p => AtRest L live bs s ∧ (bytes ≠ 0 → GivenAt bytes live bs p)

/-- The block of a payload that is being freed. -/
def OwnedAt (live : List (U32 × U32)) (bs : List Block) (p : U32) : Prop :=
  ∃ pre b post, bs = pre ++ b :: post ∧ p = b.payload ∧ Unowned live b

/-- The same for `kfree`. -/
def KfreeAt (L : HeapLayout) (live : List (U32 × U32)) (bs : List Block) (s : Heap) : KfreePc → Prop
  | .start p => AtRest L live bs s ∧ OwnedAt live bs p
  | .magic ptr | .state ptr => AtRest L live bs s ∧ OwnedAt live bs (ptr + headLen)
  | .count | .done => AtRest L live bs s

/-! Stores of the processes. -/

/-- Where the processes' stores do not go: the chain's head, headers, and blocks that are nobody's. -/
theorem client_off (hc : Covers Block.lo Block.hi bs s.base.toNat s.brk.toNat) (hb : s.base = L.kernelEnd)
    (hl : LiveIn bs live) (hx : ClientByte L s live x) : ¬ InSpan L.chain 16 x ∧
      ∀ b ∈ bs, ¬ InSpan b.addr 20 x ∧ (Unowned live b → ¬ InSpan b.addr (20 + b.size.toNat) x) := by
  have hch := chain_bounds L
  rw [hb] at hc
  have hbounds := hc.bounds
  simp only [Block.lo, Block.hi] at hbounds
  rcases hx with ⟨l, hlm, hspan⟩ | ⟨hnc, hout⟩
  · obtain ⟨c, hcm, -, hcp, hcs⟩ := hl.owner l hlm
    have hcb := hbounds c hcm
    have hcs' : l.2.toNat ≤ c.size.toNat := hcs
    have hpay : l.1.toNat = c.addr.toNat + 20 := by
      rw [hcp]
      unfold Block.payload headLen
      bv_omega
    unfold InSpan at hspan ⊢
    refine ⟨by omega, fun b hbm => ?_⟩
    by_cases hbc : b = c
    · subst hbc
      exact ⟨by omega, fun hs => absurd hcp (hs l hlm)⟩
    · have hap := hc.apart b hbm c hcm hbc
      simp only [Apart, Block.lo, Block.hi] at hap
      exact ⟨by omega, fun _ => by omega⟩
  · rw [hb] at hout
    refine ⟨hnc, fun b hbm => ?_⟩
    have hbb := hbounds b hbm
    unfold InSpan
    exact ⟨by omega, fun _ => by omega⟩

theorem HeaderPart.frame {k : Nat} {b : Block} {P : U32 → Prop} (h : HeaderPart k b m) (hw : WritesOnly P m m')
    (hb : b.addr.toNat + 20 ≤ 2 ^ 32) (hP : ∀ y, InSpan b.addr 20 y → ¬ P y) : HeaderPart k b m' := by
  have e8 : (b.addr + 8).toNat = b.addr.toNat + 8 := by bv_omega
  have e12 : (b.addr + 12).toNat = b.addr.toNat + 12 := by bv_omega
  have e16 : (b.addr + 16).toNat = b.addr.toNat + 16 := by bv_omega
  have hmagic : headMagic m' b.addr = headMagic m b.addr :=
    hw.load32_eq (by omega) fun y hy => hP y (by unfold InSpan at hy ⊢; omega)
  have hsize : headSize m' b.addr = headSize m b.addr :=
    hw.load32_eq (by omega) fun y hy => hP y (by unfold InSpan at hy ⊢; omega)
  have hstate : headState m' b.addr = headState m b.addr := hw.2 _ (hP _ (by unfold InSpan; omega))
  unfold HeaderPart
  rw [hmagic, hsize, hstate]
  exact h

section
variable {p ptr : U32} {k : Nat} {b x : Block} (y : U32) (v : U8)

theorem AtRest.client (h : AtRest L live bs s) (hy : ClientByte L s live y) :
    AtRest L live bs { s with mem := s.mem.store8 y v } :=
  ⟨client_inv h.heap h.liveIn v hy, h.liveIn⟩

theorem Grown.covers (h : Grown L bytes live bs s p k) :
    Covers Block.lo Block.hi (⟨p, bytes, 0⟩ :: bs) s.base.toNat s.brk.toNat ∧ s.brk.toNat = p.toNat + 20 + bytes.toNat ∧
      s.brk.toNat < brkMax.toNat := by
  have hr := h.room
  have hbrk := h.brk
  unfold Room at hr
  rw [brkMax_toNat] at hr ⊢
  have e : s.brk.toNat = p.toNat + 20 + bytes.toNat := by
    rw [hbrk]
    unfold headLen
    bv_omega
  refine ⟨?_, e, by omega⟩
  rw [e]
  exact h.steady.heap.covers.grow rfl (by simp only [Block.lo, Block.hi]; omega)

theorem Grown.client (h : Grown L bytes live bs s p k) (hy : ClientByte L s live y) :
    Grown L bytes live bs { s with mem := s.mem.store8 y v } p k := by
  obtain ⟨hc, hbrk, hlt⟩ := h.covers
  have hl : LiveIn (⟨p, bytes, 0⟩ :: bs) live :=
    h.steady.liveIn.mono fun c hc _ => List.mem_cons_of_mem _ hc
  rw [brkMax_toNat] at hlt
  obtain ⟨-, hoff⟩ := client_off hc h.steady.heap.base_eq hl hy
  have hp := (hoff _ List.mem_cons_self).1
  refine ⟨h.steady.client y v ?_, h.brk, h.room, ?_⟩
  · rcases hy with hy | ⟨hnc, hout⟩
    · exact Or.inl hy
    · refine Or.inr ⟨hnc, hout.imp_right fun hb => ?_⟩
      show p.toNat ≤ y.toNat
      omega
  · exact h.head.frame (WritesOnly.store8 (P := (· = y)) s.mem v rfl) (by show p.toNat + 20 ≤ _; omega)
      fun z hz e => hp (e ▸ hz)

theorem AtRest.spare (h : AtRest L live bs s) (hb : b ∈ bs) (hu : b.used = false) : Unowned live b := by
  intro l hl e
  obtain ⟨c, hc, hcu, hcp, -⟩ := h.liveIn.owner l hl
  have haddr : c.addr = b.addr := payload_inj (hcp.symm.trans e)
  have hsame : c = b := by
    by_contra hne
    have hap := h.heap.covers.apart c hc b hb hne
    simp only [Apart, Block.lo, Block.hi, haddr] at hap
    omega
  rw [hsame, hu] at hcu
  cases hcu

theorem FoundAt.mem (h : FoundAt bytes bs ptr b) : b ∈ bs := by
  obtain ⟨⟨pre, post, rfl⟩, -⟩ := h
  simp

theorem Splitting.rest (h : Splitting L bytes live bs s ptr b k) :
    (b.rest bytes).addr.toNat = b.addr.toNat + 20 + bytes.toNat ∧
      (b.rest bytes).addr.toNat + 20 + (b.rest bytes).size.toNat = b.addr.toNat + 20 + b.size.toNat ∧
      b.addr.toNat + 20 + b.size.toNat < 2 ^ 32 := by
  have hb := h.steady.heap.bounds h.found.mem
  obtain ⟨h₁, h₂, -⟩ := rest_extent (b := b) (by omega) h.found.2.2.1 h.large
  exact ⟨h₁, h₂, by omega⟩

theorem Splitting.client (h : Splitting L bytes live bs s ptr b k) (hy : ClientByte L s live y) :
    Splitting L bytes live bs { s with mem := s.mem.store8 y v } ptr b k := by
  obtain ⟨hr₁, hr₂, hr₃⟩ := h.rest
  have hspare := h.steady.spare h.found.mem h.found.2.2.2
  obtain ⟨-, hoff⟩ := client_off h.steady.heap.covers h.steady.heap.base_eq h.steady.liveIn hy
  have hb := (hoff b h.found.mem).2 hspare
  refine ⟨h.steady.client y v hy, h.found, h.large, ?_⟩
  refine h.head.frame (WritesOnly.store8 (P := (· = y)) s.mem v rfl) (by omega) fun z hz e => hb ?_
  subst e
  unfold InSpan at hz ⊢
  omega

theorem Linking.bounds (h : Linking L live bs s x k) : ∀ b ∈ x :: bs, L.kernelEnd.toNat ≤ b.addr.toNat ∧
    b.addr.toNat + 20 + b.size.toNat ≤ s.brk.toNat ∧ s.brk.toNat < 4290756608 := by
  have hlt := h.brk_lt
  rw [brkMax_toNat] at hlt
  intro b hb
  obtain ⟨h₁, h₂⟩ := cover_bounds (h.base_eq ▸ h.covers) b hb
  exact ⟨h₁, h₂, hlt⟩

/-- The chain's head, the nodes, and the new one are where the stores of `list_add` go. -/
theorem Linking.spread (h : Linking L live bs s x k) : Spread 8 (x.addr :: L.chain :: bs.map Block.addr) := by
  have hlt := h.brk_lt
  rw [brkMax_toNat] at hlt
  have hs := cover_spread (h.base_eq ▸ h.covers) (by omega)
  exact hs.perm (List.Perm.swap _ _ _)

theorem Linking.frame {P : U32 → Prop} (h : Linking L live bs s x k) (hw : WritesOnly P s.mem m')
    (hc : ∀ y, InSpan L.chain 8 y → ¬ P y) (hP : ∀ b ∈ x :: bs, ∀ y, InSpan b.addr 20 y → ¬ P y) :
    Linking L live bs { s with mem := m' } x k := by
  have hbounds := h.bounds
  have hch := chain_bounds L
  have hlinks : ∀ z ∈ x.addr :: L.chain :: bs.map Block.addr, listNext m' z = listNext s.mem z ∧
      listPrev m' z = listPrev s.mem z := by
    intro z hz
    have hoff : z.toNat + 8 ≤ 2 ^ 32 ∧ ∀ y, InSpan z 8 y → ¬ P y := by
      rcases List.mem_cons.mp hz with rfl | hz
      · have := hbounds x List.mem_cons_self
        exact ⟨by omega, fun y hy => hP x List.mem_cons_self y (by unfold InSpan at hy ⊢; omega)⟩
      · rcases List.mem_cons.mp hz with rfl | hz
        · exact ⟨by omega, hc⟩
        · obtain ⟨b, hb, rfl⟩ := List.mem_map.mp hz
          have := hbounds b (List.mem_cons_of_mem _ hb)
          exact ⟨by omega, fun y hy => hP b (List.mem_cons_of_mem _ hb) y (by unfold InSpan at hy ⊢; omega)⟩
    exact ⟨hw.load32_eq (by omega) fun y hy => hoff.2 y (inSpan_low hy),
      hw.load32_eq (by rw [toNat_add_four hoff.1]; omega) fun y hy => hoff.2 y (inSpan_high hoff.1 hy)⟩
  have hnode : ∀ z ∈ L.chain :: bs.map Block.addr, z ∈ x.addr :: L.chain :: bs.map Block.addr :=
    fun z hz => List.mem_cons_of_mem _ hz
  obtain ⟨prev, hring, hprev⟩ := h.old
  refine ⟨fun b hb => ?_, h.covers, h.base_eq, h.brk_lt, h.liveIn, h.spare, ⟨prev, ?_, ?_⟩, ?_, ?_, ?_⟩
  · have := hbounds b hb
    refine (h.headers b hb).frame hw (by omega) fun y hy => hP b hb y ?_
    unfold DataByte at hy
    unfold InSpan
    omega
  · exact hring.congr fun z hz => ⟨(hlinks z (hnode z hz)).1, rfl⟩
  · exact fun z hz hk => ((hlinks z (hnode z hz)).2).trans (hprev z hz hk)
  · exact fun hk => ((hlinks _ (hnode _ first_mem)).2).trans (h.back hk)
  · exact fun hk => ((hlinks _ List.mem_cons_self).1).trans (h.next hk)
  · exact fun hk => ((hlinks _ List.mem_cons_self).2).trans (h.prev hk)

theorem Linking.client (h : Linking L live bs s x k) (hy : ClientByte L s live y) :
    Linking L live bs { s with mem := s.mem.store8 y v } x k := by
  have hl : LiveIn (x :: bs) live := h.liveIn.mono fun c hc _ => List.mem_cons_of_mem _ hc
  obtain ⟨hc, hoff⟩ := client_off h.covers h.base_eq hl hy
  refine h.frame (WritesOnly.store8 (P := (· = y)) s.mem v rfl) ?_ fun b hb z hz e => (hoff b hb).1 (e ▸ hz)
  rintro z hz rfl
  refine hc ?_
  unfold InSpan at hz ⊢
  omega

/-- **Stores of the processes** disturb no call. -/
theorem KmallocAt.client {l : KmallocPc} (h : KmallocAt L bytes live bs s l) (hy : ClientByte L s live y) :
    KmallocAt L bytes live bs { s with mem := s.mem.store8 y v } l := by
  cases l with
  | start | first | test _ | next _ | magic _ | leftover _ | sbrk | kbrk _ | setBrk _ | total _ | mark _ | count _ | done _ =>
    exact ⟨h.1.client y v hy, h.2⟩
  | curbrk ptr => cases ptr <;> exact ⟨h.1.client y v hy, h.2⟩
  | refused => exact h
  | got =>
    obtain ⟨p, h⟩ := h
    exact ⟨p, h.client y v hy⟩
  | size _ | setMagic _ | nullState _ => exact Grown.client y v h hy
  | restSize _ _ =>
    obtain ⟨b, h, e⟩ := h
    exact ⟨b, h.client y v hy, e⟩
  | restMagic _ | restState _ | cut _ =>
    obtain ⟨b, h⟩ := h
    exact ⟨b, h.client y v hy⟩
  | link _ _ | linkPrev _ _ _ | linkNewNext _ _ _ | linkNewPrev _ _ | linkNext _ _ =>
    obtain ⟨x, h, hrest⟩ := h
    exact ⟨x, h.client y v hy, hrest⟩

theorem KfreeAt.client {l : KfreePc} (h : KfreeAt L live bs s l) (hy : ClientByte L s live y) :
    KfreeAt L live bs { s with mem := s.mem.store8 y v } l := by
  cases l with
  | start _ | magic _ | state _ => exact ⟨h.1.client y v hy, h.2⟩
  | count | done => exact AtRest.client y v h hy

end

/-! What is in order at each statement. -/

/-- The chain can be walked, and the live payloads are disjoint and inside the heap. -/
structure InOrder (L : HeapLayout) (live : List (U32 × U32)) (bs : List Block) (s : Heap) : Prop where
  walk : Walkable L s.mem (bs.map Block.addr)
  inside : ∀ l ∈ live, s.base.toNat ≤ l.1.toNat ∧ l.1.toNat + l.2.toNat ≤ s.brk.toNat
  apart : live.Pairwise (fun x y => x.1.toNat + x.2.toNat ≤ y.1.toNat ∨ y.1.toNat + y.2.toNat ≤ x.1.toNat)

theorem ring_walkable {prev : U32 → U32} (h : Ring (listNext m) prev L.chain (bs.map Block.addr))
    (hh : ∀ b ∈ bs, HeaderAt m b) (hc : L.chain ∉ bs.map Block.addr) (hn : bs.length < 2 ^ 32) :
    Walkable L m (bs.map Block.addr) := by
  refine ⟨h.imp fun _ _ hab => hab.1, ?_, hc, by rwa [List.length_map]⟩
  intro a ha
  obtain ⟨b, hb, rfl⟩ := List.mem_map.mp ha
  exact (hh b hb).magic

theorem cover_live {lo hi : Nat} (hc : Covers Block.lo Block.hi bs lo hi) (hhi : hi < 2 ^ 32) (hl : LiveIn bs live) :
    (∀ l ∈ live, lo ≤ l.1.toNat ∧ l.1.toNat + l.2.toNat ≤ hi) ∧
      live.Pairwise (fun x y => x.1.toNat + x.2.toNat ≤ y.1.toNat ∨ y.1.toNat + y.2.toNat ≤ x.1.toNat) := by
  have hown : ∀ l ∈ live, ∃ b ∈ bs, l.1 = b.payload ∧ l.1.toNat = b.lo + 20 ∧ l.1.toNat + l.2.toNat ≤ b.hi := by
    intro l hlm
    obtain ⟨b, hb, -, hbp, hbs⟩ := hl.owner l hlm
    have hbb := hc.bounds b hb
    simp only [Block.lo, Block.hi] at hbb ⊢
    have hp : l.1.toNat = b.addr.toNat + 20 := by
      rw [hbp]
      unfold Block.payload headLen
      bv_omega
    have hs : l.2.toNat ≤ b.size.toNat := hbs
    exact ⟨b, hb, hbp, hp, by omega⟩
  refine ⟨fun l hlm => ?_, hl.distinct.imp_of_mem fun {x y} hx hy hne => ?_⟩
  · obtain ⟨b, hb, -, hp, hs⟩ := hown l hlm
    have hbb := hc.bounds b hb
    omega
  · obtain ⟨b, hb, hbp, hp, hs⟩ := hown x hx
    obtain ⟨c, hcm, hcp, hp', hs'⟩ := hown y hy
    have hbc : b ≠ c := fun e => hne (by rw [hbp, hcp, e])
    have hap := hc.apart b hb c hcm hbc
    unfold Apart at hap
    omega

theorem AtRest.walk (h : AtRest L live bs s) : Walkable L s.mem (bs.map Block.addr) :=
  ring_walkable h.heap.ring h.heap.headers (chain_notMem h.heap) (by simpa using chain_length h.heap)

theorem AtRest.inOrder (h : AtRest L live bs s) : InOrder L live bs s := by
  have hlt := h.heap.brk_lt
  rw [brkMax_toNat] at hlt
  obtain ⟨hin, hap⟩ := cover_live h.heap.covers (by omega) h.liveIn
  exact ⟨h.walk, hin, hap⟩

theorem Grown.inOrder {p : U32} {k : Nat} (h : Grown L bytes live bs s p k) : InOrder L live bs s := by
  obtain ⟨-, hbrk, -⟩ := h.covers
  obtain ⟨hw, hin, hap⟩ := h.steady.inOrder
  refine ⟨hw, fun l hl => ?_, hap⟩
  have hle : l.1.toNat + l.2.toNat ≤ p.toNat := (hin l hl).2
  exact ⟨(hin l hl).1, by omega⟩

theorem Linking.walk {x : Block} {k : Nat} (h : Linking L live bs s x k) : Walkable L s.mem (bs.map Block.addr) := by
  have hlt := h.brk_lt
  rw [brkMax_toNat] at hlt
  have hlen := h.covers.length_le (k := 20) fun b _ => by simp only [Block.lo, Block.hi]; omega
  rw [List.length_cons] at hlen
  have hnd := (List.nodup_cons.mp h.spread.nodup).2
  obtain ⟨prev, hring, -⟩ := h.old
  exact ring_walkable hring (fun b hb => h.headers b (List.mem_cons_of_mem _ hb)) (List.nodup_cons.mp hnd).1 (by omega)

theorem Linking.inOrder {x : Block} {k : Nat} (h : Linking L live bs s x k) : InOrder L live bs s := by
  have hlt := h.brk_lt
  rw [brkMax_toNat] at hlt
  have hl : LiveIn (x :: bs) live := h.liveIn.mono fun c hc _ => List.mem_cons_of_mem _ hc
  obtain ⟨hin, hap⟩ := cover_live h.covers (by omega) hl
  exact ⟨h.walk, hin, hap⟩

theorem KmallocAt.inOrder {l : KmallocPc} (h : KmallocAt L bytes live bs s l) : InOrder L live bs s := by
  cases l with
  | start | first | test _ | next _ | magic _ | leftover _ | sbrk | kbrk _ | setBrk _ | total _ | mark _ | count _ | done _ =>
    exact h.1.inOrder
  | curbrk ptr => cases ptr <;> exact h.1.inOrder
  | refused => exact h.elim
  | got =>
    obtain ⟨p, h⟩ := h
    exact h.inOrder
  | size _ | setMagic _ | nullState _ => exact Grown.inOrder h
  | restSize _ _ =>
    obtain ⟨b, h, -⟩ := h
    exact h.steady.inOrder
  | restMagic _ | restState _ | cut _ =>
    obtain ⟨b, h⟩ := h
    exact h.steady.inOrder
  | link _ _ | linkPrev _ _ _ | linkNewNext _ _ _ | linkNewPrev _ _ | linkNext _ _ =>
    obtain ⟨x, h, -⟩ := h
    exact h.inOrder

theorem KfreeAt.inOrder {l : KfreePc} (h : KfreeAt L live bs s l) : InOrder L live bs s := by
  cases l with
  | start _ | magic _ | state _ => exact h.1.inOrder
  | count | done => exact AtRest.inOrder h

/-! The statements of `kmalloc`. -/

/-- What a statement leads to: it keeps what holds, the chain has at most grown at its
front, and nobody has panicked. -/
structure Kept (L : HeapLayout) (bytes : U32) (live : List (U32 × U32)) (bs : List Block) (s : Heap) (x : Heap × KmallocPc) :
    Prop where
  call : ∃ bs', bs.map Block.addr <:+ bs'.map Block.addr ∧ KmallocAt L bytes live bs' x.1 x.2
  panics : x.1.panics = s.panics

theorem Kept.same {x : Heap × KmallocPc} (h : KmallocAt L bytes live bs x.1 x.2) (hp : x.1.panics = s.panics) :
    Kept L bytes live bs s x :=
  ⟨⟨bs, List.suffix_rfl, h⟩, hp⟩

theorem AtRest.notChain (h : AtRest L live bs s) {b : Block} (hb : b ∈ bs) : b.addr ≠ L.chain :=
  fun e => chain_notMem h.heap (List.mem_map.mpr ⟨b, hb, e⟩)

theorem test_kept {this : U32} (h : KmallocAt L bytes live bs s (.test this)) :
    Kept L bytes live bs s (kmallocStmt L bytes (s, .test this)) := by
  obtain ⟨hst, pre, post, rfl, hthis, hserves⟩ := h
  refine Kept.same ?_ rfl
  unfold kmallocStmt
  dsimp only
  cases post with
  | nil =>
    -- back at the head
    have hthis : this = L.chain := hthis
    rw [if_pos hthis]
    rcases hserves with ⟨b, hb, -⟩ | hroom
    · cases hb
    · exact ⟨hst, hroom⟩
  | cons b post =>
    have hthis : this = b.addr := hthis
    have hb : b ∈ pre ++ b :: post := by simp
    have hfits := fits_eq hst.heap bytes hb
    rw [if_neg (hthis ▸ hst.notChain hb), hthis, hfits]
    by_cases hf : (decide (bytes ≤ b.size) && !b.used) = true
    · rw [if_pos hf]
      simp only [Bool.and_eq_true, decide_eq_true_eq, Bool.not_eq_true'] at hf
      exact ⟨hst, b, ⟨pre, post, rfl⟩, rfl, hf.1, hf.2⟩
    · rw [if_neg hf]
      refine ⟨hst, pre, b, post, rfl, rfl, ?_⟩
      rcases hserves with ⟨c, hc, hcs, hcu⟩ | hroom
      · rcases List.mem_cons.mp hc with rfl | hc
        · exact absurd (by simp [hcs, hcu]) hf
        · exact Or.inl ⟨c, hc, hcs, hcu⟩
      · exact Or.inr hroom

theorem next_kept {this : U32} (h : KmallocAt L bytes live bs s (.next this)) :
    Kept L bytes live bs s (kmallocStmt L bytes (s, .next this)) := by
  obtain ⟨hst, pre, b, post, rfl, rfl, hserves⟩ := h
  have hw := hst.walk
  rw [List.map_append, List.map_cons] at hw
  exact Kept.same ⟨hst, pre ++ [b], post, by simp, hw.next, hserves⟩ rfl

theorem search_kept {l : KmallocPc} (h : KmallocAt L bytes live bs s l)
    (hl : l = .start ∨ l = .first ∨ (∃ ptr, l = .magic ptr) ∨ ∃ r, l = .curbrk r) :
    Kept L bytes live bs s (kmallocStmt L bytes (s, l)) := by
  rcases hl with rfl | rfl | ⟨ptr, rfl⟩ | ⟨r, rfl⟩
  · refine Kept.same ?_ rfl
    unfold kmallocStmt
    dsimp only
    split
    · next hz => exact ⟨h.1, fun hne => absurd hz hne⟩
    · next hne => exact ⟨h.1, h.2 hne⟩
  · exact Kept.same ⟨h.1, [], bs, rfl, h.1.walk.first, h.2⟩ rfl
  · obtain ⟨hst, b, hf⟩ := h
    have hm : headMagic s.mem ptr = 0xBEEF := hf.2.1 ▸ (hst.heap.headers b hf.mem).magic
    have hno : ¬ (headMagic s.mem ptr != 0xBEEF) = true := by simp [hm]
    unfold kmallocStmt
    dsimp only
    rw [if_neg hno]
    exact Kept.same ⟨hst, b, hf⟩ rfl
  · cases r with
    | none => exact Kept.same h rfl
    | some ptr => exact Kept.same h rfl

/-! A new block at the break. -/

theorem ksbrk_kept {l : KmallocPc} (h : KmallocAt L bytes live bs s l) (hl : l = .sbrk ∨ (∃ e, l = .kbrk e) ∨
    (∃ e, l = .setBrk e) ∨ l = .got) : Kept L bytes live bs s (kmallocStmt L bytes (s, l)) := by
  rcases hl with rfl | ⟨e, rfl⟩ | ⟨e, rfl⟩ | rfl
  · obtain ⟨hst, hroom⟩ := h
    have hne : ¬ headLen + bytes = 0 := by
      unfold Room at hroom
      rw [brkMax_toNat] at hroom
      unfold headLen
      bv_omega
    unfold kmallocStmt
    dsimp only
    rw [if_neg hne]
    exact Kept.same ⟨hst, hroom, rfl⟩ rfl
  · obtain ⟨hst, hroom, he⟩ := h
    have hlt : ¬ brkMax ≤ e := by
      have hmax := brkMax_toNat
      unfold Room at hroom
      rw [he]
      unfold headLen
      bv_omega
    unfold kmallocStmt
    dsimp only
    rw [if_neg hlt]
    exact Kept.same ⟨hst, hroom, he⟩ rfl
  · obtain ⟨hst, hroom, he⟩ := h
    refine Kept.same ⟨s.brk, hst, he, hroom, ?_⟩ rfl
    exact ⟨fun hk => absurd hk (by decide), fun hk => absurd hk (by decide), fun hk => absurd hk (by decide)⟩
  · obtain ⟨p, h⟩ := h
    have hp : s.brk - (headLen + bytes) = p := by
      rw [h.brk]
      bv_omega
    refine Kept.same ?_ rfl
    unfold kmallocStmt
    dsimp only
    rw [hp]
    exact h

section
variable {p : U32} {k : Nat}

theorem Grown.store {k' : Nat} (h : Grown L bytes live bs s p k) (hw : WritesOnly (fun x => x = 16 ∨ DataByte p x) s.mem m')
    (hh : HeaderPart k' ⟨p, bytes, 0⟩ m') : Grown L bytes live bs { s with mem := m' } p k' :=
  ⟨⟨grow_frame h.steady.heap hw, h.steady.liveIn⟩, h.brk, h.room, hh⟩

theorem Grown.top (h : Grown L bytes live bs s p k) : 17 ≤ p.toNat ∧ p.toNat + 20 ≤ 2 ^ 32 := by
  obtain ⟨-, hbrk, hlt⟩ := h.covers
  have hch := chain_bounds L
  have hle : L.kernelEnd.toNat ≤ p.toNat := h.steady.heap.cover.le
  rw [brkMax_toNat] at hlt
  exact ⟨by omega, by omega⟩

/-! The fields of a header, as they are written. -/

theorem headerPart_size {b : Block} (hb : b.addr.toNat + 20 ≤ 2 ^ 32) :
    HeaderPart 1 b (m.store32 (b.addr + 12) b.size) ∧ WritesOnly (DataByte b.addr) m (m.store32 (b.addr + 12) b.size) := by
  have e12 : (b.addr + 12).toNat = b.addr.toNat + 12 := by bv_omega
  refine ⟨⟨fun _ => load32_store32_same _ _ _, fun hk => absurd hk (by decide), fun hk => absurd hk (by decide)⟩, ?_⟩
  apply WritesOnly.store32 _ _ (by omega)
  intro x hx
  unfold InSpan at hx
  unfold DataByte
  omega

theorem HeaderPart.magic {b : Block} (h : HeaderPart 1 b m) (hb : b.addr.toNat + 20 ≤ 2 ^ 32) :
    HeaderPart 2 b (m.store32 (b.addr + 8) 0xBEEF) ∧ WritesOnly (DataByte b.addr) m (m.store32 (b.addr + 8) 0xBEEF) := by
  have e8 : (b.addr + 8).toNat = b.addr.toNat + 8 := by bv_omega
  have e12 : (b.addr + 12).toNat = b.addr.toNat + 12 := by bv_omega
  refine ⟨⟨fun _ => ?_, fun _ => load32_store32_same _ _ _, fun hk => absurd hk (by decide)⟩, ?_⟩
  · calc (m.store32 (b.addr + 8) 0xBEEF).load32 (b.addr + 12)
        = m.load32 (b.addr + 12) := load32_store32_off _ _ (by omega) (by omega) (by omega)
      _ = b.size := h.1 (by decide)
  · apply WritesOnly.store32 _ _ (by omega)
    intro x hx
    unfold InSpan at hx
    unfold DataByte
    omega

theorem HeaderPart.state {b : Block} (h : HeaderPart 2 b m) (hb : b.addr.toNat + 20 ≤ 2 ^ 32) :
    HeaderPart 3 b (m.store8 (b.addr + 16) b.state) ∧ WritesOnly (DataByte b.addr) m (m.store8 (b.addr + 16) b.state) := by
  have e8 : (b.addr + 8).toNat = b.addr.toNat + 8 := by bv_omega
  have e12 : (b.addr + 12).toNat = b.addr.toNat + 12 := by bv_omega
  have e16 : (b.addr + 16).toNat = b.addr.toNat + 16 := by bv_omega
  refine ⟨⟨fun _ => ?_, fun _ => ?_, fun _ => byte_store8_same _ _ _⟩, ?_⟩
  · calc (m.store8 (b.addr + 16) b.state).load32 (b.addr + 12)
        = m.load32 (b.addr + 12) := load32_store8_off _ _ (by omega) (by unfold InSpan; omega)
      _ = b.size := h.1 (by decide)
  · calc (m.store8 (b.addr + 16) b.state).load32 (b.addr + 8)
        = m.load32 (b.addr + 8) := load32_store8_off _ _ (by omega) (by unfold InSpan; omega)
      _ = 0xBEEF := h.2.1 (by decide)
  · apply WritesOnly.store8
    unfold DataByte
    omega

theorem size_kept (h : Grown L bytes live bs s p 0) : Kept L bytes live bs s (kmallocStmt L bytes (s, .size p)) := by
  obtain ⟨hh, hw⟩ := @headerPart_size s.mem ⟨p, bytes, 0⟩ h.top.2
  exact Kept.same (h.store (hw.mono fun _ => Or.inr) hh) rfl

theorem magic_kept (h : Grown L bytes live bs s p 1) : Kept L bytes live bs s (kmallocStmt L bytes (s, .setMagic p)) := by
  obtain ⟨hh, hw⟩ := HeaderPart.magic h.head h.top.2
  exact Kept.same (h.store (hw.mono fun _ => Or.inr) hh) rfl

theorem nullState_kept (h : Grown L bytes live bs s p 2) :
    Kept L bytes live bs s (kmallocStmt L bytes (s, .nullState p)) := by
  obtain ⟨hlo, hhi⟩ := h.top
  have e8 : (p + 8).toNat = p.toNat + 8 := by bv_omega
  have e12 : (p + 12).toNat = p.toNat + 12 := by bv_omega
  have z16 : ((0 : U32) + 16).toNat = 16 := by decide
  have hw : WritesOnly (fun x => x = 16 ∨ DataByte p x) s.mem (s.mem.store8 (0 + 16) 0) :=
    WritesOnly.store8 _ _ (Or.inl (by decide))
  have hhead : HeaderPart 2 ⟨p, bytes, 0⟩ (s.mem.store8 (0 + 16) 0) := by
    refine ⟨fun _ => ?_, fun _ => ?_, fun hk => absurd hk (by decide)⟩
    · have hold : s.mem.load32 (p + 12) = bytes := h.head.1 (by decide)
      show (s.mem.store8 (0 + 16) 0).load32 (p + 12) = bytes
      rw [load32_store8_off _ _ (by omega) (by unfold InSpan; omega)]
      exact hold
    · have hold : s.mem.load32 (p + 8) = 0xBEEF := h.head.2.1 (by decide)
      show (s.mem.store8 (0 + 16) 0).load32 (p + 8) = 0xBEEF
      rw [load32_store8_off _ _ (by omega) (by unfold InSpan; omega)]
      exact hold
  have h' := h.store hw hhead
  obtain ⟨hc, hbrk, hlt⟩ := h'.covers
  have hspare : Unowned live ⟨p, bytes, headState (s.mem.store8 (0 + 16) 0) p⟩ := by
    intro l hl e
    obtain ⟨b, hb, -, hbp, -⟩ := h.steady.liveIn.owner l hl
    have haddr : b.addr = p := payload_inj (c := ⟨p, bytes, 0⟩) (hbp.symm.trans e)
    have hbb := h.steady.heap.bounds hb
    rw [haddr] at hbb
    have hle : p.toNat + 20 + b.size.toNat ≤ p.toNat := hbb.2.1
    omega
  refine Kept.same ⟨⟨p, bytes, headState (s.mem.store8 (0 + 16) 0) p⟩, ⟨?_, ?_, h'.steady.heap.base_eq, hlt,
    h'.steady.liveIn, hspare, ⟨_, h'.steady.heap.ring, fun _ _ _ => rfl⟩, ?_, ?_, ?_⟩, rfl, ?_⟩ rfl
  · exact List.forall_mem_cons.mpr ⟨⟨hhead.2.1 (by decide), hhead.1 (by decide), rfl⟩, h'.steady.heap.headers⟩
  · rw [← List.nil_append (_ :: bs)] at hc ⊢
    exact hc.replace rfl rfl
  · exact fun hk => absurd hk (by decide)
  · exact fun hk => absurd hk (by decide)
  · exact fun hk => absurd hk (by decide)
  · exact ⟨[], _, bs, rfl, rfl, BitVec.le_refl _, hspare⟩

/-! A block that is split. -/

theorem leftover_kept {ptr : U32} (h : KmallocAt L bytes live bs s (.leftover ptr)) :
    Kept L bytes live bs s (kmallocStmt L bytes (s, .leftover ptr)) := by
  obtain ⟨hst, b, hf⟩ := h
  have hsize : headSize s.mem ptr = b.size := hf.2.1 ▸ (hst.heap.headers b hf.mem).size
  refine Kept.same ?_ rfl
  unfold kmallocStmt
  dsimp only
  rw [hsize]
  split
  · next hl =>
    exact ⟨b, ⟨hst, hf, hl, fun hk => absurd hk (by decide), fun hk => absurd hk (by decide),
      fun hk => absurd hk (by decide)⟩, rfl⟩
  · obtain ⟨pre, post, rfl⟩ := hf.1
    exact ⟨hst, pre, b, post, rfl, hf.2.1, hf.2.2.1, hst.spare hf.mem hf.2.2.2⟩

theorem Splitting.store {ptr : U32} {b : Block} {k' : Nat} (h : Splitting L bytes live bs s ptr b k)
    (hh : HeaderPart k' (b.rest bytes) m' ∧ WritesOnly (DataByte (b.rest bytes).addr) s.mem m') :
    Splitting L bytes live bs { s with mem := m' } ptr b k' := by
  obtain ⟨hr₁, hr₂, hr₃⟩ := h.rest
  obtain ⟨hh, hw⟩ := hh
  refine ⟨⟨h.steady.heap.frame hw ?_, h.steady.liveIn⟩, h.found, h.large, hh⟩
  rintro y hy hd
  have hout : ¬ InSpan L.chain 16 y ∧ ∀ c ∈ bs, ¬ InSpan c.addr 20 y := by
    have hb := h.steady.heap.bounds h.found.mem
    have hch := chain_bounds L
    unfold DataByte at hd
    refine ⟨by unfold InSpan; omega, fun c hc => ?_⟩
    by_cases hcb : c = b
    · rw [hcb]
      unfold InSpan
      omega
    · have hap := h.steady.heap.covers.apart c hc b h.found.mem hcb
      simp only [Apart, Block.lo, Block.hi] at hap
      unfold InSpan
      omega
  rcases hy with ⟨a, ha, hya⟩ | ⟨c, hc, hyc⟩
  · rcases List.mem_cons.mp ha with rfl | ha
    · exact hout.1 (by unfold InSpan at hya ⊢; omega)
    · obtain ⟨c, hc, rfl⟩ := List.mem_map.mp ha
      exact hout.2 c hc (by unfold InSpan at hya ⊢; omega)
  · exact hout.2 c hc (by unfold DataByte at hyc; unfold InSpan; omega)

theorem rest_kept {ptr : U32} {l : KmallocPc} (h : KmallocAt L bytes live bs s l)
    (hl : (∃ leftover, l = .restSize ptr leftover) ∨ l = .restMagic ptr ∨ l = .restState ptr) :
    Kept L bytes live bs s (kmallocStmt L bytes (s, l)) := by
  rcases hl with ⟨leftover, rfl⟩ | rfl | rfl
  · obtain ⟨b, h, rfl⟩ := h
    obtain ⟨hr₁, hr₂, hr₃⟩ := h.rest
    obtain rfl := h.found.2.1
    exact Kept.same ⟨b, h.store (headerPart_size (by omega))⟩ rfl
  · obtain ⟨b, h⟩ := h
    obtain ⟨hr₁, hr₂, hr₃⟩ := h.rest
    obtain rfl := h.found.2.1
    exact Kept.same ⟨b, h.store (HeaderPart.magic h.head (by omega))⟩ rfl
  · obtain ⟨b, h⟩ := h
    obtain ⟨hr₁, hr₂, hr₃⟩ := h.rest
    obtain rfl := h.found.2.1
    exact Kept.same ⟨b, h.store (HeaderPart.state h.head (by omega))⟩ rfl

theorem Splitting.spare {ptr : U32} {b : Block} (h : Splitting L bytes live bs s ptr b k) : Unowned live (b.rest bytes) := by
  intro l hl e
  obtain ⟨hr₁, hr₂, hr₃⟩ := h.rest
  obtain ⟨c, hc, hcu, hcp, -⟩ := h.steady.liveIn.owner l hl
  have haddr : c.addr = (b.rest bytes).addr := payload_inj (hcp.symm.trans e)
  have hcb : c ≠ b := by
    rintro rfl
    rw [h.found.2.2.2] at hcu
    cases hcu
  have hap := h.steady.heap.covers.apart c hc b h.found.mem hcb
  simp only [Apart, Block.lo, Block.hi, haddr] at hap
  omega

theorem cut_kept {ptr : U32} (h : KmallocAt L bytes live bs s (.cut ptr)) :
    Kept L bytes live bs s (kmallocStmt L bytes (s, .cut ptr)) := by
  obtain ⟨b, h⟩ := h
  obtain ⟨hr₁, hr₂, hr₃⟩ := h.rest
  have hrspare := h.spare
  have hbspare := h.steady.spare h.found.mem h.found.2.2.2
  obtain ⟨hst, ⟨⟨pre, post, rfl⟩, rfl, hle, hfree⟩, hlarge, hhead⟩ := h
  have e8 : (b.addr + 8).toNat = b.addr.toNat + 8 := by bv_omega
  have e12 : (b.addr + 12).toNat = b.addr.toNat + 12 := by bv_omega
  have e16 : (b.addr + 16).toNat = b.addr.toNat + 16 := by bv_omega
  have hw : WritesOnly (InSpan (b.addr + 12) 4) s.mem (s.mem.store32 (b.addr + 12) bytes) :=
    WritesOnly.store32 _ bytes (by omega) fun _ hx => hx
  obtain ⟨hring, hheads⟩ := inner_frame hst.heap (hw.mono fun x hx => by
    simp only [InSpan] at hx
    simp only [InnerByte, Block.hi]
    omega)
  have hbh := hst.heap.headers b (by simp)
  have hb' : HeaderAt (s.mem.store32 (b.addr + 12) bytes) { b with size := bytes } := by
    refine ⟨?_, load32_store32_same _ _ _, ?_⟩
    · calc (s.mem.store32 (b.addr + 12) bytes).load32 (b.addr + 8)
          = s.mem.load32 (b.addr + 8) := load32_store32_off _ _ (by omega) (by omega) (by omega)
        _ = 0xBEEF := hbh.magic
    · calc (s.mem.store32 (b.addr + 12) bytes).byte (b.addr + 16)
          = s.mem.byte (b.addr + 16) := byte_store32_off _ _ (by omega) (by unfold InSpan; omega)
        _ = b.state := hbh.state
  have hrest : HeaderAt (s.mem.store32 (b.addr + 12) bytes) (b.rest bytes) := by
    have hr : HeaderAt s.mem (b.rest bytes) := ⟨hhead.2.1 (by decide), hhead.1 (by decide), hhead.2.2 (by decide)⟩
    refine hr.frame hw (by omega) fun x hx hx' => ?_
    unfold DataByte at hx
    unfold InSpan at hx'
    omega
  have hmap : (pre ++ { b with size := bytes } :: post).map Block.addr = (pre ++ b :: post).map Block.addr := by simp
  refine ⟨⟨pre ++ { b with size := bytes } :: post, hmap ▸ List.suffix_rfl, b.rest bytes, ⟨?_, ?_, hst.heap.base_eq,
    hst.heap.brk_lt, ?_, hrspare, ⟨_, hmap ▸ hring, fun _ _ _ => rfl⟩, ?_, ?_, ?_⟩, rfl, ?_⟩, rfl⟩
  · exact List.forall_mem_cons.mpr ⟨hrest, forall_middle hb' hheads⟩
  · refine hst.heap.covers.split rfl ?_ ?_ ?_ ?_ <;> simp only [Block.lo, Block.hi] <;> omega
  · exact hst.liveIn.mono fun c hc hu => mem_middle (used_middle hfree hc hu)
  · exact fun hk => absurd hk (by decide)
  · exact fun hk => absurd hk (by decide)
  · exact fun hk => absurd hk (by decide)
  · exact ⟨b.rest bytes :: pre, { b with size := bytes }, post, rfl, rfl, BitVec.le_refl _, hbspare⟩

/-! `list_add`, store by store. -/

section
variable {x : Block} {new ptr next : U32}

theorem Linking.headers_link (h : Linking L live bs s x k) {z : U32} (hz : z ∈ x.addr :: L.chain :: bs.map Block.addr)
    (hw : WritesOnly (InSpan z 8) s.mem m') : ∀ b ∈ x :: bs, HeaderAt m' b := by
  intro b hb
  have hbb := h.bounds b hb
  have hch := chain_bounds L
  refine (h.headers b hb).frame hw (by omega) fun y hy hyz => ?_
  unfold DataByte at hy
  unfold InSpan at hyz
  have hnode : ∀ c ∈ x :: bs, z = c.addr → False := by
    rintro c hc rfl
    by_cases hcb : c = b
    · rw [hcb] at hyz
      omega
    · have hap := h.covers.apart c hc b hb hcb
      simp only [Apart, Block.lo, Block.hi] at hap
      omega
  rcases List.mem_cons.mp hz with hz | hz
  · exact hnode x List.mem_cons_self hz
  · rcases List.mem_cons.mp hz with rfl | hz
    · omega
    · obtain ⟨c, hc, rfl⟩ := List.mem_map.mp hz
      exact hnode c (List.mem_cons_of_mem _ hc) rfl

theorem Linking.low (h : Linking L live bs s x k) {z : U32} (hz : z ∈ x.addr :: L.chain :: bs.map Block.addr) (w : U32) :
    WritesOnly (InSpan z 8) s.mem (s.mem.store32 z w) :=
  WritesOnly.store32 _ w (by have := h.spread.top z hz; omega) fun _ => inSpan_low

theorem Linking.high (h : Linking L live bs s x k) {z : U32} (hz : z ∈ x.addr :: L.chain :: bs.map Block.addr) (w : U32) :
    WritesOnly (InSpan z 8) s.mem (s.mem.store32 (z + 4) w) := by
  have htop := h.spread.top z hz
  exact WritesOnly.store32 _ w (by rw [toNat_add_four htop]; omega) fun _ => inSpan_high htop

theorem Linking.fresh (h : Linking L live bs s x k) : ∀ z ∈ L.chain :: bs.map Block.addr, z ≠ x.addr :=
  fun _ hz e => (List.nodup_cons.mp h.spread.nodup).1 (e ▸ hz)

theorem node_mem {z : U32} (hz : z ∈ L.chain :: bs.map Block.addr) : z ∈ x.addr :: L.chain :: bs.map Block.addr :=
  List.mem_cons_of_mem _ hz

theorem link_kept (h : KmallocAt L bytes live bs s (.link new ptr)) :
    Kept L bytes live bs s (kmallocStmt L bytes (s, .link new ptr)) := by
  obtain ⟨x, h, hnew, hready⟩ := h
  exact Kept.same ⟨x, h, hnew, hready, h.walk.first⟩ rfl

theorem linkPrev_kept (h : KmallocAt L bytes live bs s (.linkPrev new ptr next)) :
    Kept L bytes live bs s (kmallocStmt L bytes (s, .linkPrev new ptr next)) := by
  obtain ⟨x, h, rfl, hready, rfl⟩ := h
  have hs := h.spread
  have hf : first L.chain (bs.map Block.addr) ∈ x.addr :: L.chain :: bs.map Block.addr := node_mem first_mem
  obtain ⟨prev, hring, hprev⟩ := h.old
  refine Kept.same ⟨x, ⟨h.headers_link hf (h.high hf _), h.covers, h.base_eq, h.brk_lt, h.liveIn, h.spare,
    ⟨prev, ?_, ?_⟩, fun _ => ?_, fun hk => absurd hk (by decide), fun hk => absurd hk (by decide)⟩, rfl, hready, rfl⟩ rfl
  · exact hring.congr fun z hz => ⟨listNext_storePrev hs hf (node_mem hz) _ _, rfl⟩
  · intro z hz hne
    calc listPrev (s.mem.store32 (first L.chain (bs.map Block.addr) + 4) x.addr) z
        = listPrev s.mem z := by
          rw [listPrev_storePrev hs hf (node_mem hz), if_neg (hne (Nat.le_refl 1))]
      _ = prev z := hprev z hz fun hk => absurd hk (by decide)
  · show listPrev (s.mem.store32 _ _) _ = x.addr
    rw [listPrev_storePrev hs hf hf, if_pos rfl]

theorem linkNewNext_kept (h : KmallocAt L bytes live bs s (.linkNewNext new ptr next)) :
    Kept L bytes live bs s (kmallocStmt L bytes (s, .linkNewNext new ptr next)) := by
  obtain ⟨x, h, rfl, hready, rfl⟩ := h
  have hs := h.spread
  have hx : x.addr ∈ x.addr :: L.chain :: bs.map Block.addr := List.mem_cons_self
  obtain ⟨prev, hring, hprev⟩ := h.old
  refine Kept.same ⟨x, ⟨h.headers_link hx (h.low hx _), h.covers, h.base_eq, h.brk_lt, h.liveIn, h.spare,
    ⟨prev, ?_, ?_⟩, fun _ => ?_, fun _ => ?_, fun hk => absurd hk (by decide)⟩, rfl, hready⟩ rfl
  · refine hring.congr fun z hz => ⟨?_, rfl⟩
    show listNext (s.mem.store32 x.addr _) z = _
    rw [listNext_storeNext hs hx (node_mem hz), if_neg (h.fresh z hz)]
  · exact fun z hz hne => (listPrev_storeNext hs hx (node_mem hz) _ _).trans (hprev z hz fun _ => hne (by decide))
  · exact (listPrev_storeNext hs hx (node_mem first_mem) _ _).trans (h.back (Nat.le_refl 1))
  · show listNext (s.mem.store32 _ _) _ = _
    rw [listNext_storeNext hs hx hx, if_pos rfl]

theorem linkNewPrev_kept (h : KmallocAt L bytes live bs s (.linkNewPrev new ptr)) :
    Kept L bytes live bs s (kmallocStmt L bytes (s, .linkNewPrev new ptr)) := by
  obtain ⟨x, h, rfl, hready⟩ := h
  have hs := h.spread
  have hx : x.addr ∈ x.addr :: L.chain :: bs.map Block.addr := List.mem_cons_self
  obtain ⟨prev, hring, hprev⟩ := h.old
  have hkeep : ∀ z ∈ L.chain :: bs.map Block.addr, listPrev (s.mem.store32 (x.addr + 4) L.chain) z = listPrev s.mem z := by
    intro z hz
    rw [listPrev_storePrev hs hx (node_mem hz), if_neg (h.fresh z hz)]
  refine Kept.same ⟨x, ⟨h.headers_link hx (h.high hx _), h.covers, h.base_eq, h.brk_lt, h.liveIn, h.spare,
    ⟨prev, ?_, ?_⟩, fun _ => ?_, fun _ => ?_, fun _ => ?_⟩, rfl, hready⟩ rfl
  · exact hring.congr fun z hz => ⟨listNext_storePrev hs hx (node_mem hz) _ _, rfl⟩
  · exact fun z hz hne => (hkeep z hz).trans (hprev z hz fun _ => hne (by decide))
  · exact (hkeep _ first_mem).trans (h.back (by decide))
  · exact (listNext_storePrev hs hx hx _ _).trans (h.next (Nat.le_refl 2))
  · show listPrev (s.mem.store32 _ _) _ = _
    rw [listPrev_storePrev hs hx hx, if_pos rfl]

/-- **The last store of `list_add`** puts the block in the chain. -/
theorem linkNext_kept (h : KmallocAt L bytes live bs s (.linkNext new ptr)) :
    Kept L bytes live bs s (kmallocStmt L bytes (s, .linkNext new ptr)) := by
  obtain ⟨x, h, rfl, hready⟩ := h
  have hs := h.spread
  have hc : L.chain ∈ x.addr :: L.chain :: bs.map Block.addr := node_mem List.mem_cons_self
  have hx : x.addr ∈ x.addr :: L.chain :: bs.map Block.addr := List.mem_cons_self
  have hnd := (List.nodup_cons.mp hs.nodup).2
  obtain ⟨prev, hring, hprev⟩ := h.old
  refine ⟨⟨x :: bs, List.suffix_cons _ _, ⟨⟨?_, h.headers_link hc (h.low hc _), h.covers, h.base_eq, h.brk_lt⟩, ?_⟩,
    hready⟩, rfl⟩
  · have hnext : ∀ z ∈ x.addr :: L.chain :: bs.map Block.addr,
        listNext (s.mem.store32 L.chain x.addr) z = if z = L.chain then x.addr else listNext s.mem z :=
      fun z hz => listNext_storeNext hs hc hz _ _
    refine hring.push hnd ?_ ?_ ?_ ?_ ?_ ?_
    · exact (hnext _ hc).trans (if_pos rfl)
    · exact (listPrev_storeNext hs hc hx _ _).trans (h.prev (Nat.le_refl 3))
    · calc listNext (s.mem.store32 L.chain x.addr) x.addr
          = listNext s.mem x.addr := (hnext _ hx).trans (if_neg (h.fresh _ List.mem_cons_self).symm)
        _ = first L.chain (bs.map Block.addr) := h.next (by decide)
    · exact (listPrev_storeNext hs hc (node_mem first_mem) _ _).trans (h.back (by decide))
    · intro z hz
      have hne : z ≠ L.chain := fun e => (List.nodup_cons.mp hnd).1 (e ▸ hz)
      exact (hnext z (node_mem (List.mem_cons_of_mem _ hz))).trans (if_neg hne)
    · exact fun z hz hne => (listPrev_storeNext hs hc (node_mem hz) _ _).trans (hprev z hz fun _ => hne)
  · exact h.liveIn.mono fun c hc _ => List.mem_cons_of_mem _ hc

end

/-! The end of `kmalloc`, and `kfree`. -/

theorem AtRest.counters (h : AtRest L live bs s) (total used : U32) :
    AtRest L live bs { s with totalBlocks := total, usedBlocks := used } :=
  ⟨⟨h.heap.ring, h.heap.headers, h.heap.covers, h.heap.base_eq, h.heap.brk_lt⟩, h.liveIn⟩

theorem AtRest.setState {pre post : List Block} {b : Block} (h : AtRest L live (pre ++ b :: post) s) (hs : Unowned live b)
    (v : U8) : AtRest L live (pre ++ { b with state := v } :: post) { s with mem := s.mem.store8 (b.addr + 16) v } := by
  refine ⟨setState_inv h.heap v s.usedBlocks, fun l hl => ?_, h.liveIn.distinct⟩
  obtain ⟨c, hc, hcu, hcp, hcs⟩ := h.liveIn.owner l hl
  have hcb : c ≠ b := by
    rintro rfl
    exact hs l hl hcp
  refine ⟨c, ?_, hcu, hcp, hcs⟩
  rcases List.mem_append.mp hc with hc | hc
  · exact List.mem_append_left _ hc
  · exact List.mem_append_right _ (List.mem_cons_of_mem _ ((List.mem_cons.mp hc).resolve_left hcb))

theorem end_kept {l : KmallocPc} {ptr : U32} (h : KmallocAt L bytes live bs s l)
    (hl : l = .total ptr ∨ l = .mark ptr ∨ l = .count ptr) : Kept L bytes live bs s (kmallocStmt L bytes (s, l)) := by
  rcases hl with rfl | rfl | rfl
  · exact Kept.same ⟨h.1.counters _ _, h.2⟩ rfl
  · obtain ⟨hst, pre, b, post, rfl, rfl, hle, hs⟩ := h
    have hstate : headState s.mem b.addr = b.state := (hst.heap.headers b (by simp)).state
    refine ⟨⟨pre ++ b.take :: post, by simp [Block.take], ?_⟩, rfl⟩
    unfold kmallocStmt
    dsimp only
    rw [hstate]
    exact ⟨hst.setState hs _, b.take, by simp, b.take_used, rfl, hle, hs⟩
  · exact Kept.same ⟨h.1.counters _ _, fun _ => h.2⟩ rfl

/-- **Every statement of `kmalloc`.** -/
theorem kmallocStmt_kept {l : KmallocPc} (h : KmallocAt L bytes live bs s l) :
    Kept L bytes live bs s (kmallocStmt L bytes (s, l)) := by
  cases l with
  | start => exact search_kept h (.inl rfl)
  | first => exact search_kept h (.inr (.inl rfl))
  | test this => exact test_kept h
  | next this => exact next_kept h
  | magic ptr => exact search_kept h (.inr (.inr (.inl ⟨ptr, rfl⟩)))
  | curbrk r => exact search_kept h (.inr (.inr (.inr ⟨r, rfl⟩)))
  | sbrk => exact ksbrk_kept h (.inl rfl)
  | kbrk e => exact ksbrk_kept h (.inr (.inl ⟨e, rfl⟩))
  | setBrk e => exact ksbrk_kept h (.inr (.inr (.inl ⟨e, rfl⟩)))
  | refused => exact h.elim
  | got => exact ksbrk_kept h (.inr (.inr (.inr rfl)))
  | size p => exact size_kept h
  | setMagic p => exact magic_kept h
  | nullState p => exact nullState_kept h
  | leftover ptr => exact leftover_kept h
  | restSize ptr leftover => exact rest_kept h (.inl ⟨leftover, rfl⟩)
  | restMagic ptr => exact rest_kept h (.inr (.inl rfl))
  | restState ptr => exact rest_kept h (.inr (.inr rfl))
  | cut ptr => exact cut_kept h
  | link new ptr => exact link_kept h
  | linkPrev new ptr next => exact linkPrev_kept h
  | linkNewNext new ptr next => exact linkNewNext_kept h
  | linkNewPrev new ptr => exact linkNewPrev_kept h
  | linkNext new ptr => exact linkNext_kept h
  | total ptr => exact end_kept h (.inl rfl)
  | mark ptr => exact end_kept h (.inr (.inl rfl))
  | count ptr => exact end_kept h (.inr (.inr rfl))
  | done p => exact Kept.same h rfl

/-- **Every statement of `kfree`**: the chain stays, and nobody panics. -/
theorem kfreeStmt_kept {l : KfreePc} (h : KfreeAt L live bs s l) : (kfreeStmt (s, l)).1.panics = s.panics ∧
    ∃ bs', bs'.map Block.addr = bs.map Block.addr ∧ KfreeAt L live bs' (kfreeStmt (s, l)).1 (kfreeStmt (s, l)).2 := by
  cases l with
  | start p =>
    obtain ⟨hst, pre, b, post, rfl, rfl, hs⟩ := h
    have hne : ¬ b.payload = 0 := payload_ne_zero hst.heap (b := b) (by simp)
    refine ⟨rfl, _, rfl, ?_⟩
    unfold kfreeStmt
    dsimp only
    rw [if_neg hne]
    exact ⟨hst, pre, b, post, rfl, by bv_omega, hs⟩
  | magic ptr =>
    obtain ⟨hst, pre, b, post, rfl, hp, hs⟩ := h
    obtain rfl : ptr = b.addr := by
      rw [← payload_sub b, ← hp]
      bv_omega
    have hm : headMagic s.mem b.addr = 0xBEEF := (hst.heap.headers b (by simp)).magic
    have hno : ¬ (headMagic s.mem b.addr != 0xBEEF) = true := by simp [hm]
    unfold kfreeStmt
    dsimp only
    rw [if_neg hno]
    exact ⟨rfl, _, rfl, hst, pre, b, post, rfl, hp, hs⟩
  | state ptr =>
    obtain ⟨hst, pre, b, post, rfl, hp, hs⟩ := h
    obtain rfl : ptr = b.addr := by
      rw [← payload_sub b, ← hp]
      bv_omega
    refine ⟨rfl, pre ++ { b with state := headState s.mem b.addr &&& 0 } :: post, by simp, ?_⟩
    exact hst.setState hs _
  | count => exact ⟨rfl, bs, rfl, AtRest.counters h _ _⟩
  | done => exact ⟨rfl, bs, rfl, h⟩

end

end
end LineOS
