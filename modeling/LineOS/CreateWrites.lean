import LineOS.ProcessMem
import LineOS.HeapSafety

/- Where `create_process` stores. Up to `list_add_tail` everything lands in the
   two payloads; the initial frame does not: its first word goes to
   `kstack + page_size - 1`, and a word is four bytes long (`create_escapes`). What
   the three bytes past the payload hold is left to the heap's layout: the rest
   of a larger block, the header of the next block, or memory beyond the break. -/
namespace LineOS
open ByteMemory ByteMemory.Mem LinkedRing Tiling

theorem procSize_toNat : procSize.toNat = 84 := rfl

theorem stackSize_toNat : stackSize.toNat = 4096 := rfl

/-! What was stored. -/

theorem newStores_eq {m m' : Mem} {ws : List U32} (e : m'.written = ws ++ m.written) : newStores m m' = ws := by
  rw [newStores, e, List.length_append, Nat.add_sub_cancel]
  exact List.take_left

theorem mem_newStores {P : U32 → Prop} {m m' : Mem} (hw : WritesOnly P m m') : ∀ x ∈ newStores m m', P x := by
  obtain ⟨⟨ws, e, hP⟩, -⟩ := hw
  rw [newStores_eq e]
  exact hP

theorem newStores_of_stored {m m' : Mem} {x : U32} (h : Stored x m m') : x ∈ newStores m m' := by
  obtain ⟨ws, e, hx⟩ := h
  rw [newStores_eq e]
  exact hx

/-! The heap while a payload is filled. -/

section
variable {L : HeapLayout} {s s' : Heap} {live : List (U32 × U32)} {l : U32 × U32} {p : U32}

/-- `kmalloc` does not serve a request: NULL comes back, or `panic` was called. -/
def Refused (p : U32) (s s' : Heap) : Prop := p = 0 ∨ s'.panics ≠ s.panics

theorem admissible_of_ok {bytes : U32} (hr : Sound L s live) (hne : bytes ≠ 0) (hsmall : bytes.toNat ≤ 4096)
    (hk : kmalloc L bytes s = some (p, s')) (hok : ¬ Refused p s s') : Admissible L bytes s := by
  obtain ⟨bs, hi, -⟩ := hr
  by_contra hno
  rw [Admissible, not_or, freeFits_iff hi] at hno
  have hlt := hi.brk_lt
  have hf : firstFit bytes bs = none := by simpa using hno.1
  obtain ⟨t, hk', -, hpan, -⟩ := kmalloc_refused hi hne hf (by omega) (by rw [brkMax_toNat] at hlt; omega)
  rw [hk] at hk'
  obtain ⟨-, rfl⟩ := Prod.mk.inj (Option.some.inj hk')
  refine hok (.inr ?_)
  rw [hpan]
  exact List.cons_ne_self _ _

/-- Where `kmalloc` may store, outside the heap: `k_malloc_chain` and the byte at 16. -/
def HeapByte (L : HeapLayout) (x : U32) : Prop :=
  x = 16 ∨ InSpan L.chain 16 x ∨ L.kernelEnd.toNat ≤ x.toNat

theorem heapByte_link {as : List U32} (has : ∀ a ∈ as, L.kernelEnd.toNat ≤ a.toNat) {x : U32}
    (hx : LinkByte (L.chain :: as) x) : HeapByte L x := by
  obtain ⟨a, ha, h1, h2⟩ := hx
  obtain rfl | ha := List.mem_cons.1 ha
  · exact .inr (.inl ⟨h1, by omega⟩)
  · exact .inr (.inr ((has a ha).trans h1))

theorem kmalloc_image {bytes : U32} (hr : Sound L s live) (hne : bytes ≠ 0) (had : Admissible L bytes s)
    (hk : kmalloc L bytes s = some (p, s')) : WritesOnly (HeapByte L) s.mem s'.mem := by
  obtain ⟨bs, hi, -⟩ := hr
  have hdata : ∀ {a x : U32}, L.kernelEnd.toNat ≤ a.toNat → DataByte a x → HeapByte L x :=
    fun ha hx => .inr (.inr (ha.trans ((Nat.le_add_right _ 8).trans hx.1)))
  have haddr : ∀ a ∈ bs.map Block.addr, L.kernelEnd.toNat ≤ a.toNat := by
    intro a ha
    obtain ⟨b, hb, rfl⟩ := List.mem_map.1 ha
    exact (hi.bounds hb).1
  cases hf : firstFit bytes bs with
  | none =>
    -- the heap grows: the new head and its data lie at the old break
    have hlt : s.brk.toNat + 20 + bytes.toNat < brkMax.toNat :=
      had.resolve_left fun h => (freeFits_iff hi bytes).1 h hf
    have hbrk : L.kernelEnd.toNat ≤ s.brk.toNat := hi.cover.le
    have hmax := hlt
    rw [brkMax_toNat] at hmax
    have e16 : (s.brk + 16).toNat = s.brk.toNat + 16 := by bv_omega
    obtain ⟨-, hw⟩ := grow_inv hi hlt
    have h1 : (kmallocGrow L bytes s).1 = s.brk := by rw [kmallocGrow_eq hlt]
    rw [kmalloc_unfold_grow hi hne hf, h1] at hk
    obtain ⟨-, rfl⟩ := Prod.mk.inj (Option.some.inj hk)
    refine (hw.mono fun x hx => ?_).trans (WritesOnly.store8 _ _ (.inr (.inr (by omega))))
    obtain h | h | h := hx
    · exact .inl h
    · exact hdata hbrk h
    · exact heapByte_link (List.forall_mem_cons.2 ⟨hbrk, haddr⟩) h
  | some b =>
    -- a free block is reused: its own head, the rest's head and the links
    obtain ⟨hfit, -, pre, post, rfl⟩ := firstFit_some hf
    have hb := hi.bounds (b := b) (by simp)
    have hfit' : bytes.toNat ≤ b.size.toNat := hfit
    obtain ⟨t, hk', -, -, -, hw⟩ := kmalloc_reuse hi hne hf
    rw [hk] at hk'
    obtain ⟨-, rfl⟩ := Prod.mk.inj (Option.some.inj hk')
    have hrest : L.kernelEnd.toNat ≤ (b.rest bytes).addr.toNat := by
      have e : (b.addr + headLen + bytes).toNat = b.addr.toNat + 20 + bytes.toNat := by
        unfold headLen
        bv_omega
      show L.kernelEnd.toNat ≤ (b.addr + headLen + bytes).toNat
      omega
    refine hw.mono fun x hx => ?_
    obtain h | ⟨h | h | h, -⟩ := hx
    · exact hdata hb.1 h
    · exact hdata hb.1 h
    · exact hdata hrest h
    · exact heapByte_link (List.forall_mem_cons.2 ⟨hrest, haddr⟩) h

end

/-! The stages. -/

section
variable {m : Mem} {p k : U32}

theorem fillProcess_writes (pid name : U32) (hp : p.toNat + 84 < 2 ^ 32) :
    WritesOnly (InSpan p 84) m (fillProcess p pid name m) := by
  have e20 : (p + offPid).toNat = p.toNat + 20 := by unfold offPid; bv_omega
  have e32 : (p + offName).toNat = p.toNat + 32 := by unfold offName; bv_omega
  have h1 : WritesOnly (InSpan p 84) m (memset p 0 procSize.toNat m) := memset_writes 0 84 p m (by omega)
  refine (h1.trans (WritesOnly.store32 _ pid (by omega) fun x hx => ?_)).trans
    ((strncpy_writes _ _ name _ (by omega)).mono fun x hx => ?_)
  · unfold InSpan at hx ⊢
    omega
  · unfold InSpan at hx ⊢
    omega

/-- `list_add_tail` stores to the new node, the head and the node before it. -/
theorem writes_listAddTail {new head : U32} {as : List U32} (hp : listPrev m head ∈ head :: as)
    (htop : ∀ a ∈ new :: head :: as, a.toNat + 8 ≤ 2 ^ 32) :
    WritesOnly (LinkByte (new :: head :: as)) m (listAddTail new head m) := by
  have hp' : listPrev m head ∈ new :: head :: as := List.mem_cons_of_mem new hp
  have tnew := htop new (by simp)
  have thead := htop head (by simp)
  have tprev := htop _ hp'
  have hhigh : ∀ a ∈ new :: head :: as, ∀ x, InSpan (a + 4) 4 x → LinkByte (new :: head :: as) x :=
    fun a ha x hx => ⟨a, ha, inSpan_high (htop a ha) hx⟩
  have hlow : ∀ a ∈ new :: head :: as, ∀ x, InSpan a 4 x → LinkByte (new :: head :: as) x :=
    fun a ha x hx => ⟨a, ha, inSpan_low hx⟩
  have s1 := WritesOnly.store32 m new (by rw [toNat_add_four thead]; omega) (hhigh head (by simp))
  have s2 := s1.trans (WritesOnly.store32 _ head (by omega) (hlow new (by simp)))
  have s3 := s2.trans (WritesOnly.store32 _ (listPrev m head) (by rw [toNat_add_four tnew]; omega) (hhigh new (by simp)))
  exact s3.trans (WritesOnly.store32 _ new (by omega) (hlow _ hp'))

end

/-! The whole call. -/

/-- The process list in memory: a ring of the `list` members of live structures,
    with its head in the kernel image. -/
structure LinkedProcs (L : HeapLayout) (m : Mem) (head : U32) (live : List (U32 × U32)) (ps : List U32) : Prop where
  ring : MemRing m head (ps.map (· + offList))
  live : ∀ q ∈ ps, (q, procSize) ∈ live
  head_lo : kVirStart.toNat ≤ head.toNat
  head_hi : head.toNat + 8 ≤ L.kernelEnd.toNat
  apart : ∀ x, InSpan head 8 x → ¬ InSpan L.chain 16 x

/-- Both calls of `kmalloc` return a block: `p` for the structure, `k` for the stack. -/
def Served (L : HeapLayout) (name : U32) (g : ProcGlobals) (s : Heap) (p k : U32) : Prop :=
  ∃ s₁ s₂, kmalloc L procSize s = some (p, s₁) ∧ ¬ Refused p s s₁ ∧
    kmalloc L stackSize { s₁ with mem := fillProcess p g.pidcnt name s₁.mem } = some (k, s₂) ∧ ¬ Refused k s₁ s₂

section
variable {L : HeapLayout} {s t : Heap} {live : List (U32 × U32)} {x y : U32 × U32}

/-- Between two live payloads there is a header. -/
theorem live_gap (hr : Sound L s live) (hx : x ∈ live) (hy : y ∈ live) (hne : x.1 ≠ y.1) :
    x.1.toNat + x.2.toNat + 20 ≤ y.1.toNat ∨ y.1.toNat + y.2.toNat + 20 ≤ x.1.toNat := by
  obtain ⟨bs, hi, hl⟩ := hr
  obtain ⟨b, hb, -, hbp, hbs⟩ := hl.owner x hx
  obtain ⟨c, hc, -, hcp, hcs⟩ := hl.owner y hy
  have hb20 : x.1.toNat = b.addr.toNat + 20 := hbp ▸ payload_toNat hi hb
  have hc20 : y.1.toNat = c.addr.toNat + 20 := hcp ▸ payload_toNat hi hc
  have hbs' : x.2.toNat ≤ b.size.toNat := hbs
  have hcs' : y.2.toNat ≤ c.size.toNat := hcs
  have hap := hi.covers.apart b hb c hc fun e => hne (by rw [hbp, hcp, e])
  simp only [Apart, Block.lo, Block.hi] at hap
  omega

/-- A live payload lies above the kernel image and ends below `brk_max`. -/
theorem live_range (hr : Sound L s live) (hx : x ∈ live) :
    L.kernelEnd.toNat ≤ x.1.toNat ∧ x.1.toNat + x.2.toNat < 4290756608 := by
  obtain ⟨bs, hi, hl⟩ := hr
  obtain ⟨h1, h2⟩ := (live_apart hi hl).1 x hx
  have hlt := hi.brk_lt
  rw [brkMax_toNat] at hlt
  rw [hi.base_eq] at h1
  exact ⟨h1, by omega⟩

variable {head name p k : U32} {g : ProcGlobals} {ps : List U32}

/-- Up to the second call the heap's client has written into its own payload. -/
theorem fillProcess_sound (hr : Sound L s ((p, procSize) :: live)) (pid name : U32) :
    Sound L { s with mem := fillProcess p pid name s.mem } ((p, procSize) :: live) := by
  have hp84 : p.toNat + 84 < 4290756608 := (live_range hr List.mem_cons_self).2
  obtain ⟨bs, hi, hl⟩ := hr
  refine ⟨bs, hi.frame (fillProcess_writes pid name (by omega)) fun x hx hp => ?_, hl⟩
  exact payload_not_own hi hl List.mem_cons_self hp hx

/-- From the second call on: where the blocks lie, and what the list's head holds. -/
structure Placed (L : HeapLayout) (m : Mem) (head p k : U32) (ps : List U32) : Prop where
  proc_lo : L.kernelEnd.toNat ≤ p.toNat
  proc_hi : p.toNat + 84 < 4290756608
  stack_lo : L.kernelEnd.toNat ≤ k.toNat
  stack_hi : k.toNat + 4096 < 4290756608
  gap : p.toNat + 84 + 20 ≤ k.toNat ∨ k.toNat + 4096 + 20 ≤ p.toNat
  prev : listPrev m head ∈ head :: ps.map (· + offList)
  others : ∀ q ∈ ps, q.toNat + 84 < 4290756608 ∧ (p.toNat + 84 ≤ q.toNat ∨ q.toNat + 84 ≤ p.toNat)

theorem LinkedProcs.prev_off {m : Mem} (hl : LinkedProcs L m head live ps) :
    (head + 4).toNat + 4 ≤ 2 ^ 32 ∧ ∀ x, InSpan (head + 4) 4 x → ¬ HeapByte L x := by
  have hbase := chain_bounds L
  have hlo := hl.head_lo
  have hhi := hl.head_hi
  rw [kVirStart_toNat] at hlo
  have h4 : (head + 4).toNat = head.toNat + 4 := toNat_add_four (by omega)
  refine ⟨by omega, fun x hx hb => ?_⟩
  unfold InSpan at hx
  obtain rfl | h | h := hb
  · have h16 : (16 : U32).toNat = 16 := rfl
    omega
  · exact hl.apart x ⟨by omega, by omega⟩ h
  · omega

theorem placed (hr : Sound L s live) (hl : LinkedProcs L s.mem head live ps) {s₁ s₂ : Heap}
    (hk₁ : kmalloc L procSize s = some (p, s₁)) (hok₁ : ¬ Refused p s s₁)
    (hk₂ : kmalloc L stackSize { s₁ with mem := fillProcess p g.pidcnt name s₁.mem } = some (k, s₂))
    (hok₂ : ¬ Refused k s₁ s₂) : Placed L s₂.mem head p k ps := by
  have had₁ := admissible_of_ok hr (by decide) (by decide) hk₁ hok₁
  have hr₁ := hr.kmalloc (by decide) had₁ hk₁
  have hr₁' := fillProcess_sound hr₁ g.pidcnt name
  have had₂ := admissible_of_ok hr₁' (by decide) (by decide) hk₂ hok₂
  have hr₂ := hr₁'.kmalloc (by decide) had₂ hk₂
  have hkm : (k, stackSize) ∈ (k, stackSize) :: (p, procSize) :: live := List.mem_cons_self
  have hpm : (p, procSize) ∈ (k, stackSize) :: (p, procSize) :: live := List.mem_cons_of_mem _ List.mem_cons_self
  obtain ⟨-, hpn⟩ := kmalloc_fresh hr (by decide) had₁ hk₁
  obtain ⟨-, hkn⟩ := kmalloc_fresh hr₁' (by decide) had₂ hk₂
  obtain ⟨hp1, hp2⟩ := live_range hr₂ hpm
  obtain ⟨hk1, hk2⟩ := live_range hr₂ hkm
  have hgap := live_gap hr₂ hpm hkm (hkn _ List.mem_cons_self)
  refine ⟨hp1, hp2, hk1, hk2, hgap, ?_, fun q hq => ?_⟩
  · have hp84 : p.toNat + 84 < 4290756608 := hp2
    obtain ⟨htop, hoff⟩ := hl.prev_off
    have hw₁ := kmalloc_image hr (by decide) had₁ hk₁
    have hwf := fillProcess_writes (m := s₁.mem) g.pidcnt name (p := p) (by omega)
    have hw₂ := kmalloc_image hr₁' (by decide) had₂ hk₂
    have hw := (hw₁.trans (hwf.mono fun x hx => .inr (.inr (hp1.trans hx.1)))).trans hw₂
    have hprev : listPrev s₂.mem head = listPrev s.mem head := hw.load32_eq htop hoff
    rw [hprev]
    exact hl.ring.prev_head
  · have hqm := List.mem_cons_of_mem (k, stackSize) (List.mem_cons_of_mem (p, procSize) (hl.live q hq))
    have hqp := live_gap hr₂ hqm hpm (hpn _ (hl.live q hq))
    obtain ⟨-, hq2⟩ := live_range hr₂ hqm
    have e : procSize.toNat = 84 := rfl
    refine ⟨hq2, ?_⟩
    simp only [e] at hqp
    omega

def NewByte (p k x : U32) : Prop := InSpan p procSize.toNat x ∨ InSpan k stackSize.toNat x

section
variable {m : Mem}

theorem fillStack_writes (hpl : Placed L m head p k ps) :
    WritesOnly (InSpan p procSize.toNat) m (m.store32 (p + offKstack) k) ∧
      WritesOnly (NewByte p k) (m.store32 (p + offKstack) k) (fillStack p (m.store32 (p + offKstack) k)) ∧
      (fillStack p (m.store32 (p + offKstack) k)).load32 p = k + (stackSize - 1) := by
  have hp := hpl.proc_hi
  have hk := hpl.stack_hi
  have hgap := hpl.gap
  have e8 : (p + offKstack).toNat = p.toNat + 8 := by unfold offKstack; bv_omega
  have hkeep : WritesOnly (InSpan k stackSize.toNat) (m.store32 (p + offKstack) k)
      (memset k 0 stackSize.toNat (m.store32 (p + offKstack) k)) :=
    memset_writes 0 stackSize.toNat k _ (by rw [stackSize_toNat]; omega)
  have hread : (m.store32 (p + offKstack) k).load32 (p + offKstack) = k := load32_store32_same _ _ _
  have hread' : (memset k 0 stackSize.toNat (m.store32 (p + offKstack) k)).load32 (p + offKstack) = k := by
    rw [hkeep.load32_eq (by omega), hread]
    intro x hx hx'
    unfold InSpan at hx hx'
    rw [stackSize_toNat] at hx'
    omega
  have hfill : fillStack p (m.store32 (p + offKstack) k) =
      (memset k 0 stackSize.toNat (m.store32 (p + offKstack) k)).store32 p (k + (stackSize - 1)) := by
    unfold fillStack
    simp only [hread, hread']
  refine ⟨WritesOnly.store32 m k (by omega) fun x hx => ?_, ?_, ?_⟩
  · unfold InSpan at hx ⊢
    rw [procSize_toNat]
    omega
  · rw [hfill]
    refine (hkeep.mono fun x hx => .inr hx).trans (WritesOnly.store32 _ _ (by omega) fun x hx => .inl ?_)
    unfold InSpan at hx ⊢
    rw [procSize_toNat]
    omega
  · rw [hfill, load32_store32_same]

theorem Placed.stored {m' : Mem} (hpl : Placed L m head p k ps) (hh : head.toNat + 8 ≤ L.kernelEnd.toNat)
    (hw : WritesOnly (NewByte p k) m m') : Placed L m' head p k ps := by
  refine { hpl with prev := ?_ }
  have hp := hpl.proc_lo
  have hk := hpl.stack_lo
  have hp' := hpl.proc_hi
  have h4 : (head + 4).toNat = head.toNat + 4 := toNat_add_four (by omega)
  have hprev : listPrev m' head = listPrev m head := by
    refine hw.load32_eq (by omega) fun x hx hb => ?_
    unfold InSpan at hx
    obtain h | h := hb
    · have := h.1
      omega
    · have := h.1
      omega
  rw [hprev]
  exact hpl.prev

theorem listAddTail_esp (hpl : Placed L m head p k ps) (hh : head.toNat + 8 ≤ L.kernelEnd.toNat) :
    (listAddTail (p + offList) head m).load32 p = m.load32 p := by
  have hp := hpl.proc_hi
  have hlo := hpl.proc_lo
  have e24 : ∀ q : U32, q.toNat + 84 < 4290756608 → (q + offList).toNat = q.toNat + 24 := by
    intro q hq
    unfold offList
    bv_omega
  have hnode : ∀ a ∈ ps.map (· + offList), ∃ q ∈ ps, a = q + offList := by
    intro a ha
    obtain ⟨q, hq, e⟩ := List.mem_map.1 ha
    exact ⟨q, hq, e.symm⟩
  have htop : ∀ a ∈ (p + offList) :: head :: ps.map (· + offList), a.toNat + 8 ≤ 2 ^ 32 := by
    intro a ha
    obtain rfl | ha := List.mem_cons.1 ha
    · rw [e24 p hp]
      omega
    obtain rfl | ha := List.mem_cons.1 ha
    · omega
    · obtain ⟨q, hq, rfl⟩ := hnode a ha
      have := (hpl.others q hq).1
      rw [e24 q this]
      omega
  -- a link cell is the head's, the new record's or another record's: none is offset 0 of this one
  refine (writes_listAddTail hpl.prev htop).load32_eq (by omega) fun x hx hb => ?_
  obtain ⟨a, ha, hax⟩ := hb
  unfold InSpan at hx hax
  obtain rfl | ha := List.mem_cons.1 ha
  · rw [e24 p hp] at hax
    omega
  obtain rfl | ha := List.mem_cons.1 ha
  · omega
  · obtain ⟨q, hq, rfl⟩ := hnode a ha
    obtain ⟨hq1, hq2⟩ := hpl.others q hq
    rw [e24 q hq1] at hax
    omega

theorem fillAccount_writes (parent : U32) (hp : p.toNat + 84 < 4290756608) :
    WritesOnly (InSpan p procSize.toNat) m (fillAccount p parent m) := by
  have e66 : (p + offTicks).toNat = p.toNat + 66 := by unfold offTicks; bv_omega
  have e80 : (p + offTt).toNat = p.toNat + 80 := by unfold offTt; bv_omega
  have e76 : (p + offParent).toNat = p.toNat + 76 := by unfold offParent; bv_omega
  have hin : ∀ {a : U32} {n : Nat}, p.toNat ≤ a.toNat → a.toNat + n ≤ p.toNat + 84 → ∀ x, InSpan a n x →
      InSpan p procSize.toNat x := by
    intro a n h1 h2 x hx
    unfold InSpan at hx ⊢
    rw [procSize_toNat]
    omega
  unfold fillAccount
  exact ((WritesOnly.store16 _ _ (by omega) (hin (by omega) (by omega))).trans
    (WritesOnly.store32 _ _ (by omega) (hin (by omega) (by omega)))).trans
    (WritesOnly.store32 _ _ (by omega) (hin (by omega) (by omega)))

end

theorem createProcessMem_eq {s₁ s₂ : Heap} (head arg proc : U32) (hk₁ : kmalloc L procSize s = some (p, s₁)) (hp : p ≠ 0)
    (hk₂ : kmalloc L stackSize { s₁ with mem := fillProcess p g.pidcnt name s₁.mem } = some (k, s₂)) (hk : k ≠ 0) :
    let m₂ := s₂.mem.store32 (p + offKstack) k
    let m₃ := fillStack p m₂
    let m₄ := listAddTail (p + offList) head m₃
    let m₅ := fillAccount p g.current (setupKernelProcess p proc m₄)
    createProcessMem L head name arg proc g s = some
      (⟨m₅.load32 (p + offPid), p, k, newStores m₄ m₅ ++ newStores m₂ m₃ ++ newStores s₂.mem m₂ ++
        newStores s₁.mem (fillProcess p g.pidcnt name s₁.mem)⟩,
      ⟨g.current, g.pidcnt + 1, g.count + 1⟩, { s₂ with mem := m₅ }) := by
  intro m₂ m₃ m₄ m₅
  unfold createProcessMem
  simp only [hk₁, Option.bind_eq_bind, Option.bind_some, if_neg hp, hk₂, if_neg hk]
  rfl

/-- **The initial frame leaves the stack.** In every reachable heap with any process list,
a `create_process` whose two `kmalloc` calls succeed stores past the end of the new stack,
and what it stores there is three bytes: all others lie in the two payloads. -/
theorem create_escapes (hr : Reach L s live) (hl : LinkedProcs L s.mem head live ps)
    (hs : Served L name g s p k) (arg proc : U32) :
    ∃ c g' s', createProcessMem L head name arg proc g s = some (c, g', s') ∧ c.newproc = p ∧ c.kstack = k ∧
      ¬ (∀ x ∈ c.stores, NewByte p k x) ∧ ∀ x ∈ c.stores, NewByte p k x ∨ InSpan (k + stackSize) 3 x := by
  obtain ⟨s₁, s₂, hk₁, hok₁, hk₂, hok₂⟩ := hs
  have hpl := placed (run_inv hr) hl hk₁ hok₁ hk₂ hok₂
  have hend := chain_bounds L
  have hhead := hl.head_hi
  have hplo := hpl.proc_lo
  have hp := hpl.proc_hi
  have hklo := hpl.stack_lo
  have hk := hpl.stack_hi
  have hp0 : p ≠ 0 := fun e => by rw [e] at hplo; simp at hplo; omega
  have hk0 : k ≠ 0 := fun e => by rw [e] at hklo; simp at hklo; omega
  have hktop : (k + stackSize).toNat = k.toNat + 4096 := by
    rw [BitVec.toNat_add, stackSize_toNat]
    omega
  -- what each stage stores to
  have hw₁ := fillProcess_writes (m := s₁.mem) g.pidcnt name (p := p) (by omega)
  obtain ⟨hw₂, hw₃, hesp⟩ := fillStack_writes hpl
  have hpl₃ := hpl.stored hhead ((hw₂.mono fun x hx => .inl hx).trans hw₃)
  have hesp₄ := (listAddTail_esp hpl₃ hhead).trans hesp
  have hc := createProcessMem_eq head arg proc hk₁ hp0 hk₂ hk0
  simp only at hc
  generalize s₂.mem.store32 (p + offKstack) k = m₂ at *
  generalize fillStack p m₂ = m₃ at *
  generalize listAddTail (p + offList) head m₃ = m₄ at *
  have etop : (k + (stackSize - 1)).toNat = k.toNat + 4095 := by unfold stackSize; bv_omega
  have enext : k + (stackSize - 1) + 1 = k + stackSize := by rw [BitVec.add_assoc]; rfl
  obtain ⟨hw₅, hout⟩ := setup_writes proc hesp₄ (by omega) (by omega) (by omega)
  rw [enext] at hout
  have hw₆ := fillAccount_writes (m := setupKernelProcess p proc m₄) g.current hp
  have hout' := hout.after hw₆
  refine ⟨_, _, _, hc, rfl, rfl, fun hall => ?_, fun x hx => ?_⟩
  · have hx := hall (k + stackSize) (by simp [newStores_of_stored hout'])
    unfold NewByte InSpan at hx
    have hgap := hpl.gap
    rw [hktop, procSize_toNat, stackSize_toNat] at hx
    omega
  · have hsplit : ∀ x, FrameByte (k + (stackSize - 1)) x → InSpan k stackSize.toNat x ∨ InSpan (k + stackSize) 3 x := by
      intro x hx
      unfold FrameByte at hx
      unfold InSpan
      rw [hktop, stackSize_toNat]
      omega
    simp only [List.mem_append] at hx
    obtain ((hx | hx) | hx) | hx := hx
    · have hw : WritesOnly (fun x => InSpan p procSize.toNat x ∨ FrameByte (k + (stackSize - 1)) x) m₄
          (fillAccount p g.current (setupKernelProcess p proc m₄)) := hw₅.trans (hw₆.mono fun x hx => .inl hx)
      obtain h | h := mem_newStores hw x hx
      · exact .inl (.inl h)
      · obtain h | h := hsplit x h
        · exact .inl (.inr h)
        · exact .inr h
    · exact .inl (mem_newStores hw₃ x hx)
    · exact .inl (.inl (mem_newStores hw₂ x hx))
    · exact .inl (.inl (mem_newStores hw₁ x hx))

end

/-! A heap with two free blocks that fit, and a block in use right after the larger. -/

/-- Where the sample keeps `k_proclist.list`. -/
def sampleHead : U32 := 0xC0009200

/-- Memory with an empty process list, before `init_heap`. -/
def spawnMem : Mem := initListHead sampleHead dirtyMem

def spawnRun : Option Heap :=
  (kmalloc sampleLayout 4096 (initHeap sampleLayout spawnMem)).bind fun r₁ =>
    (kmalloc sampleLayout 100 r₁.2).bind fun r₂ =>
      (kmalloc sampleLayout 84 r₂.2).map fun r₃ => kfree r₁.1 (kfree r₃.1 r₃.2)

def spawnHeap : Heap := spawnRun.getD (initHeap sampleLayout spawnMem)

theorem spawnHeap_reach : Reach sampleLayout spawnHeap [(0xC000B028, 100)] := by
  have h₁ : Reach sampleLayout _ [(0xC000A014, 4096)] :=
    Reach.kmalloc (Reach.init spawnMem) (by decide) (Or.inr (by decide)) rfl
  have h₂ : Reach sampleLayout _ [(0xC000B028, 100), (0xC000A014, 4096)] :=
    Reach.kmalloc h₁ (by decide) (Or.inr (by decide)) rfl
  have h₃ : Reach sampleLayout _ [(0xC000B0A0, 84), (0xC000B028, 100), (0xC000A014, 4096)] :=
    Reach.kmalloc h₂ (by decide) (Or.inr (by decide)) rfl
  have h₄ := Reach.kfree (0xC000B0A0, 84) h₃ (by decide)
  exact Reach.kfree (0xC000A014, 4096) h₄ (by decide)

/-- The structure gets the smaller block, the stack the larger. -/
theorem spawn_first : (kmalloc sampleLayout procSize spawnHeap).map (fun r => (r.1, r.2.panics)) =
    some (0xC000B0A0, []) := by decide +kernel

theorem spawn_second : ((kmalloc sampleLayout procSize spawnHeap).bind fun r =>
    (kmalloc sampleLayout stackSize { r.2 with mem := fillProcess 0xC000B0A0 0 0xC0009300 r.2.mem }).map
      fun q => (q.1, q.2.panics)) = some (0xC000A014, []) := by decide +kernel

theorem spawn_served : Served sampleLayout 0xC0009300 ⟨0, 0, 0⟩ spawnHeap 0xC000B0A0 0xC000A014 := by
  obtain ⟨r₁, h₁, e₁⟩ := Option.map_eq_some_iff.1 spawn_first
  obtain ⟨hp, hpan₁⟩ := Prod.mk.inj e₁
  have hsec := spawn_second
  rw [h₁, Option.bind_some] at hsec
  obtain ⟨r₂, h₂, e₂⟩ := Option.map_eq_some_iff.1 hsec
  obtain ⟨hk, hpan₂⟩ := Prod.mk.inj e₂
  refine ⟨r₁.2, r₂.2, hp ▸ h₁, ?_, hk ▸ h₂, ?_⟩
  · have hpan : spawnHeap.panics = [] := by decide +kernel
    simp [Refused, hpan, hpan₁]
  · simp [Refused, hpan₁, hpan₂]

theorem spawn_procs : LinkedProcs sampleLayout spawnHeap.mem sampleHead [(0xC000B028, 100)] [] where
  ring := ring_nil.2 (by decide +kernel)
  live := by simp
  head_lo := by decide
  head_hi := by decide
  apart := fun x hx hc => by
    unfold InSpan sampleHead sampleLayout at *
    simp only [BitVec.reduceToNat] at hx hc
    omega

theorem create_escapes_sample : ∃ c g' s',
    createProcessMem sampleLayout sampleHead 0xC0009300 0 0xC0001000 ⟨0, 0, 0⟩ spawnHeap = some (c, g', s') ∧
      ¬ ∀ x ∈ c.stores, NewByte 0xC000B0A0 0xC000A014 x := by
  obtain ⟨c, g', s', hc, -, -, hout, -⟩ := create_escapes spawnHeap_reach spawn_procs spawn_served 0 0xC0001000
  exact ⟨c, g', s', hc, hout⟩

/-- The header after the stack belongs to a block in use; its `next`, which was the
address of the stack's own header, is `0xC0C000B0` when `create_process` returns. -/
theorem create_corrupts : Reach sampleLayout spawnHeap [(0xC000B028, 100)] ∧
    LinkedProcs sampleLayout spawnHeap.mem sampleHead [(0xC000B028, 100)] [] ∧
    Served sampleLayout 0xC0009300 ⟨0, 0, 0⟩ spawnHeap 0xC000B0A0 0xC000A014 ∧
    listNext spawnHeap.mem 0xC000B014 = 0xC000A000 ∧ ¬ NewByte 0xC000B0A0 0xC000A014 0xC000B014 ∧
    (createProcessMem sampleLayout sampleHead 0xC0009300 0 0xC0001000 ⟨0, 0, 0⟩ spawnHeap).map
      (fun r => (decide (0xC000B014 ∈ r.1.stores), listNext r.2.2.mem 0xC000B014)) = some (true, 0xC0C000B0) := by
  refine ⟨spawnHeap_reach, spawn_procs, spawn_served, by decide +kernel, ?_, by decide +kernel⟩
  unfold NewByte InSpan
  decide

end LineOS
