import LineOS.HeapSafety
import LineOS.Interleave

/- `kmalloc` called by many processes, a statement at a time. A call left alone is `kmalloc`
   (`kmalloc_alone`). Between the first read of the chain and the store of the used flag it
   relies on what it has read, and nothing keeps the others out: two processes find the same
   free block (`kmalloc_race_same`). While no process touches the heap as another is there, the
   payloads are disjoint and the chain is whole whenever none is (`kmalloc_race`). -/
namespace LineOS
open ByteMemory ByteMemory.Mem LinkedRing Tiling Interleave

inductive KmallocPc where
  | start
  /-- at the first read of `list_for_each` -/
  | first
  | test (this : U32)
  | next (this : U32)
  | magic (ptr : U32)
  | curbrk (ptr : Option U32)
  | sbrk
  | kbrk (e : U32)
  | setBrk (e : U32)
  | refused
  | got
  | size (ptr : U32)
  | setMagic (ptr : U32)
  | nullState (ptr : U32)
  | leftover (ptr : U32)
  | restSize (ptr leftover : U32)
  | restMagic (ptr : U32)
  | restState (ptr : U32)
  | cut (ptr : U32)
  /-- in `list_add` of `new`, with `ptr` to be returned -/
  | link (new ptr : U32)
  | linkPrev (new ptr next : U32)
  | linkNewNext (new ptr next : U32)
  | linkNewPrev (new ptr : U32)
  | linkNext (new ptr : U32)
  | total (ptr : U32)
  | mark (ptr : U32)
  | count (ptr : U32)
  | done (p : U32)
  deriving DecidableEq

def kmallocStmt (L : HeapLayout) (bytes : U32) : Heap × KmallocPc → Heap × KmallocPc
  | (s, .start) => (s, if bytes = 0 then .done 0 else .first)
  | (s, .first) => (s, .test (listNext s.mem L.chain))
  | (s, .test this) =>
    (s, if this = L.chain then .curbrk none else if fits bytes s.mem this then .magic this else .next this)
  | (s, .next this) => (s, .test (listNext s.mem this))
  | (s, .magic ptr) =>
    (if headMagic s.mem ptr != 0xBEEF then s.panic "Corruption in malloc chain!" else s, .curbrk (some ptr))
  | (s, .curbrk none) => (s, .sbrk)
  | (s, .curbrk (some ptr)) => (s, .leftover ptr)
  | (s, .sbrk) => (s, if headLen + bytes = 0 then .size s.brk else .kbrk (s.brk + (headLen + bytes)))
  | (s, .kbrk e) => (s, if brkMax ≤ e then .refused else .setBrk e)
  | (s, .setBrk e) => ({ s with brk := e }, .got)
  | (s, .refused) => (s.panic "Unable to kbrk - Reached max_brk!\n", .got)
  | (s, .got) => (s, .size (s.brk - (headLen + bytes)))
  | (s, .size ptr) => ({ s with mem := s.mem.store32 (ptr + 12) bytes }, .setMagic ptr)
  | (s, .setMagic ptr) => ({ s with mem := s.mem.store32 (ptr + 8) 0xBEEF }, .nullState ptr)
  | (s, .nullState ptr) => ({ s with mem := s.mem.store8 (0 + 16) 0 }, .link ptr ptr)
  | (s, .leftover ptr) =>
    (s, if headLen + 8 ≤ headSize s.mem ptr - bytes then .restSize ptr (headSize s.mem ptr - bytes) else .mark ptr)
  | (s, .restSize ptr leftover) =>
    ({ s with mem := s.mem.store32 (ptr + headLen + bytes + 12) (leftover - headLen) }, .restMagic ptr)
  | (s, .restMagic ptr) => ({ s with mem := s.mem.store32 (ptr + headLen + bytes + 8) 0xBEEF }, .restState ptr)
  | (s, .restState ptr) => ({ s with mem := s.mem.store8 (ptr + headLen + bytes + 16) 0 }, .cut ptr)
  | (s, .cut ptr) => ({ s with mem := s.mem.store32 (ptr + 12) bytes }, .link (ptr + headLen + bytes) ptr)
  | (s, .link new ptr) => (s, .linkPrev new ptr (listNext s.mem L.chain))
  | (s, .linkPrev new ptr next) => ({ s with mem := s.mem.store32 (next + 4) new }, .linkNewNext new ptr next)
  | (s, .linkNewNext new ptr next) => ({ s with mem := s.mem.store32 new next }, .linkNewPrev new ptr)
  | (s, .linkNewPrev new ptr) => ({ s with mem := s.mem.store32 (new + 4) L.chain }, .linkNext new ptr)
  | (s, .linkNext new ptr) => ({ s with mem := s.mem.store32 L.chain new }, .total ptr)
  | (s, .total ptr) => ({ s with totalBlocks := s.totalBlocks + 1 }, .mark ptr)
  | (s, .mark ptr) => ({ s with mem := s.mem.store8 (ptr + 16) (headState s.mem ptr ||| 1) }, .count ptr)
  | (s, .count ptr) => ({ s with usedBlocks := s.usedBlocks + 1 }, .done (ptr + headLen))
  | (s, .done p) => (s, .done p)

/-- From the first read of the chain to the store of the used flag. -/
def Searching : KmallocPc → Prop
  | .start | .first | .count _ | .done _ => False
  | _ => True

section

variable {L : HeapLayout} {bytes : U32} {s : Heap} {y : Heap × KmallocPc}

/-! A call by itself. -/

/-- Process by process: the statements of a call up to the store of the used flag. -/
abbrev Alone (L : HeapLayout) (bytes : U32) : Heap × KmallocPc → Heap × KmallocPc → Prop :=
  Sweep (kmallocStmt L bytes) Searching

theorem mark_alone (ptr : U32) (s : Heap) : Alone L bytes (s, .mark ptr)
    ({ s with mem := s.mem.store8 (ptr + 16) (headState s.mem ptr ||| 1) }, .count ptr) :=
  .step trivial (.stop id)

theorem link_alone {new ptr : U32} (h : Alone L bytes
    ({ s with mem := listAdd new L.chain s.mem, totalBlocks := s.totalBlocks + 1 }, .mark ptr) y) :
    Alone L bytes (s, .link new ptr) y :=
  .step trivial (.step trivial (.step trivial (.step trivial (.step trivial (.step trivial h)))))

theorem head_alone {ptr : U32} (h : Alone L bytes
    ({ s with
      mem := listAdd ptr L.chain (((s.mem.store32 (ptr + 12) bytes).store32 (ptr + 8) 0xBEEF).store8 (0 + 16) 0)
      totalBlocks := s.totalBlocks + 1 }, .mark ptr) y) : Alone L bytes (s, .size ptr) y :=
  .step trivial (.step trivial (.step trivial (link_alone h)))

theorem grow_alone (h : Alone L bytes ((kmallocGrow L bytes s).2, .mark (kmallocGrow L bytes s).1) y) :
    Alone L bytes (s, .sbrk) y := by
  refine .step trivial ?_
  unfold kmallocGrow at h
  dsimp only [kmallocStmt]
  rcases ksbrk_cases (headLen + bytes) s with ⟨hz, e⟩ | ⟨hnz, hmax, e⟩ | ⟨hnz, hmax, e⟩
  · rw [e] at h
    rw [if_pos hz]
    exact head_alone h
  · rw [e] at h
    rw [if_neg hnz]
    refine .step trivial ?_
    dsimp only [kmallocStmt]
    rw [if_pos hmax]
    exact .step trivial (.step trivial (head_alone h))
  · rw [e] at h
    rw [if_neg hnz]
    refine .step trivial ?_
    dsimp only [kmallocStmt]
    rw [if_neg hmax]
    refine .step trivial (.step trivial (head_alone ?_))
    have hb : s.brk + (headLen + bytes) - (headLen + bytes) = s.brk := by bv_omega
    dsimp only
    rw [hb]
    exact h

theorem reuse_alone {ptr : U32} (h : Alone L bytes (kmallocReuse L bytes ptr s, .mark ptr) y) :
    Alone L bytes (s, .leftover ptr) y := by
  refine .step trivial ?_
  unfold kmallocReuse at h
  dsimp only [kmallocStmt] at h ⊢
  split
  · next hl =>
    rw [if_pos hl] at h
    exact .step trivial (.step trivial (.step trivial (.step trivial (link_alone h))))
  · next hl =>
    rw [if_neg hl] at h
    exact h

/-- The loop, to where `seek` stops. -/
theorem search_alone {r : Option U32} : ∀ (fuel : Nat) (x : U32),
    seek (listNext s.mem) L.chain (fits bytes s.mem) fuel x = some r →
    Alone L bytes (match r with | none => (s, .curbrk none) | some ptr => (s, .magic ptr)) y →
    Alone L bytes (s, .test x) y
  | 0, _, hr, _ => by cases hr
  | fuel + 1, x, hr, h => by
    refine .step trivial ?_
    unfold seek at hr
    dsimp only [kmallocStmt]
    split at hr
    · next hx =>
      rw [if_pos hx]
      obtain rfl := Option.some.inj hr
      exact h
    next hx =>
    rw [if_neg hx]
    split at hr
    · next hf =>
      rw [if_pos hf]
      obtain rfl := Option.some.inj hr
      exact h
    · next hf =>
      rw [if_neg hf]
      exact .step trivial (search_alone fuel _ hr h)

/-- **A call left alone is `kmalloc`.** -/
theorem kmalloc_alone {p : U32} {s' : Heap} (hne : bytes ≠ 0) (hk : kmalloc L bytes s = some (p, s')) :
    ∃ s₁ ptr, Alone L bytes (s, .test (listNext s.mem L.chain)) (s₁, .count ptr) ∧
      kmallocStmt L bytes (s₁, .count ptr) = (s', .done p) := by
  unfold kmalloc at hk
  rw [if_neg hne] at hk
  cases hr : searchChain L bytes s.mem with
  | none =>
    rw [hr] at hk
    cases hk
  | some r =>
    rw [hr] at hk
    cases r with
    | none =>
      obtain ⟨rfl, rfl⟩ := Prod.mk.inj (Option.some.inj hk)
      refine ⟨_, _, search_alone _ _ hr (.step trivial (grow_alone (mark_alone _ _))), rfl⟩
    | some ptr =>
      obtain ⟨rfl, rfl⟩ := Prod.mk.inj (Option.some.inj hk)
      exact ⟨_, _, search_alone _ _ hr (.step trivial (.step trivial (reuse_alone (mark_alone _ _)))), rfl⟩

end

/-! Many processes. -/

variable {ι : Type} {L : HeapLayout} {bytes : ι → U32} {live : List (U32 × U32)}

/-- Process `i` calls `kmalloc(bytes i, flags)`. -/
def KmallocRun (L : HeapLayout) (bytes : ι → U32) : Program ι Heap KmallocPc :=
  fun i s l s' l' => (s', l') = kmallocStmt L (bytes i) (s, l)

def payloadOf : KmallocPc → Option U32
  | .count ptr => some (ptr + headLen)
  | .done p => some p
  | _ => none

/-- The heap holds the blocks `bs`, and each payload handed out is one's of its own. -/
structure HandedOut (L : HeapLayout) (bytes : ι → U32) (live : List (U32 × U32)) (bs : List Block)
    (c : Config ι Heap KmallocPc) : Prop where
  heap : HeapInv L c.shared bs
  liveIn : LiveIn bs live
  owner : ∀ i p, bytes i ≠ 0 → payloadOf (c.loc i) = some p →
    ∃ b ∈ bs, b.used = true ∧ p = b.payload ∧ bytes i ≤ b.size
  apart : ∀ i p, bytes i ≠ 0 → payloadOf (c.loc i) = some p → ∀ l ∈ live, p ≠ l.1
  distinct : ∀ i j p q, i ≠ j → bytes i ≠ 0 → bytes j ≠ 0 → payloadOf (c.loc i) = some p →
    payloadOf (c.loc j) = some q → p ≠ q
  asks : ∀ i, c.loc i = .first → bytes i ≠ 0

def Calm (L : HeapLayout) (bytes : ι → U32) (live : List (U32 × U32)) (c : Config ι Heap KmallocPc) : Prop :=
  (∀ j, ¬ Searching (c.loc j)) ∧ ∃ bs, HandedOut L bytes live bs c

variable [DecidableEq ι]

/-- Process `i` is in its search, and its statements alone lead to a heap that is in order. -/
def Busy (L : HeapLayout) (bytes : ι → U32) (live : List (U32 × U32)) (c : Config ι Heap KmallocPc) (i : ι) : Prop :=
  (∀ j, j ≠ i → ¬ Searching (c.loc j)) ∧ ∃ s l, Alone L (bytes i) (c.shared, c.loc i) (s, l) ∧
    ¬ Searching l ∧ ∃ bs, HandedOut L bytes live bs (c.put i s l)

/-- A process searches the chain only while no other does, and only for what the heap can serve. -/
def OneSearch (L : HeapLayout) (bytes : ι → U32) (i : ι) (c : Config ι Heap KmallocPc) : Prop :=
  (c.loc i = .first → Admissible L (bytes i) c.shared) ∧
    (c.loc i = .first ∨ Searching (c.loc i) → ∀ j, j ≠ i → ¬ Searching (c.loc j))

section

variable {c c₀ : Config ι Heap KmallocPc} {bs : List Block} {i : ι}

omit [DecidableEq ι] in
theorem HandedOut.same {c' : Config ι Heap KmallocPc} (h : HandedOut L bytes live bs c)
    (hs : c'.shared.mem = c.shared.mem ∧ c'.shared.base = c.shared.base ∧ c'.shared.brk = c.shared.brk)
    (hl : ∀ i, bytes i ≠ 0 → payloadOf (c'.loc i) = payloadOf (c.loc i))
    (hf : ∀ i, c'.loc i = .first → bytes i ≠ 0) : HandedOut L bytes live bs c' := by
  obtain ⟨hm, hb, hk⟩ := hs
  refine ⟨⟨?_, ?_, ?_, ?_, ?_⟩, h.liveIn, ?_, ?_, ?_, hf⟩
  · rw [hm]
    exact h.heap.ring
  · rw [hm]
    exact h.heap.headers
  · rw [hb, hk]
    exact h.heap.covers
  · rw [hb]
    exact h.heap.base_eq
  · rw [hk]
    exact h.heap.brk_lt
  · exact fun i p hne hp => h.owner i p hne (hl i hne ▸ hp)
  · exact fun i p hne hp => h.apart i p hne (hl i hne ▸ hp)
  · exact fun i j p q hij hi hj hp hq => h.distinct i j p q hij hi hj (hl i hi ▸ hp) (hl j hj ▸ hq)

theorem HandedOut.search (h : HandedOut L bytes live bs c) (hne : bytes i ≠ 0) (had : Admissible L (bytes i) c.shared)
    (hl : c.loc i = .first) : ∃ s ptr,
      Alone L (bytes i) (c.shared, .test (listNext c.shared.mem L.chain)) (s, .count ptr) ∧
        ∃ bs', HandedOut L bytes live bs' (c.put i s (.count ptr)) := by
  obtain ⟨s', bs', y, hk, hi', hy, hu, hsz, hold, -⟩ := kmalloc_step h.heap hne had
  obtain ⟨s, ptr, halone, hcount⟩ := kmalloc_alone hne hk
  obtain ⟨hs', hp⟩ := Prod.mk.inj hcount
  obtain hp : ptr + headLen = y.payload := KmallocPc.done.inj hp
  have hnew : ∀ b ∈ bs, b.used = true → y.payload ≠ b.payload :=
    fun b hb hbu e => (hold b hb hbu).2 (payload_inj e).symm
  have hothers : ∀ j p, bytes j ≠ 0 → payloadOf (c.loc j) = some p → y.payload ≠ p := by
    intro j p hj hpj
    obtain ⟨b, hb, hbu, rfl, -⟩ := h.owner j p hj hpj
    exact hnew b hb hbu
  -- what a process has after the search: the new payload, or what it had
  have hpay : ∀ j p, bytes j ≠ 0 → payloadOf ((c.put i s (.count ptr)).loc j) = some p →
      j = i ∧ p = y.payload ∨ j ≠ i ∧ payloadOf (c.loc j) = some p := by
    intro j p hj hpj
    by_cases hji : j = i
    · subst hji
      rw [Config.put_self] at hpj
      exact .inl ⟨rfl, (Option.some.inj hpj).symm.trans hp⟩
    · rw [Config.put_ne _ _ _ hji] at hpj
      exact .inr ⟨hji, hpj⟩
  refine ⟨s, ptr, halone, bs', ⟨?_, ?_, ?_, ?_, ?_, ?_⟩⟩
  · subst hs'
    exact ⟨hi'.ring, hi'.headers, hi'.covers, hi'.base_eq, hi'.brk_lt⟩
  · exact h.liveIn.mono fun b hb hbu => (hold b hb hbu).1
  · intro j p hj hpj
    obtain ⟨rfl, rfl⟩ | ⟨-, hpj⟩ := hpay j p hj hpj
    · exact ⟨y, hy, hu, rfl, hsz⟩
    · obtain ⟨b, hb, hbu, hbp, hbs⟩ := h.owner j p hj hpj
      exact ⟨b, (hold b hb hbu).1, hbu, hbp, hbs⟩
  · intro j p hj hpj l hlm
    obtain ⟨rfl, rfl⟩ | ⟨-, hpj⟩ := hpay j p hj hpj
    · obtain ⟨b, hb, hbu, hbp, -⟩ := h.liveIn.owner l hlm
      rw [hbp]
      exact hnew b hb hbu
    · exact h.apart j p hj hpj l hlm
  · intro j k p q hjk hj hk' hpj hpk
    rcases hpay j p hj hpj with ⟨hji, rfl⟩ | ⟨-, hpj'⟩ <;> rcases hpay k q hk' hpk with ⟨hki, rfl⟩ | ⟨-, hpk'⟩
    · exact absurd (hji.trans hki.symm) hjk
    · exact hothers k q hk' hpk'
    · exact (hothers j p hj hpj').symm
    · exact h.distinct j k p q hjk hj hk' hpj' hpk'
  · exact Config.forall_put (p := fun j l => l = KmallocPc.first → bytes j ≠ 0) (by simp) fun j _ => h.asks j

/-- A statement outside the search: what it changes is the count of the used blocks. -/
theorem stmt_outside {l : KmallocPc} {n : U32} (hf : l ≠ .first) (ho : ¬ Searching l) : ∃ u l', ¬ Searching l' ∧
    (∀ s, kmallocStmt L n (s, l) = ({ s with usedBlocks := s.usedBlocks + u }, l')) ∧
    (n ≠ 0 → payloadOf l' = payloadOf l) ∧ (l' = .first → n ≠ 0) := by
  cases l with
  | start =>
    by_cases hn : n = 0
    · exact ⟨0, .done 0, id, fun s => by simp [kmallocStmt, hn], fun h => absurd hn h, by simp⟩
    · refine ⟨0, .first, id, fun s => ?_, fun _ => rfl, fun _ => hn⟩
      rw [kmallocStmt, if_neg hn]
      simp
  | count ptr => exact ⟨1, .done (ptr + headLen), id, fun _ => rfl, fun _ => rfl, by simp⟩
  | done p => exact ⟨0, .done p, id, fun s => by simp [kmallocStmt], fun _ => rfl, by simp⟩
  | first => exact absurd rfl hf
  | _ => exact absurd trivial ho

/-- The statements of a search do not look at the count of the used blocks. -/
theorem alone_used {n : U32} (u : U32) {x y : Heap × KmallocPc} (h : Alone L n x y) :
    Alone L n ({ x.1 with usedBlocks := x.1.usedBlocks + u }, x.2)
      ({ y.1 with usedBlocks := y.1.usedBlocks + u }, y.2) := by
  refine h.map (fun s => { s with usedBlocks := s.usedBlocks + u }) ?_
  intro s l hl
  cases l with
  | start | first | count _ | done _ => exact absurd hl id
  | curbrk ptr => cases ptr <;> rfl
  | magic ptr =>
    simp only [kmallocStmt, Heap.panic]
    split <;> rfl
  | _ => rfl

theorem HandedOut.outside {u : U32} {l : KmallocPc} (h : HandedOut L bytes live bs c)
    (hpay : bytes i ≠ 0 → payloadOf l = payloadOf (c.loc i)) (hfirst : l = .first → bytes i ≠ 0) :
    HandedOut L bytes live bs (c.put i { c.shared with usedBlocks := c.shared.usedBlocks + u } l) := by
  refine h.same ⟨rfl, rfl, rfl⟩ ?_ ?_
  · exact Config.forall_put (p := fun j l => bytes j ≠ 0 → payloadOf l = payloadOf (c.loc j)) hpay fun _ _ _ => rfl
  · exact Config.forall_put (p := fun j l => l = KmallocPc.first → bytes j ≠ 0) hfirst fun j _ => h.asks j

theorem calm_step (h : Calm L bytes live c) (hok : OneSearch L bytes i c) {s : Heap} {l : KmallocPc}
    (hp : (s, l) = kmallocStmt L (bytes i) (c.shared, c.loc i)) :
    Calm L bytes live (c.put i s l) ∨ Busy L bytes live (c.put i s l) i := by
  obtain ⟨hcalm, bs, hs⟩ := h
  by_cases hf : c.loc i = .first
  · obtain ⟨s', ptr, halone, hserved⟩ := hs.search (hs.asks i hf) (hok.1 hf) hf
    rw [hf] at hp
    obtain ⟨rfl, rfl⟩ := Prod.mk.inj hp
    refine .inr ⟨fun j hj => ?_, s', .count ptr, ?_, id, ?_⟩
    · rw [Config.put_ne _ _ _ hj]
      exact hcalm j
    · rw [Config.put_self]
      exact halone
    · rw [Config.put_put]
      exact hserved
  · obtain ⟨u, l', ho, hu, hpay, hfirst⟩ := stmt_outside (L := L) (n := bytes i) hf (hcalm i)
    rw [hu] at hp
    obtain ⟨rfl, rfl⟩ := Prod.mk.inj hp
    exact .inl ⟨Config.forall_put (p := fun _ l => ¬ Searching l) ho fun j _ => hcalm j, bs, hs.outside hpay hfirst⟩

theorem Busy.calm {k : ι} (h : Busy L bytes live c k) (hk : ¬ Searching (c.loc k)) : Calm L bytes live c := by
  obtain ⟨hcalm, s, l, halone, -, bs, hs⟩ := h
  refine ⟨fun j => ?_, bs, ?_⟩
  · by_cases hj : j = k
    · exact hj ▸ hk
    · exact hcalm j hj
  · cases halone with
    | stop _ => rwa [Config.put_eq_self] at hs
    | step hin _ => exact absurd hin hk

theorem busy_step {k : ι} (h : Busy L bytes live c k) (hok : OneSearch L bytes i c) {s : Heap} {l : KmallocPc}
    (hp : (s, l) = kmallocStmt L (bytes i) (c.shared, c.loc i)) :
    Calm L bytes live (c.put i s l) ∨ ∃ j, Busy L bytes live (c.put i s l) j := by
  by_cases hk : Searching (c.loc k)
  · obtain ⟨hcalm, s₁, l₁, halone, hout, bs, hs⟩ := h
    refine .inr ⟨k, ?_⟩
    by_cases hik : i = k
    · -- the process that searches goes on
      subst hik
      refine ⟨fun j hj => ?_, s₁, l₁, ?_, hout, bs, ?_⟩
      · rw [Config.put_ne _ _ _ hj]
        exact hcalm j hj
      · rw [Config.put_self, Config.put_shared, hp]
        cases halone with
        | stop hn => exact absurd hk hn
        | step _ h => exact h
      · rw [Config.put_put]
        exact hs
    · -- another one, outside of its own search
      have hi := fun hs => hok.2 hs k (Ne.symm hik) hk
      obtain ⟨u, l', ho, hu, hpay, hfirst⟩ :=
        stmt_outside (L := L) (n := bytes i) (fun hf => hi (.inl hf)) (fun hs => hi (.inr hs))
      rw [hu] at hp
      obtain ⟨rfl, rfl⟩ := Prod.mk.inj hp
      refine ⟨fun j hj => ?_, { s₁ with usedBlocks := s₁.usedBlocks + u }, l₁, ?_, hout, bs, ?_⟩
      · exact Config.forall_put (p := fun j l => j ≠ k → ¬ Searching l) (fun _ => ho) (fun j _ => hcalm j) j hj
      · rw [Config.put_ne _ _ _ (Ne.symm hik)]
        exact alone_used u halone
      · rw [Config.put_comm c hik _ s₁]
        refine hs.outside (fun hne => ?_) hfirst
        rw [Config.put_ne _ _ _ hik]
        exact hpay hne
  · exact (calm_step (h.calm hk) hok hp).imp_right fun h => ⟨i, h⟩

end

/-! What the calls promise. -/

def PayloadsApart (bytes : ι → U32) (c : Config ι Heap KmallocPc) : Prop :=
  ∀ i j p q, i ≠ j → bytes i ≠ 0 → bytes j ≠ 0 → c.loc i = .done p → c.loc j = .done q →
    p ≠ q ∧ (p.toNat + (bytes i).toNat ≤ q.toNat ∨ q.toNat + (bytes j).toNat ≤ p.toNat)

/-- The walk of the chain meets every block once, those returned too, and the blocks tile the heap. -/
def ChainWhole (L : HeapLayout) (bytes : ι → U32) (c : Config ι Heap KmallocPc) : Prop :=
  ∃ as, chainBlocks L c.shared.mem = some as ∧ as.Nodup ∧
    Covers extentLo (extentHi c.shared.mem) as c.shared.base.toNat c.shared.brk.toNat ∧
    ∀ i p, bytes i ≠ 0 → c.loc i = .done p → p - headLen ∈ as

section

variable {c c₀ : Config ι Heap KmallocPc} {bs : List Block}

omit [DecidableEq ι] in
theorem HandedOut.payloads (h : HandedOut L bytes live bs c) : PayloadsApart bytes c := by
  intro i j p q hij hi hj hp hq
  have hp : payloadOf (c.loc i) = some p := by rw [hp]; rfl
  have hq : payloadOf (c.loc j) = some q := by rw [hq]; rfl
  have hne := h.distinct i j p q hij hi hj hp hq
  have hlive : LiveIn bs [(p, bytes i), (q, bytes j)] := by
    obtain ⟨b, hb, hbu, hbp, hbs⟩ := h.owner i p hi hp
    obtain ⟨d, hd, hdu, hdp, hds⟩ := h.owner j q hj hq
    refine ⟨?_, by simpa using hne⟩
    exact List.forall_mem_cons.2 ⟨⟨b, hb, hbu, hbp, hbs⟩, List.forall_mem_cons.2 ⟨⟨d, hd, hdu, hdp, hds⟩, by simp⟩⟩
  have hpair := (live_apart h.heap hlive).2
  exact ⟨hne, (List.pairwise_cons.1 hpair).1 _ (List.mem_singleton_self _)⟩

omit [DecidableEq ι] in
theorem HandedOut.chain (h : HandedOut L bytes live bs c) : ChainWhole L bytes c := by
  refine ⟨bs.map Block.addr, chainBlocks_eq h.heap, addr_nodup h.heap.cover, chain_covers h.heap, fun i p hi hp => ?_⟩
  obtain ⟨b, hb, -, rfl, -⟩ := h.owner i p hi (by rw [hp]; rfl)
  rw [payload_sub]
  exact List.mem_map_of_mem hb

theorem Busy.payloads {k : ι} (h : Busy L bytes live c k) : PayloadsApart bytes c := by
  by_cases hk : Searching (c.loc k)
  · obtain ⟨-, s, l, -, -, bs, hs⟩ := h
    -- the one that searches has returned nothing
    have hkeep : ∀ i p, c.loc i = .done p → (c.put k s l).loc i = .done p := by
      intro i p hp
      rwa [Config.put_ne]
      rintro rfl
      rw [hp] at hk
      exact hk
    exact fun i j p q hij hi hj hp hq => hs.payloads i j p q hij hi hj (hkeep i p hp) (hkeep j q hq)
  · obtain ⟨-, bs, hs⟩ := h.calm hk
    exact hs.payloads

/-- **Processes that allocate at the same time** from a reachable heap get payloads of their own, and
the chain is whole when none of them is in its search, in every interleaving in which no process reads
or writes the chain while another one is in its search, and each search is for what the heap can serve. -/
theorem kmalloc_race (hr : Reach L c₀.shared live) (h₀ : ∀ i, c₀.loc i = .start)
    (h : Interleaving (KmallocRun L bytes) (OneSearch L bytes) c₀ c) :
    PayloadsApart bytes c ∧ ((∀ i, ¬ Searching (c.loc i)) → ChainWhole L bytes c) := by
  obtain ⟨bs, hi, hl⟩ := run_inv hr
  have hstart : Calm L bytes live c₀ := by
    refine ⟨fun j => by simp [h₀ j, Searching], bs, hi, hl, ?_, ?_, ?_, ?_⟩
    · simp [h₀, payloadOf]
    · simp [h₀, payloadOf]
    · simp [h₀, payloadOf]
    · simp [h₀]
  have hinv : Calm L bytes live c ∨ ∃ k, Busy L bytes live c k := by
    refine h.inv (I := fun c => Calm L bytes live c ∨ ∃ k, Busy L bytes live c k) (.inl hstart) ?_
    intro c i s l hc hok hp
    rcases hc with hc | ⟨k, hc⟩
    · exact (calm_step hc hok hp).imp_right fun h => ⟨i, h⟩
    · exact busy_step hc hok hp
  rcases hinv with ⟨-, bs, hs⟩ | ⟨k, hk⟩
  · exact ⟨hs.payloads, fun _ => hs.chain⟩
  · refine ⟨hk.payloads, fun hout => ?_⟩
    obtain ⟨-, bs, hs⟩ := hk.calm (hout k)
    exact hs.chain

end

/-! Two processes and one free block. -/

def twoStart : Config Bool Heap KmallocPc := ⟨sampleHeap, fun _ => .start⟩

instance : DecidablePred Searching
  | .start | .first | .count _ | .done _ => .isFalse id
  | .test _ | .next _ | .magic _ | .curbrk _ | .sbrk | .kbrk _ | .setBrk _ | .refused | .got | .size _ | .setMagic _
  | .nullState _ | .leftover _ | .restSize _ _ | .restMagic _ | .restState _ | .cut _ | .link _ _ | .linkPrev _ _ _
  | .linkNewNext _ _ _ | .linkNewPrev _ _ | .linkNext _ _ | .total _ | .mark _ => .isTrue trivial

instance (s : Heap) (n : U32) : Decidable (Admissible L n s) := inferInstanceAs (Decidable (_ ∨ _))

instance (n : Bool → U32) (i : Bool) (c : Config Bool Heap KmallocPc) : Decidable (OneSearch L n i c) :=
  inferInstanceAs (Decidable (_ ∧ _))

def ask30 (_ : Unit) (x : Heap × KmallocPc) : Heap × KmallocPc := kmallocStmt sampleLayout 30 x

def turns30 (i : Bool) (n : Nat) : List (Bool × Unit) := List.replicate n (i, ())

/-- The second process calls while the first one searches, and searches when the first has marked its block. -/
def oneByOne : List (Bool × Unit) :=
  turns30 true 1 ++ turns30 false 1 ++ turns30 true 6 ++ turns30 false 1 ++ turns30 true 1 ++ turns30 false 23

theorem kmalloc_race_sample : ∃ c, Interleaving (KmallocRun sampleLayout fun _ => 30) (OneSearch sampleLayout fun _ => 30)
      twoStart c ∧ c.loc true = .done 0xC000A050 ∧ c.loc false = .done 0xC000B0A0 ∧
    PayloadsApart (fun _ => 30) c ∧ ChainWhole sampleLayout (fun _ => 30) c := by
  have hok : twoStart.Plays ask30 (fun _ => OneSearch sampleLayout fun _ => 30) oneByOne := by decide +kernel
  have h₁ : (twoStart.play ask30 oneByOne).loc true = .done 0xC000A050 := by decide +kernel
  have h₂ : (twoStart.play ask30 oneByOne).loc false = .done 0xC000B0A0 := by decide +kernel
  have hrun : Interleaving (KmallocRun sampleLayout fun _ => 30) (OneSearch sampleLayout fun _ => 30) twoStart _ :=
    Interleaving.play ask30 (fun _ => OneSearch sampleLayout fun _ => 30) (fun _ _ _ h => ⟨h, rfl⟩) oneByOne .start hok
  obtain ⟨hpay, hchain⟩ := kmalloc_race sampleHeap_reach (fun _ => rfl) hrun
  refine ⟨_, hrun, h₁, h₂, hpay, hchain fun i => ?_⟩
  cases i with
  | true =>
    rw [h₁]
    exact id
  | false =>
    rw [h₂]
    exact id

def sameBlock : List (Bool × Unit) := turns30 true 4 ++ turns30 false 8 ++ turns30 true 4

/-- The first process finds the free block and loses the processor; the second one finds it, too,
and takes it; the first goes on. Both return the same payload. -/
theorem kmalloc_race_same : Reach sampleLayout twoStart.shared [(0xC000A014, 40), (0xC000A08C, 4096)] ∧
    (∀ i, twoStart.loc i = .start) ∧
    ∃ c, Interleaving (KmallocRun sampleLayout fun _ => 30) (fun _ _ => True) twoStart c ∧
      c.loc true = .done 0xC000A050 ∧ c.loc false = .done 0xC000A050 ∧ ¬ PayloadsApart (fun _ => 30) c := by
  have hok : twoStart.Plays ask30 (fun _ _ _ => True) sameBlock := by decide
  have h₁ : (twoStart.play ask30 sameBlock).loc true = .done 0xC000A050 := by decide
  have h₂ : (twoStart.play ask30 sameBlock).loc false = .done 0xC000A050 := by decide
  have hrun : Interleaving (KmallocRun sampleLayout fun _ => 30) (fun _ _ => True) twoStart _ :=
    Interleaving.play ask30 (fun _ _ _ => True) (fun _ _ _ _ => ⟨trivial, rfl⟩) sameBlock .start hok
  refine ⟨sampleHeap_reach, fun _ => rfl, _, hrun, h₁, h₂, fun hp => ?_⟩
  exact (hp true false _ _ (by decide) (by decide) (by decide) h₁ h₂).1 rfl

end LineOS
