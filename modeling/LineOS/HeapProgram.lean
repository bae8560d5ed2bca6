import LineOS.HeapRun
import LineOS.LazyMemory

/- `mm/heap.c` access by access. The functions of `Heap` compute on a memory as a
   value; here they are programs (`Prog`) of byte loads and stores, in the order
   of the source, with the variables of the file beside them. The flat run of
   each program is the function of the model (`kmallocP_flat`, `kfreeP_flat`),
   and on a well-formed heap it stays in the heap, the chain's head and the byte
   at `NULL + 16` (`kmallocP_stays`, `kfreeP_stays`). -/
namespace LineOS
open ByteMemory ByteMemory.Mem LinkedRing LazyMemory Tiling

/-- Programs over byte-addressed memory. -/
abbrev ByteProg (R : Type) := Prog U32 U8 R

/-! Accesses of a byte and of a word. -/

def getByte (a : U32) : ByteProg U8 := .load a .ret

def putByte (a : U32) (v : U8) : ByteProg Unit := .store a v (.ret ())

def getWord (a : U32) : ByteProg U32 :=
  .load a fun b₀ => .load (a + 1) fun b₁ => .load (a + 2) fun b₂ => .load (a + 3) fun b₃ => .ret (b₃ ++ b₂ ++ b₁ ++ b₀)

def putWord (a w : U32) : ByteProg Unit :=
  .store a (w.extractLsb' 0 8) (.store (a + 1) (w.extractLsb' 8 8) (.store (a + 2) (w.extractLsb' 16 8)
    (.store (a + 3) (w.extractLsb' 24 8) (.ret ()))))

section
variable {D : U32 → Prop} {m : Mem} {a : U32}

theorem getByte_flat (m : Mem) (a : U32) : (getByte a).flat m.byte = (m.byte a, m.byte) := rfl

theorem getWord_flat (m : Mem) (a : U32) : (getWord a).flat m.byte = (m.load32 a, m.byte) := rfl

theorem byte_update (m : Mem) (a : U32) (v : U8) : Function.update m.byte a v = (m.store8 a v).byte := by
  funext x
  rw [Function.update_apply, byte_store8]

theorem putByte_flat (m : Mem) (a : U32) (v : U8) : (putByte a v).flat m.byte = ((), (m.store8 a v).byte) := by
  rw [putByte, Prog.flat, byte_update, Prog.flat]

theorem putWord_flat (m : Mem) (a w : U32) : (putWord a w).flat m.byte = ((), (m.store32 a w).byte) := by
  simp only [putWord, Prog.flat, byte_update, store32]

theorem getByte_stays (f : U32 → U8) (h : D a) : (getByte a).Stays D f := ⟨h, trivial⟩

theorem putByte_stays (f : U32 → U8) (v : U8) (h : D a) : (putByte a v).Stays D f := ⟨h, trivial⟩

theorem word_span (ha : a.toNat + 4 ≤ 2 ^ 32) (h : ∀ x, InSpan a 4 x → D x) : D a ∧ D (a + 1) ∧ D (a + 2) ∧ D (a + 3) :=
  ⟨h _ (by unfold InSpan; omega), h _ (by unfold InSpan; bv_omega), h _ (by unfold InSpan; bv_omega),
    h _ (by unfold InSpan; bv_omega)⟩

theorem getWord_stays (f : U32 → U8) (ha : a.toNat + 4 ≤ 2 ^ 32) (h : ∀ x, InSpan a 4 x → D x) :
    (getWord a).Stays D f := by
  obtain ⟨h₀, h₁, h₂, h₃⟩ := word_span ha h
  exact ⟨h₀, h₁, h₂, h₃, trivial⟩

theorem putWord_stays (f : U32 → U8) (w : U32) (ha : a.toNat + 4 ≤ 2 ^ 32) (h : ∀ x, InSpan a 4 x → D x) :
    (putWord a w).Stays D f := by
  obtain ⟨h₀, h₁, h₂, h₃⟩ := word_span ha h
  exact ⟨h₀, h₁, h₂, h₃, trivial⟩

end

/-! `include/ds/list.h`. -/

def initListHeadP (p : U32) : ByteProg Unit := (putWord p p).bind fun _ => putWord (p + 4) p

def listAddP (new head : U32) : ByteProg Unit :=
  (getWord head).bind fun next => (putWord (next + 4) new).bind fun _ => (putWord new next).bind fun _ =>
    (putWord (new + 4) head).bind fun _ => putWord head new

theorem initListHeadP_flat (m : Mem) (p : U32) : (initListHeadP p).flat m.byte = ((), (initListHead p m).byte) := by
  rw [initListHeadP, Prog.flat_bind, putWord_flat, putWord_flat, initListHead]

theorem listAddP_flat (m : Mem) (new head : U32) :
    (listAddP new head).flat m.byte = ((), (listAdd new head m).byte) := by
  rw [listAddP, Prog.flat_bind, getWord_flat, Prog.flat_bind, putWord_flat, Prog.flat_bind, putWord_flat,
    Prog.flat_bind, putWord_flat, putWord_flat]
  rfl

/-! `mm/heap.c`. The memory of `s` is not read: the programs run on another. -/

/-- The variables of the heap, over memory `m`. -/
def Heap.over (s : Heap) (m : Mem) : Heap := { s with mem := m }

@[simp] theorem Heap.over_mem (s : Heap) (m : Mem) : (s.over m).mem = m := rfl
@[simp] theorem Heap.over_over (s : Heap) (m m' : Mem) : (s.over m).over m' = s.over m' := rfl
@[simp] theorem Heap.over_self (s : Heap) : s.over s.mem = s := rfl

def initHeapP (L : HeapLayout) : ByteProg Unit := (initListHeadP L.chain).bind fun _ => initListHeadP L.tempMap

/-- The search loop. -/
def searchP (L : HeapLayout) (bytes : U32) : Nat → U32 → ByteProg (Option (Option U32))
  | 0, _ => .ret none
  | fuel + 1, p =>
    if p = L.chain then .ret (some none)
    else (getWord (p + 12)).bind fun size => (getByte (p + 16)).bind fun state =>
      if decide (bytes ≤ size) && !stateUsed state then .ret (some (some p))
      else (getWord p).bind (searchP L bytes fuel)

def kmallocGrowP (L : HeapLayout) (bytes : U32) (s : Heap) : ByteProg (U32 × Heap) :=
  let (ptr, s) := ksbrk (headLen + bytes) s
  (putWord (ptr + 12) bytes).bind fun _ => (putWord (ptr + 8) 0xBEEF).bind fun _ => (putByte (0 + 16) 0).bind fun _ =>
    (listAddP ptr L.chain).bind fun _ => .ret (ptr, { s with totalBlocks := s.totalBlocks + 1 })

def kmallocReuseP (L : HeapLayout) (bytes ptr : U32) (s : Heap) : ByteProg Heap :=
  (getWord (ptr + 12)).bind fun size =>
    let leftover := size - bytes
    if headLen + 8 ≤ leftover then
      let sb := ptr + headLen + bytes
      (putWord (sb + 12) (leftover - headLen)).bind fun _ => (putWord (sb + 8) 0xBEEF).bind fun _ =>
        (putByte (sb + 16) 0).bind fun _ => (putWord (ptr + 12) bytes).bind fun _ =>
          (listAddP sb L.chain).bind fun _ => .ret { s with totalBlocks := s.totalBlocks + 1 }
    else .ret s

def kmallocTakeP (ptr : U32) (s : Heap) : ByteProg (U32 × Heap) :=
  (getByte (ptr + 16)).bind fun state => (putByte (ptr + 16) (state ||| 1)).bind fun _ =>
    .ret (ptr + headLen, { s with usedBlocks := s.usedBlocks + 1 })

def kmallocP (L : HeapLayout) (bytes : U32) (s : Heap) : ByteProg (Option (U32 × Heap)) :=
  if bytes = 0 then .ret (some (0, s))
  else (getWord L.chain).bind fun p => (searchP L bytes (2 ^ 32) p).bind fun r =>
    match r with
    | none => .ret none
    | some none => (kmallocGrowP L bytes s).bind fun x => (kmallocTakeP x.1 x.2).bind fun r => .ret (some r)
    | some (some ptr) => (getWord (ptr + 8)).bind fun magic =>
      (kmallocReuseP L bytes ptr (if magic != 0xBEEF then s.panic "Corruption in malloc chain!" else s)).bind fun s =>
        (kmallocTakeP ptr s).bind fun r => .ret (some r)

def kfreeP (p : U32) (s : Heap) : ByteProg Heap :=
  if p = 0 then .ret s
  else
    let ptr := p - headLen
    (getWord (ptr + 8)).bind fun magic =>
      let s := if magic != 0xBEEF then s.panic "Attempt to free corrupt/non existent block!" else s
      (getByte (ptr + 16)).bind fun state => (putByte (ptr + 16) (state &&& 0)).bind fun _ =>
        .ret { s with usedBlocks := s.usedBlocks - 1 }

/-! The programs compute what the model computes. -/

section
variable {L : HeapLayout}

theorem initHeapP_flat (m : Mem) : (initHeapP L).flat m.byte = ((), (initHeap L m).mem.byte) := by
  rw [initHeapP, Prog.flat_bind, initListHeadP_flat, initListHeadP_flat]
  rfl

theorem searchP_flat (bytes : U32) (m : Mem) : ∀ (fuel : Nat) (p : U32),
    (searchP L bytes fuel p).flat m.byte = (seek (listNext m) L.chain (fits bytes m) fuel p, m.byte) := by
  intro fuel
  induction fuel with
  | zero => exact fun _ => rfl
  | succ fuel ih =>
    intro p
    rw [searchP, seek]
    by_cases hp : p = L.chain
    · rw [if_pos hp, if_pos hp]
      rfl
    · rw [if_neg hp, if_neg hp, Prog.flat_bind, getWord_flat, Prog.flat_bind, getByte_flat]
      have hfit : (decide (bytes ≤ m.load32 (p + 12)) && !stateUsed (m.byte (p + 16))) = fits bytes m p := rfl
      rw [hfit]
      by_cases hf : fits bytes m p = true
      · rw [if_pos hf, if_pos hf]
        rfl
      · rw [if_neg hf, if_neg hf, Prog.flat_bind, getWord_flat]
        exact ih _

theorem kmallocTakeP_flat (ptr : U32) (s : Heap) (m : Mem) : (kmallocTakeP ptr s).flat m.byte =
    (((kmallocTake ptr (s.over m)).1, (kmallocTake ptr (s.over m)).2.over s.mem),
      (kmallocTake ptr (s.over m)).2.mem.byte) := by
  rw [kmallocTakeP, Prog.flat_bind, getByte_flat, Prog.flat_bind, putByte_flat]
  rfl

/-- `ksbrk` does not look at memory. -/
theorem ksbrk_over (n : U32) (s : Heap) (m : Mem) : ksbrk n (s.over m) = ((ksbrk n s).1, (ksbrk n s).2.over m) := by
  have hbrk : (s.over m).brk = s.brk := rfl
  unfold ksbrk kbrk
  rw [hbrk]
  by_cases hn : n = 0
  · rw [if_pos hn, if_pos hn]
  · by_cases hm : brkMax ≤ s.brk + n
    · rw [if_neg hn, if_neg hn, if_pos hm, if_pos hm]
      rfl
    · rw [if_neg hn, if_neg hn, if_neg hm, if_neg hm]
      rfl

theorem kmallocGrowP_flat (bytes : U32) (s : Heap) (m : Mem) : (kmallocGrowP L bytes s).flat m.byte =
    (((kmallocGrow L bytes (s.over m)).1, (kmallocGrow L bytes (s.over m)).2.over s.mem),
      (kmallocGrow L bytes (s.over m)).2.mem.byte) := by
  have hmem : (ksbrk (headLen + bytes) s).2.mem = s.mem := by
    rcases ksbrk_cases (headLen + bytes) s with ⟨_, e⟩ | ⟨_, _, e⟩ | ⟨_, _, e⟩ <;>
      simp [e, Heap.panic]
  rw [kmallocGrowP, kmallocGrow, ksbrk_over]
  simp only [Prog.flat_bind, putWord_flat, putByte_flat, listAddP_flat, Prog.flat, Heap.over, ← hmem]

theorem kmallocReuseP_flat (bytes ptr : U32) (s : Heap) (m : Mem) : (kmallocReuseP L bytes ptr s).flat m.byte =
    ((kmallocReuse L bytes ptr (s.over m)).over s.mem, (kmallocReuse L bytes ptr (s.over m)).mem.byte) := by
  rw [kmallocReuseP, kmallocReuse, Prog.flat_bind, getWord_flat]
  show (if headLen + 8 ≤ headSize m ptr - bytes then _ else _ : ByteProg Heap).flat m.byte = _
  have hsize : headSize (s.over m).mem ptr = headSize m ptr := rfl
  rw [hsize]
  by_cases hl : headLen + 8 ≤ headSize m ptr - bytes
  · simp only [if_pos hl, Prog.flat_bind, putWord_flat, putByte_flat, listAddP_flat]
    rfl
  · simp only [if_neg hl]
    rfl

/-- The result of the program beside the result of the model. -/
def besides (s : Heap) (m : Mem) : Option (U32 × Heap) → Option (U32 × Heap) × (U32 → U8)
  | none => (none, m.byte)
  | some (p, s') => (some (p, s'.over s.mem), s'.mem.byte)

/-- **`kmalloc`, access by access.** -/
theorem kmallocP_flat (bytes : U32) (s : Heap) (m : Mem) :
    (kmallocP L bytes s).flat m.byte = besides s m (kmalloc L bytes (s.over m)) := by
  rw [kmallocP, kmalloc]
  by_cases hz : bytes = 0
  · rw [if_pos hz, if_pos hz]
    rfl
  · have hseek : seek (listNext m) L.chain (fits bytes m) (2 ^ 32) (m.load32 L.chain) = searchChain L bytes m := by
      rw [searchChain, listNext]
    rw [if_neg hz, if_neg hz, Prog.flat_bind, getWord_flat, Prog.flat_bind, searchP_flat, Heap.over_mem, hseek]
    generalize searchChain L bytes m = r
    cases r with
    | none => rfl
    | some r =>
      cases r with
      | none =>
        simp only [Prog.flat_bind, kmallocGrowP_flat, kmallocTakeP_flat, Heap.over_over, Heap.over_self, Heap.over_mem,
          Prog.flat, besides]
      | some ptr =>
        have hm : m.load32 (ptr + 8) = headMagic m ptr := rfl
        have hpanic : (if headMagic m ptr != 0xBEEF then s.panic "Corruption in malloc chain!" else s).over m =
            if headMagic m ptr != 0xBEEF then (s.over m).panic "Corruption in malloc chain!" else s.over m := by
          split <;> rfl
        have hkeep : (if headMagic m ptr != 0xBEEF then s.panic "Corruption in malloc chain!" else s).mem = s.mem := by
          split <;> rfl
        simp only [Prog.flat_bind, getWord_flat, kmallocReuseP_flat, kmallocTakeP_flat, Heap.over_over, Heap.over_self,
          Heap.over_mem, Prog.flat, besides, hm, hpanic, hkeep]

theorem kfreeP_flat (p : U32) (s : Heap) (m : Mem) : (kfreeP p s).flat m.byte =
    ((kfree p (s.over m)).over s.mem, (kfree p (s.over m)).mem.byte) := by
  rw [kfreeP, kfree]
  by_cases hz : p = 0
  · rw [if_pos hz, if_pos hz]
    rfl
  · rw [if_neg hz, if_neg hz]
    have hm : m.load32 (p - headLen + 8) = headMagic m (p - headLen) := rfl
    by_cases hc : (headMagic m (p - headLen) != 0xBEEF) = true
    · have hc' : (headMagic (s.over m).mem (p - headLen) != 0xBEEF) = true := hc
      simp only [if_pos hc', Prog.flat_bind, getWord_flat, getByte_flat, putByte_flat, Prog.flat, hm, if_pos hc]
      rfl
    · have hc' : ¬ (headMagic (s.over m).mem (p - headLen) != 0xBEEF) = true := hc
      simp only [if_neg hc', Prog.flat_bind, getWord_flat, getByte_flat, putByte_flat, Prog.flat, hm, if_neg hc]
      rfl

/-! Where the programs go. -/

/-- The heap up to `top`, the chain's head, and the byte at `NULL + 16`. -/
def HeapAddr (L : HeapLayout) (top : Nat) (x : U32) : Prop :=
  x = 16 ∨ InSpan L.chain 8 x ∨ L.kernelEnd.toNat ≤ x.toNat ∧ x.toNat < top

variable {top : Nat} {D : U32 → Prop} {m : Mem} {s : Heap} {bs : List Block}

theorem links_stay {a : U32} (ha : a.toNat + 8 ≤ 2 ^ 32) (h : ∀ x, InSpan a 8 x → D x) (f : U32 → U8) (w : U32) :
    (getWord a).Stays D f ∧ (putWord a w).Stays D f ∧ (putWord (a + 4) w).Stays D f := by
  have h4 := toNat_add_four ha
  exact ⟨getWord_stays f (by omega) (fun x hx => h x (inSpan_low hx)),
    putWord_stays f w (by omega) (fun x hx => h x (inSpan_low hx)),
    putWord_stays f w (by omega) (fun x hx => h x (inSpan_high ha hx))⟩

theorem initListHeadP_stays {p : U32} (hp : p.toNat + 8 ≤ 2 ^ 32) (h : ∀ x, InSpan p 8 x → D x) (m : Mem) :
    (initListHeadP p).Stays D m.byte := by
  refine Prog.stays_bind.mpr ⟨(links_stay hp h _ p).2.1, ?_⟩
  exact (links_stay hp h _ p).2.2

/-- `list_add` goes to the new node, the head, and the node that was first. -/
theorem listAddP_stays {new head : U32} {as : List U32} (hr : MemRing m head as)
    (htop : ∀ a ∈ new :: head :: as, a.toNat + 8 ≤ 2 ^ 32) (h : ∀ a ∈ new :: head :: as, ∀ x, InSpan a 8 x → D x) :
    (listAddP new head).Stays D m.byte := by
  have hlinks := fun a ha => links_stay (htop a ha) (h a ha)
  have hnext : listNext m head ∈ new :: head :: as := List.mem_cons_of_mem new (listNext_mem hr)
  rw [listAddP]
  refine Prog.stays_bind.mpr ⟨(hlinks head (by simp) _ 0).1, ?_⟩
  rw [getWord_flat]
  refine Prog.stays_bind.mpr ⟨(hlinks _ hnext _ new).2.2, ?_⟩
  refine Prog.stays_bind.mpr ⟨(hlinks new (by simp) _ _).2.1, ?_⟩
  refine Prog.stays_bind.mpr ⟨(hlinks new (by simp) _ head).2.2, ?_⟩
  exact (hlinks head (by simp) _ new).2.1

theorem fields_stay {p : U32} (hp : p.toNat + 20 ≤ 2 ^ 32) (h : ∀ x, InSpan p 20 x → D x) (f : U32 → U8) (w : U32)
    (v : U8) : ((getWord (p + 8)).Stays D f ∧ (putWord (p + 8) w).Stays D f) ∧
      ((getWord (p + 12)).Stays D f ∧ (putWord (p + 12) w).Stays D f) ∧
      (getByte (p + 16)).Stays D f ∧ (putByte (p + 16) v).Stays D f := by
  have h8 : (p + 8).toNat = p.toNat + 8 := by bv_omega
  have h12 : (p + 12).toNat = p.toNat + 12 := by bv_omega
  have h16 : (p + 16).toNat = p.toNat + 16 := by bv_omega
  have hd8 : ∀ x, InSpan (p + 8) 4 x → D x := fun x hx => h x (by unfold InSpan at hx ⊢; omega)
  have hd12 : ∀ x, InSpan (p + 12) 4 x → D x := fun x hx => h x (by unfold InSpan at hx ⊢; omega)
  have hd16 : D (p + 16) := h _ (by unfold InSpan; omega)
  exact ⟨⟨getWord_stays f (by omega) hd8, putWord_stays f w (by omega) hd8⟩,
    ⟨getWord_stays f (by omega) hd12, putWord_stays f w (by omega) hd12⟩,
    getByte_stays f hd16, putByte_stays f v hd16⟩

theorem takeP_stays {p : U32} (hp : p.toNat + 20 ≤ 2 ^ 32) (h : ∀ x, InSpan p 20 x → D x) (s : Heap) (f : U32 → U8) :
    (kmallocTakeP p s).Stays D f := by
  refine Prog.stays_bind.mpr ⟨(fields_stay hp h _ 0 0).2.2.1, ?_⟩
  exact Prog.stays_bind.mpr ⟨(fields_stay hp h _ 0 _).2.2.2, trivial⟩

theorem searchP_stays (bytes : U32) : ∀ (fuel : Nat) (as : List U32),
    (as ++ [L.chain]).IsChain (Linked (listNext m) (listPrev m)) → (∀ a ∈ as, a.toNat + 20 ≤ 2 ^ 32) →
    (∀ a ∈ as, ∀ x, InSpan a 20 x → D x) → (searchP L bytes fuel (first L.chain as)).Stays D m.byte := by
  intro fuel
  induction fuel with
  | zero => exact fun _ _ _ _ => trivial
  | succ fuel ih =>
    intro as hc htop hD
    cases as with
    | nil =>
      show (searchP L bytes (fuel + 1) L.chain).Stays D m.byte
      rw [searchP, if_pos rfl]
      trivial
    | cons a as =>
      show (searchP L bytes (fuel + 1) a).Stays D m.byte
      rw [searchP]
      by_cases ha : a = L.chain
      · rw [if_pos ha]
        trivial
      · have hf := fields_stay (htop a (by simp)) (hD a (by simp))
        rw [if_neg ha]
        refine Prog.stays_bind.mpr ⟨(hf _ 0 0).2.1.1, ?_⟩
        refine Prog.stays_bind.mpr ⟨(hf _ 0 0).2.2.1, ?_⟩
        rw [getWord_flat, getByte_flat]
        split
        · trivial
        · have ht := htop a (by simp)
          refine Prog.stays_bind.mpr ⟨getWord_stays _ (by omega) (fun x hx => hD a (by simp) x ?_), ?_⟩
          · unfold InSpan at hx ⊢
            omega
          · rw [getWord_flat]
            have hnext : m.load32 a = first L.chain as := next_first hc
            rw [hnext]
            exact ih as (List.IsChain.tail hc) (fun x hx => htop x (by simp [hx])) (fun x hx => hD x (by simp [hx]))

theorem block_addr (hi : HeapInv L s bs) {b : Block} (hb : b ∈ bs) (htop : s.brk.toNat ≤ top) :
    b.addr.toNat + 20 ≤ 2 ^ 32 ∧ ∀ x, InSpan b.addr 20 x → HeapAddr L top x := by
  have h := hi.bounds hb
  refine ⟨by omega, fun x hx => Or.inr (Or.inr ?_)⟩
  unfold InSpan at hx
  omega

theorem chain_links (hi : HeapInv L s bs) {p : U32} (hlo : L.kernelEnd.toNat ≤ p.toNat) (hhi : p.toNat + 20 ≤ top)
    (hbrk : s.brk.toNat ≤ top) (ht : top ≤ 2 ^ 32) : ∀ a ∈ p :: L.chain :: bs.map Block.addr,
      a.toNat + 8 ≤ 2 ^ 32 ∧ ∀ x, InSpan a 8 x → HeapAddr L top x := by
  have hc := chain_bounds L
  intro a ha
  rcases List.mem_cons.mp ha with rfl | ha
  · refine ⟨by omega, fun x hx => Or.inr (Or.inr ?_)⟩
    unfold InSpan at hx
    omega
  rcases List.mem_cons.mp ha with rfl | ha
  · exact ⟨by omega, fun x hx => Or.inr (Or.inl hx)⟩
  · obtain ⟨b, hb, rfl⟩ := List.mem_map.mp ha
    obtain ⟨h₁, h₂⟩ := block_addr hi hb hbrk
    exact ⟨by omega, fun x hx => h₂ x (by unfold InSpan at hx ⊢; omega)⟩

theorem growP_stays {bytes : U32} {s₀ : Heap} (hs : s₀.over s.mem = s) (hi : HeapInv L s bs)
    (hlt : s.brk.toNat + 20 + bytes.toNat < brkMax.toNat) (htop : s.brk.toNat + 20 + bytes.toNat ≤ top)
    (ht : top ≤ 2 ^ 32) : (kmallocGrowP L bytes s₀).Stays (HeapAddr L top) s.mem.byte := by
  have hb : s₀.brk = s.brk := by rw [← hs]; rfl
  have hc := chain_bounds L
  have hle := hi.cover.le
  have hn : headLen + bytes ≠ 0 := by rw [brkMax_toNat] at hlt; unfold headLen; bv_omega
  have hl : (s.brk + (headLen + bytes)).toNat < brkMax.toNat := by
    rw [brkMax_toNat] at hlt ⊢
    unfold headLen
    bv_omega
  have hD : ∀ x, InSpan s.brk 20 x → HeapAddr L top x := by
    intro x hx
    unfold InSpan at hx
    exact Or.inr (Or.inr ⟨by omega, by omega⟩)
  have hf := fields_stay (by omega : s.brk.toNat + 20 ≤ 2 ^ 32) hD
  -- the chain is still the old one when the new block is linked
  have hframe := grow_frame hi (grow_head s.mem s.brk bytes (by omega) (by omega)).1
  have hlinks := @chain_links L top s bs hi s.brk hle (by omega) (by omega) ht
  rw [kmallocGrowP, ksbrk_ok hn (by rw [hb]; exact hl), hb]
  refine Prog.stays_bind.mpr ⟨(hf _ bytes 0).2.1.2, ?_⟩
  rw [putWord_flat]
  refine Prog.stays_bind.mpr ⟨(hf _ _ 0).1.2, ?_⟩
  rw [putWord_flat]
  refine Prog.stays_bind.mpr ⟨putByte_stays _ 0 (Or.inl rfl), ?_⟩
  rw [putByte_flat]
  refine Prog.stays_bind.mpr ⟨?_, trivial⟩
  exact listAddP_stays hframe.ring (fun a ha => (hlinks a ha).1) (fun a ha => (hlinks a ha).2)

theorem reuseP_stays {bytes : U32} {pre post : List Block} {b : Block} (hi : HeapInv L s (pre ++ b :: post))
    (hfit : bytes ≤ b.size) (htop : s.brk.toNat ≤ top) (ht : top ≤ 2 ^ 32) (s' : Heap) :
    (kmallocReuseP L bytes b.addr s').Stays (HeapAddr L top) s.mem.byte := by
  have hb := hi.bounds (b := b) (by simp)
  have hh := hi.headers b (by simp)
  obtain ⟨ha, hD⟩ := block_addr hi (b := b) (by simp) htop
  have hf := fields_stay ha hD
  rw [kmallocReuseP]
  refine Prog.stays_bind.mpr ⟨(hf _ 0 0).2.1.1, ?_⟩
  rw [getWord_flat]
  have hsize : s.mem.load32 (b.addr + 12) = b.size := hh.size
  show Prog.Stays _ (if headLen + 8 ≤ s.mem.load32 (b.addr + 12) - bytes then _ else _) _
  rw [hsize]
  by_cases hl : headLen + 8 ≤ b.size - bytes
  · obtain ⟨hra, hrs, hr8⟩ := rest_extent (b := b) (by omega) hfit hl
    have hsD : ∀ x, InSpan (b.rest bytes).addr 20 x → HeapAddr L top x := by
      intro x hx
      unfold InSpan at hx
      exact Or.inr (Or.inr ⟨by omega, by omega⟩)
    have hsf := fields_stay (by omega : (b.rest bytes).addr.toNat + 20 ≤ 2 ^ 32) hsD
    obtain ⟨_, _, hw⟩ := split_heads hh (by omega) hfit hl rfl
    obtain ⟨hr, _⟩ := inner_frame hi (hw.mono (fun x hx => by
      simp only [DataByte] at hx
      simp only [InnerByte, Block.hi]
      omega))
    have hlinks := @chain_links L top s _ hi (b.rest bytes).addr (by omega) (by omega) htop ht
    rw [if_pos hl]
    refine Prog.stays_bind.mpr ⟨(hsf _ _ 0).2.1.2, ?_⟩
    rw [putWord_flat]
    refine Prog.stays_bind.mpr ⟨(hsf _ _ 0).1.2, ?_⟩
    rw [putWord_flat]
    refine Prog.stays_bind.mpr ⟨(hsf _ 0 0).2.2.2, ?_⟩
    rw [putByte_flat]
    refine Prog.stays_bind.mpr ⟨(hf _ bytes 0).2.1.2, ?_⟩
    rw [putWord_flat]
    refine Prog.stays_bind.mpr ⟨?_, trivial⟩
    exact listAddP_stays hr (fun a ha => (hlinks a ha).1) (fun a ha => (hlinks a ha).2)
  · rw [if_neg hl]
    trivial

/-- **`kmalloc` on a well-formed heap** goes nowhere but to the heap and its chain. -/
theorem kmallocP_stays {bytes : U32} {s₀ : Heap} (hs : s₀.over s.mem = s) (hi : HeapInv L s bs)
    (had : Admissible L bytes s) (htop : FreeFits L bytes s.mem ∨ s.brk.toNat + 20 + bytes.toNat ≤ top)
    (hbrk : s.brk.toNat ≤ top) (ht : top ≤ 2 ^ 32) : (kmallocP L bytes s₀).Stays (HeapAddr L top) s.mem.byte := by
  have hc := chain_bounds L
  rw [kmallocP]
  by_cases hz : bytes = 0
  · rw [if_pos hz]
    trivial
  · rw [if_neg hz]
    refine Prog.stays_bind.mpr ⟨getWord_stays _ (by omega) (fun x hx => Or.inr (Or.inl (inSpan_low hx))), ?_⟩
    have hfirst : s.mem.load32 L.chain = first L.chain (bs.map Block.addr) := hi.ring.next_head
    have hseek : seek (listNext s.mem) L.chain (fits bytes s.mem) (2 ^ 32) (s.mem.load32 L.chain) =
        searchChain L bytes s.mem := by
      rw [searchChain, listNext]
    rw [getWord_flat]
    refine Prog.stays_bind.mpr ⟨?_, ?_⟩
    · show (searchP L bytes (2 ^ 32) (s.mem.load32 L.chain)).Stays _ _
      rw [hfirst]
      have hblock : ∀ a ∈ bs.map Block.addr, a.toNat + 20 ≤ 2 ^ 32 ∧ ∀ x, InSpan a 20 x → HeapAddr L top x := by
        intro a ha
        obtain ⟨b, hb, rfl⟩ := List.mem_map.mp ha
        exact block_addr hi hb hbrk
      exact searchP_stays bytes _ _ (List.IsChain.tail hi.ring) (fun a ha => (hblock a ha).1)
        (fun a ha => (hblock a ha).2)
    · rw [searchP_flat, hseek, searchChain_eq hi]
      cases hf : firstFit bytes bs with
      | none =>
        have hnf : ¬ FreeFits L bytes s.mem := fun h => (freeFits_iff hi bytes).mp h hf
        have hlt := had.resolve_left hnf
        have hroom := htop.resolve_left hnf
        have hptr : (kmallocGrow L bytes s).1 = s.brk := by rw [kmallocGrow_eq hlt]
        have hflat := @kmallocGrowP_flat L bytes s₀ s.mem
        rw [hs] at hflat
        refine Prog.stays_bind.mpr ⟨growP_stays hs hi hlt hroom ht, ?_⟩
        rw [hflat, hptr]
        refine Prog.stays_bind.mpr ⟨takeP_stays (by omega) (fun x hx => Or.inr (Or.inr ?_)) _ _, trivial⟩
        have hle := hi.cover.le
        unfold InSpan at hx
        omega
      | some b =>
        obtain ⟨hfit, _, pre, post, rfl⟩ := firstFit_some hf
        obtain ⟨ha, hD⟩ := block_addr hi (b := b) (by simp) hbrk
        refine Prog.stays_bind.mpr ⟨(fields_stay ha hD _ 0 0).1.1, ?_⟩
        rw [getWord_flat]
        refine Prog.stays_bind.mpr ⟨reuseP_stays hi hfit hbrk ht _, ?_⟩
        exact Prog.stays_bind.mpr ⟨takeP_stays ha hD _ _, trivial⟩

theorem kfreeP_stays (hi : HeapInv L s bs) {b : Block} (hb : b ∈ bs) (hbrk : s.brk.toNat ≤ top) (s₀ : Heap) :
    (kfreeP b.payload s₀).Stays (HeapAddr L top) s.mem.byte := by
  obtain ⟨ha, hD⟩ := block_addr hi hb hbrk
  have hf := fields_stay ha hD
  rw [kfreeP, if_neg (payload_ne_zero hi hb), payload_sub]
  refine Prog.stays_bind.mpr ⟨(hf _ 0 0).1.1, ?_⟩
  refine Prog.stays_bind.mpr ⟨(hf _ 0 0).2.2.1, ?_⟩
  exact Prog.stays_bind.mpr ⟨(hf _ 0 _).2.2.2, trivial⟩

end
end LineOS
