import Mathlib.Data.List.Induction
import LineOS.Cpu

/- The interrupt descriptor table: `map_interrupt_gate` and `init_interrupts` of
   `cpu/interrupt.c`, and the gates `init_pic` adds to it. The code stores the
   fields of an `idt_entry_t` one by one; `readGate` is how the processor puts the
   eight bytes together again. `mapGates_read` is the table after any sequence of
   calls, each of which replaces one entry and leaves the others. -/
namespace LineOS
open ByteMemory ByteMemory.Mem

structure Gate where
  offset : U32
  selector : U16
  always0 : U8
  flags : U8
  deriving DecidableEq

/-- `&k_idt[num]` -/
def gateAddr (idt : U32) (num : Nat) : U32 := idt + BitVec.ofNat 32 (8 * num)

def mapInterruptGate (idt : U32) (num : U16) (virtBase : U32) (sel : U16) (flags : U8) (m : Mem) : Mem :=
  let e := gateAddr idt num.toNat
  let m := m.store16 e ((virtBase &&& 0xFFFF).setWidth 16)
  let m := m.store16 (e + 6) (((virtBase >>> 16) &&& 0xFFFF).setWidth 16)
  let m := m.store16 (e + 2) sel
  let m := m.store8 (e + 4) 0
  m.store8 (e + 5) flags

def readGate (idt : U32) (v : Nat) (m : Mem) : Gate :=
  let e := gateAddr idt v
  { offset := m.byte (e + 7) ++ m.byte (e + 6) ++ m.byte (e + 1) ++ m.byte e
    selector := m.byte (e + 3) ++ m.byte (e + 2)
    always0 := m.byte (e + 4)
    flags := m.byte (e + 5) }

structure GateCall where
  num : U16
  base : U32
  sel : U16
  flags : U8

def GateCall.gate (g : GateCall) : Gate := ⟨g.base, g.sel, 0, g.flags⟩

def mapGates (idt : U32) (gs : List GateCall) (m : Mem) : Mem :=
  gs.foldl (fun m g => mapInterruptGate idt g.num g.base g.sel g.flags m) m

/-! One call. -/

section
variable {idt : U32} {m m' : Mem}

theorem setWidth_mask (w : U32) : (w &&& 0xFFFF).setWidth 16 = w.setWidth 16 := by
  apply BitVec.eq_of_toNat_eq
  rw [BitVec.toNat_setWidth, BitVec.toNat_setWidth, BitVec.toNat_and]
  show (w.toNat &&& (2 ^ 16 - 1)) % 2 ^ 16 = _
  rw [Nat.and_two_pow_sub_one_eq_mod, Nat.mod_mod]

theorem base_bytes (w : U32) : ((w >>> 16).setWidth 16).extractLsb' 8 8 ++ ((w >>> 16).setWidth 16).extractLsb' 0 8 ++
    (w.setWidth 16).extractLsb' 8 8 ++ (w.setWidth 16).extractLsb' 0 8 = w := by
  ext i hi
  simp
  grind

theorem sel_bytes (h : U16) : h.extractLsb' 8 8 ++ h.extractLsb' 0 8 = h := by
  ext i hi
  simp
  grind

/-- The entry reads back as it was mapped. -/
theorem readGate_map (num : U16) (base : U32) (sel : U16) (flags : U8) (m : Mem) :
    readGate idt num.toNat (mapInterruptGate idt num base sel flags m) = ⟨base, sel, 0, flags⟩ := by
  simp only [readGate, mapInterruptGate, store16, byte_store8, setWidth_mask]
  generalize gateAddr idt num.toNat = e
  simpa [BitVec.add_assoc] using ⟨base_bytes base, sel_bytes sel⟩

theorem gateAddr_toNat {num : Nat} (h : idt.toNat + 8 * num < 2 ^ 32) : (gateAddr idt num).toNat = idt.toNat + 8 * num := by
  rw [gateAddr, BitVec.toNat_add, BitVec.toNat_ofNat]
  omega

theorem mapGate_writes {num : U16} (h : idt.toNat + 8 * num.toNat + 8 ≤ 2 ^ 32) (base : U32) (sel : U16) (flags : U8)
    (m : Mem) : WritesOnly (InSpan (gateAddr idt num.toNat) 8) m (mapInterruptGate idt num base sel flags m) := by
  have he : (gateAddr idt num.toNat).toNat = idt.toNat + 8 * num.toNat := gateAddr_toNat (by omega)
  simp only [mapInterruptGate]
  generalize gateAddr idt num.toNat = e at he ⊢
  have h2 : (e + 2).toNat = e.toNat + 2 := by bv_omega
  have h4 : (e + 4).toNat = e.toNat + 4 := by bv_omega
  have h5 : (e + 5).toNat = e.toNat + 5 := by bv_omega
  have h6 : (e + 6).toNat = e.toNat + 6 := by bv_omega
  have half : ∀ (m : Mem) (a : U32) (h : U16), e.toNat ≤ a.toNat → a.toNat + 2 ≤ e.toNat + 8 →
      WritesOnly (InSpan e 8) m (m.store16 a h) := by
    intro m a h h₁ h₂
    refine WritesOnly.store16 m h (by omega) fun x hx => ?_
    unfold InSpan at hx ⊢
    omega
  have byte : ∀ (m : Mem) (a : U32) (v : U8), e.toNat ≤ a.toNat → a.toNat + 1 ≤ e.toNat + 8 →
      WritesOnly (InSpan e 8) m (m.store8 a v) := by
    intro m a v h₁ h₂
    refine WritesOnly.store8 m v ?_
    unfold InSpan
    omega
  have s₁ := half m e ((base &&& 0xFFFF).setWidth 16) (by omega) (by omega)
  have s₂ := s₁.trans (half _ (e + 6) (((base >>> 16) &&& 0xFFFF).setWidth 16) (by omega) (by omega))
  have s₃ := s₂.trans (half _ (e + 2) sel (by omega) (by omega))
  have s₄ := s₃.trans (byte _ (e + 4) 0 (by omega) (by omega))
  exact s₄.trans (byte _ (e + 5) flags (by omega) (by omega))

theorem mapGate_stores (num : U16) (base : U32) (sel : U16) (flags : U8) (m : Mem) :
    Stored (gateAddr idt num.toNat) m (mapInterruptGate idt num base sel flags m) := by
  have h₀ : Stored (gateAddr idt num.toNat) m (m.store16 (gateAddr idt num.toNat) ((base &&& 0xFFFF).setWidth 16)) :=
    ⟨[_, _], rfl, by simp⟩
  have hany : ∀ (m : Mem) (a : U32) (h : U16), WritesOnly (fun _ => True) m (m.store16 a h) :=
    fun m a h => (WritesOnly.store8 m _ trivial).trans (WritesOnly.store8 _ _ trivial)
  exact h₀.after ((((hany _ _ _).trans (hany _ _ _)).trans (WritesOnly.store8 _ _ trivial)).trans
    (WritesOnly.store8 _ _ trivial))

theorem readGate_frame {P : U32 → Prop} {v : Nat} (hw : WritesOnly P m m') (h : idt.toNat + 8 * v + 8 ≤ 2 ^ 32)
    (hP : ∀ x, InSpan (gateAddr idt v) 8 x → ¬ P x) : readGate idt v m' = readGate idt v m := by
  have he : (gateAddr idt v).toNat = idt.toNat + 8 * v := gateAddr_toNat (by omega)
  unfold readGate
  generalize gateAddr idt v = e at he hP ⊢
  have hb : ∀ k : U32, k.toNat < 8 → m'.byte (e + k) = m.byte (e + k) := by
    intro k hk
    have hek : (e + k).toNat = e.toNat + k.toNat := by bv_omega
    exact hw.2 _ (hP _ (by unfold InSpan; omega))
  have h0 := hw.2 e (hP e (by unfold InSpan; omega))
  simp only [h0, hb 1 (by decide), hb 2 (by decide), hb 3 (by decide), hb 4 (by decide), hb 5 (by decide),
    hb 6 (by decide), hb 7 (by decide)]

/-! Sequences of calls. -/

/-- The last call for `v`. -/
def lastCall (gs : List GateCall) (v : Nat) : Option GateCall := gs.reverse.find? fun g => decide (g.num.toNat = v)

theorem mapGates_concat (gs : List GateCall) (g : GateCall) (m : Mem) :
    mapGates idt (gs ++ [g]) m = mapInterruptGate idt g.num g.base g.sel g.flags (mapGates idt gs m) :=
  List.foldl_append

theorem lastCall_concat (gs : List GateCall) (g : GateCall) (v : Nat) :
    lastCall (gs ++ [g]) v = if g.num.toNat = v then some g else lastCall gs v := by
  rw [lastCall, lastCall, List.reverse_concat, List.find?_cons]
  by_cases hv : g.num.toNat = v <;> simp [hv]

theorem lastCall_append (gs hs : List GateCall) (v : Nat) : lastCall (gs ++ hs) v = (lastCall hs v).or (lastCall gs v) := by
  rw [lastCall, lastCall, lastCall, List.reverse_append, List.find?_append]

theorem lastCall_range {f : Nat → GateCall} {k : Nat} (v : Nat) : ∀ n, (∀ i < n, (f i).num.toNat = k + i) →
    lastCall ((List.range n).map f) v = if k ≤ v ∧ v < k + n then some (f (v - k)) else none
  | 0, _ => by
    rw [if_neg (by omega)]
    rfl
  | n + 1, hf => by
    have ih := lastCall_range v n fun i hi => hf i (by omega)
    rw [List.range_succ, List.map_append, List.map_singleton, lastCall_concat, ih, hf n (by omega)]
    by_cases hv : k + n = v
    · rw [if_pos hv, if_pos (by omega), ← hv, Nat.add_sub_cancel_left]
    · rw [if_neg hv]
      by_cases hin : k ≤ v ∧ v < k + n
      · rw [if_pos hin, if_pos (by omega)]
      · rw [if_neg hin, if_neg (by omega)]

/-- **The table after any calls**: an entry is what its last call made it, or what it was. -/
theorem mapGates_read (h : idt.toNat + 2048 ≤ 2 ^ 32) (gs : List GateCall) (hn : ∀ g ∈ gs, g.num.toNat < 256) (m : Mem)
    {v : Nat} (hv : v < 256) :
    readGate idt v (mapGates idt gs m) = ((lastCall gs v).map GateCall.gate).getD (readGate idt v m) := by
  induction gs using List.reverseRecOn with
  | nil => rfl
  | append_singleton gs g ih =>
    have hg := hn g (by simp)
    rw [mapGates_concat, lastCall_concat]
    by_cases hgv : g.num.toNat = v
    · rw [if_pos hgv, Option.map_some, Option.getD_some, ← hgv]
      exact readGate_map _ _ _ _ _
    · have hw := @mapGate_writes idt g.num (by omega) g.base g.sel g.flags (mapGates idt gs m)
      rw [if_neg hgv, readGate_frame hw (by omega), ih (fun g hg => hn g (by simp [hg]))]
      intro x hx hx'
      have e₁ : (gateAddr idt v).toNat = idt.toNat + 8 * v := gateAddr_toNat (by omega)
      have e₂ : (gateAddr idt g.num.toNat).toNat = idt.toNat + 8 * g.num.toNat := gateAddr_toNat (by omega)
      unfold InSpan at hx hx'
      omega

theorem mapGates_writes (h : idt.toNat + 2048 ≤ 2 ^ 32) (gs : List GateCall) (hn : ∀ g ∈ gs, g.num.toNat < 256) (m : Mem) :
    WritesOnly (InSpan idt 2048) m (mapGates idt gs m) := by
  induction gs using List.reverseRecOn with
  | nil => exact WritesOnly.refl _
  | append_singleton gs g ih =>
    have hg := hn g (by simp)
    have e : (gateAddr idt g.num.toNat).toNat = idt.toNat + 8 * g.num.toNat := gateAddr_toNat (by omega)
    rw [mapGates_concat]
    refine (ih (fun g hg => hn g (by simp [hg]))).trans ?_
    refine (mapGate_writes (by omega) _ _ _ _).mono (fun x hx => ?_)
    unfold InSpan at hx ⊢
    omega

/-- **The missing bounds check**: calls stay inside the 2048 bytes of `K_IDT` exactly if
every one is for a vector below 256. -/
theorem mapGates_inside_iff (h : idt.toNat + 8 * 65536 ≤ 2 ^ 32) (gs : List GateCall) (m : Mem) :
    WritesOnly (InSpan idt 2048) m (mapGates idt gs m) ↔ ∀ g ∈ gs, g.num.toNat < 256 := by
  refine ⟨fun hw => ?_, fun hn => mapGates_writes (by omega) gs hn m⟩
  have hall : ∀ gs m, WritesOnly (fun _ => True) m (mapGates idt gs m) := by
    intro gs
    induction gs with
    | nil => exact fun m => WritesOnly.refl m
    | cons g gs ih =>
      exact fun m => ((mapGate_writes (by omega) g.base g.sel g.flags m).mono fun _ _ => trivial).trans (ih _)
  intro g hg
  obtain ⟨before, after, rfl⟩ := List.append_of_mem hg
  have hst : Stored (gateAddr idt g.num.toNat) m (mapGates idt (before ++ g :: after) m) := by
    rw [mapGates, List.foldl_append]
    exact ((mapGate_stores g.num g.base g.sel g.flags _).after (hall after _)).before (hall before m)
  have hin := hst.allowed hw
  rw [InSpan, gateAddr_toNat (by omega)] at hin
  omega

theorem mapGates_inside_sample : WritesOnly (InSpan 0xC002F000 2048) ⟨fun _ => 0, []⟩
    (mapGates 0xC002F000 [⟨255, 0xC0100000, 0x08, 0x8E⟩, ⟨14, 0xC0100040, 0x08, 0x8E⟩] ⟨fun _ => 0, []⟩) :=
  (mapGates_inside_iff (by decide) _ _).mpr (by decide)

end
end LineOS
