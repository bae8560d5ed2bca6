import Mathlib.Algebra.Group.Nat.Defs
import Mathlib.Data.List.Basic

/- Byte-addressed memory with 32-bit addresses. A `Mem` is the bytes it holds
   and the list of every address stored to so far (newest first), so that a
   statement can speak of what a run wrote and not only of what it changed.
   `store8` is the only primitive; words are little-endian and may lie
   anywhere. `WritesOnly P m m'` is the frame rule: on the way from `m` to `m'`
   every store hit an address satisfying `P`. It composes (`refl`, `trans`,
   `mono`) and each store has its own rule. -/
namespace ByteMemory

abbrev U8 := BitVec 8
abbrev U32 := BitVec 32

structure Mem where
  byte : U32 → U8
  written : List U32

namespace Mem

def store8 (m : Mem) (a : U32) (v : U8) : Mem :=
  { byte := fun x => if x = a then v else m.byte x, written := a :: m.written }

/-- The little-endian word at `a`. -/
def load32 (m : Mem) (a : U32) : U32 :=
  m.byte (a + 3) ++ m.byte (a + 2) ++ m.byte (a + 1) ++ m.byte a

/-- The half word at `a`. -/
def load16 (m : Mem) (a : U32) : BitVec 16 := m.byte (a + 1) ++ m.byte a

def store32 (m : Mem) (a w : U32) : Mem :=
  (((m.store8 a (w.extractLsb' 0 8)).store8 (a + 1) (w.extractLsb' 8 8)).store8 (a + 2)
    (w.extractLsb' 16 8)).store8 (a + 3) (w.extractLsb' 24 8)

def store16 (m : Mem) (a : U32) (h : BitVec 16) : Mem :=
  (m.store8 a (h.extractLsb' 0 8)).store8 (a + 1) (h.extractLsb' 8 8)

/-! Reading back what was stored. -/

theorem byte_store8 (m : Mem) (a x : U32) (v : U8) :
    (m.store8 a v).byte x = if x = a then v else m.byte x := rfl

theorem byte_store8_same (m : Mem) (a : U32) (v : U8) : (m.store8 a v).byte a = v := by
  simp [byte_store8]

theorem byte_store8_ne (m : Mem) {a x : U32} (v : U8) (h : x ≠ a) :
    (m.store8 a v).byte x = m.byte x := by
  simp [byte_store8, h]

theorem word_bytes (w : U32) : w.extractLsb' 24 8 ++ w.extractLsb' 16 8 ++ w.extractLsb' 8 8 ++
    w.extractLsb' 0 8 = w := by
  ext i hi
  simp
  grind

theorem load32_store32_same (m : Mem) (a w : U32) : (m.store32 a w).load32 a = w := by
  have h1 : a + 1 ≠ a + 2 := by bv_omega
  have h2 : a + 1 ≠ a + 3 := by bv_omega
  have h3 : a + 2 ≠ a + 3 := by bv_omega
  have h4 : a ≠ a + 1 := by bv_omega
  have h5 : a ≠ a + 2 := by bv_omega
  have h6 : a ≠ a + 3 := by bv_omega
  simp only [load32, store32, byte_store8, if_true, if_neg h1, if_neg h2, if_neg h3, if_neg h4,
    if_neg h5, if_neg h6]
  exact word_bytes w

theorem half_bytes (h : BitVec 16) (x y : U8) :
    (x ++ y ++ h.extractLsb' 8 8 ++ h.extractLsb' 0 8).setWidth 16 = h := by
  ext i hi
  simp
  grind

theorem load32_store16_same (m : Mem) (a : U32) (h : BitVec 16) :
    ((m.store16 a h).load32 a).setWidth 16 = h := by
  have h1 : a ≠ a + 1 := by bv_omega
  simp only [load32, store16, byte_store8, if_true, if_neg h1]
  exact half_bytes h _ _

theorem load16_store16_same (m : Mem) (a : U32) (h : BitVec 16) : (m.store16 a h).load16 a = h := by
  have h1 : a ≠ a + 1 := by bv_omega
  simp only [load16, store16, byte_store8, if_true, if_neg h1]
  ext i hi
  simp
  grind

/-- `x` is one of the `n` bytes from `a` on. -/
def InSpan (a : U32) (n : Nat) (x : U32) : Prop := a.toNat ≤ x.toNat ∧ x.toNat < a.toNat + n

theorem byte_store32_off (m : Mem) {a x : U32} (w : U32) (ha : a.toNat + 4 ≤ 2 ^ 32)
    (hx : ¬ InSpan a 4 x) : (m.store32 a w).byte x = m.byte x := by
  unfold InSpan at hx
  have h0 : x ≠ a := by bv_omega
  have h1 : x ≠ a + 1 := by bv_omega
  have h2 : x ≠ a + 2 := by bv_omega
  have h3 : x ≠ a + 3 := by bv_omega
  simp only [store32, byte_store8, if_neg h0, if_neg h1, if_neg h2, if_neg h3]

/-- A word is its four bytes. -/
theorem load32_congr {m m' : Mem} {a : U32} (ha : a.toNat + 4 ≤ 2 ^ 32)
    (h : ∀ x, InSpan a 4 x → m'.byte x = m.byte x) : m'.load32 a = m.load32 a := by
  unfold load32
  rw [h a ⟨by omega, by omega⟩, h (a + 1) (by unfold InSpan; bv_omega),
    h (a + 2) (by unfold InSpan; bv_omega), h (a + 3) (by unfold InSpan; bv_omega)]

theorem load32_store32_off (m : Mem) {a b : U32} (w : U32) (ha : a.toNat + 4 ≤ 2 ^ 32)
    (hb : b.toNat + 4 ≤ 2 ^ 32) (h : a.toNat + 4 ≤ b.toNat ∨ b.toNat + 4 ≤ a.toNat) :
    (m.store32 a w).load32 b = m.load32 b := by
  apply load32_congr hb
  intro x hx
  apply byte_store32_off m w ha
  unfold InSpan at hx ⊢
  omega

theorem load32_store8_off (m : Mem) {a b : U32} (v : U8) (hb : b.toNat + 4 ≤ 2 ^ 32)
    (h : ¬ InSpan b 4 a) : (m.store8 a v).load32 b = m.load32 b := by
  apply load32_congr hb
  intro x hx
  apply byte_store8_ne
  rintro rfl
  exact h hx

/-! Frames. -/

/-- Every store between `m` and `m'` hit an address satisfying `P`, and no other
byte changed. -/
def WritesOnly (P : U32 → Prop) (m m' : Mem) : Prop :=
  (∃ ws, m'.written = ws ++ m.written ∧ ∀ x ∈ ws, P x) ∧ ∀ x, ¬ P x → m'.byte x = m.byte x

namespace WritesOnly
variable {P Q : U32 → Prop} {m m₁ m₂ : Mem}

theorem refl (m : Mem) : WritesOnly P m m :=
  ⟨⟨[], rfl, by simp⟩, fun _ _ => rfl⟩

theorem trans (h₁ : WritesOnly P m m₁) (h₂ : WritesOnly P m₁ m₂) : WritesOnly P m m₂ := by
  obtain ⟨⟨ws₁, e₁, p₁⟩, b₁⟩ := h₁
  obtain ⟨⟨ws₂, e₂, p₂⟩, b₂⟩ := h₂
  refine ⟨⟨ws₂ ++ ws₁, by rw [e₂, e₁, List.append_assoc], ?_⟩, ?_⟩
  · intro x hx
    rcases List.mem_append.mp hx with h | h
    · exact p₂ x h
    · exact p₁ x h
  · intro x hx
    rw [b₂ x hx, b₁ x hx]

theorem mono (h : WritesOnly P m m₁) (hPQ : ∀ x, P x → Q x) : WritesOnly Q m m₁ := by
  obtain ⟨⟨ws, e, p⟩, b⟩ := h
  exact ⟨⟨ws, e, fun x hx => hPQ x (p x hx)⟩, fun x hx => b x (fun hp => hx (hPQ x hp))⟩

theorem store8 (m : Mem) {a : U32} (v : U8) (ha : P a) : WritesOnly P m (m.store8 a v) := by
  refine ⟨⟨[a], rfl, by simpa using ha⟩, ?_⟩
  intro x hx
  apply byte_store8_ne
  rintro rfl
  exact hx ha

theorem store32 (m : Mem) {a : U32} (w : U32) (ha : a.toNat + 4 ≤ 2 ^ 32)
    (h : ∀ x, InSpan a 4 x → P x) : WritesOnly P m (m.store32 a w) := by
  have h0 : P a := h a (by unfold InSpan; omega)
  have h1 : P (a + 1) := h _ (by unfold InSpan; bv_omega)
  have h2 : P (a + 2) := h _ (by unfold InSpan; bv_omega)
  have h3 : P (a + 3) := h _ (by unfold InSpan; bv_omega)
  exact (((store8 m _ h0).trans (store8 _ _ h1)).trans (store8 _ _ h2)).trans (store8 _ _ h3)

theorem store16 (m : Mem) {a : U32} (h : BitVec 16) (ha : a.toNat + 2 ≤ 2 ^ 32)
    (hP : ∀ x, InSpan a 2 x → P x) : WritesOnly P m (m.store16 a h) := by
  have h0 : P a := hP a (by unfold InSpan; omega)
  have h1 : P (a + 1) := hP _ (by unfold InSpan; bv_omega)
  exact (store8 m _ h0).trans (store8 _ _ h1)

theorem load32_eq (h : WritesOnly P m m₁) {b : U32} (hb : b.toNat + 4 ≤ 2 ^ 32)
    (hP : ∀ x, InSpan b 4 x → ¬ P x) : m₁.load32 b = m.load32 b :=
  load32_congr hb (fun x hx => h.2 x (hP x hx))

theorem load16_eq (h : WritesOnly P m m₁) {b : U32} (hb : b.toNat + 2 ≤ 2 ^ 32)
    (hP : ∀ x, InSpan b 2 x → ¬ P x) : m₁.load16 b = m.load16 b := by
  unfold load16
  rw [h.2 b (hP b (by unfold InSpan; omega)), h.2 (b + 1) (hP _ (by unfold InSpan; bv_omega))]

theorem store32_any (m : Mem) (a w : U32) : WritesOnly (fun _ => True) m (m.store32 a w) :=
  (((store8 m _ trivial).trans (store8 _ _ trivial)).trans (store8 _ _ trivial)).trans (store8 _ _ trivial)

end WritesOnly

/-- Some store between `m` and `m'` hit `x`. -/
def Stored (x : U32) (m m' : Mem) : Prop := ∃ ws, m'.written = ws ++ m.written ∧ x ∈ ws

namespace Stored
variable {P : U32 → Prop} {m m₁ m₂ : Mem} {x : U32}

theorem store8 (m : Mem) (a : U32) (v : U8) : Stored a m (m.store8 a v) := ⟨[a], rfl, by simp⟩

theorem store32 (m : Mem) (a w : U32) (hx : x ∈ [a + 3, a + 2, a + 1, a]) : Stored x m (m.store32 a w) :=
  ⟨[a + 3, a + 2, a + 1, a], rfl, hx⟩

theorem after (h : Stored x m m₁) (hw : WritesOnly P m₁ m₂) : Stored x m m₂ := by
  obtain ⟨ws, e, hx⟩ := h
  obtain ⟨ws', e', _⟩ := hw.1
  exact ⟨ws' ++ ws, by rw [e', e, List.append_assoc], List.mem_append_right _ hx⟩

theorem before (hw : WritesOnly P m m₁) (h : Stored x m₁ m₂) : Stored x m m₂ := by
  obtain ⟨ws, e, hx⟩ := h
  obtain ⟨ws', e', _⟩ := hw.1
  exact ⟨ws ++ ws', by rw [e, e', List.append_assoc], List.mem_append_left _ hx⟩

theorem allowed (h : Stored x m m₁) (hw : WritesOnly P m m₁) : P x := by
  obtain ⟨ws, e, hx⟩ := h
  obtain ⟨⟨ws', e', p⟩, _⟩ := hw
  rw [e] at e'
  exact p x (List.append_cancel_right e' ▸ hx)

end Stored
end Mem
end ByteMemory
