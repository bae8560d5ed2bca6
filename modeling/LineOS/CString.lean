import LineOS.ByteMemory

/- Text in memory: the bytes from a pointer on (`Bytes`), and NUL-terminated
   strings (`Str`) with the loop that goes through one (`upToNul`). Pointers wrap
   around. A string is shorter than the address space, or its NUL would be one of
   its characters. -/
namespace ByteMemory.Mem

/-- The bytes from `p` on begin with `s`. -/
def Bytes (m : Mem) (p : U32) : List U8 → Prop
  | [] => True
  | c :: s => m.byte p = c ∧ Bytes m (p + 1) s

/-- The string `s` is at `p`, its NUL after it. -/
def Str (m : Mem) (p : U32) : List U8 → Prop
  | [] => m.byte p = 0
  | c :: s => m.byte p = c ∧ c ≠ 0 ∧ Str m (p + 1) s

instance Str.decidable (m : Mem) : ∀ (s : List U8) (p : U32), Decidable (m.Str p s)
  | [], p => inferInstanceAs (Decidable (m.byte p = 0))
  | c :: s, p =>
    have := Str.decidable m s (p + 1)
    inferInstanceAs (Decidable (m.byte p = c ∧ c ≠ 0 ∧ m.Str (p + 1) s))

/-- The bytes before the first NUL, `none` if that is not one of the next `n`. -/
def upToNul (m : Mem) : Nat → U32 → Option (List U8)
  | 0, _ => none
  | n + 1, p => if m.byte p = 0 then some [] else (upToNul m n (p + 1)).map (m.byte p :: ·)

variable {m : Mem}

theorem add_ofNat_succ (p : U32) (n : Nat) : p + 1 + BitVec.ofNat 32 n = p + BitVec.ofNat 32 (n + 1) := by
  rw [BitVec.add_assoc, BitVec.add_comm 1, BitVec.ofNat_add]
  rfl

theorem Bytes.append : ∀ {s t : List U8} {p : U32}, m.Bytes p (s ++ t) ↔
    m.Bytes p s ∧ m.Bytes (p + BitVec.ofNat 32 s.length) t
  | [], t, p => by simp [Bytes]
  | c :: s, t, p => by
    rw [List.cons_append, Bytes, Bytes, Bytes.append, List.length_cons, add_ofNat_succ, and_assoc]

/-- What holds of every character of a text holds of the byte it begins with. -/
theorem Bytes.first {P : U8 → Prop} : ∀ {s : List U8} {p : U32}, m.Bytes p s → s ≠ [] → (∀ c ∈ s, P c) → P (m.byte p)
  | [], _, _, h, _ => absurd rfl h
  | _ :: _, _, ⟨hc, _⟩, _, hP => hc ▸ hP _ List.mem_cons_self

theorem Str.bytes : ∀ {s : List U8} {p : U32}, m.Str p s → m.Bytes p (s ++ [0])
  | [], _, h => ⟨h, trivial⟩
  | _ :: _, _, ⟨hc, _, hs⟩ => ⟨hc, hs.bytes⟩

theorem Str.upToNul : ∀ {s : List U8} {p : U32}, m.Str p s → ∀ {n}, s.length < n → m.upToNul n p = some s
  | [], p, h, n + 1, _ => if_pos h
  | c :: s, p, ⟨hc, h0, hs⟩, n + 1, hn => by
    have hne : m.byte p ≠ 0 := hc ▸ h0
    rw [Mem.upToNul, if_neg hne, hs.upToNul (Nat.lt_of_succ_lt_succ hn), hc]
    rfl

theorem Str.nul : ∀ {s : List U8} {p : U32}, m.Str p s → m.byte (p + BitVec.ofNat 32 s.length) = 0
  | [], p, h => by
    rw [List.length_nil, BitVec.add_zero]
    exact h
  | c :: s, p, ⟨_, _, hs⟩ => by
    rw [List.length_cons, ← add_ofNat_succ]
    exact hs.nul

theorem Str.byte_ne : ∀ {s : List U8} {p : U32}, m.Str p s → ∀ {i}, i < s.length →
    m.byte (p + BitVec.ofNat 32 i) ≠ 0
  | c :: s, p, ⟨hc, h0, _⟩, 0, _ => by
    rw [BitVec.add_zero, hc]
    exact h0
  | c :: s, p, ⟨_, _, hs⟩, i + 1, hi => by
    rw [← add_ofNat_succ]
    exact hs.byte_ne (Nat.lt_of_succ_lt_succ hi)

theorem Str.length_lt {s : List U8} {p : U32} (h : m.Str p s) : s.length < 2 ^ 32 := by
  by_contra hlen
  -- the NUL comes round again among the characters
  have hround : BitVec.ofNat 32 (s.length - 2 ^ 32) = BitVec.ofNat 32 s.length := by
    apply BitVec.eq_of_toNat_eq
    rw [BitVec.toNat_ofNat, BitVec.toNat_ofNat]
    omega
  have hnul := h.nul
  rw [← hround] at hnul
  exact h.byte_ne (by omega) hnul

end ByteMemory.Mem
