import Mathlib.Data.Nat.Digits.Lemmas

/- Numerals: the digits of a number in a radix, the most significant first, written
   in any alphabet. Zero has one digit. A loop that divides by the radix finds the
   digits from the last one on (`numeral_of_le`). Read back, a numeral gives its
   number (`read_numeral`), and no digit of it can be left out (`numeral_head`). -/
namespace Numeral

variable {α : Type} (digit : Nat → α)

def numeral (radix n : Nat) : List α :=
  if n = 0 then [digit 0] else ((Nat.digits radix n).map digit).reverse

variable {radix n : Nat}

theorem numeral_of_lt (h : n < radix) : numeral digit radix n = [digit n] := by
  unfold numeral
  by_cases h0 : n = 0
  · rw [if_pos h0, h0]
  · rw [if_neg h0, Nat.digits_of_lt radix n h0 h]
    rfl

theorem numeral_of_le (hr : 1 < radix) (h : radix ≤ n) :
    numeral digit radix n = numeral digit radix (n / radix) ++ [digit (n % radix)] := by
  have hn : n ≠ 0 := by omega
  have hq : n / radix ≠ 0 := (Nat.div_pos h (by omega)).ne'
  unfold numeral
  rw [if_neg hn, if_neg hq, Nat.digits_eq_cons_digits_div hr hn, List.map_cons, List.reverse_cons]

theorem length_numeral_le {k : Nat} (hr : 1 < radix) (hk : 0 < k) (h : n < radix ^ k) :
    (numeral digit radix n).length ≤ k := by
  unfold numeral
  split
  · exact hk
  · rw [List.length_reverse, List.length_map]
    exact (Nat.digits_length_le_iff hr n).2 h

theorem numeral_digits (hr : 1 < radix) {c : α} (hc : c ∈ numeral digit radix n) : ∃ d < radix, c = digit d := by
  unfold numeral at hc
  split at hc
  · exact ⟨0, by omega, List.mem_singleton.mp hc⟩
  · obtain ⟨d, hd, rfl⟩ := List.mem_map.mp (List.mem_reverse.mp hc)
    exact ⟨d, Nat.digits_lt_base hr hd, rfl⟩

/-! Reading back. -/

/-- The number that `ds` stand for, if all of them are digits in this radix. -/
def read (value : α → Option Nat) (radix : Nat) (ds : List α) : Option Nat :=
  ds.foldlM (fun n c => (value c).bind fun d => if d < radix then some (radix * n + d) else none) 0

variable {digit} {value : α → Option Nat}

theorem read_append_one (ds : List α) (c : α) : read value radix (ds ++ [c]) = (read value radix ds).bind fun n =>
    (value c).bind fun d => if d < radix then some (radix * n + d) else none := by
  rw [read, List.foldlM_append]
  simp only [List.foldlM_cons, List.foldlM_nil, Option.pure_def, Option.bind_eq_bind, Option.bind_fun_some]
  rfl

theorem read_numeral (hr : 1 < radix) (hv : ∀ d < radix, value (digit d) = some d) (n : Nat) :
    read value radix (numeral digit radix n) = some n := by
  induction n using Nat.strong_induction_on with
  | _ n ih =>
    by_cases h : n < radix
    · rw [numeral_of_lt _ h, ← List.nil_append [digit n], read_append_one, hv n h]
      show (if n < radix then some (radix * 0 + n) else none) = some n
      rw [if_pos h, Nat.mul_zero, Nat.zero_add]
    · have hmod : n % radix < radix := Nat.mod_lt _ (by omega)
      rw [numeral_of_le _ hr (by omega), read_append_one, ih _ (Nat.div_lt_self (by omega) hr), hv _ hmod]
      show (if n % radix < radix then some (radix * (n / radix) + n % radix) else none) = some n
      rw [if_pos hmod, Nat.div_add_mod]

theorem numeral_ne_nil (n : Nat) : numeral digit radix n ≠ [] := by
  unfold numeral
  split
  · exact List.cons_ne_nil _ _
  · next h => simp [Nat.digits_eq_nil_iff_eq_zero, h]

/-- The first digit is not a zero, unless the number is. -/
theorem numeral_head (hr : 1 < radix) (hz : ∀ d < radix, digit d = digit 0 → d = 0) (hn : n ≠ 0) :
    (numeral digit radix n).head? ≠ some (digit 0) := by
  induction n using Nat.strong_induction_on with
  | _ n ih =>
    by_cases h : n < radix
    · rw [numeral_of_lt _ h, List.head?_cons]
      exact fun hc => hn (hz n h (Option.some.inj hc))
    · have hq : n / radix ≠ 0 := (Nat.div_pos (by omega) (by omega)).ne'
      rw [numeral_of_le _ hr (by omega), List.head?_append_of_ne_nil _ (numeral_ne_nil _)]
      exact ih _ (Nat.div_lt_self (by omega) hr) hq

end Numeral
