import Mathlib.Algebra.Group.Nat.Defs
import Mathlib.Data.Nat.Basic

/- The search for `n` consecutive clear positions in one pass: a loop that counts
   the clear positions in a row, remembers where the row began, and starts over
   at a position that is taken. `scan_found` and `scan_missing` say that it is an
   exact first fit: it stops at the lowest run of length `n`, and comes to the
   end only if there is none. `Inv` is what holds each time round. -/
namespace RunSearch

def IsRun (clear : Nat → Bool) (n a : Nat) : Prop := ∀ i, a ≤ i → i < a + n → clear i = true

/-- The loop, with `left` positions to go from `i`: where the current row began
and how long it is. -/
def scan (clear : Nat → Bool) (n : Nat) : Nat → Nat → Nat → Nat → Nat × Nat
  | 0, _, chosen, pir => (chosen, pir)
  | left + 1, i, chosen, pir =>
    if clear i then
      let chosen := if pir = 0 then i else chosen
      if pir + 1 = n then (chosen, pir + 1) else scan clear n left (i + 1) chosen (pir + 1)
    else scan clear n left (i + 1) chosen 0

variable {clear : Nat → Bool} {n lo i chosen pir left : Nat}

/-- At position `i` of a pass that began at `lo`: the last `pir` positions are
clear, and no run begins before them. -/
structure Inv (clear : Nat → Bool) (n lo i chosen pir : Nat) : Prop where
  short : pir < n
  start : lo + pir ≤ i
  chosen : pir ≠ 0 → chosen + pir = i
  row : ∀ j, i ≤ j + pir → j < i → clear j = true
  earlier : ∀ a, lo ≤ a → a + pir < i → ¬ IsRun clear n a

theorem inv_start (hn : 0 < n) (chosen : Nat) : Inv clear n lo lo chosen 0 :=
  ⟨hn, by omega, fun h => absurd rfl h, fun j h₁ h₂ => by omega, fun a h₁ h₂ => by omega⟩

theorem inv_clear (h : Inv clear n lo i chosen pir) (hc : clear i = true) (hn : pir + 1 ≠ n) :
    Inv clear n lo (i + 1) (if pir = 0 then i else chosen) (pir + 1) := by
  have hs := h.short
  have hst := h.start
  refine ⟨by omega, by omega, ?_, ?_, ?_⟩
  · intro _
    split
    · omega
    · next h0 => have := h.chosen h0; omega
  · intro j h₁ h₂
    by_cases hj : j = i
    · rw [hj, hc]
    · exact h.row j (by omega) (by omega)
  · intro a ha hlt
    exact h.earlier a ha (by omega)

/-- A taken position ends the row, and every run that would reach over it. -/
theorem inv_taken (h : Inv clear n lo i chosen pir) (hc : clear i = false) :
    Inv clear n lo (i + 1) chosen 0 := by
  have hs := h.short
  have hst := h.start
  refine ⟨by omega, by omega, fun h => absurd rfl h, fun j h₁ h₂ => by omega, ?_⟩
  intro a ha hlt hrun
  by_cases hb : a + pir < i
  · exact h.earlier a ha hb hrun
  · have := hrun i (by omega) (by omega)
    rw [hc] at this
    cases this

theorem scan_spec : ∀ (left i chosen pir : Nat), Inv clear n lo i chosen pir →
    ((scan clear n left i chosen pir).2 = n →
      lo ≤ (scan clear n left i chosen pir).1 ∧ (scan clear n left i chosen pir).1 + n ≤ i + left ∧
        IsRun clear n (scan clear n left i chosen pir).1 ∧
        ∀ a, lo ≤ a → a < (scan clear n left i chosen pir).1 → ¬ IsRun clear n a) ∧
    ((scan clear n left i chosen pir).2 ≠ n → ∀ a, lo ≤ a → a + n ≤ i + left → ¬ IsRun clear n a)
  | 0, i, chosen, pir, h => by
    have hs := h.short
    exact ⟨fun e => absurd e (by simp only [scan]; omega), fun _ a ha hle => h.earlier a ha (by omega)⟩
  | left + 1, i, chosen, pir, h => by
    have hs := h.short
    have hst := h.start
    have e : i + (left + 1) = i + 1 + left := by omega
    rw [scan, e]
    by_cases hc : clear i = true
    · rw [if_pos hc]
      by_cases hn : pir + 1 = n
      · -- the row is complete: it began at `chosen`
        have hch : (if pir = 0 then i else chosen) + pir = i := by
          split
          · omega
          · next h0 => exact h.chosen h0
        simp only [if_pos hn]
        generalize (if pir = 0 then i else chosen) = base at hch ⊢
        refine ⟨fun _ => ⟨by omega, by omega, ?_, ?_⟩, fun hne => absurd hn hne⟩
        · intro j h₁ h₂
          by_cases hj : j = i
          · rw [hj, hc]
          · exact h.row j (by omega) (by omega)
        · intro a ha hlt
          exact h.earlier a ha (by omega)
      · simp only [if_neg hn]
        exact scan_spec left (i + 1) _ (pir + 1) (inv_clear h hc hn)
    · rw [if_neg hc]
      exact scan_spec left (i + 1) chosen 0 (inv_taken h (by simpa using hc))

/-- **A pass that fills its count found the lowest run.** -/
theorem scan_found (hn : 0 < n) (h : (scan clear n left lo chosen 0).2 = n) :
    lo ≤ (scan clear n left lo chosen 0).1 ∧ (scan clear n left lo chosen 0).1 + n ≤ lo + left ∧
      IsRun clear n (scan clear n left lo chosen 0).1 ∧
      ∀ a, lo ≤ a → a < (scan clear n left lo chosen 0).1 → ¬ IsRun clear n a :=
  (scan_spec left lo chosen 0 (inv_start hn chosen)).1 h

/-- **A pass that does not fill its count met no run.** -/
theorem scan_missing (hn : 0 < n) (h : (scan clear n left lo chosen 0).2 ≠ n) :
    ∀ a, lo ≤ a → a + n ≤ lo + left → ¬ IsRun clear n a :=
  (scan_spec left lo chosen 0 (inv_start hn chosen)).2 h

end RunSearch
