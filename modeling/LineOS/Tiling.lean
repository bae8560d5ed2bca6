import Mathlib.Data.List.Perm.Basic
import Mathlib.Data.List.Pairwise

/- Extents that tile an interval. Every `x : α` has an extent `[lo x, hi x)`.
   `Tiles xs a b`: the extents of `xs`, taken in order, cover `[a, b)` with no
   gap and no overlap. `Covers xs a b`: they do so in some order. `Covers` is
   what an allocator keeps whatever order its own list is in; the rules below
   extend a cover at its end, cut one extent in two, and replace a member by
   one with the same extent. -/
namespace Tiling
open scoped List

variable {α : Type} (lo hi : α → Nat)

def Tiles : List α → Nat → Nat → Prop
  | [], a, b => a = b
  | x :: xs, a, b => lo x = a ∧ a ≤ hi x ∧ Tiles xs (hi x) b

/-- The extents of `xs`, in some order, tile `[a, b)`. -/
def Covers (xs : List α) (a b : Nat) : Prop := ∃ sorted, sorted.Perm xs ∧ Tiles lo hi sorted a b

def Apart (x y : α) : Prop := hi x ≤ lo y ∨ hi y ≤ lo x

variable {lo hi}

theorem tiles_append : ∀ {xs ys : List α} {a b : Nat},
    Tiles lo hi (xs ++ ys) a b ↔ ∃ c, Tiles lo hi xs a c ∧ Tiles lo hi ys c b
  | [], ys, a, b => by simp [Tiles]
  | x :: xs, ys, a, b => by
    simp only [List.cons_append, Tiles, tiles_append]
    constructor
    · rintro ⟨h1, h2, c, h3, h4⟩
      exact ⟨c, ⟨h1, h2, h3⟩, h4⟩
    · rintro ⟨c, ⟨h1, h2, h3⟩, h4⟩
      exact ⟨h1, h2, c, h3, h4⟩

theorem tiles_le : ∀ {xs : List α} {a b : Nat}, Tiles lo hi xs a b → a ≤ b
  | [], _, _, h => Nat.le_of_eq h
  | _ :: _, _, _, ⟨_, h, ht⟩ => Nat.le_trans h (tiles_le ht)

theorem tiles_mem : ∀ {xs : List α} {a b : Nat}, Tiles lo hi xs a b →
    ∀ x ∈ xs, a ≤ lo x ∧ lo x ≤ hi x ∧ hi x ≤ b
  | y :: ys, a, b, ⟨h1, h2, ht⟩, x, hx => by
    rcases List.mem_cons.mp hx with rfl | hx
    · exact ⟨Nat.le_of_eq h1.symm, h1 ▸ h2, tiles_le ht⟩
    · obtain ⟨ha, hxx, hb⟩ := tiles_mem ht x hx
      exact ⟨Nat.le_trans h2 ha, hxx, hb⟩

theorem tiles_pairwise : ∀ {xs : List α} {a b : Nat}, Tiles lo hi xs a b →
    xs.Pairwise (fun x y => hi x ≤ lo y)
  | [], _, _, _ => List.Pairwise.nil
  | _ :: _, _, _, ⟨_, _, ht⟩ => List.Pairwise.cons (fun y hy => (tiles_mem ht y hy).1) (tiles_pairwise ht)

/-- An interval has room for only so many extents of at least `k`. -/
theorem tiles_length {k : Nat} : ∀ {xs : List α} {a b : Nat}, Tiles lo hi xs a b →
    (∀ x ∈ xs, lo x + k ≤ hi x) → a + xs.length * k ≤ b
  | [], _, _, h, _ => by simpa using Nat.le_of_eq h
  | x :: xs, a, b, ⟨h1, _, ht⟩, hk => by
    have ih := tiles_length ht (fun y hy => hk y (List.mem_cons_of_mem x hy))
    have hx := hk x List.mem_cons_self
    rw [List.length_cons, Nat.succ_mul]
    omega

theorem Apart.symm {x y : α} (h : Apart lo hi x y) : Apart lo hi y x := Or.symm h

namespace Covers
variable {xs ys pre post : List α} {a b : Nat} {x x₁ x₂ : α}

theorem nil : Covers lo hi [] a a := ⟨[], List.Perm.nil, rfl⟩

theorem le (h : Covers lo hi xs a b) : a ≤ b := by
  obtain ⟨s, _, ht⟩ := h
  exact tiles_le ht

theorem bounds (h : Covers lo hi xs a b) : ∀ x ∈ xs, a ≤ lo x ∧ lo x ≤ hi x ∧ hi x ≤ b := by
  obtain ⟨s, hs, ht⟩ := h
  intro x hx
  exact tiles_mem ht x (hs.mem_iff.mpr hx)

theorem length_le {k : Nat} (h : Covers lo hi xs a b) (hk : ∀ x ∈ xs, lo x + k ≤ hi x) :
    a + xs.length * k ≤ b := by
  obtain ⟨s, hs, ht⟩ := h
  rw [← hs.length_eq]
  exact tiles_length ht (fun x hx => hk x (hs.mem_iff.mp hx))

/-- The members of a cover do not overlap, in whatever order they are listed. -/
theorem pairwise (h : Covers lo hi xs a b) : xs.Pairwise (Apart lo hi) := by
  obtain ⟨s, hs, ht⟩ := h
  refine hs.pairwise ?_ (fun h => h.symm)
  exact (tiles_pairwise ht).imp Or.inl

theorem apart (h : Covers lo hi xs a b) : ∀ x ∈ xs, ∀ y ∈ xs, x ≠ y → Apart lo hi x y := by
  have : Std.Symm (Apart lo hi) := ⟨fun _ _ h => h.symm⟩
  intro x hx y hy hxy
  exact h.pairwise.forall hx hy hxy

theorem lo_nodup (h : Covers lo hi xs a b) (hpos : ∀ x ∈ xs, lo x < hi x) : (xs.map lo).Nodup := by
  refine List.pairwise_map.mpr (h.pairwise.imp_of_mem ?_)
  intro x y hxm hym hxy e
  have hx := hpos x hxm
  have hy := hpos y hym
  rcases hxy with h | h <;> omega

theorem grow (h : Covers lo hi xs a b) (hlo : lo x = b) (hx : lo x ≤ hi x) :
    Covers lo hi (x :: xs) a (hi x) := by
  obtain ⟨s, hs, ht⟩ := h
  refine ⟨s ++ [x], ?_, ?_⟩
  · exact (List.perm_append_singleton x s).trans (hs.cons x)
  · exact tiles_append.mpr ⟨b, ht, hlo, hlo ▸ hx, rfl⟩

/-- A permutation of `pre ++ x :: post` has `x` at some place, the rest around it. -/
theorem perm_around {s : List α} (hs : s.Perm (pre ++ x :: post)) :
    ∃ s₁ s₂, s = s₁ ++ x :: s₂ ∧ (s₁ ++ s₂).Perm (pre ++ post) := by
  have hx : x ∈ s := hs.mem_iff.mpr (by simp)
  obtain ⟨s₁, s₂, rfl⟩ := List.append_of_mem hx
  refine ⟨s₁, s₂, rfl, ?_⟩
  exact (List.perm_cons x).mp (List.perm_middle.symm.trans (hs.trans List.perm_middle))

/-- Cut one extent in two: `x₁` keeps its start, `x₂` takes the rest. -/
theorem split (h : Covers lo hi (pre ++ x :: post) a b) (h1 : lo x₁ = lo x) (h2 : lo x₁ ≤ hi x₁)
    (h3 : lo x₂ = hi x₁) (h4 : lo x₂ ≤ hi x₂) (h5 : hi x₂ = hi x) :
    Covers lo hi (x₂ :: (pre ++ x₁ :: post)) a b := by
  obtain ⟨s, hs, ht⟩ := h
  obtain ⟨s₁, s₂, rfl, hp⟩ := perm_around hs
  obtain ⟨c, ht₁, hc, hcx, ht₂⟩ := tiles_append.mp ht
  refine ⟨s₁ ++ x₁ :: x₂ :: s₂, ?_, tiles_append.mpr ⟨c, ht₁, ?_⟩⟩
  · calc s₁ ++ x₁ :: x₂ :: s₂ ~ x₁ :: (s₁ ++ x₂ :: s₂) := List.perm_middle
      _ ~ x₁ :: x₂ :: (s₁ ++ s₂) := List.perm_middle.cons x₁
      _ ~ x₂ :: x₁ :: (s₁ ++ s₂) := List.Perm.swap _ _ _
      _ ~ x₂ :: x₁ :: (pre ++ post) := (hp.cons x₁).cons x₂
      _ ~ x₂ :: (pre ++ x₁ :: post) := List.perm_middle.symm.cons x₂
  · refine ⟨h1.trans hc, by omega, h3, by omega, ?_⟩
    rw [h5]
    exact ht₂

/-- Replace a member by one with the same extent. -/
theorem replace (h : Covers lo hi (pre ++ x :: post) a b) (h1 : lo x₁ = lo x) (h2 : hi x₁ = hi x) :
    Covers lo hi (pre ++ x₁ :: post) a b := by
  obtain ⟨s, hs, ht⟩ := h
  obtain ⟨s₁, s₂, rfl, hp⟩ := perm_around hs
  obtain ⟨c, ht₁, hc, hcx, ht₂⟩ := tiles_append.mp ht
  refine ⟨s₁ ++ x₁ :: s₂, ?_, tiles_append.mpr ⟨c, ht₁, h1.trans hc, h2 ▸ hcx, h2 ▸ ht₂⟩⟩
  exact List.perm_middle.trans ((hp.cons x₁).trans List.perm_middle.symm)

theorem map {β : Type} {lo' hi' : β → Nat} (f : α → β) (h : Covers lo hi xs a b)
    (hf : ∀ x ∈ xs, lo' (f x) = lo x ∧ hi' (f x) = hi x) : Covers lo' hi' (xs.map f) a b := by
  obtain ⟨s, hs, ht⟩ := h
  refine ⟨s.map f, hs.map f, ?_⟩
  have hf' : ∀ x ∈ s, lo' (f x) = lo x ∧ hi' (f x) = hi x := fun x hx => hf x (hs.mem_iff.mp hx)
  clear hs
  induction s generalizing a with
  | nil => exact ht
  | cons x s ih =>
    obtain ⟨h1, h2, h3⟩ := ht
    obtain ⟨e1, e2⟩ := hf' x List.mem_cons_self
    exact ⟨e1.trans h1, e2 ▸ h2, e2 ▸ ih h3 (fun y hy => hf' y (List.mem_cons_of_mem x hy))⟩

end Covers
end Tiling
