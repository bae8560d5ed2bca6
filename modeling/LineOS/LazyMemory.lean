import Mathlib.Logic.Function.Basic

/- Programs as trees of loads and stores, and memories that make a cell when it is
   first touched. `Prog.flat` runs a tree on a total function from addresses to
   values, `Store.run` on any memory with a state of its own. A state shows part
   of the function it stands for (`view`); the rest is not decided yet, and each
   access may decide more of it. `Lazy` is what such a memory has to keep for one
   access. `Lazy.run` is then the result for a whole tree: it ends, and however
   the undecided rest of the final state is filled in, the run was the run of
   the flat memory from some filling of the first state. -/
namespace LazyMemory

inductive Prog (A V R : Type) where
  | ret (r : R)
  | load (a : A) (next : V → Prog A V R)
  | store (a : A) (v : V) (next : Prog A V R)

variable {A V R R' S : Type}

namespace Prog

def bind : Prog A V R → (R → Prog A V R') → Prog A V R'
  | ret r, g => g r
  | load a next, g => load a (fun v => (next v).bind g)
  | store a v next, g => store a v (next.bind g)

section
variable [DecidableEq A]

/-- The run on a memory that has every cell. -/
def flat : Prog A V R → (A → V) → R × (A → V)
  | ret r, f => (r, f)
  | load a next, f => (next (f a)).flat f
  | store a v next, f => next.flat (Function.update f a v)

/-- The run from `f` touches only addresses that satisfy `dom`. -/
def Stays (dom : A → Prop) : Prog A V R → (A → V) → Prop
  | ret _, _ => True
  | load a next, f => dom a ∧ (next (f a)).Stays dom f
  | store a v next, f => dom a ∧ next.Stays dom (Function.update f a v)

theorem flat_bind (p : Prog A V R) (g : R → Prog A V R') (f : A → V) :
    (p.bind g).flat f = (g (p.flat f).1).flat (p.flat f).2 := by
  induction p generalizing f with
  | ret r => rfl
  | load a next ih => exact ih (f a) f
  | store a v next ih => exact ih (Function.update f a v)

theorem stays_bind {dom : A → Prop} {p : Prog A V R} {g : R → Prog A V R'} {f : A → V} :
    (p.bind g).Stays dom f ↔ p.Stays dom f ∧ (g (p.flat f).1).Stays dom (p.flat f).2 := by
  induction p generalizing f with
  | ret r => simp only [bind, Stays, flat, true_and]
  | load a next ih => exact (and_congr_right fun _ => ih (f a)).trans and_assoc.symm
  | store a v next ih => exact (and_congr_right fun _ => ih).trans and_assoc.symm

theorem Stays.mono {dom dom' : A → Prop} {p : Prog A V R} {f : A → V} (h : p.Stays dom f)
    (hd : ∀ a, dom a → dom' a) : p.Stays dom' f := by
  induction p generalizing f with
  | ret r => trivial
  | load a next ih => exact ⟨hd a h.1, ih (f a) h.2⟩
  | store a v next ih => exact ⟨hd a h.1, ih h.2⟩

end
end Prog

/-- A memory with states `S`. An access may fail, and may change more than its cell. -/
structure Store (A V S : Type) where
  load : A → S → Option (V × S)
  store : A → V → S → Option S

def Store.run (M : Store A V S) : Prog A V R → S → Option (R × S)
  | .ret r, s => some (r, s)
  | .load a next, s => (M.load a s).bind fun x => M.run (next x.1) x.2
  | .store a v next, s => (M.store a v s).bind fun s => M.run next s

/-- `f` is one way to fill in what `view` leaves open. -/
def Fills (view : A → Option V) (f : A → V) : Prop := ∀ a v, view a = some v → f a = v

/-- One access keeps `ok`, and what was decided elsewhere; the cell it touches is
decided from then on. -/
structure Lazy (M : Store A V S) (ok : S → Prop) (view : S → A → Option V) (dom : A → Prop) : Prop where
  load : ∀ a s, ok s → dom a → ∃ v s', M.load a s = some (v, s') ∧ ok s' ∧ view s' a = some v ∧
    ∀ b w, view s b = some w → view s' b = some w
  store : ∀ a v s, ok s → dom a → ∃ s', M.store a v s = some s' ∧ ok s' ∧ view s' a = some v ∧
    ∀ b w, b ≠ a → view s b = some w → view s' b = some w

theorem Lazy.and {M : Store A V S} {ok Q : S → Prop} {view : S → A → Option V} {dom : A → Prop}
    (h : Lazy M ok view dom) (hl : ∀ a s x, ok s → dom a → Q s → M.load a s = some x → Q x.2)
    (hs : ∀ a v s s', ok s → dom a → Q s → M.store a v s = some s' → Q s') :
    Lazy M (fun s => ok s ∧ Q s) view dom := by
  constructor
  · intro a s hok ha
    obtain ⟨v, s', hr, hok', hv, hkeep⟩ := h.load a s hok.1 ha
    exact ⟨v, s', hr, ⟨hok', hl a s _ hok.1 ha hok.2 hr⟩, hv, hkeep⟩
  · intro a v s hok ha
    obtain ⟨s', hr, hok', hv, hkeep⟩ := h.store a v s hok.1 ha
    exact ⟨s', hr, ⟨hok', hs a v s _ hok.1 ha hok.2 hr⟩, hv, hkeep⟩

section
variable [DecidableEq A]

/-- A filling of the state after a store, put back to what it was before. -/
theorem fills_before {view view' : A → Option V} {a : A} {f : A → V} (h : Fills view' f)
    (hkeep : ∀ b w, b ≠ a → view b = some w → view' b = some w) :
    Fills view (Function.update f a ((view a).getD (f a))) := by
  intro b w hb
  by_cases hba : b = a
  · subst hba
    rw [Function.update_self, hb, Option.getD_some]
  · rw [Function.update_of_ne hba]
    exact h b w (hkeep b w hba hb)

theorem update_before {f : A → V} {a : A} {v : V} (w : V) (hv : f a = v) :
    Function.update (Function.update f a w) a v = f := by
  rw [Function.update_idem, ← hv, Function.update_eq_self]

/-- **A run on a lazy memory is a run on a flat one.** -/
theorem Lazy.run {M : Store A V S} {ok : S → Prop} {view : S → A → Option V} {dom : A → Prop} [Inhabited V]
    (h : Lazy M ok view dom) (p : Prog A V R) : ∀ s, ok s → (∀ f, Fills (view s) f → p.Stays dom f) →
    ∃ r s', M.run p s = some (r, s') ∧ ok s' ∧
      ∀ f', Fills (view s') f' → ∃ f, Fills (view s) f ∧ p.flat f = (r, f') := by
  -- some filling exists, so the next address is in the domain
  have some_fills : ∀ s : S, Fills (view s) fun a => (view s a).getD default := by
    intro s a v ha
    simp only [ha, Option.getD_some]
  induction p with
  | ret r => exact fun s hs _ => ⟨r, s, rfl, hs, fun f hf => ⟨f, hf, rfl⟩⟩
  | load a next ih =>
    intro s hs hst
    obtain ⟨v, s₁, hl, hok, hv, hkeep⟩ := h.load a s hs (hst _ (some_fills s)).1
    have hfill : ∀ f, Fills (view s₁) f → Fills (view s) f := fun f hf b w hb => hf b w (hkeep b w hb)
    have hst₁ : ∀ f, Fills (view s₁) f → (next v).Stays dom f := by
      intro f hf
      have hn := (hst f (hfill f hf)).2
      rwa [hf a v hv] at hn
    obtain ⟨r, s', hr, hok', hback⟩ := ih v s₁ hok hst₁
    refine ⟨r, s', by rw [Store.run, hl, Option.bind_some, hr], hok', fun f' hf' => ?_⟩
    obtain ⟨f, hf, he⟩ := hback f' hf'
    exact ⟨f, hfill f hf, by rw [Prog.flat, hf a v hv, he]⟩
  | store a v next ih =>
    intro s hs hst
    obtain ⟨s₁, hl, hok, hv, hkeep⟩ := h.store a v s hs (hst _ (some_fills s)).1
    have hst₁ : ∀ f, Fills (view s₁) f → next.Stays dom f := by
      intro f hf
      have hn := (hst _ (fills_before hf hkeep)).2
      rwa [update_before _ (hf a v hv)] at hn
    obtain ⟨r, s', hr, hok', hback⟩ := ih s₁ hok hst₁
    refine ⟨r, s', by rw [Store.run, hl, Option.bind_some, hr], hok', fun f' hf' => ?_⟩
    obtain ⟨f, hf, he⟩ := hback f' hf'
    refine ⟨_, fills_before hf hkeep, ?_⟩
    rw [Prog.flat, update_before _ (hf a v hv), he]

end
end LazyMemory
