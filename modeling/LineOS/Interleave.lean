import Mathlib.Logic.Function.Basic

/- Threads that share data. A `Program` says what a thread may do in one step, to the
   shared data and to what is its own; a run takes the threads' steps in any order.
   `Interleaving P ok c₀ c`: steps lead from `c₀` to `c`, each of them one that `ok` allows the
   thread to take where it takes it. So `ok` is the schedule: with `fun _ _ => True`
   every interleaving is a run. -/
namespace Interleave

/-- The shared data, and what each thread has for itself. -/
structure Config (ι σ lc : Type) where
  shared : σ
  loc : ι → lc

/-- What a step of a thread leads to. -/
abbrev Program (ι σ lc : Type) := ι → σ → lc → σ → lc → Prop

variable {ι σ lc : Type} [DecidableEq ι]

def Config.put (c : Config ι σ lc) (i : ι) (s : σ) (l : lc) : Config ι σ lc := ⟨s, Function.update c.loc i l⟩

@[simp] theorem Config.put_shared (c : Config ι σ lc) (i : ι) (s : σ) (l : lc) : (c.put i s l).shared = s := rfl

@[simp] theorem Config.put_self (c : Config ι σ lc) (i : ι) (s : σ) (l : lc) : (c.put i s l).loc i = l :=
  Function.update_self ..

theorem Config.put_ne (c : Config ι σ lc) {i j : ι} (s : σ) (l : lc) (h : j ≠ i) : (c.put i s l).loc j = c.loc j :=
  Function.update_of_ne h ..

@[simp] theorem Config.put_eq_self (c : Config ι σ lc) (i : ι) : c.put i c.shared (c.loc i) = c :=
  congrArg (Config.mk c.shared) (Function.update_eq_self ..)

@[simp] theorem Config.put_put (c : Config ι σ lc) (i : ι) (s s' : σ) (l l' : lc) :
    (c.put i s l).put i s' l' = c.put i s' l' :=
  congrArg (Config.mk s') (Function.update_idem ..)

theorem Config.put_comm (c : Config ι σ lc) {i j : ι} (h : i ≠ j) (s₁ s₂ s : σ) (l l' : lc) :
    (c.put i s₁ l).put j s l' = (c.put j s₂ l').put i s l :=
  congrArg (Config.mk s) (Function.update_comm h ..)

/-- A property of all threads after a step of thread `i`: it held before, and `i` has it. -/
theorem Config.forall_put {c : Config ι σ lc} {i : ι} {s : σ} {l : lc} {p : ι → lc → Prop} (hi : p i l)
    (h : ∀ j, j ≠ i → p j (c.loc j)) : ∀ j, p j ((c.put i s l).loc j) := by
  intro j
  by_cases hj : j = i
  · subst hj
    rwa [Config.put_self]
  · rw [Config.put_ne c s l hj]
    exact h j hj

inductive Interleaving (P : Program ι σ lc) (ok : ι → Config ι σ lc → Prop) (c₀ : Config ι σ lc) :
    Config ι σ lc → Prop
  | start : Interleaving P ok c₀ c₀
  | step {c s l} (i : ι) : Interleaving P ok c₀ c → ok i c → P i c.shared (c.loc i) s l →
      Interleaving P ok c₀ (c.put i s l)

namespace Interleaving

variable {P : Program ι σ lc} {ok : ι → Config ι σ lc → Prop} {c₀ c : Config ι σ lc}

theorem inv {I : Config ι σ lc → Prop} (h : Interleaving P ok c₀ c) (h₀ : I c₀)
    (hs : ∀ c i s l, I c → ok i c → P i c.shared (c.loc i) s l → I (c.put i s l)) : I c := by
  induction h with
  | start => exact h₀
  | step i _ hok hp ih => exact hs _ i _ _ ih hok hp

end Interleaving

/-! Runs written down: who moves, and by which event. -/

section

variable {ε : Type} (f : ε → σ × lc → σ × lc) (guard : ε → ι → Config ι σ lc → Prop)

/-- After the events of the list, one after the other. -/
def Config.play : List (ι × ε) → Config ι σ lc → Config ι σ lc
  | [], c => c
  | (i, e) :: es, c => play es (c.put i (f e (c.shared, c.loc i)).1 (f e (c.shared, c.loc i)).2)

/-- The guard holds of each event where it comes. -/
def Config.Plays : List (ι × ε) → Config ι σ lc → Prop
  | [], _ => True
  | (i, e) :: es, c => guard e i c ∧ Plays es (c.put i (f e (c.shared, c.loc i)).1 (f e (c.shared, c.loc i)).2)

instance Config.decidablePlays [∀ e i c, Decidable (guard e i c)] : ∀ es (c : Config ι σ lc), Decidable (c.Plays f guard es)
  | [], _ => .isTrue trivial
  | (i, e) :: es, c =>
    let _ := decidablePlays es (c.put i (f e (c.shared, c.loc i)).1 (f e (c.shared, c.loc i)).2)
    inferInstanceAs (Decidable (_ ∧ _))

/-- Events that are guarded by what a step and the schedule ask for make a run. -/
theorem Interleaving.play {P : Program ι σ lc} {ok : ι → Config ι σ lc → Prop} {c₀ : Config ι σ lc}
    (hg : ∀ e i c, guard e i c → ok i c ∧ P i c.shared (c.loc i) (f e (c.shared, c.loc i)).1 (f e (c.shared, c.loc i)).2) :
    ∀ es {c : Config ι σ lc}, Interleaving P ok c₀ c → c.Plays f guard es → Interleaving P ok c₀ (c.play f es)
  | [], _, h, _ => h
  | (i, e) :: es, c, h, ⟨he, hes⟩ => by
    obtain ⟨hok, hp⟩ := hg e i c he
    exact play hg es (.step i h hok hp) hes

end

/-! One thread by itself. -/

/-- The thread that takes the steps `f` goes from `x` on while `inside` holds, and is at `y` when it no
    longer does. -/
inductive Sweep (f : σ × lc → σ × lc) (inside : lc → Prop) : σ × lc → σ × lc → Prop
  | stop {x} : ¬ inside x.2 → Sweep f inside x x
  | step {x y} : inside x.2 → Sweep f inside (f x) y → Sweep f inside x y

/-- What the steps inside do not look at may change under them. -/
theorem Sweep.map {f : σ × lc → σ × lc} {inside : lc → Prop} (g : σ → σ)
    (hg : ∀ s l, inside l → f (g s, l) = (g (f (s, l)).1, (f (s, l)).2)) {x y : σ × lc} (h : Sweep f inside x y) :
    Sweep f inside (g x.1, x.2) (g y.1, y.2) := by
  induction h with
  | stop hout => exact stop hout
  | step hin _ ih => exact step hin (by rwa [hg _ _ hin])

end Interleave
