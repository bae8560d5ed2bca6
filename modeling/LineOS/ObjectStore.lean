import Mathlib.Data.List.Basic
import Mathlib.Logic.Function.Basic

/- A store of objects. An object occupies cells, and no two in use share one; a
   program takes objects, gives them back, and stores to and loads from the
   cells of those it has. `Step` is what an allocator owes its clients: whatever it
   does to the cells nobody has, those in use keep what was stored to them.
   `Trace` is a run of any labelled step relation and `Trace.map` its simulation by
   another; `trace_cell` is what a run of a store comes to, cell by cell. -/
namespace ObjectStore

section
variable {σ τ l l' : Type}

/-- A run, with the label of each step. -/
inductive Trace (step : σ → l → σ → Prop) (s : σ) : List l → σ → Prop
  | nil : Trace step s [] s
  | snoc {ops op s' s''} : Trace step s ops s' → step s' op s'' → Trace step s (ops ++ [op]) s''

variable {step : σ → l → σ → Prop} {s s' : σ} {ops : List l}

/-- **Simulation**: steps from states that satisfy the invariant are steps of the other relation, seen through `f`. -/
theorem Trace.map {step' : τ → l → τ → Prop} {I : σ → Prop} (f : σ → τ) (h : Trace step s ops s') (h₀ : I s)
    (hs : ∀ t op t', I t → step t op t' → I t' ∧ step' (f t) op (f t')) : Trace step' (f s) ops (f s') := by
  have hboth : I s' ∧ Trace step' (f s) ops (f s') := by
    induction h with
    | nil => exact ⟨h₀, .nil⟩
    | snoc _ hstep ih =>
      obtain ⟨hi, ht⟩ := ih
      obtain ⟨hi', hstep'⟩ := hs _ _ _ hi hstep
      exact ⟨hi', ht.snoc hstep'⟩
  exact hboth.2

end

variable {α β ρ : Type}

/-- The objects in use, and what every cell holds. -/
structure Objects (α β ρ : Type) where
  live : List ρ
  cell : α → β

inductive StoreOp (α β ρ : Type) where
  | alloc (r : ρ)
  | free (r : ρ)
  | store (a : α) (v : β)
  | load (a : α) (v : β)
  | other

def InUse (cells : ρ → α → Prop) (live : List ρ) (a : α) : Prop := ∃ r ∈ live, cells r a

variable [DecidableEq α] [BEq ρ] [LawfulBEq ρ]

inductive Step (cells : ρ → α → Prop) : Objects α β ρ → StoreOp α β ρ → Objects α β ρ → Prop
  | alloc {live c c'} (r : ρ) : (∀ a, cells r a → ¬ InUse cells live a) → (∀ a, InUse cells live a → c' a = c a) →
      Step cells ⟨live, c⟩ (.alloc r) ⟨r :: live, c'⟩
  | free {live c c'} (r : ρ) : r ∈ live → (∀ a, InUse cells (live.erase r) a → c' a = c a) →
      Step cells ⟨live, c⟩ (.free r) ⟨live.erase r, c'⟩
  | store {live c} (a : α) (v : β) : InUse cells live a → Step cells ⟨live, c⟩ (.store a v) ⟨live, Function.update c a v⟩
  | load {live c} (a : α) : InUse cells live a → Step cells ⟨live, c⟩ (.load a (c a)) ⟨live, c⟩
  | other {live c c'} : (∀ a, InUse cells live a → c' a = c a) → Step cells ⟨live, c⟩ .other ⟨live, c'⟩

def StoreOp.write (a : α) (v : β) : StoreOp α β ρ → β
  | .store b w => if b = a then w else v
  | _ => v

def last (a : α) (v : β) (ops : List (StoreOp α β ρ)) : β := ops.foldl (StoreOp.write a) v

section
variable {cells : ρ → α → Prop} {o o' : Objects α β ρ} {ops : List (StoreOp α β ρ)} {op : StoreOp α β ρ} {r : ρ} {a : α}

theorem step_live (h : Step cells o op o') (hr : r ∈ o.live) (hf : op ≠ .free r) : r ∈ o'.live := by
  cases h with
  | alloc r' _ _ => exact List.mem_cons_of_mem _ hr
  | free r' _ _ =>
    have hne : r ≠ r' := fun e => hf (e ▸ rfl)
    exact (List.mem_erase_of_ne hne).mpr hr
  | store b v _ => exact hr
  | load b _ => exact hr
  | other _ => exact hr

theorem step_cell (h : Step cells o op o') (hr : r ∈ o.live) (hf : op ≠ .free r) (ha : cells r a) :
    o'.cell a = op.write a (o.cell a) := by
  have huse : InUse cells o.live a := ⟨r, hr, ha⟩
  have hr' := step_live h hr hf
  cases h with
  | alloc r' _ hc => exact hc a huse
  | free r' _ hc => exact hc a ⟨r, hr', ha⟩
  | @store live c b v _ =>
    show Function.update c b v a = if b = a then v else c a
    by_cases hb : b = a
    · rw [hb, Function.update_self, if_pos rfl]
    · rw [Function.update_of_ne (Ne.symm hb), if_neg hb]
  | load b _ => rfl
  | other hc => exact hc a huse

/-- **A store of objects keeps what is stored**: over any run that does not give the object back. -/
theorem trace_cell (h : Trace (Step cells) o ops o') (hr : r ∈ o.live) (hf : StoreOp.free r ∉ ops) :
    r ∈ o'.live ∧ ∀ a, cells r a → o'.cell a = last a (o.cell a) ops := by
  induction h with
  | nil => exact ⟨hr, fun _ _ => rfl⟩
  | @snoc ops op t t' ht hs ih =>
    rw [List.mem_append, List.mem_singleton, not_or] at hf
    obtain ⟨hr', hc⟩ := ih hf.1
    refine ⟨step_live hs hr' (Ne.symm hf.2), fun a ha => ?_⟩
    calc t'.cell a = op.write a (t.cell a) := step_cell hs hr' (Ne.symm hf.2) ha
      _ = op.write a (last a (o.cell a) ops) := by rw [hc a ha]
      _ = last a (o.cell a) (ops ++ [op]) := by rw [last, last, List.foldl_append]; rfl

end
end ObjectStore
