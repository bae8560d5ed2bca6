import LineOS.Bitmap
import Mathlib.Data.List.GetD

/- `lib/ds/bitmap.c` over an array that ends: a read or a write outside the array
   fails the whole operation (`none`). A run of operations is compared with one
   on a finite set (`specRun`). The run is the same whatever follows the first
   `bitmapBytes` bytes, and never fails when the array has that many
   (`steps_tail`): nothing behind them is read or written. -/
namespace LineOS
open ByteMemory

/-- A bitmap and the array behind its `base`. -/
structure BitmapArray where
  base : List U8
  limit : U32
  deriving DecidableEq, Repr

inductive BitmapOp where
  | init
  | bitset (bit : U32)
  | bitclear (bit : U32)
  | bitget (bit : U32)
  deriving DecidableEq, Repr

/-- The bytes that hold `limit` bits, as `bitmap_init` rounds them. -/
def bitmapBytes (limit : Nat) : Nat := if limit % 8 ≠ 0 then limit / 8 + 1 else limit / 8

/-- `base[i]=v` -/
def storeByte (base : List U8) (i : Nat) (v : U8) : Option (List U8) :=
  if i < base.length then some (base.set i v) else none

namespace BitmapArray

/-- `bitmap_init` -/
def init (b : BitmapArray) : Option BitmapArray := do
  let base ← (List.range (bitmapBytes b.limit.toNat)).foldlM (fun base i => storeByte base i 0) b.base
  return { b with base := base }

/-- `bitmap_bitset` and `bitmap_bitclear`: the byte is read, changed and written back. -/
def change (f : U8 → Nat → U8) (b : BitmapArray) (bit : U32) : Option (Int × BitmapArray) :=
  if b.limit ≤ bit then some (-1, b)
  else do
    let x ← b.base[(bit / 8).toNat]?
    let base ← storeByte b.base (bit / 8).toNat (f x (bit % 8).toNat)
    return (0, { b with base := base })

def bitset (b : BitmapArray) (bit : U32) : Option (Int × BitmapArray) := b.change setBit bit

def bitclear (b : BitmapArray) (bit : U32) : Option (Int × BitmapArray) := b.change clearBit bit

/-- `bitmap_bitget` -/
def bitget (b : BitmapArray) (bit : U32) : Option Int :=
  if b.limit ≤ bit then some (-1)
  else do
    let x ← b.base[(bit / 8).toNat]?
    return ((getBit x (bit % 8).toNat).toNat : Int)

/-- One operation, with the value it returns (`bitmap_init` returns none). -/
def step (b : BitmapArray) : BitmapOp → Option (Option Int × BitmapArray)
  | .init => b.init.map fun b' => (none, b')
  | .bitset bit => (b.bitset bit).map fun r => (some r.1, r.2)
  | .bitclear bit => (b.bitclear bit).map fun r => (some r.1, r.2)
  | .bitget bit => (b.bitget bit).map fun r => (some r, b)

/-- A run, with the values returned. -/
def steps (b : BitmapArray) : List BitmapOp → Option (List (Option Int) × BitmapArray)
  | [] => some ([], b)
  | op :: ops => do
    let (r, b) ← b.step op
    let (rs, b) ← b.steps ops
    return (r :: rs, b)

/-- The bitmap over an unbounded array, and the set it stands for. -/
def toBitmap (b : BitmapArray) : Bitmap := ⟨fun i => b.base.getD i 0, b.limit.toNat⟩

def toFinset (b : BitmapArray) : Finset Nat := b.toBitmap.toFinset

/-- The array holds all the bits. -/
def Fits (b : BitmapArray) : Prop := bitmapBytes b.limit.toNat ≤ b.base.length

end BitmapArray

/-! What the operations are for: a set of numbers below the limit. -/

def specStep (limit : U32) : BitmapOp → Finset Nat → Option Int × Finset Nat
  | .init, _ => (none, ∅)
  | .bitset bit, t => if bit < limit then (some 0, insert bit.toNat t) else (some (-1), t)
  | .bitclear bit, t => if bit < limit then (some 0, t.erase bit.toNat) else (some (-1), t)
  | .bitget bit, t => if bit < limit then (some (if bit.toNat ∈ t then 1 else 0), t) else (some (-1), t)

def specRun (limit : U32) : List BitmapOp → Finset Nat → List (Option Int) × Finset Nat
  | [], t => ([], t)
  | op :: ops, t =>
    let (r, t) := specStep limit op t
    let (rs, t) := specRun limit ops t
    (r :: rs, t)

/-! One access. -/

theorem storeByte_append {base tail : List U8} {i : Nat} {v : U8} (h : i < base.length) :
    storeByte (base ++ tail) i v = some (base.set i v ++ tail) := by
  rw [storeByte, if_pos (by rw [List.length_append]; omega), List.set_append_left i v h]

theorem byte_lt {limit bit : U32} (h : bit < limit) : (bit / 8).toNat < bitmapBytes limit.toNat := by
  have hlt : bit.toNat < limit.toNat := h
  have hdiv : (bit / 8).toNat = bit.toNat / 8 := rfl
  rw [hdiv, bitmapBytes]
  split <;> omega

theorem clear_loop (tail : List U8) : ∀ (n : Nat) (base : List U8), n ≤ base.length →
    (List.range n).foldlM (fun base i => storeByte base i 0) (base ++ tail) =
      some (List.replicate n 0 ++ base.drop n ++ tail)
  | 0, base, _ => by simp
  | n + 1, base, h => by
    have hlen : n < (List.replicate n (0 : U8) ++ base.drop n).length := by
      rw [List.length_append, List.length_replicate, List.length_drop]
      omega
    have hset : (List.replicate n (0 : U8) ++ base.drop n).set n 0 = List.replicate (n + 1) 0 ++ base.drop (n + 1) := by
      rw [List.set_append_right _ _ (by rw [List.length_replicate]), List.length_replicate, Nat.sub_self,
        List.drop_eq_getElem_cons (by omega), List.set_cons_zero, List.replicate_succ']
      simp
    rw [List.range_succ, List.foldlM_append, clear_loop tail n base (by omega)]
    simp only [Option.bind_eq_bind, Option.bind_some, List.foldlM_cons, List.foldlM_nil]
    rw [storeByte_append hlen, hset]
    rfl

namespace BitmapArray

section
variable {b : BitmapArray}

/-! The array and the unbounded one of `Bitmap`. -/

theorem toFinset_append (h : b.Fits) (tail : List U8) : toFinset ⟨b.base ++ tail, b.limit⟩ = b.toFinset := by
  ext i
  have hbyte : i < b.limit.toNat → (b.base ++ tail).getD (i / 8) 0 = b.base.getD (i / 8) 0 := by
    intro hi
    have hlt : i / 8 < b.base.length := by
      refine Nat.lt_of_lt_of_le ?_ h
      rw [bitmapBytes]
      split <;> omega
    rw [List.getD_append _ _ _ _ hlt]
  simp only [toFinset, Bitmap.mem_toFinset, toBitmap, Bitmap.bit]
  constructor
  · rintro ⟨hi, hb⟩
    exact ⟨hi, hbyte hi ▸ hb⟩
  · rintro ⟨hi, hb⟩
    exact ⟨hi, (hbyte hi).symm ▸ hb⟩

theorem toBitmap_cleared (b : BitmapArray) : toBitmap
    ⟨List.replicate (bitmapBytes b.limit.toNat) 0 ++ b.base.drop (bitmapBytes b.limit.toNat), b.limit⟩ = b.toBitmap.init := by
  have hbyte : ∀ i, (List.replicate (bitmapBytes b.limit.toNat) (0 : U8) ++ b.base.drop (bitmapBytes b.limit.toNat)).getD i 0 =
      if i < bitmapBytes b.limit.toNat then 0 else b.base.getD i 0 := by
    intro i
    split
    · next hi =>
      rw [List.getD_append _ _ _ _ (by rw [List.length_replicate]; exact hi)]
      simp
    · next hi =>
      rw [List.getD_append_right _ _ _ _ (by rw [List.length_replicate]; omega), List.length_replicate]
      simp only [List.getD_eq_getElem?_getD, List.getElem?_drop]
      rw [Nat.add_sub_cancel' (by omega)]
  exact congrArg (Bitmap.mk · b.limit.toNat) (funext hbyte)

theorem toBitmap_set (b : BitmapArray) {i : Nat} (v : U8) (hi : i < b.base.length) :
    toBitmap ⟨b.base.set i v, b.limit⟩ = { b.toBitmap with byte := Function.update b.toBitmap.byte i v } := by
  have hbyte : ∀ j, (b.base.set i v).getD j 0 = Function.update (fun i => b.base.getD i 0) i v j := by
    intro j
    by_cases hj : j = i
    · subst hj
      rw [Function.update_self, List.getD_eq_getElem?_getD, List.getElem?_set_self hi, Option.getD_some]
    · rw [Function.update_of_ne hj, List.getD_eq_getElem?_getD, List.getElem?_set_ne (by omega),
        List.getD_eq_getElem?_getD]
  exact congrArg (Bitmap.mk · b.limit.toNat) (funext hbyte)

/-! One operation, whatever follows the array. -/

/-- The operation answers `r` and leaves `b'`, and what follows the array as it was. -/
structure Does (b : BitmapArray) (op : BitmapOp) (r : Option Int) (b' : BitmapArray) : Prop where
  limit : b'.limit = b.limit
  length : b'.base.length = b.base.length
  step : ∀ tail, BitmapArray.step ⟨b.base ++ tail, b.limit⟩ op = some (r, ⟨b'.base ++ tail, b.limit⟩)

theorem init_does (h : b.Fits) : ∃ b', b'.toBitmap = b.toBitmap.init ∧ Does b .init none b' := by
  refine ⟨_, toBitmap_cleared b, rfl, ?_, fun tail => ?_⟩
  · rw [List.length_append, List.length_replicate, List.length_drop]
    exact Nat.add_sub_cancel' h
  · simp only [step, init]
    rw [clear_loop tail _ _ h]
    rfl

theorem change_does (f : U8 → Nat → U8) {bit : U32} (h : b.Fits) (hbit : bit < b.limit) : ∃ b' : BitmapArray,
    b'.toBitmap = ⟨Function.update b.toBitmap.byte (bit.toNat / 8)
      (f (b.toBitmap.byte (bit.toNat / 8)) (bit.toNat % 8)), b.limit.toNat⟩ ∧
    b'.limit = b.limit ∧ b'.base.length = b.base.length ∧
    ∀ tail, change f ⟨b.base ++ tail, b.limit⟩ bit = some (0, ⟨b'.base ++ tail, b.limit⟩) := by
  have hi : (bit / 8).toNat < b.base.length := Nat.lt_of_lt_of_le (byte_lt hbit) h
  refine ⟨_, toBitmap_set b _ hi, rfl, List.length_set, fun tail => ?_⟩
  have hread : (b.base ++ tail)[(bit / 8).toNat]? = some (b.base.getD (bit / 8).toNat 0) := by
    rw [List.getElem?_append_left hi, List.getD_eq_getElem?_getD, List.getElem?_eq_getElem hi, Option.getD_some]
  have hin : ¬ b.limit ≤ bit := by bv_omega
  simp only [change, if_neg hin, hread]
  simp only [Option.bind_eq_bind, Option.bind_some, storeByte_append hi]
  rfl

theorem bitget_does {bit : U32} (h : b.Fits) (hbit : bit < b.limit) (tail : List U8) :
    bitget ⟨b.base ++ tail, b.limit⟩ bit = some (b.toBitmap.bitget bit.toNat) := by
  have hi : (bit / 8).toNat < b.base.length := Nat.lt_of_lt_of_le (byte_lt hbit) h
  have hread : (b.base ++ tail)[(bit / 8).toNat]? = some (b.base.getD (bit / 8).toNat 0) := by
    rw [List.getElem?_append_left hi, List.getD_eq_getElem?_getD, List.getElem?_eq_getElem hi, Option.getD_some]
  have hin : ¬ b.limit ≤ bit := by bv_omega
  have hin' : ¬ b.toBitmap.limit ≤ bit.toNat := by
    show ¬ b.limit.toNat ≤ bit.toNat
    bv_omega
  simp only [bitget, if_neg hin, hread]
  rw [Bitmap.bitget, if_neg hin']
  rfl

theorem refused_does {op : BitmapOp} {bit : U32} (hop : op = .bitset bit ∨ op = .bitclear bit ∨ op = .bitget bit)
    (hbit : b.limit ≤ bit) : Does b op (some (-1)) b := by
  refine ⟨rfl, rfl, fun tail => ?_⟩
  rcases hop with rfl | rfl | rfl <;> simp [step, bitset, bitclear, bitget, change, hbit]

/-- **One operation** is that on the set. -/
theorem step_does (h : b.Fits) (op : BitmapOp) :
    ∃ b', b'.toFinset = (specStep b.limit op b.toFinset).2 ∧ Does b op (specStep b.limit op b.toFinset).1 b' := by
  cases op with
  | init =>
    obtain ⟨b', hb', hdoes⟩ := init_does h
    exact ⟨b', (congrArg Bitmap.toFinset hb').trans (Bitmap.init_toFinset _), hdoes⟩
  | bitset bit =>
    by_cases hbit : bit < b.limit
    · obtain ⟨b', hb', hlim, hlen, hstep⟩ := change_does setBit h hbit
      have hlt : bit.toNat < b.toBitmap.limit := hbit
      have hset : b'.toBitmap = (b.toBitmap.bitset bit.toNat).2 := by
        rw [hb', Bitmap.bitset, if_neg (by omega)]
        rfl
      simp only [specStep, if_pos hbit]
      refine ⟨b', (congrArg Bitmap.toFinset hset).trans (Bitmap.bitset_spec hlt).2.2, hlim, hlen, fun tail => ?_⟩
      rw [step, bitset, hstep]
      rfl
    · simp only [specStep, if_neg hbit]
      exact ⟨b, rfl, refused_does (.inl rfl) (by bv_omega)⟩
  | bitclear bit =>
    by_cases hbit : bit < b.limit
    · obtain ⟨b', hb', hlim, hlen, hstep⟩ := change_does clearBit h hbit
      have hlt : bit.toNat < b.toBitmap.limit := hbit
      have hset : b'.toBitmap = (b.toBitmap.bitclear bit.toNat).2 := by
        rw [hb', Bitmap.bitclear, if_neg (by omega)]
        rfl
      simp only [specStep, if_pos hbit]
      refine ⟨b', (congrArg Bitmap.toFinset hset).trans (Bitmap.bitclear_spec hlt).2.2, hlim, hlen, fun tail => ?_⟩
      rw [step, bitclear, hstep]
      rfl
    · simp only [specStep, if_neg hbit]
      exact ⟨b, rfl, refused_does (.inr (.inl rfl)) (by bv_omega)⟩
  | bitget bit =>
    by_cases hbit : bit < b.limit
    · have hlt : bit.toNat < b.toBitmap.limit := hbit
      simp only [specStep, if_pos hbit]
      refine ⟨b, rfl, rfl, rfl, fun tail => ?_⟩
      rw [step, bitget_does h hbit, Bitmap.bitget_eq hlt]
      rfl
    · simp only [specStep, if_neg hbit]
      exact ⟨b, rfl, refused_does (.inr (.inr rfl)) (by bv_omega)⟩

end

theorem steps_tail : ∀ (ops : List BitmapOp) (b : BitmapArray), b.Fits →
    ∃ b' : BitmapArray, b'.limit = b.limit ∧ b'.base.length = b.base.length ∧
      b'.toFinset = (specRun b.limit ops b.toFinset).2 ∧
      ∀ tail, steps ⟨b.base ++ tail, b.limit⟩ ops =
        some ((specRun b.limit ops b.toFinset).1, ⟨b'.base ++ tail, b.limit⟩)
  | [], b, _ => ⟨b, rfl, rfl, rfl, fun _ => rfl⟩
  | op :: ops, b, h => by
    obtain ⟨c, hc, hdoes⟩ := step_does h op
    have hfit : c.Fits := by
      rw [Fits, hdoes.limit, hdoes.length]
      exact h
    obtain ⟨b', hlim, hlen, hset, hsteps⟩ := steps_tail ops c hfit
    rw [hdoes.limit, hc] at hset
    refine ⟨b', hlim.trans hdoes.limit, hlen.trans hdoes.length, hset, fun tail => ?_⟩
    have hrest := hsteps tail
    rw [hdoes.limit, hc] at hrest
    rw [steps, hdoes.step tail]
    simp only [Option.bind_eq_bind, Option.bind_some, hrest]
    rfl

end BitmapArray

/-- **The bitmap refines a finite set**, over every array of at least `bitmapBytes` bytes and every run of
operations: the results and the set left behind are those of `specRun`; the run over the first `bitmapBytes` bytes
alone, where an access behind them would fail, goes the same way, and the bytes behind them are not changed. After any
run, an operation on a number from the limit on returns -1 and leaves every byte as it was. -/
theorem bitmap_refines_set (limit : U32) (base : List U8) (h : bitmapBytes limit.toNat ≤ base.length)
    (ops : List BitmapOp) : ∃ base',
    base'.length = bitmapBytes limit.toNat ∧
    BitmapArray.steps ⟨base, limit⟩ ops = some ((specRun limit ops (BitmapArray.toFinset ⟨base, limit⟩)).1,
      ⟨base' ++ base.drop (bitmapBytes limit.toNat), limit⟩) ∧
    BitmapArray.toFinset ⟨base' ++ base.drop (bitmapBytes limit.toNat), limit⟩ =
      (specRun limit ops (BitmapArray.toFinset ⟨base, limit⟩)).2 ∧
    BitmapArray.steps ⟨base.take (bitmapBytes limit.toNat), limit⟩ ops =
      some ((specRun limit ops (BitmapArray.toFinset ⟨base, limit⟩)).1, ⟨base', limit⟩) ∧
    ∀ (op : BitmapOp) (bit : U32), (op = .bitset bit ∨ op = .bitclear bit ∨ op = .bitget bit) → limit ≤ bit →
      BitmapArray.step ⟨base' ++ base.drop (bitmapBytes limit.toNat), limit⟩ op =
        some (some (-1), ⟨base' ++ base.drop (bitmapBytes limit.toNat), limit⟩) := by
  have hlen : (base.take (bitmapBytes limit.toNat)).length = bitmapBytes limit.toNat := List.length_take_of_le h
  have hfit : BitmapArray.Fits ⟨base.take (bitmapBytes limit.toNat), limit⟩ := Nat.le_of_eq hlen.symm
  obtain ⟨b', hlim, hlen', hset, hsteps⟩ := BitmapArray.steps_tail ops _ hfit
  have hwhole := BitmapArray.toFinset_append hfit (base.drop (bitmapBytes limit.toNat))
  simp only [List.take_append_drop] at hwhole
  have hfit' : b'.Fits := by
    rw [BitmapArray.Fits, hlim, hlen']
    exact hfit
  rw [← hwhole] at hset hsteps
  refine ⟨b'.base, hlen'.trans hlen, ?_, ?_, ?_, fun op bit hop hbit => ?_⟩
  · have hrun := hsteps (base.drop (bitmapBytes limit.toNat))
    simp only [List.take_append_drop] at hrun
    exact hrun
  · have happ := BitmapArray.toFinset_append hfit' (base.drop (bitmapBytes limit.toNat))
    rw [hlim] at happ
    exact happ.trans hset
  · have hrun := hsteps []
    simp only [List.append_nil] at hrun
    exact hrun
  · have hdoes := BitmapArray.refused_does (b := ⟨b'.base ++ base.drop (bitmapBytes limit.toNat), limit⟩) hop hbit
    have hstep := hdoes.step []
    simp only [List.append_nil] at hstep
    exact hstep

/-- Twelve bits in three bytes, of which the run uses two: the last of the bits is set and read, the one behind it is
refused, and clearing it afterwards too changes no byte. -/
theorem bitmap_refines_set_sample :
    ((BitmapArray.steps ⟨[0xFF, 0xFF, 0xFF], 12⟩ [.init, .bitset 11, .bitget 11, .bitset 12]).map Prod.fst =
      some [none, some 0, some 1, some (-1)]) ∧
    ∃ base', base'.length = bitmapBytes 12 ∧ BitmapArray.steps ⟨[0xFF, 0xFF, 0xFF], 12⟩
      [.init, .bitset 11, .bitget 11, .bitset 12] = some ((specRun 12 [.init, .bitset 11, .bitget 11, .bitset 12]
        (BitmapArray.toFinset ⟨[0xFF, 0xFF, 0xFF], 12⟩)).1, ⟨base' ++ [0xFF], 12⟩) ∧
      BitmapArray.step ⟨base' ++ [0xFF], 12⟩ (.bitclear 12) = some (some (-1), ⟨base' ++ [0xFF], 12⟩) := by
  refine ⟨by decide, ?_⟩
  obtain ⟨base', hlen, hrun, -, -, hrefused⟩ := bitmap_refines_set 12 [0xFF, 0xFF, 0xFF] (by decide)
    [.init, .bitset 11, .bitget 11, .bitset 12]
  exact ⟨base', hlen, hrun, hrefused (.bitclear 12) 12 (.inr (.inl rfl)) (by decide)⟩

end LineOS
