import LineOS.ByteMemory
import Mathlib.Data.Finset.Card

/- `lib/ds/bitmap.c`. A bitmap is an array of bytes and the number of bits in
   use; bit `i` is bit `i % 8` of byte `i / 8`. What a bitmap stands for is the
   finite set of its set bits, `Bitmap.toFinset`: `bitmap_init` makes it empty,
   `bitmap_bitset` inserts, `bitmap_bitclear` erases and `bitmap_bitget` asks for
   membership, each refusing (-1) a number from the limit on. -/
namespace LineOS
open ByteMemory

structure Bitmap where
  /-- `base[i]` -/
  byte : Nat → U8
  limit : Nat

/-! The macros of `ds/bitmap.h`, on a byte. -/

/-- `SET_BIT` -/
def setBit (x : U8) (b : Nat) : U8 := x ||| ((1 : U8) <<< b)

/-- `CLEAR_BIT` -/
def clearBit (x : U8) (b : Nat) : U8 := x &&& ~~~((1 : U8) <<< b)

/-- `GET_BIT` -/
def getBit (x : U8) (b : Nat) : U8 := (x >>> b) &&& 1

namespace Bitmap

/-- `bitmap_init`: the loop clears every byte that holds one of the bits. -/
def init (b : Bitmap) : Bitmap :=
  let bytes := b.limit / 8
  let bytes := if b.limit % 8 ≠ 0 then bytes + 1 else bytes
  { b with byte := fun i => if i < bytes then 0 else b.byte i }

/-- `bitmap_bitset` -/
def bitset (b : Bitmap) (bit : Nat) : Int × Bitmap :=
  if b.limit ≤ bit then (-1, b)
  else (0, { b with byte := Function.update b.byte (bit / 8) (setBit (b.byte (bit / 8)) (bit % 8)) })

/-- `bitmap_bitclear` -/
def bitclear (b : Bitmap) (bit : Nat) : Int × Bitmap :=
  if b.limit ≤ bit then (-1, b)
  else (0, { b with byte := Function.update b.byte (bit / 8) (clearBit (b.byte (bit / 8)) (bit % 8)) })

/-- `bitmap_bitget` -/
def bitget (b : Bitmap) (bit : Nat) : Int :=
  if b.limit ≤ bit then -1 else ((getBit (b.byte (bit / 8)) (bit % 8)).toNat : Int)

/-- Bit `i` of the byte array. -/
def bit (b : Bitmap) (i : Nat) : Bool := (b.byte (i / 8)).getLsbD (i % 8)

def toFinset (b : Bitmap) : Finset Nat := (Finset.range b.limit).filter (fun i => b.bit i = true)

/-! One byte. -/

theorem getLsbD_setBit (x : U8) {i j : Nat} (hj : j < 8) :
    (setBit x i).getLsbD j = (decide (j = i) || x.getLsbD j) := by
  rw [setBit, BitVec.getLsbD_or, BitVec.getLsbD_shiftLeft]
  by_cases h : j = i
  · subst h
    simp [hj]
  · have hs : j < i ∨ j - i ≠ 0 := by omega
    rcases hs with hs | hs <;> simp [h, hs]

theorem getLsbD_clearBit (x : U8) {i j : Nat} (hj : j < 8) :
    (clearBit x i).getLsbD j = (!decide (j = i) && x.getLsbD j) := by
  rw [clearBit, BitVec.getLsbD_and, BitVec.getLsbD_not, BitVec.getLsbD_shiftLeft]
  by_cases h : j = i
  · subst h
    simp [hj]
  · have hs : j < i ∨ j - i ≠ 0 := by omega
    rcases hs with hs | hs <;> simp [h, hs, hj]

theorem getBit_toNat (x : U8) (i : Nat) : (getBit x i).toNat = (x.getLsbD i).toNat := by
  have h : getBit x i = BitVec.setWidth 8 (BitVec.ofBool (x.getLsbD i)) := by
    unfold getBit
    ext j hj
    by_cases h0 : j = 0
    · subst h0
      simp
    · simp [h0]
  rw [h]
  cases x.getLsbD i <;> rfl

/-! The set. -/

section
variable {b : Bitmap} {i j : Nat}

@[simp] theorem mem_toFinset : i ∈ b.toFinset ↔ i < b.limit ∧ b.bit i = true := by
  simp [toFinset]

theorem lt_limit (h : i ∈ b.toFinset) : i < b.limit := (mem_toFinset.mp h).1

theorem card_le (b : Bitmap) : b.toFinset.card ≤ b.limit := by
  have h := Finset.card_filter_le (Finset.range b.limit) (fun i => b.bit i = true)
  rwa [Finset.card_range] at h

@[simp] theorem init_limit (b : Bitmap) : b.init.limit = b.limit := rfl

theorem init_toFinset (b : Bitmap) : b.init.toFinset = ∅ := by
  ext i
  simp only [mem_toFinset, init_limit, Finset.notMem_empty, iff_false, not_and]
  intro hi
  have hb : i / 8 < if b.limit % 8 ≠ 0 then b.limit / 8 + 1 else b.limit / 8 := by
    split <;> omega
  have h0 : b.init.byte (i / 8) = 0 := if_pos hb
  rw [bit, h0]
  simp

theorem bit_update (b : Bitmap) (i j : Nat) (v : U8) :
    Bitmap.bit { b with byte := Function.update b.byte (i / 8) v } j =
      if j / 8 = i / 8 then v.getLsbD (j % 8) else b.bit j := by
  simp only [bit]
  split
  · next h => rw [h, Function.update_self]
  · next h => rw [Function.update_of_ne h]

theorem bitset_out (h : b.limit ≤ i) : b.bitset i = (-1, b) := if_pos h

theorem bitset_spec (h : i < b.limit) : (b.bitset i).1 = 0 ∧ (b.bitset i).2.limit = b.limit ∧
    (b.bitset i).2.toFinset = insert i b.toFinset := by
  rw [bitset, if_neg (by omega)]
  refine ⟨rfl, rfl, ?_⟩
  ext j
  rw [mem_toFinset, Finset.mem_insert, mem_toFinset, bit_update, getLsbD_setBit _ (by omega)]
  by_cases hj : j = i
  · subst hj
    simp [h]
  · by_cases h8 : j / 8 = i / 8
    · have hm : j % 8 ≠ i % 8 := by omega
      simp [hj, h8, hm, bit]
    · simp [hj, h8]

theorem bitclear_out (h : b.limit ≤ i) : b.bitclear i = (-1, b) := if_pos h

theorem bitclear_spec (h : i < b.limit) : (b.bitclear i).1 = 0 ∧ (b.bitclear i).2.limit = b.limit ∧
    (b.bitclear i).2.toFinset = b.toFinset.erase i := by
  rw [bitclear, if_neg (by omega)]
  refine ⟨rfl, rfl, ?_⟩
  ext j
  rw [mem_toFinset, Finset.mem_erase, mem_toFinset, bit_update, getLsbD_clearBit _ (by omega)]
  by_cases hj : j = i
  · subst hj
    simp
  · by_cases h8 : j / 8 = i / 8
    · have hm : j % 8 ≠ i % 8 := by omega
      simp [hj, h8, hm, bit]
    · simp [hj, h8]

theorem bitget_eq (h : i < b.limit) : b.bitget i = if i ∈ b.toFinset then 1 else 0 := by
  rw [bitget, if_neg (by omega)]
  rw [getBit_toNat]
  show (((b.bit i).toNat : Nat) : Int) = _
  cases hb : b.bit i <;> simp [hb, h]

/-- What the scan of `alloc_pages` asks: a bit reads as clear when it is in the
range of the bitmap and not in the set. -/
theorem bitget_eq_zero : b.bitget i = 0 ↔ i < b.limit ∧ i ∉ b.toFinset := by
  by_cases h : i < b.limit
  · rw [bitget_eq h]
    by_cases hm : i ∈ b.toFinset
    · simp only [hm, if_true, not_true_eq_false, and_false, iff_false]
      decide
    · simp only [hm, if_false, not_false_eq_true, and_true, h]
  · rw [bitget, if_pos (by omega)]
    simp [h]

end
end Bitmap
end LineOS
