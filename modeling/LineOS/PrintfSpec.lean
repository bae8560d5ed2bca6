import LineOS.Numeral
import LineOS.Printf

/- The format language: a format is a list of pieces, each with the text it spells,
   and the arguments are numbers and strings. `reference` is what a format prints:
   literals as they are, and for each specification the field of its argument. The
   `0` after `%` or `%-` is the flag, so a width without the flag begins with
   another digit.

   Below that, what the parts of `do_printf` that print one argument do:
   `convert_run` for the digits, `emit_run` for the field around them and
   `conversion_run` for both, from the state in which the conversion is found. -/
namespace LineOS
open ByteMemory ByteMemory.Mem Numeral

inductive Modifier where
  | N | F | l | h
  deriving DecidableEq

inductive Conv where
  | d | i | u | o | x | X | p | s
  deriving DecidableEq

def Modifier.char : Modifier → U8
  | N => chr 'N'
  | F => chr 'F'
  | l => chr 'l'
  | h => chr 'h'

namespace Conv

def char : Conv → U8
  | d => chr 'd'
  | i => chr 'i'
  | u => chr 'u'
  | o => chr 'o'
  | x => chr 'x'
  | X => chr 'X'
  | p => chr 'p'
  | s => chr 's'

def radix : Conv → Nat
  | o => 8
  | x => 16
  | X => 16
  | p => 16
  | _ => 10

def signed (c : Conv) : Bool := c = d || c = i

end Conv

def digit (upper : Bool) (n : Nat) : U8 :=
  chr ((['0', '1', '2', '3', '4', '5', '6', '7', '8', '9'] ++
    if upper then ['A', 'B', 'C', 'D', 'E', 'F'] else ['a', 'b', 'c', 'd', 'e', 'f']).getD n ' ')

def decimal (ds : List (Fin 10)) : Nat := ds.foldl (fun n d => 10 * n + d.val) 0

/-- `%[-][0][width][N|F|l|h]*conv` -/
structure Spec where
  left : Bool
  zero : Bool
  width : List (Fin 10)
  mods : List Modifier
  conv : Conv
  width_lt : decimal width < 2 ^ 32
  width_head : zero = false → width.head? ≠ some 0

inductive Piece where
  | lit (c : U8) (h : c ≠ 0 ∧ c ≠ chr '%')
  /-- `%%` -/
  | percent
  | spec (f : Spec)

inductive Arg where
  | value (w : U32)
  | text (s : List U8)

/-- The argument in the word `w` of the argument list. -/
def Arg.At (m : Mem) (w : U32) : Arg → Prop
  | value v => w = v
  | text s => m.Str w s

/-- The argument list at `p` begins with `as`. -/
def ArgsAt (m : Mem) (p : U32) : List Arg → Prop
  | [] => True
  | a :: as => a.At m (m.load32 p) ∧ ArgsAt m (p + 4) as

namespace Spec

def bytes (f : Spec) : List U8 :=
  [chr '%'] ++ (if f.left then [chr '-'] else []) ++ (if f.zero then [chr '0'] else []) ++
    f.width.map (fun d => digit false d.val) ++ f.mods.map Modifier.char ++ [f.conv.char]

/-- Strings go to `%s`, numbers to the other conversions. -/
def Takes (f : Spec) : Arg → Prop
  | .value _ => f.conv ≠ .s
  | .text _ => f.conv = .s

/-- `h` without `l`. -/
def short (f : Spec) : Bool := .h ∈ f.mods && .l ∉ f.mods

def number (f : Spec) (w : U32) : Int :=
  if f.short then if f.conv.signed then (w.setWidth 16).toInt else (w.setWidth 16).toNat
  else if f.conv.signed then w.toInt else w.toNat

end Spec

/-- The text `sign ++ body` in a field. -/
def justify (left zero : Bool) (width : Nat) (sign body : List U8) : List U8 :=
  let gap := width - (sign.length + body.length)
  if left then sign ++ body ++ List.replicate gap (chr ' ')
  else if zero then sign ++ List.replicate gap (chr '0') ++ body
  else List.replicate gap (chr ' ') ++ sign ++ body

/-- The field of an argument. -/
def Spec.field (f : Spec) : Arg → List U8
  | .value w =>
    justify f.left f.zero (decimal f.width) (if f.number w < 0 then [chr '-'] else [])
      (numeral (digit (f.conv = .X)) f.conv.radix (f.number w).natAbs)
  | .text s => justify f.left false (decimal f.width) [] s

/-- The field in a width that need not be the one of `f`. -/
def Spec.fieldIn (f : Spec) (width : Nat) : Arg → List U8
  | .value w =>
    justify f.left f.zero width (if f.number w < 0 then [chr '-'] else [])
      (numeral (digit (f.conv = .X)) f.conv.radix (f.number w).natAbs)
  | .text s => justify f.left false width [] s

theorem Spec.field_eq (f : Spec) (a : Arg) : f.field a = f.fieldIn (decimal f.width) a := by
  cases a <;> rfl

def Piece.bytes : Piece → List U8
  | lit c _ => [c]
  | percent => [chr '%', chr '%']
  | spec f => f.bytes

def formatBytes (ps : List Piece) : List U8 := ps.flatMap Piece.bytes

/-- The arguments are those the format takes, in order and no more. -/
def Matches : List Piece → List Arg → Prop
  | [], as => as = []
  | .spec f :: ps, a :: as => f.Takes a ∧ Matches ps as
  | .spec _ :: _, [] => False
  | .lit _ _ :: ps, as => Matches ps as
  | .percent :: ps, as => Matches ps as

/-- What a format prints. -/
def reference : List Piece → List Arg → List U8
  | .spec f :: ps, a :: as => f.field a ++ reference ps as
  | .lit c _ :: ps, as => c :: reference ps as
  | .percent :: ps, as => chr '%' :: reference ps as
  | _, _ => []

/-! Flags. -/

theorem flag_bits : PR_LJ = BitVec.twoPow 32 0 ∧ PR_CA = BitVec.twoPow 32 1 ∧ PR_SG = BitVec.twoPow 32 2 ∧
    PR_32 = BitVec.twoPow 32 3 ∧ PR_16 = BitVec.twoPow 32 4 ∧ PR_WS = BitVec.twoPow 32 5 ∧
    PR_LZ = BitVec.twoPow 32 6 ∧ PR_FP = BitVec.twoPow 32 7 := by
  decide

theorem and_bit_ne (x : U32) {i : Nat} (hi : i < 32) : x &&& BitVec.twoPow 32 i ≠ 0 ↔ x.getLsbD i = true := by
  have hpow : BitVec.twoPow 32 i ≠ 0 := by
    intro h
    have := congrArg (BitVec.getLsbD · i) h
    simp [hi] at this
  rw [BitVec.and_twoPow]
  split
  · exact iff_of_true hpow ‹_›
  · exact iff_of_false (fun h => h rfl) ‹_›

theorem and_sign_mask (x : U32) : x &&& (PR_WS ||| PR_LZ) =
    (if x.getLsbD 5 then PR_WS else 0) ||| if x.getLsbD 6 then PR_LZ else 0 := by
  obtain ⟨-, -, -, -, -, hws, hlz, -⟩ := flag_bits
  rw [BitVec.and_or_distrib_left, hws, hlz, BitVec.and_twoPow, BitVec.and_twoPow]
  rfl

/-- The flags that decide how a field is laid out. -/
structure Layout (flags : U32) (lj ws lz : Bool) : Prop where
  left : flags &&& PR_LJ = 0 ↔ lj = false
  zero : flags &&& PR_LZ ≠ 0 ↔ lz = true
  sign : flags &&& PR_WS ≠ 0 ↔ ws = true
  early : flags &&& (PR_WS ||| PR_LZ) = PR_WS ||| PR_LZ ↔ ws = true ∧ lz = true
  late : flags &&& (PR_WS ||| PR_LZ) = PR_WS ↔ ws = true ∧ lz = false

theorem layout_of_bits (x : U32) : Layout x (x.getLsbD 0) (x.getLsbD 5) (x.getLsbD 6) := by
  obtain ⟨hlj, -, -, -, -, hws, hlz, -⟩ := flag_bits
  have hmask : ∀ a b : Bool,
      (((if a then PR_WS else 0) ||| if b then PR_LZ else 0) = PR_WS ||| PR_LZ ↔ a = true ∧ b = true) ∧
        (((if a then PR_WS else 0) ||| if b then PR_LZ else 0) = PR_WS ↔ a = true ∧ b = false) := by
    decide
  refine ⟨?_, ?_, ?_, ?_, ?_⟩
  · rw [← not_iff_not, hlj, ← ne_eq, and_bit_ne x (by decide), Bool.not_eq_false]
  · rw [hlz, and_bit_ne x (by decide)]
  · rw [hws, and_bit_ne x (by decide)]
  · rw [and_sign_mask]
    exact (hmask _ _).1
  · rw [and_sign_mask]
    exact (hmask _ _).2

/-! Printing one field. -/

/-- A character of a field as `fn` gets it. -/
def wide (c : U8) : U32 := c.setWidth 32

namespace Printf

/-- The calls `fn(c, &ptr)` for `c` in `cs`. -/
def puts (cs : List U32) (s : Printf) : Printf :=
  { s with out := s.out ++ cs, count := s.count + BitVec.ofNat 32 cs.length }

theorem puts_nil (s : Printf) : s.puts [] = s := by
  simp [puts]

theorem puts_puts (cs ds : List U32) (s : Printf) : (s.puts cs).puts ds = s.puts (cs ++ ds) := by
  simp [puts, BitVec.ofNat_add, BitVec.add_assoc]

theorem put_puts (c : U32) (cs : List U32) (s : Printf) : (s.put c).puts cs = s.puts (c :: cs) := by
  have h : s.put c = s.puts [c] := rfl
  rw [h, puts_puts]
  rfl

@[simp] theorem puts_givenWd (cs : List U32) (s : Printf) : (s.puts cs).givenWd = s.givenWd := rfl

@[simp] theorem puts_flags (cs : List U32) (s : Printf) : (s.puts cs).flags = s.flags := rfl

@[simp] theorem setWd_givenWd (g : U32) (s : Printf) : (s.setWd g).givenWd = g := rfl

@[simp] theorem setWd_flags (g : U32) (s : Printf) : (s.setWd g).flags = s.flags := rfl

@[simp] theorem setWd_setWd (g w : U32) (s : Printf) : (s.setWd g).setWd w = s.setWd w := rfl

@[simp] theorem puts_setWd (cs : List U32) (g : U32) (s : Printf) : (s.setWd g).puts cs = (s.puts cs).setWd g := rfl

end Printf

theorem foldl_put : ∀ (text : List U8) (s : Printf),
    text.foldl (fun s c => s.put (c.setWidth 32)) s = s.puts (text.map wide)
  | [], s => s.puts_nil.symm
  | c :: text, s => by
    rw [List.foldl_cons, foldl_put text, Printf.put_puts]
    rfl

/-- What the padding loop leaves of `given_wd`. -/
def padded (g a : U32) : U32 := if g > a then a else g

theorem padded_pred {g a : U32} (h : a.toNat < g.toNat) : padded (g - 1) a = a := by
  unfold padded
  split
  · rfl
  · bv_omega

theorem padded_gap (g a : U32) : (padded g a).toNat - a.toNat = 0 := by
  unfold padded
  split
  · exact Nat.sub_self _
  · have : ¬ a.toNat < g.toNat := ‹_›
    omega

theorem padded_zero (g : U32) : padded g 0 = 0 := by
  unfold padded
  split
  · rfl
  · bv_omega

/-- The padding loop prints what `given_wd` exceeds `actual_wd` by. -/
theorem padLoop_run {c a : U32} : ∀ {n : Nat} {s : Printf}, s.givenWd.toNat - a.toNat < n →
    padLoop c a n s = some ((s.puts (List.replicate (s.givenWd.toNat - a.toNat) c)).setWd (padded s.givenWd a))
  | n + 1, s, h => by
    rw [padLoop]
    by_cases hgt : s.givenWd > a
    · have hlt : a.toNat < s.givenWd.toNat := hgt
      have hsub : (s.givenWd - 1).toNat = s.givenWd.toNat - 1 := by bv_omega
      have hsucc : s.givenWd.toNat - a.toNat = ((s.givenWd - 1).toNat - a.toNat) + 1 := by omega
      have hcut : padded s.givenWd a = a := if_pos hgt
      rw [if_pos hgt, padLoop_run (by rw [Printf.setWd_givenWd]; omega), hsucc, List.replicate_succ,
        ← Printf.put_puts, hcut]
      simp only [Printf.setWd_givenWd, Printf.puts_setWd, Printf.setWd_setWd, padded_pred hlt]
    · have hle : s.givenWd.toNat - a.toNat = 0 := by
        have : ¬ a.toNat < s.givenWd.toNat := hgt
        omega
      have hcut : padded s.givenWd a = s.givenWd := if_neg hgt
      rw [if_neg hgt, hle, List.replicate_zero, Printf.puts_nil, hcut]
      rfl

/-- The rest of `given_wd`, to be printed on the right. -/
def rest (g a : U32) : U32 := if g < a then 0 else g - a

theorem rest_toNat (g a : U32) : (rest g a).toNat = g.toNat - a.toNat := by
  unfold rest
  split
  · have : g.toNat < a.toNat := ‹_›
    rw [Nat.sub_eq_zero_of_le this.le]
    rfl
  · bv_omega

/-- No width is too much for a loop with the bound 2^32. -/
theorem gap_lt {fuel : Nat} (hf : 2 ^ 32 ≤ fuel) (a b : U32) : a.toNat - b.toNat < fuel := by
  omega

theorem emitText_run {fuel : Nat} (hf : 2 ^ 32 ≤ fuel) {text : List U8} {a : U32} {s : Printf} {lj ws lz : Bool}
    (hl : Layout s.flags lj ws lz) : emitText fuel text a s = some ((s.puts
      ((if ws && !lz then [code '-'] else []) ++ text.map wide ++
        List.replicate (s.givenWd.toNat - a.toNat) (code ' '))).setWd 0) := by
  have hsign : (if s.flags &&& (PR_WS ||| PR_LZ) = PR_WS then s.put (code '-') else s) =
      s.puts (if ws && !lz then [code '-'] else []) := by
    by_cases h : s.flags &&& (PR_WS ||| PR_LZ) = PR_WS
    · obtain ⟨hws, hlz⟩ := hl.late.1 h
      rw [if_pos h, hws, hlz]
      rfl
    · rw [if_neg h, if_neg (fun hc => h (hl.late.2 (by simpa using hc))), Printf.puts_nil]
  have hloop : padLoop (code ' ') 0 fuel ((s.puts ((if ws && !lz then [code '-'] else []) ++ text.map wide)).setWd
      (rest s.givenWd a)) = _ := padLoop_run (gap_lt hf _ _)
  unfold emitText
  simp only [hsign, foldl_put, Printf.puts_puts]
  refine hloop.trans ?_
  simp only [Printf.setWd_givenWd, Printf.puts_setWd, Printf.setWd_setWd, Printf.puts_puts, rest_toNat, padded_zero]
  rfl

theorem emit2_run {fuel : Nat} (hf : 2 ^ 32 ≤ fuel) {text : List U8} {a : U32} {s : Printf} {lj ws lz : Bool}
    (hl : Layout s.flags lj ws lz) : emit2 fuel text a s = some ((s.puts
      ((if lj then [] else List.replicate (s.givenWd.toNat - a.toNat) (if lz then code '0' else code ' ')) ++
        (if ws && !lz then [code '-'] else []) ++ text.map wide ++
        if lj then List.replicate (s.givenWd.toNat - a.toNat) (code ' ') else [])).setWd 0) := by
  have hpad : (if s.has PR_LZ then code '0' else code ' ') = if lz then code '0' else code ' ' :=
    if_congr hl.zero rfl rfl
  unfold emit2
  cases lj with
  | true =>
    rw [if_neg (fun h => absurd (hl.left.1 h) (by decide)), emitText_run hf hl]
    simp
  | false =>
    rw [if_pos (hl.left.2 rfl), padLoop_run (gap_lt hf _ _), Option.bind_some]
    refine (emitText_run hf (s := (s.puts _).setWd (padded s.givenWd a)) hl).trans ?_
    simp [hpad, padded_gap, Printf.puts_puts]

theorem emit_run {fuel : Nat} (hf : 2 ^ 32 ≤ fuel) {text : List U8} {s : Printf} {lj ws lz : Bool}
    (hl : Layout s.flags lj ws lz) (hlen : (if ws then 1 else 0) + text.length < 2 ^ 32) :
    emit fuel text s = some ((s.puts
      ((justify lj lz s.givenWd.toNat (if ws then [chr '-'] else []) text).map wide)).setWd 0) := by
  -- the width already counts the sign
  have hwd : (if s.has PR_WS then BitVec.ofNat 32 text.length + 1 else BitVec.ofNat 32 text.length) =
      BitVec.ofNat 32 ((if ws then [chr '-'] else []).length + text.length) := by
    have hws : s.has PR_WS ↔ ws = true := hl.sign
    rw [if_congr hws rfl rfl]
    cases ws with
    | true => exact (BitVec.add_comm _ _).trans (BitVec.ofNat_add 1 text.length).symm
    | false => simp
  have hnat : (BitVec.ofNat 32 ((if ws then [chr '-'] else []).length + text.length)).toNat =
      (if ws then [chr '-'] else []).length + text.length := by
    rw [BitVec.toNat_ofNat, Nat.mod_eq_of_lt]
    cases ws with
    | true => exact hlen
    | false => exact hlen
  -- with zero padding the sign is written before the zeros
  have hsign : (if s.flags &&& (PR_WS ||| PR_LZ) = PR_WS ||| PR_LZ then s.put (code '-') else s) =
      s.puts (if ws && lz then [code '-'] else []) := by
    by_cases h : s.flags &&& (PR_WS ||| PR_LZ) = PR_WS ||| PR_LZ
    · obtain ⟨hws, hlz⟩ := hl.early.1 h
      rw [if_pos h, hws, hlz]
      rfl
    · rw [if_neg h, if_neg (fun hc => h (hl.early.2 (by simpa using hc))), Printf.puts_nil]
  unfold emit
  simp only [hsign, hwd]
  refine (emit2_run hf (s := s.puts _) hl).trans ?_
  simp only [hnat, Printf.puts_puts, Printf.puts_givenWd, justify]
  have hm : wide (chr '-') = code '-' := rfl
  have hz : wide (chr '0') = code '0' := rfl
  have hb : wide (chr ' ') = code ' ' := rfl
  cases lj <;> cases ws <;> cases lz <;> simp [hm, hz, hb]

/-! Digits. -/

theorem digitChar_eq (flags : U32) {t : U32} (ht : t.toNat < 16) :
    digitChar flags t = digit (flags.getLsbD 1) t.toNat := by
  have hca : flags &&& PR_CA ≠ 0 ↔ flags.getLsbD 1 = true := by
    rw [flag_bits.2.1]
    exact and_bit_ne flags (by decide)
  have hall : ∀ (upper : Bool) (n : Fin 16),
      (if (BitVec.ofNat 32 n : U32) < 10 then (BitVec.ofNat 32 n + code '0').setWidth 8
        else if upper = true then (BitVec.ofNat 32 n - 10 + code 'A').setWidth 8
        else (BitVec.ofNat 32 n - 10 + code 'a').setWidth 8) = digit upper n := by
    decide
  have h := hall (flags.getLsbD 1) ⟨t.toNat, ht⟩
  rw [BitVec.ofNat_toNat, BitVec.setWidth_eq] at h
  unfold digitChar
  rw [if_congr hca rfl rfl]
  exact h

/-- The conversion loop finds the numeral, and `buf` has room for it. -/
theorem convert_run {flags r : U32} (hr : 1 < r.toNat) (hr' : r.toNat ≤ 16) :
    ∀ {room : Nat} {num : U32} {text : List U8}, 0 < room → num.toNat < r.toNat ^ room →
    convert flags r room num text = some (numeral (digit (flags.getLsbD 1)) r.toNat num.toNat ++ text)
  | room + 1, num, text, _, hnum => by
    have hmod : (num % r).toNat < 16 := by
      rw [BitVec.toNat_umod]
      exact Nat.lt_of_lt_of_le (Nat.mod_lt _ (by omega)) hr'
    have hdigit : digitChar flags (num % r) = digit (flags.getLsbD 1) (num.toNat % r.toNat) := by
      rw [digitChar_eq flags hmod, BitVec.toNat_umod]
    have hquot : num / r ≠ 0 ↔ r.toNat ≤ num.toNat := by
      rw [← not_iff_not, not_not, ← BitVec.toNat_inj, BitVec.toNat_udiv, Nat.not_le]
      exact Nat.div_eq_zero_iff_lt (by omega)
    unfold convert
    simp only [hdigit]
    by_cases hq : r.toNat ≤ num.toNat
    · have hroom : 0 < room := by
        by_contra h0
        obtain rfl : room = 0 := by omega
        rw [Nat.zero_add, Nat.pow_one] at hnum
        omega
      have hsmall : (num / r).toNat < r.toNat ^ room := by
        rw [BitVec.toNat_udiv]
        exact Nat.div_lt_of_lt_mul (by rwa [Nat.pow_succ, Nat.mul_comm] at hnum)
      rw [if_pos (hquot.2 hq), convert_run hr hr' hroom hsmall, numeral_of_le _ hr hq, BitVec.toNat_udiv,
        List.append_assoc]
      rfl
    · rw [if_neg (fun h => hq (hquot.1 h)), numeral_of_lt _ (by omega), Nat.mod_eq_of_lt (by omega)]
      rfl

/-! Numbers. -/

/-- The absolute value, of -2^31 too. -/
theorem natAbs_toInt (x : U32) : x.toInt.natAbs = (if x.msb then -x else x).toNat := by
  rw [BitVec.toInt_eq_msb_cond]
  have hlt := x.isLt
  have hmsb := BitVec.msb_eq_decide x
  split
  · rw [BitVec.toNat_neg]
    have : 2 ^ 31 ≤ x.toNat := by simp_all
    omega
  · omega

/-- What `DO_NUM` loads for `f`. -/
def Spec.loaded (f : Spec) (w : U32) : U32 :=
  if f.short then if f.conv.signed then (w.setWidth 16).signExtend 32 else (w.setWidth 16).setWidth 32 else w

theorem Spec.number_signed (f : Spec) (hs : f.conv.signed = true) (w : U32) : f.number w = (f.loaded w).toInt := by
  unfold Spec.number Spec.loaded
  rw [hs]
  split
  · exact (BitVec.toInt_signExtend_of_le (by decide)).symm
  · rfl

theorem Spec.number_unsigned (f : Spec) (hs : f.conv.signed = false) (w : U32) : f.number w = (f.loaded w).toNat := by
  unfold Spec.number Spec.loaded
  rw [hs]
  split
  · simp
    omega
  · rfl

theorem Spec.number_sign (f : Spec) (w : U32) :
    (f.number w < 0 ↔ (f.conv.signed && (f.loaded w).msb) = true) ∧
      (f.number w).natAbs = (if f.conv.signed && (f.loaded w).msb then -f.loaded w else f.loaded w).toNat := by
  cases hs : f.conv.signed with
  | true =>
    rw [f.number_signed hs, Bool.true_and]
    refine ⟨?_, natAbs_toInt _⟩
    rw [BitVec.msb_eq_toInt, decide_eq_true_iff]
  | false =>
    rw [f.number_unsigned hs, Bool.false_and]
    refine ⟨?_, rfl⟩
    simp

/-- The flags of `f`, with those that the conversion sets. -/
structure Parsed (f : Spec) (upper signed neg : Bool) (flags : U32) : Prop where
  left : flags.getLsbD 0 = f.left
  upper : flags.getLsbD 1 = upper
  signed : flags.getLsbD 2 = signed
  long : flags.getLsbD 3 = decide (.l ∈ f.mods)
  short : flags.getLsbD 4 = decide (.h ∈ f.mods)
  neg : flags.getLsbD 5 = neg
  zero : flags.getLsbD 6 = f.zero

theorem set_bit {b : U32} {i : Nat} (hb : b = BitVec.twoPow 32 i) (hi : i < 32) (x : U32) :
    (x ||| b).getLsbD i = true ∧ ∀ j, i ≠ j → (x ||| b).getLsbD j = x.getLsbD j := by
  subst hb
  refine ⟨?_, fun j hj => ?_⟩
  · rw [BitVec.getLsbD_or, BitVec.getLsbD_twoPow, decide_eq_true hi, decide_eq_true rfl, Bool.true_and, Bool.or_true]
  · rw [BitVec.getLsbD_or, BitVec.getLsbD_twoPow, decide_eq_false hj, Bool.and_false, Bool.or_false]

section
variable {f : Spec} {upper signed neg : Bool} {x : U32}

theorem Parsed.setUpper (h : Parsed f false signed neg x) : Parsed f true signed neg (x ||| PR_CA) := by
  obtain ⟨hset, hne⟩ := set_bit flag_bits.2.1 (by decide) x
  refine ⟨?_, hset, ?_, ?_, ?_, ?_, ?_⟩
  · exact (hne 0 (by decide)).trans h.left
  · exact (hne 2 (by decide)).trans h.signed
  · exact (hne 3 (by decide)).trans h.long
  · exact (hne 4 (by decide)).trans h.short
  · exact (hne 5 (by decide)).trans h.neg
  · exact (hne 6 (by decide)).trans h.zero

theorem Parsed.setSigned (h : Parsed f upper false neg x) : Parsed f upper true neg (x ||| PR_SG) := by
  obtain ⟨hset, hne⟩ := set_bit flag_bits.2.2.1 (by decide) x
  refine ⟨?_, ?_, hset, ?_, ?_, ?_, ?_⟩
  · exact (hne 0 (by decide)).trans h.left
  · exact (hne 1 (by decide)).trans h.upper
  · exact (hne 3 (by decide)).trans h.long
  · exact (hne 4 (by decide)).trans h.short
  · exact (hne 5 (by decide)).trans h.neg
  · exact (hne 6 (by decide)).trans h.zero

theorem Parsed.setNeg (h : Parsed f upper signed false x) : Parsed f upper signed true (x ||| PR_WS) := by
  obtain ⟨hset, hne⟩ := set_bit flag_bits.2.2.2.2.2.1 (by decide) x
  refine ⟨?_, ?_, ?_, ?_, ?_, hset, ?_⟩
  · exact (hne 0 (by decide)).trans h.left
  · exact (hne 1 (by decide)).trans h.upper
  · exact (hne 2 (by decide)).trans h.signed
  · exact (hne 3 (by decide)).trans h.long
  · exact (hne 4 (by decide)).trans h.short
  · exact (hne 6 (by decide)).trans h.zero

theorem Parsed.layout (h : Parsed f upper signed neg x) : Layout x f.left neg f.zero := by
  have hl := layout_of_bits x
  rwa [h.left, h.neg, h.zero] at hl

/-- `%s` takes the `0` flag back. -/
theorem Parsed.textLayout (h : Parsed f upper signed neg x) : Layout (x &&& ~~~PR_LZ) f.left neg false := by
  have hclear : ∀ j, j < 32 → (x &&& ~~~PR_LZ).getLsbD j = (x.getLsbD j && !decide (6 = j)) := by
    intro j hj
    rw [flag_bits.2.2.2.2.2.2.1, BitVec.getLsbD_and, BitVec.getLsbD_not, BitVec.getLsbD_twoPow, decide_eq_true hj]
    rfl
  have hl := layout_of_bits (x &&& ~~~PR_LZ)
  rw [hclear 0 (by decide), hclear 5 (by decide), hclear 6 (by decide), h.left, h.neg] at hl
  simpa using hl

theorem loadNum_eq {m : Mem} {s : Printf} (h : Parsed f upper f.conv.signed neg s.flags) :
    loadNum m s = f.loaded (m.load32 s.args) := by
  obtain ⟨-, -, hsg, h32, h16, -⟩ := flag_bits
  have hl : s.has PR_32 ↔ .l ∈ f.mods := by
    unfold Printf.has
    rw [h32, and_bit_ne _ (by decide), h.long, decide_eq_true_iff]
  have hh : s.has PR_16 ↔ .h ∈ f.mods := by
    unfold Printf.has
    rw [h16, and_bit_ne _ (by decide), h.short, decide_eq_true_iff]
  have hs : s.has PR_SG ↔ f.conv.signed = true := by
    unfold Printf.has
    rw [hsg, and_bit_ne _ (by decide), h.signed]
  unfold loadNum Spec.loaded Spec.short
  simp only [hl, hh, hs]
  by_cases hlm : Modifier.l ∈ f.mods
  · simp [hlm]
  · simp [hlm]

theorem Conv.radix_bounds (c : Conv) : 8 ≤ c.radix ∧ c.radix ≤ 16 := by
  cases c <;> decide

/-- Fifteen digits are enough for 32 bits. -/
theorem digits_room {r : Nat} (hr : 8 ≤ r) (x : U32) : x.toNat < r ^ 15 :=
  calc x.toNat < 2 ^ 32 := x.isLt
    _ ≤ 8 ^ 15 := by decide
    _ ≤ r ^ 15 := Nat.pow_le_pow_left hr 15

theorem doNum_run {fuel : Nat} (hf : 2 ^ 32 ≤ fuel) {m : Mem} {s : Printf} {r w : U32}
    (h : Parsed f (decide (f.conv = .X)) f.conv.signed false s.flags) (hw : m.load32 s.args = w)
    (hr : r.toNat = f.conv.radix) : ∃ u, doNum m fuel r s = some u ∧
      u.reset = (s.nextArg.puts ((f.fieldIn s.givenWd.toNat (.value w)).map wide)).reset := by
  obtain ⟨hlo, hhi⟩ := f.conv.radix_bounds
  obtain ⟨hsign, habs⟩ := f.number_sign w
  have hsg : s.nextArg.has PR_SG ↔ f.conv.signed = true := by
    show s.flags &&& PR_SG ≠ 0 ↔ _
    rw [flag_bits.2.2.1, and_bit_ne _ (by decide), h.signed]
  have hneg : s.nextArg.has PR_SG ∧ (f.loaded w).msb = true ↔ (f.conv.signed && (f.loaded w).msb) = true := by
    rw [hsg, Bool.and_eq_true]
  generalize (f.conv.signed && (f.loaded w).msb) = neg at hsign habs hneg
  -- the flags after the sign has been taken care of
  have hflags : Parsed f (decide (f.conv = .X)) f.conv.signed neg
      (if neg then s.nextArg.set PR_WS else s.nextArg).flags := by
    cases neg with
    | true => exact h.setNeg
    | false => exact h
  have hdigits : convert (if neg then s.nextArg.set PR_WS else s.nextArg).flags r 15
      (if neg then -f.loaded w else f.loaded w) [] =
      some (numeral (digit (decide (f.conv = .X))) f.conv.radix (f.number w).natAbs) := by
    rw [convert_run (by omega) (by omega) (by decide) (by rw [hr]; exact digits_room hlo _), hflags.upper, hr, habs,
      List.append_nil]
  have hlen : (if neg then 1 else 0) +
      (numeral (digit (decide (f.conv = .X))) f.conv.radix (f.number w).natAbs).length < 2 ^ 32 := by
    have := length_numeral_le (digit (decide (f.conv = .X))) (by omega : 1 < f.conv.radix) (by decide : 0 < 15)
      (habs ▸ digits_room hlo _)
    split <;> omega
  unfold doNum
  simp only [loadNum_eq h, hw, hneg]
  rw [show PR_BUFLEN - 1 = 15 from rfl, hdigits, Option.bind_some]
  refine ⟨_, emit_run hf hflags.layout hlen, ?_⟩
  have hgiven : (if neg then s.nextArg.set PR_WS else s.nextArg).givenWd = s.givenWd := by
    cases neg with
    | true => rfl
    | false => rfl
  have hfield : f.fieldIn s.givenWd.toNat (.value w) = justify f.left f.zero s.givenWd.toNat
      (if neg then [chr '-'] else []) (numeral (digit (decide (f.conv = .X))) f.conv.radix (f.number w).natAbs) := by
    simp only [Spec.fieldIn, hsign]
  rw [hgiven, hfield]
  cases neg with
  | true => rfl
  | false => rfl

/-- The flags that `f`'s conversion sets itself. -/
def Conv.prepare (c : Conv) (s : Printf) : Printf :=
  if c.signed then s.set PR_SG else if c = .X then s.set PR_CA else s

/-- The character selects `c`; `n` is another way to write `x`. -/
def Conv.Spelled (c : Conv) (b : U8) : Prop := b = c.char ∨ b = chr 'n' ∧ c = .x

theorem conversion_number {m : Mem} {fuel : Nat} {s : Printf} {c : Conv} (hc : c.Spelled (m.byte s.fmt)) (hs : c ≠ .s) :
    conversion m fuel s = doNum m fuel (BitVec.ofNat 32 c.radix) (c.prepare s) := by
  unfold conversion
  rcases hc with hc | ⟨hc, rfl⟩
  · rw [hc]
    cases c with
    | d => rfl
    | i => rfl
    | u => rfl
    | o => rfl
    | x => rfl
    | X => rfl
    | p => rfl
    | s => exact absurd rfl hs
  · rw [hc]
    rfl

theorem conversion_text {m : Mem} {fuel : Nat} {s : Printf} (hc : m.byte s.fmt = Conv.s.char) :
    conversion m fuel s = (m.upToNul fuel (m.load32 s.args)).bind fun text =>
      emit fuel text { s with flags := s.flags &&& ~~~PR_LZ }.nextArg := by
  unfold conversion
  rw [hc]
  rfl

theorem Parsed.prepare {s : Printf} (h : Parsed f false false neg s.flags) :
    Parsed f (decide (f.conv = .X)) f.conv.signed neg (f.conv.prepare s).flags := by
  unfold Conv.prepare
  cases hs : f.conv.signed with
  | true =>
    have hX : f.conv ≠ .X := by
      intro e
      rw [e] at hs
      exact absurd hs (by decide)
    rw [decide_eq_false hX, if_pos rfl]
    exact h.setSigned
  | false =>
    rw [if_neg (by decide)]
    by_cases hX : f.conv = .X
    · rw [if_pos hX, decide_eq_true hX]
      exact h.setUpper
    · rw [if_neg hX, decide_eq_false hX]
      exact h

theorem prepare_keeps (c : Conv) (s : Printf) : (c.prepare s).args = s.args ∧ (c.prepare s).givenWd = s.givenWd ∧
    ∀ cs, ((c.prepare s).nextArg.puts cs).reset = (s.nextArg.puts cs).reset := by
  unfold Conv.prepare
  split
  · exact ⟨rfl, rfl, fun _ => rfl⟩
  · split
    · exact ⟨rfl, rfl, fun _ => rfl⟩
    · exact ⟨rfl, rfl, fun _ => rfl⟩

theorem conversion_run {fuel : Nat} (hf : 2 ^ 32 ≤ fuel) {m : Mem} {s : Printf} {a : Arg}
    (h : Parsed f false false false s.flags) (hc : f.conv.Spelled (m.byte s.fmt)) (ha : a.At m (m.load32 s.args))
    (ht : f.Takes a) : ∃ u, conversion m fuel s = some u ∧
      u.reset = (s.nextArg.puts ((f.fieldIn s.givenWd.toNat a).map wide)).reset := by
  cases a with
  | text text =>
    have hs : f.conv = .s := ht
    have hlen : text.length < 2 ^ 32 := Str.length_lt ha
    have hc : m.byte s.fmt = Conv.s.char := by
      rcases hc with hc | ⟨-, hx⟩
      · exact hs ▸ hc
      · rw [hx] at hs
        cases hs
    rw [conversion_text hc, Str.upToNul ha (by omega), Option.bind_some]
    exact ⟨_, emit_run hf h.textLayout (by simpa using hlen), rfl⟩
  | value w =>
    obtain ⟨hargs, hgiven, hreset⟩ := prepare_keeps f.conv s
    have hradix : (BitVec.ofNat 32 f.conv.radix).toNat = f.conv.radix := by
      cases f.conv <;> rfl
    obtain ⟨u, hu, hr⟩ := doNum_run (w := w) hf h.prepare (by rw [hargs]; exact ha) hradix
    rw [conversion_number hc ht]
    rw [hgiven] at hr
    exact ⟨u, hu, hr.trans (hreset _)⟩

end

end LineOS
