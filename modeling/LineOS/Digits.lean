import LineOS.PrintfRun

/- The digits of a number in `buf`. `convert` of `do_printf` keeps only the text that
   `where` leads to; here are the array and the index, with a store before the start
   of `buf` refused, and the two agree (`digitLoop_run`). `DigitsOf` is what a reader
   finds: a numeral without superfluous zeros, NUL at its end, whose value is the
   number's magnitude. -/
namespace LineOS
open ByteMemory ByteMemory.Mem Numeral

/-- `buf`, `where` as an index into it, and `num`. -/
structure DigitBuf where
  buf : List U8
  index : Nat
  num : U32

/-- One round of the `do`: `none` when `where` would leave `buf`. -/
def digitRound (flags radix : U32) (d : DigitBuf) : Option DigitBuf :=
  match d.index with
  | 0 => none
  | w + 1 => some ⟨d.buf.set w (digitChar flags (d.num % radix)), w, d.num / radix⟩

def digitLoop (flags radix : U32) : Nat → DigitBuf → Option DigitBuf
  | 0, _ => none
  | n + 1, d => (digitRound flags radix d).bind fun d => if d.num ≠ 0 then digitLoop flags radix n d else some d

/-- `where = buf + PR_BUFLEN - 1` and `*where = '\0'` -/
def startDigits (buf : List U8) (num : U32) : DigitBuf := ⟨buf.set (PR_BUFLEN - 1) 0, PR_BUFLEN - 1, num⟩

/-- What the loop gets of a loaded number: `num = -num` if it is signed and less than 0. -/
def stripSign (signed : Bool) (num : U32) : U32 := if signed && num.msb then -num else num

def magnitude (signed : Bool) (num : U32) : Nat := if signed then num.toInt.natAbs else num.toNat

def textAt (buf : List U8) (i : Nat) : List U8 := (buf.drop i).takeWhile (fun c => c ≠ 0)

def digitValue (c : U8) : Option Nat :=
  if chr '0' ≤ c ∧ c ≤ chr '9' then some (c - chr '0').toNat
  else if chr 'A' ≤ c ∧ c ≤ chr 'F' then some ((c - chr 'A').toNat + 10)
  else if chr 'a' ≤ c ∧ c ≤ chr 'f' then some ((c - chr 'a').toNat + 10)
  else none

/-- The text at `where`, no more than 11 characters and inside `buf`, says `n` in this radix. -/
structure DigitsOf (radix n : Nat) (d : DigitBuf) : Prop where
  buf : d.buf.length = PR_BUFLEN
  inside : (textAt d.buf d.index).length ≤ 11 ∧ d.index + (textAt d.buf d.index).length = PR_BUFLEN - 1
  nul : d.buf[PR_BUFLEN - 1]? = some 0
  value : read digitValue radix (textAt d.buf d.index) = some n
  minimal : (textAt d.buf d.index).head? = some (chr '0') → textAt d.buf d.index = [chr '0']

section
variable {flags radix : U32}

theorem digitRound_succ (d : DigitBuf) {w : Nat} (hw : d.index = w + 1) : digitRound flags radix d =
    some ⟨d.buf.set w (digitChar flags (d.num % radix)), w, d.num / radix⟩ := by
  rw [digitRound, hw]

theorem convert_longer : ∀ {room : Nat} {num : U32} {text t : List U8}, convert flags radix room num text = some t →
    text.length < t.length
  | room + 1, num, text, t, h => by
    rw [convert] at h
    split at h
    · have hlt := convert_longer h
      rw [List.length_cons] at hlt
      omega
    · obtain rfl := Option.some.inj h
      rw [List.length_cons]
      exact Nat.lt_succ_self _

/-- The loop does what `convert` does, in as many rounds as there are digits. -/
theorem digitLoop_run : ∀ (n : Nat) (d : DigitBuf) {text t : List U8},
    convert flags radix d.index d.num text = some t → d.buf.drop d.index = text ++ [0] → t.length ≤ text.length + n →
    ∃ d', digitLoop flags radix n d = some d' ∧ d'.buf.length = d.buf.length ∧ d'.buf.drop d'.index = t ++ [0]
  | 0, d, text, t, h, _, hlen => absurd (convert_longer h) (by omega)
  | n + 1, d, text, t, h, hbuf, hlen => by
    obtain ⟨buf, w, num⟩ := d
    cases w with
    | zero => cases h
    | succ w =>
      have h : (if num / radix ≠ 0 then convert flags radix w (num / radix) (digitChar flags (num % radix) :: text)
        else some (digitChar flags (num % radix) :: text)) = some t := h
      have hbuf : buf.drop (w + 1) = text ++ [0] := hbuf
      have hw : w < buf.length := by
        have hdrop := congrArg List.length hbuf
        rw [List.length_drop, List.length_append, List.length_singleton] at hdrop
        omega
      have hnext : (buf.set w (digitChar flags (num % radix))).drop w = digitChar flags (num % radix) :: text ++ [0] := by
        rw [List.drop_set, if_neg (Nat.lt_irrefl w), Nat.sub_self, List.drop_eq_getElem_cons hw, List.set_cons_zero, hbuf]
        rfl
      rw [digitLoop, digitRound_succ _ rfl, Option.bind_some]
      by_cases hq : num / radix ≠ 0
      · rw [if_pos hq] at h ⊢
        have hlen' : t.length ≤ (digitChar flags (num % radix) :: text).length + n := by
          rw [List.length_cons]
          omega
        obtain ⟨d', hd', hl, hb⟩ := digitLoop_run n ⟨_, w, _⟩ h hnext hlen'
        exact ⟨d', hd', hl.trans (List.length_set ..), hb⟩
      · rw [if_neg hq] at h ⊢
        obtain rfl := Option.some.inj h
        exact ⟨_, rfl, List.length_set .., hnext⟩

theorem digit_facts16 : ∀ (upper : Bool) (d : Fin 16), digit upper d ≠ 0 ∧ digitValue (digit upper d) = some d.val ∧
    (digit upper d = digit upper 0 → d = 0) ∧ digit upper 0 = chr '0' := by
  decide

theorem textAt_eq {buf t : List U8} {i : Nat} (h : buf.drop i = t ++ [0]) (ht : ∀ c ∈ t, c ≠ 0) : textAt buf i = t := by
  rw [textAt, h, List.takeWhile_append_of_pos (by simpa using ht)]
  simp

/-- Eleven digits are enough for 32 bits, in every radix from 8 on. -/
theorem numeral_short (upper : Bool) {r : Nat} (hr : 8 ≤ r) (x : U32) :
    (numeral (digit upper) r x.toNat).length ≤ 11 := by
  refine length_numeral_le _ (by omega) (by decide) ?_
  calc x.toNat < 2 ^ 32 := x.isLt
    _ ≤ 8 ^ 11 := by decide
    _ ≤ r ^ 11 := Nat.pow_le_pow_left hr 11

theorem digitLoop_numeral (hr : 8 ≤ radix.toNat) (hr' : radix.toNat ≤ 16) {buf : List U8} (hbuf : buf.length = PR_BUFLEN)
    (flags num : U32) : ∃ d, digitLoop flags radix 11 (startDigits buf num) = some d ∧ d.buf.length = PR_BUFLEN ∧
      d.buf.drop d.index = numeral (digit (flags.getLsbD 1)) radix.toNat num.toNat ++ [0] ∧
      textAt d.buf d.index = numeral (digit (flags.getLsbD 1)) radix.toNat num.toNat := by
  have hconv : convert flags radix 15 num [] = _ := convert_run (by omega) hr' (by decide) (digits_room hr num)
  rw [List.append_nil] at hconv
  have hstart : (startDigits buf num).buf.drop (startDigits buf num).index = [] ++ [0] := by
    show (buf.set 15 0).drop 15 = [0]
    have hlen : buf.length = 16 := hbuf
    rw [List.drop_set, if_neg (Nat.lt_irrefl 15), Nat.sub_self, List.drop_eq_getElem_cons (by omega),
      List.drop_eq_nil_of_le (by omega), List.set_cons_zero]
  have hshort := numeral_short (flags.getLsbD 1) hr num
  obtain ⟨d, hd, hlen, hdrop⟩ := digitLoop_run 11 (startDigits buf num) hconv hstart (by rw [List.length_nil]; omega)
  refine ⟨d, hd, hlen.trans ((List.length_set ..).trans hbuf), hdrop, textAt_eq hdrop fun c hc => ?_⟩
  obtain ⟨v, hv, rfl⟩ := numeral_digits _ (by omega) hc
  exact (digit_facts16 (flags.getLsbD 1) ⟨v, by omega⟩).1

/-- `DO_NUM` with `buf` in place of the text alone. -/
theorem doNum_digits (hr : 8 ≤ radix.toNat) (hr' : radix.toNat ≤ 16) {buf : List U8} (hbuf : buf.length = PR_BUFLEN)
    (m : Mem) (fuel : Nat) (s : Printf) : ∃ t : Printf, doNum m fuel radix s =
      (digitLoop t.flags radix 11 (startDigits buf (stripSign (decide (s.has PR_SG)) (loadNum m s)))).bind
        fun d => emit fuel (textAt d.buf d.index) t := by
  have hneg : (if s.nextArg.has PR_SG ∧ (loadNum m s).msb = true then -loadNum m s else loadNum m s) =
      stripSign (decide (s.has PR_SG)) (loadNum m s) := by
    have hsg : s.nextArg.has PR_SG ↔ s.has PR_SG := Iff.rfl
    unfold stripSign
    refine if_congr ?_ rfl rfl
    rw [hsg, Bool.and_eq_true, decide_eq_true_iff]
  refine ⟨if s.nextArg.has PR_SG ∧ (loadNum m s).msb = true then s.nextArg.set PR_WS else s.nextArg, ?_⟩
  unfold doNum
  simp only [hneg]
  generalize (if s.nextArg.has PR_SG ∧ (loadNum m s).msb = true then s.nextArg.set PR_WS else s.nextArg) = t
  generalize stripSign (decide (s.has PR_SG)) (loadNum m s) = num
  obtain ⟨d, hd, -, -, htext⟩ := digitLoop_numeral hr hr' hbuf t.flags num
  have hconv : convert t.flags radix (PR_BUFLEN - 1) num [] = _ :=
    convert_run (by omega) hr' (by decide) (digits_room hr num)
  rw [List.append_nil] at hconv
  rw [hconv, hd, Option.bind_some, Option.bind_some, htext]

theorem stripSign_magnitude (signed : Bool) (num : U32) : (stripSign signed num).toNat = magnitude signed num := by
  cases signed with
  | true =>
    rw [magnitude, if_pos rfl, natAbs_toInt, stripSign, Bool.true_and]
  | false => rfl

end

/-- **The digits stay in `buf`**: whatever number is loaded, signed or not, the loop ends in eleven rounds with the
number's magnitude at `where`. -/
theorem digits_in_buf {radix : U32} (hr : radix = 8 ∨ radix = 10 ∨ radix = 16) {buf : List U8}
    (hbuf : buf.length = PR_BUFLEN) (flags num : U32) (signed : Bool) : ∃ d,
      digitLoop flags radix 11 (startDigits buf (stripSign signed num)) = some d ∧
        DigitsOf radix.toNat (magnitude signed num) d := by
  have hbounds : 8 ≤ radix.toNat ∧ radix.toNat ≤ 16 := by
    rcases hr with rfl | rfl | rfl <;> decide
  obtain ⟨hlo, hhi⟩ := hbounds
  obtain ⟨d, hd, hlen, hdrop, htext⟩ := digitLoop_numeral hlo hhi hbuf flags (stripSign signed num)
  have hfacts := fun v (hv : v < radix.toNat) => digit_facts16 (flags.getLsbD 1) ⟨v, by omega⟩
  have hshort := numeral_short (flags.getLsbD 1) hlo (stripSign signed num)
  have hparts := congrArg List.length hdrop
  rw [List.length_drop, List.length_append, List.length_singleton, hlen] at hparts
  refine ⟨d, hd, hlen, ⟨?_, ?_⟩, ?_, ?_, fun hzero => ?_⟩
  · rw [htext]
    exact hshort
  · rw [htext]
    unfold PR_BUFLEN at hparts ⊢
    omega
  · have hlast : PR_BUFLEN - 1 = d.index + (numeral (digit (flags.getLsbD 1)) radix.toNat
        (stripSign signed num).toNat).length := by
      unfold PR_BUFLEN at hparts ⊢
      omega
    rw [hlast, ← List.getElem?_drop, hdrop, List.getElem?_append_right (Nat.le_refl _), Nat.sub_self]
    rfl
  · rw [htext, stripSign_magnitude]
    exact read_numeral (by omega) (fun v hv => (hfacts v hv).2.1) _
  · rw [htext] at hzero ⊢
    by_cases h0 : (stripSign signed num).toNat = 0
    · rw [h0, numeral_of_lt _ (by omega)]
      exact congrArg (fun c => [c]) (digit_facts16 _ 0).2.2.2
    · have hne : (numeral (digit (flags.getLsbD 1)) radix.toNat (stripSign signed num).toNat).head? ≠ _ :=
        numeral_head (by omega) (fun v hv he => ?_) h0
      · rw [(digit_facts16 _ 0).2.2.2] at hne
        exact absurd hzero hne
      · exact congrArg Fin.val ((hfacts v hv).2.2.1 he)

/-- -2^31 in decimal, with the sign stripped. -/
theorem digits_in_buf_sample : ∃ d,
    digitLoop 0 10 11 (startDigits (List.replicate 16 0xFF) (stripSign true 0x80000000)) = some d ∧
      DigitsOf 10 2147483648 d :=
  digits_in_buf (.inr (.inl rfl)) rfl 0 0x80000000 true

end LineOS
