import LineOS.PrintfReads

/- How often `do_printf` calls `fn`, and what it returns. Here a format is cut into
   parts (`FormatPart`), among them specifications with any width and any conversion
   character; every format whose specifications are complete is such a list
   (`complete_parts`). `FormatPart.calls` is the number of calls a part makes, and
   `rounds` runs the loop over a part alone, so that its calls can be told from the
   others'. A `%c` whose character is the NUL prints nothing where it stands. -/
namespace LineOS
open ByteMemory ByteMemory.Mem Numeral

inductive FormatPart where
  | lit (c : U8) (h : c ≠ 0 ∧ c ≠ chr '%')
  /-- `%%`, or `%-%` -/
  | percent (dash : Bool)
  /-- `%--` -/
  | dashes
  | spec (f : Directive)

def Conv.ofChar (b : U8) : Option Conv :=
  if b = chr 'X' then some .X
  else if b = chr 'p' then some .p
  else if b = chr 'x' ∨ b = chr 'n' then some .x
  else if b = chr 'd' then some .d
  else if b = chr 'i' then some .i
  else if b = chr 'u' then some .u
  else if b = chr 'o' then some .o
  else if b = chr 's' then some .s
  else none

namespace Directive

/-- One of the conversions `Xxpndiuocs`. -/
def Supported (f : Directive) : Prop := f.conv = chr 'c' ∨ Conv.ofChar f.conv ≠ none

instance (f : Directive) : Decidable f.Supported := inferInstanceAs (Decidable (_ ∨ _))

/-- `given_wd` once the width is read. -/
def wd (f : Directive) : Nat := decimal f.width % 2 ^ 32

theorem no_width : decimal [] < 2 ^ 32 := Nat.two_pow_pos 32

theorem no_head (f : Directive) : f.zero = false → ([] : List (Fin 10)).head? ≠ some 0 := fun _ => nofun

def bare (f : Directive) (c : Conv) : Spec := ⟨f.left, f.zero, [], f.mods, c, no_width, no_head f⟩

def argAt (m : Mem) (a : U32) (c : Conv) : Arg :=
  if c = .s then .text ((m.upToNul (2 ^ 32) (m.load32 a)).getD []) else .value (m.load32 a)

/-- The calls for the argument at `a`. -/
def calls (m : Mem) (a : U32) (f : Directive) : Nat :=
  if f.conv = chr 'c' then f.wd - 1 + if m.byte a = 0 then 0 else 1
  else match Conv.ofChar f.conv with
    | some c => ((f.bare c).fieldIn f.wd (argAt m a c)).length
    | none => 0

end Directive

namespace FormatPart

def bytes : FormatPart → List U8
  | lit c _ => [c]
  | percent dash => chr '%' :: ((if dash then [chr '-'] else []) ++ [chr '%'])
  | dashes => [chr '%', chr '-', chr '-']
  | spec f => f.bytes

def rounds : FormatPart → Nat
  | lit _ _ => 1
  | percent dash => dash.toNat + 1
  | dashes => 2
  | spec f => f.more + 1

def args : FormatPart → Nat
  | spec f => if f.Supported then 1 else 0
  | _ => 0

/-- The calls of `fn`, with the argument list at `a`. -/
def calls (m : Mem) (a : U32) : FormatPart → Nat
  | lit _ _ => 1
  | percent _ => 1
  | dashes => 0
  | spec f => f.calls m a

end FormatPart

def partsBytes (ps : List FormatPart) : List U8 := ps.flatMap FormatPart.bytes

def roundsOf (ps : List FormatPart) : Nat := (ps.map FormatPart.rounds).sum

/-- The argument list behind the arguments of the parts. -/
def argsAfter (a : U32) (ps : List FormatPart) : U32 := ps.foldl (fun a p => a + 4 * BitVec.ofNat 32 p.args) a

def callsOf (m : Mem) : U32 → List FormatPart → Nat
  | _, [] => 0
  | a, p :: ps => p.calls m a + callsOf m (argsAfter a [p]) ps

/-- `k` rounds of the `for`, none of which begins at the NUL. -/
def rounds (m : Mem) (fuel : Nat) : Nat → Printf → Option Printf
  | 0, s => some s
  | k + 1, s => if m.byte s.fmt = 0 then none else (switchState m fuel s).bind fun s => rounds m fuel k s.advance

/-- The variables at the first test of the `for`. -/
def startPrintf (fmt args : U32) : Printf := ⟨fmt, args, 0, 0, 0, 0, []⟩

/-- `do_printf` returns the number of its calls, and each specification with a width that 32 bits hold and a
supported conversion makes as many as its width says, and `%c` at least one. -/
structure CountsCalls (m : Mem) (fmt args : U32) (fuel : Nat) (ps : List FormatPart) : Prop where
  returns : ∃ t, doPrintf m fmt args fuel = some t ∧ t.count.toInt = t.out.length
  width : ∀ pre f post, ps = pre ++ .spec f :: post → decimal f.width < 2 ^ 32 → f.Supported → ∃ s t,
    rounds m fuel (roundsOf pre) (startPrintf fmt args) = some s ∧
      s.fmt = fmt + BitVec.ofNat 32 (partsBytes pre).length ∧
    rounds m fuel (FormatPart.spec f).rounds s = some t ∧ t.fmt = s.fmt + BitVec.ofNat 32 f.bytes.length ∧
    s.out.length + max (decimal f.width) (if f.conv = chr 'c' then 1 else 0) ≤ t.out.length

/-- No `%c` with a width that 32 bits hold is given the NUL. -/
def NoNulChar (m : Mem) (args : U32) (ps : List FormatPart) : Prop :=
  ∀ pre f post, ps = pre ++ .spec f :: post → decimal f.width < 2 ^ 32 → f.conv = chr 'c' → m.byte (argsAfter args pre) ≠ 0

section
variable {m : Mem} {fuel k l : Nat} {s t u : Printf} {p a e : U32}

/-! Rounds. -/

theorem rounds_loops : LoopsBy m fuel (rounds m fuel) := fun _ _ h0 => if_neg h0

theorem rounds_add : ∀ {k : Nat} {s : Printf}, rounds m fuel k s = some t →
    rounds m fuel (k + l) s = rounds m fuel l t
  | 0, s, h => by
    obtain rfl := Option.some.inj h
    rw [Nat.zero_add]
  | k + 1, s, h => by
    rw [Nat.add_right_comm]
    rw [rounds] at h ⊢
    split at h
    · cases h
    · next h0 =>
      rw [if_neg h0]
      cases hu : switchState m fuel s with
      | none =>
        rw [hu] at h
        cases h
      | some u =>
        rw [hu, Option.bind_some] at h
        rw [Option.bind_some]
        exact rounds_add h

theorem rounds_formatLoop (j : Nat) : ∀ {k : Nat} {s : Printf}, rounds m fuel k s = some t →
    formatLoop m fuel (j + k) s = formatLoop m fuel j t
  | 0, s, h => by
    obtain rfl := Option.some.inj h
    rfl
  | k + 1, s, h => by
    rw [rounds] at h
    rw [← Nat.add_assoc, formatLoop]
    split at h
    · cases h
    · next h0 =>
      rw [if_neg h0]
      cases hu : switchState m fuel s with
      | none =>
        rw [hu] at h
        cases h
      | some u =>
        rw [hu, Option.bind_some] at h
        rw [Option.bind_some]
        exact rounds_formatLoop j h

theorem Ahead.rounds (h : Ahead m fuel k s u) (h0 : m.byte s.fmt ≠ 0) (ht : switchState m fuel u = some t) :
    rounds m fuel (k + 1) s = some t.advance := by
  have hrun := h _ rounds_loops 0
  rw [Nat.zero_add, ht, Option.bind_some] at hrun
  rw [LineOS.rounds, if_neg h0]
  exact hrun

/-! The conversion. -/

theorem length_justify (left zero : Bool) (w : Nat) (sign body : List U8) :
    (justify left zero w sign body).length = max w (sign.length + body.length) := by
  unfold justify
  cases left <;> cases zero <;> simp <;> omega

theorem length_fieldIn (f : Spec) (w : Nat) (x : Arg) : w ≤ (f.fieldIn w x).length := by
  cases x <;> rw [Spec.fieldIn, length_justify] <;> exact Nat.le_max_left _ _

theorem upToNul_str : ∀ {n : Nat} {p : U32} {text : List U8}, m.upToNul n p = some text → m.Str p text
  | n + 1, p, text, h => by
    rw [Mem.upToNul] at h
    split at h
    · next h0 =>
      obtain rfl := Option.some.inj h
      exact h0
    · next h0 =>
      obtain ⟨rest, hrest, rfl⟩ := Option.map_eq_some_iff.1 h
      exact ⟨rfl, h0, upToNul_str hrest⟩

theorem argAt_at (he : m.byte e = 0) (a : U32) (c : Conv) : (Directive.argAt m a c).At m (m.load32 a) := by
  unfold Directive.argAt
  split
  · obtain ⟨text, ht⟩ := upToNul_ends he (2 ^ 32) (m.load32 a) (BitVec.isLt _)
    rw [ht]
    exact upToNul_str ht
  · rfl

theorem argAt_takes (f : Directive) (c : Conv) : (f.bare c).Takes (Directive.argAt m a c) := by
  unfold Directive.argAt
  split
  · next h => exact h
  · next h => exact h

theorem ofChar_spelled {b : U8} {c : Conv} (h : Conv.ofChar b = some c) : c.Spelled b := by
  unfold Conv.ofChar at h
  unfold Conv.Spelled
  split_ifs at h with hX hp hx hd hi hu ho hs <;> obtain rfl := Option.some.inj h
  · exact .inl hX
  · exact .inl hp
  · exact hx.imp_right fun hn => ⟨hn, rfl⟩
  · exact .inl hd
  · exact .inl hi
  · exact .inl hu
  · exact .inl ho
  · exact .inl hs

theorem conversion_none (hc : Conv.ofChar (m.byte s.fmt) = none) (hne : m.byte s.fmt ≠ chr 'c') :
    conversion m fuel s = some s := by
  have hno : ∀ b : U8, Conv.ofChar b = none → b ≠ chr 'X' ∧ ¬ (b = chr 'x' ∨ b = chr 'p' ∨ b = chr 'n') ∧
      ¬ (b = chr 'd' ∨ b = chr 'i') ∧ b ≠ chr 'u' ∧ b ≠ chr 'o' ∧ b ≠ chr 's' := by
    intro b hb
    refine ⟨?_, ?_, ?_, ?_, ?_, ?_⟩
    · rintro rfl
      revert hb
      decide
    · rintro (rfl | rfl | rfl) <;> revert hb <;> decide
    · rintro (rfl | rfl) <;> revert hb <;> decide
    all_goals
      rintro rfl
      revert hb
      decide
  obtain ⟨h₁, h₂, h₃, h₄, h₅, h₆⟩ := hno _ hc
  unfold conversion
  simp only [if_neg h₁, if_neg h₂, if_neg h₃, if_neg h₄, if_neg h₅, if_neg hne, if_neg h₆]

/-- `s` with `n` arguments taken. -/
def Printf.skip (s : Printf) (n : Nat) : Printf := { s with args := s.args + 4 * BitVec.ofNat 32 n }

theorem skip_zero (s : Printf) : s.skip 0 = s := by
  unfold Printf.skip
  rw [BitVec.mul_zero, BitVec.add_zero]

theorem conversion_calls (hf : 2 ^ 32 ≤ fuel) (he : m.byte e = 0) {f : Directive} (hc : m.byte s.fmt = f.conv)
    (hfl : s.flags = f.flags) (hwd : s.givenWd.toNat = f.wd) : ∃ u cs, conversion m fuel s = some u ∧
      u.reset = ((s.skip (FormatPart.spec f).args).puts cs).reset ∧ cs.length = f.calls m s.args := by
  have hargs : (FormatPart.spec f).args = if f.Supported then 1 else 0 := rfl
  rw [hargs]
  unfold Directive.calls
  by_cases hchar : f.conv = chr 'c'
  · -- `actual_wd` is 1, whatever the character
    have hconv : conversion m fuel s = emit2 fuel (if m.byte s.args = 0 then [] else [m.byte s.args]) 1
        { s with flags := s.flags &&& ~~~PR_LZ }.nextArg := by
      unfold conversion
      rw [hc, hchar]
      rfl
    have hsup : f.Supported := .inl hchar
    have hflags : Parsed (f.bare .d) false false false s.flags := hfl ▸ (f.bare .d).flags_parsed
    rw [if_pos hsup, if_pos hchar]
    refine ⟨_, _, hconv.trans (emit2_run hf hflags.textLayout), rfl, ?_⟩
    have hpad : s.givenWd.toNat - (1 : U32).toNat = f.wd - 1 := by rw [hwd]; rfl
    show List.length ((if f.left then [] else List.replicate (s.givenWd.toNat - (1 : U32).toNat) _) ++ _ ++ _ ++
      if f.left then List.replicate (s.givenWd.toNat - (1 : U32).toNat) _ else []) = _
    have htext : (if m.byte s.args = 0 then [] else [m.byte s.args]).length = if m.byte s.args = 0 then 0 else 1 := by
      split <;> rfl
    rw [hpad, ← htext]
    generalize (if m.byte s.args = 0 then [] else [m.byte s.args]) = text
    cases f.left <;> simp [Nat.add_comm]
  · rw [if_neg hchar]
    cases hof : Conv.ofChar f.conv with
    | none =>
      have hsup : ¬ f.Supported := by
        rintro (h | h)
        · exact hchar h
        · exact h hof
      rw [if_neg hsup]
      exact ⟨s, [], conversion_none (hc ▸ hof) (hc ▸ hchar), by rw [Printf.puts_nil, skip_zero], rfl⟩
    | some c =>
      have hspell := ofChar_spelled hof
      have hsup : f.Supported := .inr (by rw [hof]; exact Option.some_ne_none c)
      rw [if_pos hsup]
      have hflags : Parsed (f.bare c) false false false s.flags := hfl ▸ (f.bare c).flags_parsed
      obtain ⟨u, hu, hr⟩ := conversion_run hf hflags (hc.symm ▸ hspell) (argAt_at he s.args c) (argAt_takes f c)
      rw [hwd] at hr
      exact ⟨u, _, hu, hr, List.length_map ..⟩

/-! The parts. -/

/-- Between two parts, after `n` calls. -/
structure Between (fmt args : U32) (n : Nat) (s : Printf) : Prop where
  scan : s = s.scan 0 fmt 0 0
  args : s.args = args
  calls : s.out.length = n
  count : s.count = BitVec.ofNat 32 n

theorem between_puts {n q : Nat} (h : Between p a n s) {cs : List U32} {e b : U32}
    (hu : u = ((s.skip k).puts cs).scan 0 e 0 0) (hq : cs.length = q) (hb : b = a + 4 * BitVec.ofNat 32 k) :
    Between e b (n + q) u := by
  subst hu hb hq
  refine ⟨rfl, ?_, ?_, ?_⟩
  · show s.args + 4 * BitVec.ofNat 32 k = _
    rw [h.args]
  · show (s.out ++ cs).length = _
    rw [List.length_append, h.calls]
  · show s.count + BitVec.ofNat 32 cs.length = _
    rw [h.count, BitVec.ofNat_add]

/-- A specification: the rounds end with the reset after its conversion. -/
theorem spec_rounds (hf : 2 ^ 32 ≤ fuel) (he : m.byte e = 0) {f : Directive} (hb : m.Bytes p f.bytes) : ∃ cs,
    rounds m fuel (FormatPart.spec f).rounds (s.scan 0 p 0 0) =
      some (((s.skip (FormatPart.spec f).args).puts cs).scan 0 (p + BitVec.ofNat 32 f.bytes.length) 0 0) ∧
    cs.length = f.calls m s.args := by
  obtain ⟨q, hq, hc, hahead⟩ := @directive_ahead m fuel s p f hb
  have hpct : m.byte p ≠ 0 := by
    rw [hb.1]
    decide
  have hwd : (widthFold f.width 0).toNat = f.wd := by
    rw [widthFold_eq, BitVec.toNat_ofNat]
    rfl
  obtain ⟨u, cs, hu, hreset, hlen⟩ := conversion_calls (s := s.scan 4 q f.flags (widthFold f.width 0)) hf he hc rfl hwd
  refine ⟨cs, ?_, hlen⟩
  have hstate : switchState m fuel (s.scan 4 q f.flags (widthFold f.width 0)) = some u.reset := by
    show state4 m fuel _ = _
    unfold state4
    rw [hu]
    rfl
  rw [← hq]
  calc rounds m fuel (FormatPart.spec f).rounds (s.scan 0 p 0 0) = some u.reset.advance := hahead.rounds hpct hstate
    _ = _ := congrArg some (congrArg Printf.advance hreset)

theorem scan_dashes {wd : U32} (hb : m.byte p = chr '-') :
    switchState m fuel (s.scan 1 p PR_LJ wd) = some (s.scan 0 p 0 0) := by
  show state1 m fuel (s.scan 1 p PR_LJ wd) = _
  unfold state1
  rw [show (s.scan 1 p PR_LJ wd).fmt = p from rfl, hb]
  have hleft : (s.scan 1 p PR_LJ wd).has PR_LJ := by
    show PR_LJ &&& PR_LJ ≠ 0
    decide
  exact (if_neg (by decide)).trans ((if_pos rfl).trans (if_pos hleft))

theorem open_ahead (left : Bool) (hb : m.Bytes p (chr '%' :: if left then [chr '-'] else []))
    (h0 : m.byte (p + 1 + BitVec.ofNat 32 left.toNat) ≠ 0) : Ahead m fuel left.toNat (s.scan 0 p 0 0)
      (s.scan 1 (p + 1 + BitVec.ofNat 32 left.toNat) (if left then PR_LJ else 0) 0) := by
  have hstart : switchState m fuel (s.scan 0 p 0 0) = switchState m fuel (s.scan 1 (p + 1) 0 0) :=
    if_neg (not_not.2 hb.1)
  have h := (Ahead.fall hstart).trans (left_ahead left hb.2 h0)
  rwa [Nat.zero_add] at h

theorem part_rounds (hf : 2 ^ 32 ≤ fuel) (he : m.byte e = 0) {ch : FormatPart} {n : Nat} (hb : m.Bytes p ch.bytes)
    (h : Between p a n s) : ∃ t, rounds m fuel ch.rounds s = some t ∧
      Between (p + BitVec.ofNat 32 ch.bytes.length) (argsAfter a [ch]) (n + ch.calls m a) t := by
  have hscan := h.scan
  rw [hscan]
  cases ch with
  | lit c hc =>
    have hu : (s.puts [c.signExtend 32]).scan 0 (p + 1) 0 0 = ((s.skip 0).puts [c.signExtend 32]).scan 0 (p + 1) 0 0 := by
      rw [skip_zero]
    exact ⟨_, (Ahead.refl _).rounds (hb.1 ▸ hc.1) (scan_lit hb.1 hc.2), between_puts h hu rfl rfl⟩
  | percent dash =>
    have hparts : m.Bytes p ((chr '%' :: if dash then [chr '-'] else []) ++ [chr '%']) := hb
    obtain ⟨hopen, hend, -⟩ := Bytes.append.1 hparts
    have hlen : (chr '%' :: if dash then [chr '-'] else []).length = dash.toNat + 1 := by
      cases dash <;> rfl
    rw [hlen, ← add_ofNat_succ] at hend
    have hahead := @open_ahead m fuel s p dash hopen (by rw [hend]; decide)
    have hpct : m.byte p ≠ 0 := by
      rw [hopen.1]
      decide
    have hrun := hahead.rounds hpct (scan_percent hend)
    have hq : p + BitVec.ofNat 32 (FormatPart.percent dash).bytes.length = p + 1 + BitVec.ofNat 32 dash.toNat + 1 := by
      have hbytes : (FormatPart.percent dash).bytes.length = dash.toNat + 1 + 1 := by
        cases dash <;> rfl
      rw [hbytes, ← add_ofNat_succ, BitVec.ofNat_add, ← BitVec.add_assoc]
      rfl
    rw [hq]
    have hu : ((s.puts [(chr '%').signExtend 32]).scan 0 (p + 1 + BitVec.ofNat 32 dash.toNat) 0 0).advance =
        ((s.skip 0).puts [(chr '%').signExtend 32]).scan 0 (p + 1 + BitVec.ofNat 32 dash.toNat + 1) 0 0 := by
      rw [skip_zero]
      rfl
    exact ⟨_, hrun, between_puts h hu rfl rfl⟩
  | dashes =>
    obtain ⟨hpct, hdash, hdash', -⟩ := hb
    have hahead := @open_ahead m fuel s p true ⟨hpct, hdash, trivial⟩ (hdash' ▸ by decide)
    have hne : m.byte p ≠ 0 := by
      rw [hpct]
      decide
    have hq : p + BitVec.ofNat 32 FormatPart.dashes.bytes.length = p + 1 + 1 + 1 := by
      rw [BitVec.add_assoc, BitVec.add_assoc]
      rfl
    rw [hq]
    have hu : (s.scan 0 (p + 1 + 1) 0 0).advance = ((s.skip 0).puts []).scan 0 (p + 1 + 1 + 1) 0 0 := by
      rw [skip_zero, Printf.puts_nil]
      rfl
    exact ⟨_, hahead.rounds hne (scan_dashes hdash'), between_puts h hu rfl rfl⟩
  | spec f =>
    obtain ⟨cs, hrun, hlen⟩ := spec_rounds (s := s) hf he hb
    rw [h.args] at hlen
    exact ⟨_, hrun, between_puts h rfl hlen rfl⟩

/-- **The rounds over any parts.** -/
theorem parts_rounds (hf : 2 ^ 32 ≤ fuel) (he : m.byte e = 0) : ∀ {ps : List FormatPart} {p a : U32} {n : Nat} {s : Printf},
    m.Bytes p (partsBytes ps) → Between p a n s → ∃ t, rounds m fuel (roundsOf ps) s = some t ∧
      Between (p + BitVec.ofNat 32 (partsBytes ps).length) (argsAfter a ps) (n + callsOf m a ps) t
  | [], p, a, n, s, _, h => by
    have hp : p + BitVec.ofNat 32 (partsBytes []).length = p := BitVec.add_zero p
    rw [hp]
    exact ⟨s, rfl, h⟩
  | ch :: ps, p, a, n, s, hb, h => by
    have hcons : partsBytes (ch :: ps) = ch.bytes ++ partsBytes ps := List.flatMap_cons
    rw [hcons] at hb ⊢
    obtain ⟨hpart, hrest⟩ := Bytes.append.1 hb
    obtain ⟨t, ht, hbt⟩ := part_rounds hf he hpart h
    obtain ⟨u, hu, hbu⟩ := parts_rounds hf he hrest hbt
    rw [List.length_append, BitVec.ofNat_add, ← BitVec.add_assoc]
    refine ⟨u, ?_, ?_⟩
    · show rounds m fuel (roundsOf (ch :: ps)) s = some u
      have hsum : roundsOf (ch :: ps) = ch.rounds + roundsOf ps := List.sum_cons
      rw [hsum, rounds_add ht, hu]
    · rw [callsOf, ← Nat.add_assoc]
      exact hbu

theorem start_between (fmt args : U32) : Between fmt args 0 (startPrintf fmt args) := ⟨rfl, rfl, rfl, rfl⟩

theorem roundsOf_le : ∀ ps : List FormatPart, roundsOf ps ≤ (partsBytes ps).length
  | [] => Nat.le_refl 0
  | ch :: ps => by
    have hpart : ch.rounds ≤ ch.bytes.length := by
      cases ch with
      | lit c h => exact Nat.le_refl 1
      | percent dash => cases dash <;> decide
      | dashes => decide
      | spec f => exact f.more_lt
    have hsum : roundsOf (ch :: ps) = ch.rounds + roundsOf ps := List.sum_cons
    have hcons : partsBytes (ch :: ps) = ch.bytes ++ partsBytes ps := List.flatMap_cons
    have hrest := roundsOf_le ps
    rw [hsum, hcons, List.length_append]
    omega

/-- `do_printf` makes the calls of its parts, and counts them in 32 bits. -/
theorem printf_calls (hf : 2 ^ 32 ≤ fuel) {fmt : U32} {ps : List FormatPart} (hs : m.Str fmt (partsBytes ps)) (args : U32) :
    ∃ t, doPrintf m fmt args fuel = some t ∧ t.out.length = callsOf m args ps ∧
      t.count = BitVec.ofNat 32 (callsOf m args ps) := by
  obtain ⟨t, ht, hbt⟩ := parts_rounds hf hs.nul (Bytes.append.1 hs.bytes).1 (start_between fmt args)
  rw [Nat.zero_add] at hbt
  have hlen := roundsOf_le ps
  have hlt := hs.length_lt
  obtain ⟨j, hj⟩ : ∃ j, fuel = (j + 1) + roundsOf ps := ⟨fuel - roundsOf ps - 1, by omega⟩
  have hfmt : t.fmt = fmt + BitVec.ofNat 32 (partsBytes ps).length := congrArg Printf.fmt hbt.scan
  refine ⟨t, ?_, hbt.calls, hbt.count⟩
  have hloop := rounds_formatLoop (j + 1) ht
  rw [← hj] at hloop
  refine hloop.trans (if_pos ?_)
  rw [hfmt]
  exact hs.nul

/-! The calls of one specification. -/

theorem wd_eq {f : Directive} (hw : decimal f.width < 2 ^ 32) : f.wd = decimal f.width := Nat.mod_eq_of_lt hw

theorem calls_enough {f : Directive} (hw : decimal f.width < 2 ^ 32) (hsup : f.Supported)
    (hnul : f.conv = chr 'c' → m.byte a ≠ 0) :
    max (decimal f.width) (if f.conv = chr 'c' then 1 else 0) ≤ f.calls m a := by
  rw [Directive.calls, wd_eq hw]
  by_cases hc : f.conv = chr 'c'
  · rw [if_pos hc, if_pos hc, if_neg (hnul hc)]
    omega
  · obtain ⟨c, hof⟩ := Option.ne_none_iff_exists'.1 (hsup.resolve_left hc)
    rw [if_neg hc, if_neg hc, hof, Nat.max_zero]
    exact length_fieldIn _ _ _

theorem calls_short {f : Directive} (hw : decimal f.width < 2 ^ 32) (hc : f.conv = chr 'c') (hnul : m.byte a = 0) :
    f.calls m a < max (decimal f.width) (if f.conv = chr 'c' then 1 else 0) := by
  rw [Directive.calls, wd_eq hw, if_pos hc, if_pos hc, if_pos hnul]
  omega

theorem ofNat_toInt (n : Nat) : (BitVec.ofNat 32 n).toInt = n ↔ n < 2 ^ 31 := by
  constructor
  · intro h
    have hlt := BitVec.toInt_lt (x := BitVec.ofNat 32 n)
    omega
  · intro h
    have hn : (BitVec.ofNat 32 n).toNat = n := by
      rw [BitVec.toNat_ofNat]
      omega
    rw [BitVec.toInt_eq_toNat_of_lt (by omega), hn]

theorem spec_between (hf : 2 ^ 32 ≤ fuel) {fmt : U32} (args : U32) {pre post : List FormatPart} {f : Directive}
    (hs : m.Str fmt (partsBytes (pre ++ .spec f :: post))) : ∃ s t,
    rounds m fuel (roundsOf pre) (startPrintf fmt args) = some s ∧
      s.fmt = fmt + BitVec.ofNat 32 (partsBytes pre).length ∧
    rounds m fuel (FormatPart.spec f).rounds s = some t ∧ t.fmt = s.fmt + BitVec.ofNat 32 f.bytes.length ∧
      t.out.length = s.out.length + f.calls m (argsAfter args pre) := by
  have happ : partsBytes (pre ++ .spec f :: post) = partsBytes pre ++ (f.bytes ++ partsBytes post) := by
    rw [partsBytes, List.flatMap_append, List.flatMap_cons]
    rfl
  have hb := (Bytes.append.1 hs.bytes).1
  rw [happ] at hb
  obtain ⟨hpre, hrest⟩ := Bytes.append.1 hb
  obtain ⟨hspec, -⟩ := Bytes.append.1 hrest
  obtain ⟨s, hrun, hbs⟩ := parts_rounds hf hs.nul hpre (start_between fmt args)
  obtain ⟨t, hrun', hbt⟩ := part_rounds hf hs.nul (show m.Bytes _ (FormatPart.spec f).bytes from hspec) hbs
  have hfmt : s.fmt = fmt + BitVec.ofNat 32 (partsBytes pre).length := congrArg Printf.fmt hbs.scan
  refine ⟨s, t, hrun, hfmt, hrun', ?_, ?_⟩
  · rw [hfmt]
    exact congrArg Printf.fmt hbt.scan
  · rw [hbt.calls, hbs.calls]
    rfl

/-- A `%c` that is given the NUL falls one call short of its width. -/
theorem CountsCalls.noNul (hf : 2 ^ 32 ≤ fuel) {fmt args : U32} {ps : List FormatPart} (hs : m.Str fmt (partsBytes ps))
    (h : CountsCalls m fmt args fuel ps) : NoNulChar m args ps := by
  intro pre f post hps hw hc hnul
  obtain ⟨s, t, hrun, -, hrun', -, hle⟩ := h.width pre f post hps hw (.inl hc)
  rw [hps] at hs
  obtain ⟨s', t', hs', -, ht', -, hlen⟩ := spec_between hf args hs
  obtain rfl := Option.some.inj (hrun.symm.trans hs')
  obtain rfl := Option.some.inj (hrun'.symm.trans ht')
  have hshort := calls_short hw hc hnul
  omega

end

/-! Every complete format has parts. -/

theorem inMods_cases (c : U8) : (∃ a : Modifier, c = a.char ∧ Scan.inMods c = .mods) ∨
    (∀ a : Modifier, c ≠ a.char) ∧ Scan.inMods c = .text := by
  by_cases h : c = chr 'F' ∨ c = chr 'N' ∨ c = chr 'l' ∨ c = chr 'h'
  · have hin : Scan.inMods c = .mods := if_pos h
    rcases h with rfl | rfl | rfl | rfl
    · exact .inl ⟨.F, rfl, hin⟩
    · exact .inl ⟨.N, rfl, hin⟩
    · exact .inl ⟨.l, rfl, hin⟩
    · exact .inl ⟨.h, rfl, hin⟩
  · refine .inr ⟨fun a e => h ?_, if_neg h⟩
    cases a with
    | N => exact .inr (.inl e)
    | F => exact .inl e
    | l => exact .inr (.inr (.inl e))
    | h => exact .inr (.inr (.inr e))

theorem digit_of_isDigit {c : U8} (h : IsDigit c) : ∃ d : Fin 10, c = digit false d.val := by
  have hall : ∀ d : Fin 10, digit false d = BitVec.ofNat 8 (48 + d.val) := by decide
  have hlo : 48 ≤ c.toNat := h.1
  have hhi : c.toNat ≤ 57 := h.2
  refine ⟨⟨c.toNat - 48, by omega⟩, ?_⟩
  rw [hall]
  apply BitVec.eq_of_toNat_eq
  rw [BitVec.toNat_ofNat]
  show c.toNat = (48 + (c.toNat - 48)) % 2 ^ 8
  omega

theorem mods_parse : ∀ {r : List U8}, Scan.mods.run r = .text → ∃ (mods : List Modifier) (c : U8) (rest : List U8),
    r = mods.map Modifier.char ++ c :: rest ∧ (∀ a : Modifier, c ≠ a.char) ∧ Scan.text.run rest = .text
  | [], h => by cases h
  | c :: r, h => by
    have hstep : (Scan.inMods c).run r = .text := h
    rcases inMods_cases c with ⟨a, ha, hin⟩ | ⟨hne, hin⟩
    · rw [hin] at hstep
      obtain ⟨mods, d, rest, rfl, hd, hrest⟩ := mods_parse hstep
      exact ⟨a :: mods, d, rest, by rw [ha]; rfl, hd, hrest⟩
    · rw [hin] at hstep
      exact ⟨[], c, r, rfl, hne, hstep⟩

theorem width_parse : ∀ {r : List U8}, Scan.width.run r = .text → ∃ ds mods c rest,
    r = afterFlags ds mods c ++ rest ∧ (∀ a : Modifier, c ≠ a.char) ∧ (mods = [] → ¬ IsDigit c) ∧
      Scan.text.run rest = .text
  | [], h => by cases h
  | c :: r, h => by
    have hstep : (Scan.inWidth c).run r = .text := h
    by_cases hdig : IsDigit c
    · have hin : Scan.inWidth c = .width := if_pos hdig
      rw [hin] at hstep
      obtain ⟨d, rfl⟩ := digit_of_isDigit hdig
      obtain ⟨ds, mods, b, rest, rfl, hb, hend, hrest⟩ := width_parse hstep
      exact ⟨d :: ds, mods, b, rest, rfl, hb, hend, hrest⟩
    · have hin : Scan.inWidth c = Scan.inMods c := if_neg hdig
      rw [hin] at hstep
      -- a modifier, or the conversion
      rcases inMods_cases c with ⟨a, ha, hin'⟩ | ⟨hne, hin'⟩
      · rw [hin'] at hstep
        obtain ⟨mods, b, rest, rfl, hb, hrest⟩ := mods_parse hstep
        refine ⟨[], a :: mods, b, rest, ?_, hb, nofun, hrest⟩
        rw [ha, afterFlags, List.map_nil, List.nil_append, List.map_cons, List.cons_append, List.cons_append,
          List.append_assoc]
        rfl
      · rw [hin'] at hstep
        exact ⟨[], [], c, r, rfl, hne, fun _ => hdig, hstep⟩

theorem spec_parse (left zero : Bool) {r : List U8} (hr : Scan.width.run r = .text) (hne : ∀ c ∈ r, c ≠ 0)
    (hhead : zero = false → ∀ c ∈ r.head?, c ≠ chr '%' ∧ c ≠ chr '-' ∧ c ≠ chr '0') : ∃ f rest,
    chr '%' :: ((if left then [chr '-'] else []) ++ ((if zero then [chr '0'] else []) ++ r)) = Directive.bytes f ++ rest ∧
      Scan.text.run rest = .text := by
  obtain ⟨ds, mods, c, rest, rfl, hc, hend, hrest⟩ := width_parse hr
  have hafter : afterFlags ds mods c ≠ [] := by simp [afterFlags]
  have hc0 : c ≠ 0 := hne c (by simp [afterFlags])
  rw [List.head?_append_of_ne_nil _ hafter] at hhead
  refine ⟨⟨left, zero, ds, mods, c, ⟨hc0, hc⟩, hend, hhead⟩, rest, ?_, hrest⟩
  rw [Directive.bytes]
  simp only [List.append_assoc, List.cons_append]

/-- After `%` or `%-` a specification goes on with the flag `0` or without it. -/
theorem flags_parse (left : Bool) {d : U8} {r : List U8} (hp : d ≠ chr '%') (hm : d ≠ chr '-')
    (hr : ((if left then Scan.dash else .percent).step d).run r = .text) (hne : ∀ c ∈ d :: r, c ≠ 0) : ∃ f rest,
    chr '%' :: ((if left then [chr '-'] else []) ++ d :: r) = Directive.bytes f ++ rest ∧
      Scan.text.run rest = .text := by
  by_cases hz : d = chr '0'
  · subst hz
    have hzero : (if left then Scan.dash else .percent).step (chr '0') = .zero := by
      cases left <;> rfl
    rw [hzero] at hr
    have hr : Scan.width.run r = .text := by
      cases r with
      | nil => cases hr
      | cons c r => exact hr
    exact spec_parse left true hr (fun c hc => hne c (List.mem_cons_of_mem _ hc)) nofun
  · have hwidth : (if left then Scan.dash else .percent).step d = Scan.width.step d := by
      cases left
      · exact (if_neg hp).trans ((if_neg hm).trans (if_neg hz))
      · exact (if_neg hp).trans ((if_neg hm).trans (if_neg hz))
    rw [hwidth] at hr
    have hr : Scan.width.run (d :: r) = .text := hr
    have hhead : false = false → ∀ c ∈ (d :: r).head?, c ≠ chr '%' ∧ c ≠ chr '-' ∧ c ≠ chr '0' := by
      rintro - c hc
      obtain rfl := Option.some.inj hc
      exact ⟨hp, hm, hz⟩
    exact spec_parse left false hr hne hhead

theorem percent_parse {r : List U8} (h0 : ∀ c ∈ r, c ≠ 0) (hr : Scan.percent.run r = .text) :
    ∃ (ch : FormatPart) (rest : List U8), chr '%' :: r = ch.bytes ++ rest ∧ Scan.text.run rest = .text := by
  cases r with
  | nil => cases hr
  | cons d r =>
    have hstep : (Scan.percent.step d).run r = .text := hr
    by_cases hp : d = chr '%'
    · subst hp
      exact ⟨.percent false, r, rfl, hstep⟩
    by_cases hm : d = chr '-'
    · subst hm
      have hr : Scan.dash.run r = .text := hstep
      cases r with
      | nil => cases hr
      | cons b r =>
        have hstep : (Scan.dash.step b).run r = .text := hr
        by_cases hp : b = chr '%'
        · subst hp
          exact ⟨.percent true, r, rfl, hstep⟩
        by_cases hm : b = chr '-'
        · subst hm
          exact ⟨.dashes, r, rfl, hstep⟩
        obtain ⟨f, rest, hf, hrun⟩ := flags_parse true hp hm hstep fun c hc => h0 c (List.mem_cons_of_mem _ hc)
        exact ⟨.spec f, rest, hf, hrun⟩
    obtain ⟨f, rest, hf, hrun⟩ := flags_parse false hp hm hstep h0
    exact ⟨.spec f, rest, hf, hrun⟩

theorem part_parse {c : U8} {r : List U8} (h0 : ∀ d ∈ c :: r, d ≠ 0) (hs : Scan.text.run (c :: r) = .text) :
    ∃ (ch : FormatPart) (rest : List U8), c :: r = ch.bytes ++ rest ∧ Scan.text.run rest = .text := by
  by_cases hc : c = chr '%'
  · subst hc
    exact percent_parse (fun d hd => h0 d (List.mem_cons_of_mem _ hd)) hs
  · have hstep : (Scan.text.step c).run r = .text := hs
    rw [show Scan.text.step c = .text from if_neg hc] at hstep
    exact ⟨.lit c ⟨h0 c List.mem_cons_self, hc⟩, r, rfl, hstep⟩

theorem FormatPart.bytes_pos (ch : FormatPart) : 0 < ch.bytes.length := by
  cases ch with
  | lit c h => exact Nat.one_pos
  | percent dash => exact Nat.succ_pos _
  | dashes => exact Nat.succ_pos _
  | spec f => exact Nat.succ_pos _

theorem complete_parts (n : Nat) : ∀ {s : List U8}, s.length ≤ n → (∀ c ∈ s, c ≠ 0) → Scan.text.run s = .text →
    ∃ ps, partsBytes ps = s := by
  induction n with
  | zero =>
    intro s hn _ _
    obtain rfl : s = [] := List.length_eq_zero_iff.1 (by omega)
    exact ⟨[], rfl⟩
  | succ n ih =>
    intro s hn h0 hs
    cases s with
    | nil => exact ⟨[], rfl⟩
    | cons c r =>
      obtain ⟨ch, rest, hsplit, hrun⟩ := part_parse h0 hs
      rw [hsplit] at hn h0 ⊢
      have hpos := ch.bytes_pos
      rw [List.length_append] at hn
      obtain ⟨ps, hps⟩ := ih (by omega) (fun d hd => h0 d (List.mem_append_right _ hd)) hrun
      refine ⟨ch :: ps, ?_⟩
      rw [partsBytes, List.flatMap_cons, ← hps]
      rfl

theorem str_ne {m : Mem} : ∀ {s : List U8} {p : U32}, m.Str p s → ∀ c ∈ s, c ≠ 0
  | [], _, _, c, hc => absurd hc List.not_mem_nil
  | b :: s, p, ⟨_, h0, hs⟩, c, hc => by
    rcases List.mem_cons.1 hc with rfl | hc
    · exact h0
    · exact str_ne hs c hc

/-- **`do_printf` counts its calls, and each specification fills its width**, in a format whose specifications are
complete, if and only if no `%c` is given the NUL and the calls are no more than an `int` can count. -/
theorem printf_count_iff {m : Mem} {fmt : U32} {s : List U8} (hs : m.Str fmt s) (hc : Scan.text.run s = .text)
    (args : U32) {fuel : Nat} (hf : 2 ^ 32 ≤ fuel) : (∃ ps, partsBytes ps = s) ∧ ∀ ps, partsBytes ps = s →
      (CountsCalls m fmt args fuel ps ↔ NoNulChar m args ps ∧ callsOf m args ps < 2 ^ 31) := by
  refine ⟨complete_parts s.length (Nat.le_refl _) (str_ne hs) hc, ?_⟩
  rintro ps rfl
  obtain ⟨t, ht, hlen, hcount⟩ := printf_calls hf hs args
  constructor
  · intro h
    refine ⟨h.noNul hf hs, ?_⟩
    obtain ⟨t', ht', hret⟩ := h.returns
    obtain rfl := Option.some.inj (ht.symm.trans ht')
    rw [hcount, hlen] at hret
    exact (ofNat_toInt _).1 hret
  · rintro ⟨hnul, hsmall⟩
    refine ⟨⟨t, ht, ?_⟩, ?_⟩
    · rw [hcount, hlen]
      exact (ofNat_toInt _).2 hsmall
    · intro pre f post hps hw hsup
      have hs' := hs
      rw [hps] at hs'
      obtain ⟨u, v, hu, hufmt, hv, hvfmt, hcalls⟩ := spec_between hf args hs'
      refine ⟨u, v, hu, hufmt, hv, hvfmt, ?_⟩
      rw [hcalls]
      exact Nat.add_le_add_left (calls_enough hw hsup (hnul pre f post hps hw)) _

def bareChar : Directive := ⟨false, false, [], [], chr 'c', ⟨by decide, by rintro (_ | _) <;> decide⟩,
  fun _ => by unfold IsDigit; decide, fun _ => by decide⟩

def wideChar : Directive :=
  ⟨false, false, [Fin.last 9], [], chr 'c', bareChar.conv_ne, bareChar.conv_end, fun _ => by decide⟩

/-- `"a%9c%c"` with the arguments `'x'` and `b`. -/
def charMem (b : U8) : Mem := ⟨fun x =>
  ([chr 'a', chr '%', chr '9', chr 'c', chr '%', chr 'c', 0, 0, 0, 0, 0, 0, 0, 0, 0, 0, chr 'x', 0, 0, 0, b] : List U8).getD
    x.toNat 0, []⟩

def charParts : List FormatPart := [.lit (chr 'a') (by decide), .spec wideChar, .spec bareChar]

/-- Eleven calls are counted where both characters print; a NUL is missed. -/
theorem printf_count_sample : CountsCalls (charMem (chr 'y')) 0 16 (2 ^ 32) charParts ∧
    callsOf (charMem (chr 'y')) 16 charParts = 11 ∧ ¬ CountsCalls (charMem 0) 0 16 (2 ^ 32) charParts := by
  have hs : ∀ b, (charMem b).Str 0 (partsBytes charParts) := fun b =>
    ⟨rfl, by decide, rfl, by decide, rfl, by decide, rfl, by decide, rfl, by decide, rfl, by decide, rfl⟩
  have hc : Scan.text.run (partsBytes charParts) = .text := by decide
  have hcalls : callsOf (charMem (chr 'y')) 16 charParts = 11 := by decide
  refine ⟨((printf_count_iff (hs _) hc 16 (Nat.le_refl _)).2 _ rfl).mpr ⟨?_, by omega⟩, hcalls, fun h => ?_⟩
  · intro pre f post hps _ _
    rcases pre with _ | ⟨_, _ | ⟨_, _ | ⟨_, pre⟩⟩⟩ <;> simp [charParts] at hps
    · obtain ⟨rfl, -⟩ := hps
      decide
    · obtain ⟨rfl, rfl, -⟩ := hps
      decide
  · obtain ⟨hnul, -⟩ := ((printf_count_iff (hs 0) hc 16 (Nat.le_refl _)).2 _ rfl).mp h
    exact hnul [.lit (chr 'a') (by decide), .spec wideChar] bareChar [] rfl (by decide) rfl (by decide)

/-- `"%c"` with the argument 0. -/
def nulCharMem : Mem := ⟨fun x => ([chr '%', chr 'c', 0] : List U8).getD x.toNat 0, []⟩

/-- No call is made for it. -/
theorem printf_count_fails : nulCharMem.Str 0 (partsBytes [.spec bareChar]) ∧
    Scan.text.run (partsBytes [.spec bareChar]) = .text ∧
    (∃ t, doPrintf nulCharMem 0 16 4 = some t ∧ t.fmt = 2 ∧ t.out = []) ∧
    ∀ fuel, 2 ^ 32 ≤ fuel → ¬ CountsCalls nulCharMem 0 16 fuel [.spec bareChar] := by
  have hs : nulCharMem.Str 0 (partsBytes [.spec bareChar]) := by decide
  refine ⟨hs, by decide, ⟨_, rfl, by decide, by decide⟩, fun fuel hf h => ?_⟩
  exact h.noNul hf hs [] bareChar [] rfl (by decide) rfl (by decide)

end LineOS
