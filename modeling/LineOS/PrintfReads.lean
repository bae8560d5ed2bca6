import LineOS.PrintfRun

/- What `do_printf` reads through `fmt`. `doPrintfReads` goes along with the
   function and lists the addresses it reads; `Scan` is the automaton of the format,
   with a state also for the two places inside a round where `fmt` is moved on and
   read without a test for the NUL. A format that ends in one of these is cut short:
   the round takes the NUL for a conversion, and the `for` goes on behind it.
   `printf_reads_iff` is that the reads are right just if the format is not cut short. -/
namespace LineOS
open ByteMemory ByteMemory.Mem

/-! The reads, branch for branch. -/

def state4Reads (s : Printf) : List U32 := [s.fmt]

def state3Reads (m : Mem) (s : Printf) : List U32 :=
  let c := m.byte s.fmt
  s.fmt :: if c = chr 'F' ∨ c = chr 'N' ∨ c = chr 'l' ∨ c = chr 'h' then [] else state4Reads s

def state2Reads (m : Mem) (s : Printf) : List U32 :=
  let c := m.byte s.fmt
  s.fmt :: if chr '0' ≤ c ∧ c ≤ chr '9' then [s.fmt] else state3Reads m s

def state1Reads (m : Mem) (s : Printf) : List U32 :=
  let c := m.byte s.fmt
  s.fmt ::
    if c = chr '%' then [s.fmt]
    else if c = chr '-' then []
    else if c = chr '0' then state2Reads m s.advance
    else state2Reads m s

def state0Reads (m : Mem) (s : Printf) : List U32 :=
  s.fmt :: if m.byte s.fmt ≠ chr '%' then [s.fmt] else state1Reads m s.advance

def switchReads (m : Mem) (s : Printf) : List U32 :=
  match s.state with
  | 0 => state0Reads m s
  | 1 => state1Reads m s
  | 2 => state2Reads m s
  | 3 => state3Reads m s
  | 4 => state4Reads s
  | _ => []

def formatReads (m : Mem) (fuel : Nat) : Nat → Printf → List U32
  | 0, _ => []
  | n + 1, s =>
    s.fmt ::
      if m.byte s.fmt = 0 then []
      else switchReads m s ++ match switchState m fuel s with
        | some s => formatReads m fuel n s.advance
        | none => []

/-- The addresses `do_printf` reads through `fmt`. -/
def doPrintfReads (m : Mem) (fmt args : U32) (fuel : Nat) : List U32 :=
  formatReads m fuel fuel { fmt, args, state := 0, flags := 0, givenWd := 0, count := 0, out := [] }

/-- The scan of the format `s` at `p` ends at its NUL, and reads nothing past it. -/
structure ReadsFormat (m : Mem) (p args : U32) (s : List U8) (fuel : Nat) : Prop where
  stops : ∃ t, doPrintf m p args fuel = some t ∧ t.fmt = p + BitVec.ofNat 32 s.length
  within : ∀ a ∈ doPrintfReads m p args fuel, ∃ i ≤ s.length, a = p + BitVec.ofNat 32 i

/-! The automaton of the format. -/

/-- What the characters so far end in. -/
inductive Scan where
  /-- outside any specification -/
  | text
  /-- the `%` of a specification -/
  | percent
  /-- its flag `-` -/
  | dash
  /-- its flag `0` -/
  | zero
  | width
  | mods
  deriving DecidableEq

namespace Scan

def inMods (c : U8) : Scan :=
  if c = chr 'F' ∨ c = chr 'N' ∨ c = chr 'l' ∨ c = chr 'h' then mods else text

def inWidth (c : U8) : Scan := if chr '0' ≤ c ∧ c ≤ chr '9' then width else inMods c

/-- A second `-` ends the specification. -/
def step : Scan → U8 → Scan
  | text, c => if c = chr '%' then percent else text
  | percent, c =>
    if c = chr '%' then text else if c = chr '-' then dash else if c = chr '0' then zero else inWidth c
  | dash, c => if c = chr '%' then text else if c = chr '-' then text else if c = chr '0' then zero else inWidth c
  | zero, c => inWidth c
  | width, c => inWidth c
  | mods, c => inMods c

def run (q : Scan) (s : List U8) : Scan := s.foldl step q

/-- `state` where the automaton is in `q`. -/
def state : Scan → Nat
  | text => 0
  | percent => 1
  | dash => 1
  | zero => 2
  | width => 2
  | mods => 3

/-- A state in which the round is not over. -/
def Open (q : Scan) : Prop := q = percent ∨ q = zero

instance (q : Scan) : Decidable q.Open := inferInstanceAs (Decidable (_ ∨ _))

end Scan

/-- The format ends right after a `%` that opens a specification, or after its flag `0`. -/
def CutShort (s : List U8) : Prop := (Scan.text.run s).Open

instance (s : List U8) : Decidable (CutShort s) := inferInstanceAs (Decidable (Scan.Open _))

/-! The conversions leave `fmt` alone, and end. -/

section
variable {m : Mem} {fuel : Nat}

theorem upToNul_ends {e : U32} (he : m.byte e = 0) : ∀ (n : Nat) (p : U32), (e - p).toNat < n →
    ∃ text, m.upToNul n p = some text
  | n + 1, p, h => by
    by_cases h0 : m.byte p = 0
    · exact ⟨[], if_pos h0⟩
    · have hne : e ≠ p := by
        rintro rfl
        exact h0 he
      obtain ⟨text, ht⟩ := upToNul_ends he n (p + 1) (by bv_omega)
      exact ⟨m.byte p :: text, by rw [Mem.upToNul, if_neg h0, ht, Option.map_some]⟩

theorem emit2_fmt (hf : 2 ^ 32 ≤ fuel) (text : List U8) (a : U32) (s : Printf) :
    ∃ u, emit2 fuel text a s = some u ∧ u.fmt = s.fmt :=
  ⟨_, emit2_run hf (layout_of_bits s.flags), rfl⟩

theorem emit_fmt (hf : 2 ^ 32 ≤ fuel) (text : List U8) (s : Printf) : ∃ u, emit fuel text s = some u ∧ u.fmt = s.fmt := by
  have hsign : (if s.flags &&& (PR_WS ||| PR_LZ) = PR_WS ||| PR_LZ then s.put (code '-') else s).fmt = s.fmt := by
    split
    · rfl
    · rfl
  obtain ⟨u, hu, hfmt⟩ := emit2_fmt hf text
    (if s.has PR_WS then BitVec.ofNat 32 text.length + 1 else BitVec.ofNat 32 text.length)
    (if s.flags &&& (PR_WS ||| PR_LZ) = PR_WS ||| PR_LZ then s.put (code '-') else s)
  exact ⟨u, hu, hfmt.trans hsign⟩

/-- `buf` has room for the digits of any number in a radix from 8 to 16. -/
theorem doNum_fmt (hf : 2 ^ 32 ≤ fuel) {r : U32} (hr : 8 ≤ r.toNat) (hr' : r.toNat ≤ 16) (s : Printf) :
    ∃ u, doNum m fuel r s = some u ∧ u.fmt = s.fmt := by
  have hdigits : ∀ flags num, ∃ text, convert flags r (PR_BUFLEN - 1) num [] = some text := fun flags num =>
    ⟨_, convert_run (by omega) hr' (by decide) (digits_room hr num)⟩
  unfold doNum
  simp only
  obtain ⟨text, ht⟩ := hdigits
    (if s.nextArg.has PR_SG ∧ (loadNum m s).msb = true then s.nextArg.set PR_WS else s.nextArg).flags
    (if s.nextArg.has PR_SG ∧ (loadNum m s).msb = true then -loadNum m s else loadNum m s)
  rw [ht, Option.bind_some]
  obtain ⟨u, hu, hfmt⟩ := emit_fmt hf text
    (if s.nextArg.has PR_SG ∧ (loadNum m s).msb = true then s.nextArg.set PR_WS else s.nextArg)
  refine ⟨u, hu, hfmt.trans ?_⟩
  split
  · rfl
  · rfl

theorem conversion_fmt (hf : 2 ^ 32 ≤ fuel) {e : U32} (he : m.byte e = 0) (s : Printf) :
    ∃ u, conversion m fuel s = some u ∧ u.fmt = s.fmt := by
  unfold conversion
  simp only
  split
  · exact doNum_fmt hf (by decide) (by decide) (s.set PR_CA)
  split
  · exact doNum_fmt hf (by decide) (by decide) s
  split
  · exact doNum_fmt hf (by decide) (by decide) (s.set PR_SG)
  split
  · exact doNum_fmt hf (by decide) (by decide) s
  split
  · exact doNum_fmt hf (by decide) (by decide) s
  split
  · exact emit2_fmt hf _ _ _
  split
  · obtain ⟨text, ht⟩ := upToNul_ends he fuel (m.load32 s.args) (Nat.lt_of_lt_of_le (BitVec.isLt _) hf)
    obtain ⟨u, hu, hfmt⟩ := emit_fmt hf text ({ s with flags := s.flags &&& ~~~PR_LZ }.nextArg)
    exact ⟨u, by rw [ht]; exact hu, hfmt⟩
  · exact ⟨s, rfl, rfl⟩

theorem state4_fmt (hf : 2 ^ 32 ≤ fuel) {e : U32} (he : m.byte e = 0) (s : Printf) :
    ∃ u, state4 m fuel s = some u ∧ u.fmt = s.fmt ∧ u.state = 0 ∧ u.flags = 0 := by
  obtain ⟨u, hu, hfmt⟩ := conversion_fmt hf he s
  exact ⟨u.reset, by rw [state4, hu, Option.map_some], hfmt, rfl, rfl⟩

end

/-! Where a round leaves the scan. -/

/-- The rest `r` of the format is at `fmt`, up to the NUL at `e`. -/
structure Spot (m : Mem) (e : U32) (r : List U8) (s : Printf) : Prop where
  str : m.Str s.fmt r
  nul : s.fmt + BitVec.ofNat 32 r.length = e

/-- At the test of the `for`, after characters that leave the automaton in `q`. -/
structure Top (m : Mem) (e : U32) (q : Scan) (r : List U8) (s : Printf) : Prop extends Spot m e r s where
  closed : ¬ q.Open
  state : s.state = q.state
  clear : q = .text → s.flags = 0
  left : q = .dash → s.has PR_LJ

/-- A round at `r` ends in `u`, before its `fmt++`: after characters of the format, or at the NUL. -/
inductive Lands (m : Mem) (e : U32) : Scan → List U8 → Printf → Prop
  | next {q c r u} : Top m e (q.step c) r u.advance → Lands m e q (c :: r) u
  | skip {q u} : q.Open → u.fmt = e → u.state = 0 → u.flags = 0 → Lands m e q [] u
  | on {q c r u} : Lands m e (q.step c) r u → Lands m e q (c :: r) u

section
variable {m : Mem} {fuel : Nat} {e : U32} {q : Scan} {r : List U8} {s u : Printf} {c : U8}

theorem Spot.moved (h : Spot m e r s) (hf : u.fmt = s.fmt) : Spot m e r u := by
  refine ⟨?_, ?_⟩
  · rw [hf]
    exact h.str
  · rw [hf]
    exact h.nul

theorem Spot.advance (h : Spot m e (c :: r) s) : Spot m e r s.advance := by
  refine ⟨h.str.2.2, ?_⟩
  rw [← h.nul, List.length_cons, ← add_ofNat_succ]
  rfl

theorem Spot.stop (h : Spot m e [] s) : m.byte s.fmt = 0 ∧ s.fmt = e :=
  ⟨h.str, (BitVec.add_zero _).symm.trans h.nul⟩

theorem Spot.cons (h : Spot m e r s) (h0 : m.byte s.fmt ≠ 0) : ∃ r', r = m.byte s.fmt :: r' := by
  cases r with
  | nil => exact absurd h.stop.1 h0
  | cons c r => exact ⟨r, by rw [h.str.1]⟩

/-- The round is over at the character `c`. -/
theorem Spot.lands {q' : Scan} (h : Spot m e (c :: r) s) (hfmt : u.fmt = s.fmt) (hstep : q.step c = q')
    (hclosed : ¬ q'.Open) (hst : u.state = q'.state) (hclear : q' = .text → u.flags = 0)
    (hleft : q' = .dash → u.has PR_LJ) : Lands m e q (c :: r) u := by
  subst hstep
  exact .next ⟨(h.moved hfmt).advance, hclosed, hst, hclear, hleft⟩

theorem state4_lands (hf : 2 ^ 32 ≤ fuel) (he : m.byte e = 0) (h : Spot m e r s) (hend : r = [] → q.Open)
    (hstep : ∀ c ∈ r.head?, q.step c = .text) : ∃ u, state4 m fuel s = some u ∧ Lands m e q r u := by
  obtain ⟨u, hu, hfmt, hst, hfl⟩ := state4_fmt hf he s
  refine ⟨u, hu, ?_⟩
  cases r with
  | nil => exact .skip (hend rfl) (h.moved hfmt).stop.2 hst hfl
  | cons c r => exact h.lands hfmt (hstep c rfl) (by decide) hst (fun _ => hfl) nofun

theorem state3_lands (hf : 2 ^ 32 ≤ fuel) (he : m.byte e = 0) (h : Spot m e r s) (hst : s.state = 3)
    (hend : r = [] → q.Open) (hstep : ∀ c ∈ r.head?, q.step c = Scan.inMods c) :
    ∃ u, state3 m fuel s = some u ∧ Lands m e q r u := by
  -- a modifier, and the loop goes on in state 3
  have hmod : ∀ u, (m.byte s.fmt = chr 'F' ∨ m.byte s.fmt = chr 'N' ∨ m.byte s.fmt = chr 'l' ∨ m.byte s.fmt = chr 'h') →
      u.fmt = s.fmt → u.state = 3 → Lands m e q r u := by
    intro u hc hfmt hu
    have h0 : m.byte s.fmt ≠ 0 := by
      rcases hc with hc | hc | hc | hc <;> rw [hc] <;> decide
    obtain ⟨r, rfl⟩ := h.cons h0
    exact h.lands hfmt ((hstep _ rfl).trans (if_pos hc)) (by decide) hu nofun nofun
  unfold state3
  simp only
  split
  · next hc => exact ⟨_, rfl, hmod _ (.inl hc) rfl hst⟩
  split
  · next hc => exact ⟨_, rfl, hmod _ (.inr (.inl hc)) rfl hst⟩
  split
  · next hc => exact ⟨_, rfl, hmod _ (.inr (.inr (.inl hc))) rfl hst⟩
  split
  · next hc => exact ⟨_, rfl, hmod _ (.inr (.inr (.inr hc))) rfl hst⟩
  · next hF hN hl hh =>
    refine state4_lands hf he (h.moved rfl) hend fun c hc => ?_
    rw [hstep c hc]
    obtain ⟨r, rfl⟩ : ∃ r', r = c :: r' := List.head?_eq_some_iff.1 hc
    rw [h.str.1] at hF hN hl hh
    exact if_neg (by tauto)

theorem state2_lands (hf : 2 ^ 32 ≤ fuel) (he : m.byte e = 0) (h : Spot m e r s) (hst : s.state = 2)
    (hend : r = [] → q.Open) (hstep : ∀ c ∈ r.head?, q.step c = Scan.inWidth c) :
    ∃ u, state2 m fuel s = some u ∧ Lands m e q r u := by
  unfold state2
  simp only
  split
  · next hc =>
    have h0 : m.byte s.fmt ≠ 0 := by
      intro h0
      rw [h0] at hc
      exact absurd hc.1 (by decide)
    obtain ⟨r, rfl⟩ := h.cons h0
    exact ⟨_, rfl, h.lands rfl ((hstep _ rfl).trans (if_pos hc)) (by decide) hst nofun nofun⟩
  · next hc =>
    refine state3_lands hf he (h.moved rfl) rfl hend fun c hm => ?_
    rw [hstep c hm]
    obtain ⟨r, rfl⟩ : ∃ r', r = c :: r' := List.head?_eq_some_iff.1 hm
    rw [h.str.1] at hc
    exact if_neg hc

theorem state1_lands (hf : 2 ^ 32 ≤ fuel) (he : m.byte e = 0) (h : Spot m e r s) (hst : s.state = 1)
    (hq : q = .percent ∧ s.flags = 0 ∨ q = .dash ∧ s.has PR_LJ) (hend : r = [] → q = .percent) :
    ∃ u, state1 m fuel s = some u ∧ Lands m e q r u := by
  unfold state1
  simp only
  split
  · next hc =>
    obtain ⟨r, rfl⟩ := h.cons (by rw [hc]; decide)
    have hstep : q.step (m.byte s.fmt) = .text := by
      rcases hq with ⟨rfl, -⟩ | ⟨rfl, -⟩ <;> exact if_pos hc
    exact ⟨_, rfl, h.lands rfl hstep (by decide) rfl (fun _ => rfl) nofun⟩
  split
  · next hp hc =>
    obtain ⟨r, rfl⟩ := h.cons (by rw [hc]; decide)
    rcases hq with ⟨rfl, hfl⟩ | ⟨rfl, hlj⟩
    · have hno : ¬ s.has PR_LJ := by
        unfold Printf.has
        rw [hfl]
        decide
      have hset : (s.set PR_LJ).has PR_LJ := by
        show (s.flags ||| PR_LJ) &&& PR_LJ ≠ 0
        rw [hfl]
        decide
      rw [if_neg hno]
      exact ⟨_, rfl, h.lands rfl ((if_neg hp).trans (if_pos hc)) (by decide) hst nofun fun _ => hset⟩
    · -- a second `-` ends it
      rw [if_pos hlj]
      exact ⟨_, rfl, h.lands rfl ((if_neg hp).trans (if_pos hc)) (by decide) rfl (fun _ => rfl) nofun⟩
  · next hp hm =>
    by_cases hc : m.byte s.fmt = chr '0'
    · -- the flag `0`: the next character is read without a test
      obtain ⟨r, rfl⟩ := h.cons (by rw [hc]; decide)
      have hstep : q.step (m.byte s.fmt) = .zero := by
        rcases hq with ⟨rfl, -⟩ | ⟨rfl, -⟩ <;> exact (if_neg hp).trans ((if_neg hm).trans (if_pos hc))
      have h' : Spot m e _ ((Printf.set PR_LZ { s with state := 2 })) := h.moved rfl
      obtain ⟨u, hu, hl⟩ := state2_lands hf he h'.advance rfl (q := .zero) (fun _ => .inr rfl) (fun _ _ => rfl)
      refine ⟨u, ?_, .on ?_⟩
      · rw [if_pos hc]
        exact hu
      · rw [hstep]
        exact hl
    · rw [if_neg hc]
      refine state2_lands hf he (h.moved rfl) rfl (fun hr => .inl (hend hr)) fun c hcr => ?_
      obtain ⟨r, rfl⟩ : ∃ r', r = c :: r' := List.head?_eq_some_iff.1 hcr
      rw [h.str.1] at hp hm hc
      rcases hq with ⟨rfl, -⟩ | ⟨rfl, -⟩ <;> exact (if_neg hp).trans ((if_neg hm).trans (if_neg hc))

theorem state0_lands (hf : 2 ^ 32 ≤ fuel) (he : m.byte e = 0) (h : Top m e .text (c :: r) s) :
    ∃ u, state0 m fuel s = some u ∧ Lands m e .text (c :: r) u := by
  have hc := h.str.1
  unfold state0
  simp only [hc]
  split
  · next hne =>
    exact ⟨_, rfl, h.toSpot.lands rfl (if_neg hne) (by decide) h.state (fun _ => h.clear rfl) nofun⟩
  · next heq =>
    have hpct : c = chr '%' := not_not.1 heq
    have h' : Spot m e r { s.advance with state := 1 } := h.toSpot.advance.moved rfl
    obtain ⟨u, hu, hl⟩ := state1_lands hf he h' rfl (.inl ⟨rfl, h.clear rfl⟩) (fun _ => rfl)
    refine ⟨u, hu, .on ?_⟩
    rw [show Scan.text.step c = .percent from if_pos hpct]
    exact hl

/-- **One round.** -/
theorem switch_lands (hf : 2 ^ 32 ≤ fuel) (he : m.byte e = 0) (h : Top m e q (c :: r) s) :
    ∃ u, switchState m fuel s = some u ∧ Lands m e q (c :: r) u := by
  have hst := h.state
  unfold switchState
  cases q with
  | text =>
    rw [hst]
    exact state0_lands hf he h
  | percent => exact absurd (.inl rfl) h.closed
  | dash =>
    rw [hst]
    exact state1_lands hf he h.toSpot hst (.inr ⟨rfl, h.left rfl⟩) nofun
  | zero => exact absurd (.inr rfl) h.closed
  | width =>
    rw [hst]
    exact state2_lands hf he h.toSpot hst nofun (fun _ _ => rfl)
  | mods =>
    rw [hst]
    exact state3_lands hf he h.toSpot hst nofun (fun _ _ => rfl)

/-- After a round: the next test is further on in the format, or past the NUL. -/
theorem Lands.outcome (h : Lands m e q r u) :
    (∃ q' r', Top m e q' r' u.advance ∧ q.run r = q'.run r' ∧ r'.length < r.length) ∨
      (q.run r).Open ∧ u.fmt = e ∧ u.state = 0 ∧ u.flags = 0 := by
  induction h with
  | next ht => exact .inl ⟨_, _, ht, rfl, Nat.lt_succ_self _⟩
  | skip ho hfmt hst hfl => exact .inr ⟨ho, hfmt, hst, hfl⟩
  | on _ ih =>
    refine ih.imp_left fun ⟨q', r', ht, hrun, hlt⟩ => ⟨q', r', ht, hrun, ?_⟩
    exact Nat.lt_succ_of_lt hlt

/-! What a round reads. -/

/-- The NUL at `e` is `a` or one of the `n` bytes after it. -/
def Before (e : U32) (n : Nat) (a : U32) : Prop := ∃ i ≤ n, a + BitVec.ofNat 32 i = e

theorem Before.mono {n k : Nat} {a : U32} (h : Before e n a) (hle : n ≤ k) : Before e k a := by
  obtain ⟨i, hi, ha⟩ := h
  exact ⟨i, by omega, ha⟩

theorem Spot.before (h : Spot m e r s) : Before e r.length s.fmt := ⟨r.length, Nat.le_refl _, h.nul⟩

theorem Before.tail {n : Nat} {as : List U32} (h : ∀ a ∈ as, Before e n a) : ∀ a ∈ as, Before e (n + 1) a :=
  fun a ha => (h a ha).mono (Nat.le_succ n)

theorem state3_before (h : Spot m e r s) : ∀ a ∈ state3Reads m s, Before e r.length a := by
  unfold state3Reads
  simp only [List.forall_mem_cons]
  refine ⟨h.before, ?_⟩
  split
  · exact List.forall_mem_nil _
  · exact List.forall_mem_singleton.2 h.before

theorem state2_before (h : Spot m e r s) : ∀ a ∈ state2Reads m s, Before e r.length a := by
  unfold state2Reads
  simp only [List.forall_mem_cons]
  refine ⟨h.before, ?_⟩
  split
  · exact List.forall_mem_singleton.2 h.before
  · exact state3_before h

theorem state1_before (h : Spot m e r s) : ∀ a ∈ state1Reads m s, Before e r.length a := by
  unfold state1Reads
  simp only [List.forall_mem_cons]
  refine ⟨h.before, ?_⟩
  split
  · exact List.forall_mem_singleton.2 h.before
  split
  · exact List.forall_mem_nil _
  split
  · next hc =>
    obtain ⟨r, rfl⟩ := h.cons (by rw [hc]; decide)
    exact Before.tail (state2_before h.advance)
  · exact state2_before h

theorem switch_before (h : Spot m e r s) : ∀ a ∈ switchReads m s, Before e r.length a := by
  unfold switchReads
  split
  · unfold state0Reads
    simp only [List.forall_mem_cons]
    refine ⟨h.before, ?_⟩
    split
    · exact List.forall_mem_singleton.2 h.before
    · next hc =>
      obtain ⟨r, rfl⟩ := h.cons (by rw [not_not.1 hc]; decide)
      exact Before.tail (state1_before h.advance)
  · exact state1_before h
  · exact state2_before h
  · exact state3_before h
  · exact List.forall_mem_singleton.2 h.before
  · exact List.forall_mem_nil _

/-! Runs of the loop. -/

theorem formatLoop_nul (n : Nat) (h : Spot m e [] s) : formatLoop m fuel (n + 1) s = some s := if_pos h.stop.1

theorem formatLoop_round (n : Nat) (h : Spot m e (c :: r) s) (hu : switchState m fuel s = some u) :
    formatLoop m fuel (n + 1) s = formatLoop m fuel n u.advance ∧
      formatReads m fuel (n + 1) s = s.fmt :: (switchReads m s ++ formatReads m fuel n u.advance) := by
  have h0 : m.byte s.fmt ≠ 0 := h.str.1 ▸ h.str.2.1
  refine ⟨?_, ?_⟩
  · rw [formatLoop, if_neg h0, hu, Option.bind_some]
  · rw [formatReads, if_neg h0, hu]

/-- A rest that is not cut short is scanned to its NUL and no further. -/
theorem scan_stops (hf : 2 ^ 32 ≤ fuel) (he : m.byte e = 0) : ∀ (n : Nat) {q : Scan} {r : List U8} {s : Printf},
    Top m e q r s → ¬ (q.run r).Open → r.length < n →
    (∃ t, formatLoop m fuel n s = some t ∧ t.fmt = e) ∧ ∀ a ∈ formatReads m fuel n s, Before e r.length a
  | n + 1, q, [], s, h, _, _ => by
    have h0 := h.toSpot.stop
    refine ⟨⟨s, formatLoop_nul n h.toSpot, h0.2⟩, ?_⟩
    rw [formatReads, if_pos h0.1]
    exact List.forall_mem_singleton.2 h.toSpot.before
  | n + 1, q, c :: r, s, h, hopen, hn => by
    obtain ⟨u, hu, hl⟩ := switch_lands hf he h
    obtain ⟨hloop, hreads⟩ := formatLoop_round n h.toSpot hu
    obtain ⟨q', r', ht, hrun, hlt⟩ := hl.outcome.resolve_right fun hc => hopen hc.1
    have hlt' : r'.length < n := by omega
    obtain ⟨hend, hrest⟩ := scan_stops hf he n ht (hrun ▸ hopen) hlt'
    rw [hloop, hreads]
    refine ⟨hend, List.forall_mem_cons.2 ⟨h.toSpot.before, List.forall_mem_append.2 ⟨switch_before h.toSpot, ?_⟩⟩⟩
    exact fun a ha => (hrest a ha).mono hlt.le

/-- A rest that is cut short is scanned past its NUL. -/
theorem scan_passes (hf : 2 ^ 32 ≤ fuel) (he : m.byte e = 0) : ∀ (n : Nat) {q : Scan} {r : List U8} {s : Printf},
    Top m e q r s → (q.run r).Open → r.length < n → e + 1 ∈ formatReads m fuel n s
  | n + 1, q, [], s, h, hopen, _ => absurd hopen h.closed
  | n + 1, q, c :: r, s, h, hopen, hn => by
    obtain ⟨u, hu, hl⟩ := switch_lands hf he h
    rw [(formatLoop_round n h.toSpot hu).2]
    refine List.mem_cons_of_mem _ (List.mem_append_right _ ?_)
    obtain ⟨q', r', ht, hrun, hlt⟩ | ⟨-, hfmt, -⟩ := hl.outcome
    · have hlt' : r'.length < n := by omega
      exact scan_passes hf he n ht (hrun ▸ hopen) hlt'
    · -- the test of the `for` after the NUL
      have hlen : r.length + 1 < n + 1 := hn
      obtain ⟨k, rfl⟩ := Nat.exists_eq_succ_of_ne_zero (by omega : n ≠ 0)
      have hnext : u.advance.fmt = e + 1 := by rw [← hfmt]; rfl
      rw [formatReads, hnext]
      exact List.mem_cons_self

/-- A format cut short that fills the address space begins again, over and over. -/
theorem scan_circles (hf : 2 ^ 32 ≤ fuel) (he : m.byte e = 0) {f : List U8} (hs : m.Str (e + 1) f)
    (hround : e + 1 + BitVec.ofNat 32 f.length = e) (hcut : CutShort f) :
    ∀ (n : Nat) {q : Scan} {r : List U8} {s : Printf}, Top m e q r s → (q.run r).Open →
      formatLoop m fuel n s = none
  | 0, _, _, _, _, _ => rfl
  | n + 1, q, [], s, h, hopen => absurd hopen h.closed
  | n + 1, q, c :: r, s, h, hopen => by
    obtain ⟨u, hu, hl⟩ := switch_lands hf he h
    rw [(formatLoop_round n h.toSpot hu).1]
    obtain ⟨q', r', ht, hrun, -⟩ | ⟨-, hfmt, hst, hfl⟩ := hl.outcome
    · exact scan_circles hf he hs hround hcut n ht (hrun ▸ hopen)
    · have hnext : u.advance.fmt = e + 1 := by rw [← hfmt]; rfl
      have htop : Top m e .text f u.advance :=
        ⟨⟨by rw [hnext]; exact hs, by rw [hnext]; exact hround⟩, by decide, hst, fun _ => hfl, nofun⟩
      exact scan_circles hf he hs hround hcut n htop hcut

end

/-- **`do_printf` reads no further than its NUL**, and stops there, if and only if the
format does not end right after the `%` of a specification or right after its flag `0`. -/
theorem printf_reads_iff {m : Mem} {p : U32} {s : List U8} (hs : m.Str p s) (args : U32) {fuel : Nat}
    (hf : 2 ^ 32 ≤ fuel) : ReadsFormat m p args s fuel ↔ ¬ CutShort s := by
  have hlen := hs.length_lt
  have he := hs.nul
  have htop : Top m (p + BitVec.ofNat 32 s.length) .text s ⟨p, args, 0, 0, 0, 0, []⟩ :=
    ⟨⟨hs, rfl⟩, by decide, rfl, fun _ => rfl, nofun⟩
  constructor
  · rintro ⟨⟨t, ht, -⟩, hwithin⟩ hcut
    have hpast := scan_passes hf he fuel htop hcut (by omega)
    obtain ⟨i, hi, ha⟩ := hwithin _ hpast
    by_cases hall : s.length + 1 < 2 ^ 32
    · bv_omega
    · -- the byte after the NUL is the first one again
      have hp : p + BitVec.ofNat 32 s.length + 1 = p := by bv_omega
      have hnone := scan_circles hf he (by rw [hp]; exact hs) (by rw [hp]) hcut fuel htop hcut
      have hsome : formatLoop m fuel fuel ⟨p, args, 0, 0, 0, 0, []⟩ = some t := ht
      rw [hnone] at hsome
      cases hsome
  · intro hcut
    obtain ⟨⟨t, ht, hfmt⟩, hreads⟩ := scan_stops hf he fuel htop hcut (by omega)
    refine ⟨⟨t, ht, hfmt⟩, fun a ha => ?_⟩
    obtain ⟨i, hi, hai⟩ := hreads a ha
    refine ⟨s.length - i, by omega, ?_⟩
    bv_omega

theorem printf_reads_sample : ReadsFormat formatMem 0 16 (formatBytes sampleFormat) (2 ^ 32) :=
  (printf_reads_iff (by decide +kernel) 16 (Nat.le_refl _)).2 (by decide +kernel)

/-- The format `"%"` with the string `"A"` behind it. -/
def percentMem : Mem := ⟨fun x => ([chr '%', 0, chr 'A', 0] : List U8).getD x.toNat 0, []⟩

/-- The string behind is read and printed, up to its own NUL. -/
theorem printf_reads_past : percentMem.Str 0 [chr '%'] ∧
    (∃ t, doPrintf percentMem 0 16 4 = some t ∧ t.fmt = 3 ∧ t.out = [code 'A']) ∧
    ∀ fuel, 2 ^ 32 ≤ fuel → ¬ ReadsFormat percentMem 0 16 [chr '%'] fuel := by
  have hs : percentMem.Str 0 [chr '%'] := by decide
  refine ⟨hs, ⟨_, rfl, by decide, by decide⟩, fun fuel hf hr => ?_⟩
  have htop : Top percentMem 1 .text [chr '%'] ⟨0, 16, 0, 0, 0, 0, []⟩ :=
    ⟨⟨hs, rfl⟩, by decide, rfl, fun _ => rfl, nofun⟩
  have hlt : [chr '%'].length < fuel := Nat.lt_of_lt_of_le (by decide) hf
  obtain ⟨i, hi, ha⟩ := hr.within _ (scan_passes hf (by decide) fuel htop (by decide) hlt)
  have hi : i = 0 ∨ i = 1 := Nat.le_one_iff_eq_zero_or_eq_one.1 hi
  rcases hi with rfl | rfl <;> exact absurd ha (by decide)

end LineOS
