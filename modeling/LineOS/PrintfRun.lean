import LineOS.PrintfSpec

/- `do_printf` over a whole format. A run of its loop is followed with `Reaches`;
   `Inside` is a run that begins at the outer `switch`, in the middle of a round,
   since the states fall through into one another. `Ahead` leads from the middle of
   one round to that of another, for any function that goes round the loop: there
   is one lemma for each part of a specification, and `directive_ahead` for all of it
   up to its conversion. `spec_reaches` is a whole specification; between two
   pieces all variables are as at the start. -/
namespace LineOS
open ByteMemory ByteMemory.Mem

/-- `s` with `do_printf` in the middle of the format. -/
def Printf.scan (s : Printf) (state : Nat) (fmt flags givenWd : U32) : Printf :=
  { s with state, fmt, flags, givenWd }

section
variable (m : Mem) (fuel : Nat)

/-- The loop gets from `s` to `t` in at most `n` rounds. -/
def Reaches (n : Nat) (s t : Printf) : Prop :=
  ∃ k ≤ n, ∀ j, formatLoop m fuel (j + k) s = formatLoop m fuel j t

/-- From the outer `switch` in `s` the loop gets to `t`, with at most `n` more rounds. -/
def Inside (n : Nat) (s t : Printf) : Prop :=
  ∃ k ≤ n, ∀ j, (switchState m fuel s).bind (fun u => formatLoop m fuel (j + k) u.advance) = formatLoop m fuel j t

end

section
variable {m : Mem} {fuel n l : Nat} {s t u : Printf}

theorem Reaches.refl (s : Printf) : Reaches m fuel 0 s s := ⟨0, Nat.le_refl 0, fun _ => rfl⟩

theorem Inside.reaches (h : Inside m fuel n s t) (h0 : m.byte s.fmt ≠ 0) : Reaches m fuel (n + 1) s t := by
  obtain ⟨k, hk, h⟩ := h
  refine ⟨k + 1, by omega, fun j => ?_⟩
  rw [← h j, ← Nat.add_assoc, formatLoop, if_neg h0]

theorem Inside.finish (h : switchState m fuel s = some u) (hr : Reaches m fuel n u.advance t) :
    Inside m fuel n s t := by
  obtain ⟨k, hk, hr⟩ := hr
  refine ⟨k, hk, fun j => ?_⟩
  rw [h, ← hr j]
  rfl

theorem Inside.fall (h : switchState m fuel s = switchState m fuel u) (hi : Inside m fuel n u t) :
    Inside m fuel n s t := by
  obtain ⟨k, hk, hi⟩ := hi
  refine ⟨k, hk, fun j => ?_⟩
  rw [h, hi j]

end

/-- `F` goes round the loop. -/
def LoopsBy (m : Mem) (fuel : Nat) (F : Nat → Printf → Option Printf) : Prop :=
  ∀ n s, m.byte s.fmt ≠ 0 → F (n + 1) s = (switchState m fuel s).bind fun u => F n u.advance

/-- From the outer `switch` in `s` it is `k` rounds to the outer `switch` in `u`. -/
def Ahead (m : Mem) (fuel k : Nat) (s u : Printf) : Prop := ∀ F, LoopsBy m fuel F → ∀ j,
  (switchState m fuel s).bind (fun v => F (j + k) v.advance) = (switchState m fuel u).bind fun v => F j v.advance

section
variable {m : Mem} {fuel n k l : Nat} {s t u : Printf}

theorem formatLoop_loops : LoopsBy m fuel (formatLoop m fuel) := fun _ _ h0 => if_neg h0

theorem Ahead.refl (s : Printf) : Ahead m fuel 0 s s := fun _ _ _ => rfl

theorem Ahead.fall (h : switchState m fuel s = switchState m fuel u) : Ahead m fuel 0 s u := by
  intro F _ j
  rw [h]
  rfl

theorem Ahead.round (h : switchState m fuel s = some u) (h0 : m.byte u.advance.fmt ≠ 0) :
    Ahead m fuel 1 s u.advance := by
  intro F hF j
  rw [h, Option.bind_some]
  exact hF j _ h0

theorem Ahead.trans (h : Ahead m fuel k s u) (h' : Ahead m fuel l u t) : Ahead m fuel (k + l) s t := by
  intro F hF j
  rw [← h' F hF j, ← h F hF (j + l), Nat.add_assoc, Nat.add_comm k l]

theorem Ahead.inside (h : Ahead m fuel k s u) (hi : Inside m fuel n u t) : Inside m fuel (k + n) s t := by
  obtain ⟨l, hl, hi⟩ := hi
  refine ⟨l + k, by omega, fun j => ?_⟩
  rw [← hi j, ← h _ formatLoop_loops, Nat.add_assoc]

end

/-! The modifiers. -/

def Modifier.flag : Modifier → U32
  | N => 0
  | F => PR_FP
  | l => PR_32
  | h => PR_16

/-- The flags after the modifiers `mods`. -/
def modFlags (mods : List Modifier) (flags : U32) : U32 := mods.foldl (fun x a => x ||| a.flag) flags

section
variable {m : Mem} {fuel n : Nat} {s t : Printf} {p x wd : U32}

theorem scan_modifier (a : Modifier) (hc : m.byte p = a.char) :
    switchState m fuel (s.scan 3 p x wd) = some (s.scan 3 p (x ||| a.flag) wd) := by
  show state3 m fuel (s.scan 3 p x wd) = _
  unfold state3
  rw [show (s.scan 3 p x wd).fmt = p from rfl, hc]
  cases a with
  | N =>
    have h0 : x ||| Modifier.N.flag = x := BitVec.or_zero
    rw [h0]
    rfl
  | F => rfl
  | l => rfl
  | h => rfl

theorem scan_conv (hc : ∀ a : Modifier, m.byte p ≠ a.char) :
    switchState m fuel (s.scan 3 p x wd) = switchState m fuel (s.scan 4 p x wd) :=
  (if_neg (hc .F)).trans ((if_neg (hc .N)).trans ((if_neg (hc .l)).trans (if_neg (hc .h))))

theorem modifier_ne_nul (a : Modifier) : a.char ≠ 0 := by
  cases a <;> decide

theorem mods_ahead : ∀ {mods : List Modifier} {p x : U32}, m.Bytes p (mods.map Modifier.char) →
    m.byte (p + BitVec.ofNat 32 mods.length) ≠ 0 →
    (∀ a : Modifier, m.byte (p + BitVec.ofNat 32 mods.length) ≠ a.char) →
    Ahead m fuel mods.length (s.scan 3 p x wd) (s.scan 4 (p + BitVec.ofNat 32 mods.length) (modFlags mods x) wd)
  | [], p, x, _, _, hend => by
    rw [List.length_nil, BitVec.add_zero] at hend ⊢
    exact .fall (scan_conv hend)
  | a :: mods, p, x, ⟨hc, hb⟩, h0, hend => by
    rw [List.length_cons, ← add_ofNat_succ] at h0 hend ⊢
    have hnext : Ahead m fuel mods.length (s.scan 3 (p + 1) (x ||| a.flag) wd) _ := mods_ahead hb h0 hend
    -- another modifier or what follows them: the loop goes on
    have hne : m.byte (p + 1) ≠ 0 := by
      cases mods with
      | nil => simpa using h0
      | cons b mods => exact hb.1 ▸ modifier_ne_nul b
    rw [Nat.add_comm]
    exact (Ahead.round (scan_modifier a hc) hne).trans hnext

/-! The width. -/

/-- `given_wd` after the digits `ds`. -/
def widthFold (ds : List (Fin 10)) (wd : U32) : U32 := ds.foldl (fun g d => 10 * g + BitVec.ofNat 32 d) wd

theorem widthFold_eq (ds : List (Fin 10)) : widthFold ds 0 = BitVec.ofNat 32 (decimal ds) := by
  have hfold : ∀ (ds : List (Fin 10)) (k : Nat), widthFold ds (BitVec.ofNat 32 k) =
      BitVec.ofNat 32 (ds.foldl (fun n d => 10 * n + d.val) k) := by
    intro ds
    induction ds with
    | nil => exact fun _ => rfl
    | cons d ds ih =>
      intro k
      rw [List.foldl_cons, ← ih, BitVec.ofNat_add, BitVec.ofNat_mul]
      rfl
  exact hfold ds 0

theorem widthFold_toNat {ds : List (Fin 10)} (h : decimal ds < 2 ^ 32) : (widthFold ds 0).toNat = decimal ds := by
  rw [widthFold_eq, BitVec.toNat_ofNat, Nat.mod_eq_of_lt h]

/-- A byte from `'0'` to `'9'`. -/
def IsDigit (c : U8) : Prop := chr '0' ≤ c ∧ c ≤ chr '9'

theorem digit_facts : ∀ d : Fin 10, chr '0' ≤ digit false d ∧ digit false d ≤ chr '9' ∧ digit false d ≠ 0 ∧
    (digit false d - chr '0').setWidth 32 = BitVec.ofNat 32 d := by
  decide

theorem scan_digit (d : Fin 10) (hc : m.byte p = digit false d) :
    switchState m fuel (s.scan 2 p x wd) = some (s.scan 2 p x (10 * wd + BitVec.ofNat 32 d)) := by
  obtain ⟨h1, h2, -, h4⟩ := digit_facts d
  show state2 m fuel (s.scan 2 p x wd) = _
  unfold state2
  rw [show (s.scan 2 p x wd).fmt = p from rfl, hc]
  simp only
  rw [if_pos ⟨h1, h2⟩, h4]
  rfl

theorem scan_mods (hc : ¬ IsDigit (m.byte p)) :
    switchState m fuel (s.scan 2 p x wd) = switchState m fuel (s.scan 3 p x wd) := if_neg hc

theorem width_ahead : ∀ {ds : List (Fin 10)} {p wd : U32}, m.Bytes p (ds.map fun d => digit false d.val) →
    m.byte (p + BitVec.ofNat 32 ds.length) ≠ 0 → ¬ IsDigit (m.byte (p + BitVec.ofNat 32 ds.length)) →
    Ahead m fuel ds.length (s.scan 2 p x wd) (s.scan 3 (p + BitVec.ofNat 32 ds.length) x (widthFold ds wd))
  | [], p, wd, _, _, hend => by
    rw [List.length_nil, BitVec.add_zero] at hend ⊢
    exact .fall (scan_mods hend)
  | d :: ds, p, wd, ⟨hc, hb⟩, h0, hend => by
    rw [List.length_cons, ← add_ofNat_succ] at h0 hend ⊢
    have hnext : Ahead m fuel ds.length (s.scan 2 (p + 1) x (10 * wd + BitVec.ofNat 32 d)) _ :=
      width_ahead hb h0 hend
    have hne : m.byte (p + 1) ≠ 0 := by
      cases ds with
      | nil => simpa using h0
      | cons e ds => exact hb.1 ▸ (digit_facts e).2.2.1
    rw [Nat.add_comm]
    exact (Ahead.round (scan_digit d hc) hne).trans hnext

/-! The flags. -/

theorem left_ahead (left : Bool) (hb : m.Bytes p (if left then [chr '-'] else []))
    (h0 : m.byte (p + BitVec.ofNat 32 left.toNat) ≠ 0) : Ahead m fuel left.toNat (s.scan 1 p 0 0)
      (s.scan 1 (p + BitVec.ofNat 32 left.toNat) (if left then PR_LJ else 0) 0) := by
  cases left with
  | true =>
    have hdash : switchState m fuel (s.scan 1 p 0 0) = some (s.scan 1 p PR_LJ 0) := by
      show state1 m fuel (s.scan 1 p 0 0) = _
      unfold state1
      rw [show (s.scan 1 p 0 0).fmt = p from rfl, hb.1]
      have hset : (s.scan 1 p 0 0).set PR_LJ = s.scan 1 p PR_LJ 0 := by
        have h : (0 : U32) ||| PR_LJ = PR_LJ := BitVec.zero_or
        unfold Printf.set Printf.scan
        rw [h]
      have hunset : ¬ (s.scan 1 p 0 0).has PR_LJ := by
        show ¬ (0 : U32) &&& PR_LJ ≠ 0
        decide
      exact (if_neg (by decide)).trans ((if_pos rfl).trans ((if_neg hunset).trans (congrArg some hset)))
    exact .round hdash h0
  | false =>
    rw [Bool.toNat_false, BitVec.add_zero]
    exact .refl _

theorem zero_ahead (zero : Bool) (hb : m.Bytes p (if zero then [chr '0'] else []))
    (hn : zero = false → m.byte p ≠ chr '%' ∧ m.byte p ≠ chr '-' ∧ m.byte p ≠ chr '0') :
    Ahead m fuel 0 (s.scan 1 p x wd)
      (s.scan 2 (p + BitVec.ofNat 32 zero.toNat) (x ||| if zero then PR_LZ else 0) wd) := by
  cases zero with
  | true =>
    refine .fall ?_
    show state1 m fuel (s.scan 1 p x wd) = _
    unfold state1
    rw [show (s.scan 1 p x wd).fmt = p from rfl, hb.1]
    rfl
  | false =>
    obtain ⟨h1, h2, h3⟩ := hn rfl
    have hx : x ||| (if false = true then PR_LZ else 0) = x := BitVec.or_zero
    rw [hx, Bool.toNat_false, BitVec.add_zero]
    refine .fall ?_
    have hflag : (if m.byte p = chr '0' then ((s.scan 2 p x wd).set PR_LZ).advance else s.scan 2 p x wd) =
        s.scan 2 p x wd := if_neg h3
    exact (if_neg h1).trans ((if_neg h2).trans (congrArg (state2 m fuel) hflag))

theorem modFlags_bit (j : Nat) : ∀ (mods : List Modifier) (x : U32),
    (modFlags mods x).getLsbD j = (x.getLsbD j || mods.any fun a => a.flag.getLsbD j)
  | [], x => (Bool.or_false _).symm
  | a :: mods, x => by
    have h : modFlags (a :: mods) x = modFlags mods (x ||| a.flag) := rfl
    rw [h, modFlags_bit j mods, BitVec.getLsbD_or, List.any_cons, Bool.or_assoc]

theorem any_flag {j : Nat} {b : Modifier} (hb : ∀ a : Modifier, a.flag.getLsbD j = decide (a = b))
    (mods : List Modifier) : (mods.any fun a => a.flag.getLsbD j) = decide (b ∈ mods) := by
  rw [Bool.eq_iff_iff, List.any_eq_true, decide_eq_true_iff]
  simp [hb]

theorem no_flag {j : Nat} (hb : ∀ a : Modifier, a.flag.getLsbD j = false) (mods : List Modifier) :
    (mods.any fun a => a.flag.getLsbD j) = false := by
  simp [hb]

def Spec.flags (f : Spec) : U32 := modFlags f.mods ((if f.left then PR_LJ else 0) ||| if f.zero then PR_LZ else 0)

theorem Spec.flags_parsed (f : Spec) : Parsed f false false false f.flags := by
  have hbase : ∀ left zero : Bool, ∀ x, ((if left then PR_LJ else 0) ||| if zero then PR_LZ else 0) = x →
      x.getLsbD 0 = left ∧ x.getLsbD 1 = false ∧ x.getLsbD 2 = false ∧ x.getLsbD 3 = false ∧ x.getLsbD 4 = false ∧
        x.getLsbD 5 = false ∧ x.getLsbD 6 = zero := by
    rintro left zero x rfl
    cases left <;> cases zero <;> decide
  obtain ⟨h0, h1, h2, h3, h4, h5, h6⟩ := hbase f.left f.zero _ rfl
  unfold Spec.flags
  refine ⟨?_, ?_, ?_, ?_, ?_, ?_, ?_⟩
  · rw [modFlags_bit, h0, no_flag (fun a => by cases a <;> rfl), Bool.or_false]
  · rw [modFlags_bit, h1, no_flag (fun a => by cases a <;> rfl), Bool.or_false]
  · rw [modFlags_bit, h2, no_flag (fun a => by cases a <;> rfl), Bool.or_false]
  · rw [modFlags_bit, h3, any_flag (b := .l) (fun a => by cases a <;> rfl), Bool.false_or]
  · rw [modFlags_bit, h4, any_flag (b := .h) (fun a => by cases a <;> rfl), Bool.false_or]
  · rw [modFlags_bit, h5, no_flag (fun a => by cases a <;> rfl), Bool.or_false]
  · rw [modFlags_bit, h6, no_flag (fun a => by cases a <;> rfl), Bool.or_false]

/-! A specification. -/

def afterFlags (width : List (Fin 10)) (mods : List Modifier) (conv : U8) : List U8 :=
  width.map (fun d => digit false d.val) ++ (mods.map Modifier.char ++ [conv])

/-- `%[-][0][width][N|F|l|h]*c`, where any character can be the `c` that cannot belong to what is before it. -/
structure Directive where
  left : Bool
  zero : Bool
  width : List (Fin 10)
  mods : List Modifier
  conv : U8
  conv_ne : conv ≠ 0 ∧ ∀ a : Modifier, conv ≠ a.char
  conv_end : mods = [] → ¬ IsDigit conv
  head : zero = false → ∀ c ∈ (afterFlags width mods conv).head?, c ≠ chr '%' ∧ c ≠ chr '-' ∧ c ≠ chr '0'

namespace Directive

def bytes (f : Directive) : List U8 := chr '%' :: ((if f.left then [chr '-'] else []) ++
  ((if f.zero then [chr '0'] else []) ++ afterFlags f.width f.mods f.conv))

def flags (f : Directive) : U32 := modFlags f.mods ((if f.left then PR_LJ else 0) ||| if f.zero then PR_LZ else 0)

/-- The rounds after the one that `%` begins, which takes the next character too, as `0` does. -/
def more (f : Directive) : Nat := f.left.toNat + (f.width.length + f.mods.length)

theorem bytes_length (f : Directive) :
    f.bytes.length = f.left.toNat + (f.zero.toNat + (f.width.length + f.mods.length + 1)) + 1 := by
  unfold bytes afterFlags
  cases f.left <;> cases f.zero <;> simp <;> omega

theorem more_lt (f : Directive) : f.more < f.bytes.length := by
  rw [bytes_length, more]
  omega

end Directive

theorem modifier_facts (a : Modifier) : a.char ≠ 0 ∧ ¬ IsDigit a.char ∧ a.char ≠ chr '%' ∧ a.char ≠ chr '-' ∧
    a.char ≠ chr '0' := by
  unfold IsDigit
  cases a <;> decide

theorem afterFlags_ne (f : Directive) : ∀ c ∈ afterFlags f.width f.mods f.conv, c ≠ 0 := by
  intro c hc
  rcases List.mem_append.1 hc with hc | hc
  · obtain ⟨d, -, rfl⟩ := List.mem_map.1 hc
    exact (digit_facts d).2.2.1
  · rcases List.mem_append.1 hc with hc | hc
    · obtain ⟨a, -, rfl⟩ := List.mem_map.1 hc
      exact (modifier_facts a).1
    · obtain rfl := List.mem_singleton.1 hc
      exact f.conv_ne.1

theorem afterWidth (f : Directive) {q : U32} (hb : m.Bytes q (f.mods.map Modifier.char ++ [f.conv])) :
    m.byte q ≠ 0 ∧ ¬ IsDigit (m.byte q) := by
  cases hm : f.mods with
  | nil =>
    rw [hm] at hb
    rw [hb.1]
    exact ⟨f.conv_ne.1, f.conv_end hm⟩
  | cons a mods =>
    rw [hm] at hb
    rw [hb.1]
    exact ⟨(modifier_facts a).1, (modifier_facts a).2.1⟩

theorem Bytes.head? {q : U32} {bs : List U8} (hb : m.Bytes q bs) (hne : bs ≠ []) : m.byte q ∈ bs.head? := by
  cases bs with
  | nil => exact absurd rfl hne
  | cons c bs => exact congrArg some hb.1.symm

theorem directive_ahead {f : Directive} (hb : m.Bytes p f.bytes) : ∃ q, q + 1 = p + BitVec.ofNat 32 f.bytes.length ∧
    m.byte q = f.conv ∧ Ahead m fuel f.more (s.scan 0 p 0 0) (s.scan 4 q f.flags (widthFold f.width 0)) := by
  have hllen : (if f.left then [chr '-'] else []).length = f.left.toNat := by
    cases f.left <;> rfl
  have hzlen : (if f.zero then [chr '0'] else []).length = f.zero.toNat := by
    cases f.zero <;> rfl
  have hne : afterFlags f.width f.mods f.conv ≠ [] := by simp [afterFlags]
  have hzne : ∀ c ∈ (if f.zero then [chr '0'] else []) ++ afterFlags f.width f.mods f.conv, c ≠ 0 := by
    intro c hc
    rcases List.mem_append.1 hc with hc | hc
    · cases hz : f.zero with
      | true =>
        rw [hz] at hc
        obtain rfl := List.mem_singleton.1 hc
        decide
      | false =>
        rw [hz] at hc
        exact absurd hc List.not_mem_nil
    · exact afterFlags_ne f c hc
  obtain ⟨hpct, hb⟩ := hb
  obtain ⟨hleft, hz⟩ := Bytes.append.1 hb
  rw [hllen] at hz
  have h0 := hz.first (by simp [hne]) hzne
  obtain ⟨hzero, hafter⟩ := Bytes.append.1 hz
  rw [hzlen] at hafter
  obtain ⟨hwidth, hrest⟩ := Bytes.append.1 hafter
  rw [List.length_map] at hrest
  obtain ⟨h0', hend⟩ := afterWidth f hrest
  obtain ⟨hmods, hc, -⟩ := Bytes.append.1 hrest
  rw [List.length_map] at hc
  have hnozero : f.zero = false → m.byte (p + 1 + BitVec.ofNat 32 f.left.toNat) ≠ chr '%' ∧
      m.byte (p + 1 + BitVec.ofNat 32 f.left.toNat) ≠ chr '-' ∧
        m.byte (p + 1 + BitVec.ofNat 32 f.left.toNat) ≠ chr '0' := by
    intro e
    rw [e, Bool.toNat_false, BitVec.add_zero] at hafter
    exact f.head e _ (Bytes.head? hafter hne)
  have hstart : switchState m fuel (s.scan 0 p 0 0) = switchState m fuel (s.scan 1 (p + 1) 0 0) :=
    if_neg (not_not.2 hpct)
  refine ⟨_, ?_, hc, ?_⟩
  · rw [f.bytes_length, ← add_ofNat_succ, BitVec.ofNat_add, BitVec.ofNat_add, BitVec.ofNat_add, BitVec.ofNat_add]
    simp only [← BitVec.add_assoc]
    rfl
  · -- the flags, the digits and the modifiers, in that order
    have hflags := ((Ahead.fall hstart).trans (left_ahead f.left hleft h0)).trans (zero_ahead f.zero hzero hnozero)
    have hparts := hflags.trans ((width_ahead hwidth h0' hend).trans
      (mods_ahead hmods (hc ▸ f.conv_ne.1) (hc ▸ f.conv_ne.2)))
    rw [Nat.zero_add, Nat.add_zero] at hparts
    exact hparts

theorem conv_facts (c : Conv) : c.char ≠ 0 ∧ ¬ IsDigit c.char ∧ c.char ≠ chr '%' ∧ c.char ≠ chr '-' ∧
    c.char ≠ chr '0' ∧ ∀ a : Modifier, c.char ≠ a.char := by
  refine ⟨?_, ?_, ?_, ?_, ?_, fun a => ?_⟩
  · cases c <;> decide
  · unfold IsDigit
    cases c <;> decide
  · cases c <;> decide
  · cases c <;> decide
  · cases c <;> decide
  · cases c <;> cases a <;> decide

theorem Spec.head (f : Spec) (hz : f.zero = false) : ∀ c ∈ (afterFlags f.width f.mods f.conv.char).head?,
    c ≠ chr '%' ∧ c ≠ chr '-' ∧ c ≠ chr '0' := by
  have hdigits : ∀ d : Fin 10, d ≠ 0 → digit false d ≠ chr '%' ∧ digit false d ≠ chr '-' ∧ digit false d ≠ chr '0' := by
    decide
  have hhead := f.width_head hz
  unfold afterFlags
  intro c hc
  cases hw : f.width with
  | nil =>
    rw [hw] at hc
    cases hm : f.mods with
    | nil =>
      rw [hm] at hc
      obtain rfl := Option.some.inj hc
      obtain ⟨-, -, h₁, h₂, h₃, -⟩ := conv_facts f.conv
      exact ⟨h₁, h₂, h₃⟩
    | cons a mods =>
      rw [hm] at hc
      obtain rfl := Option.some.inj hc
      obtain ⟨-, -, h₁, h₂, h₃⟩ := modifier_facts a
      exact ⟨h₁, h₂, h₃⟩
  | cons d ds =>
    rw [hw] at hc hhead
    obtain rfl := Option.some.inj hc
    exact hdigits d fun e => hhead (congrArg some e)

def Spec.directive (f : Spec) : Directive :=
  ⟨f.left, f.zero, f.width, f.mods, f.conv.char, ⟨(conv_facts f.conv).1, (conv_facts f.conv).2.2.2.2.2⟩,
    fun _ => (conv_facts f.conv).2.1, f.head⟩

theorem Spec.directive_bytes (f : Spec) : f.directive.bytes = f.bytes := by
  simp only [Spec.bytes, List.append_assoc, List.singleton_append]
  rfl

theorem conv_inside (hf : 2 ^ 32 ≤ fuel) {f : Spec} {a : Arg} (hc : m.byte p = f.conv.char)
    (ha : a.At m (m.load32 s.args)) (ht : f.Takes a) : Inside m fuel 0 (s.scan 4 p f.flags (widthFold f.width 0))
      ((s.nextArg.puts ((f.field a).map wide)).scan 0 (p + 1) 0 0) := by
  obtain ⟨u, hu, hr⟩ := conversion_run (s := s.scan 4 p f.flags (widthFold f.width 0)) hf f.flags_parsed (.inl hc) ha ht
  have hwd : (s.scan 4 p f.flags (widthFold f.width 0)).givenWd.toNat = decimal f.width := widthFold_toNat f.width_lt
  rw [hwd, ← f.field_eq] at hr
  have hstate : switchState m fuel (s.scan 4 p f.flags (widthFold f.width 0)) = some u.reset := by
    show state4 m fuel _ = _
    unfold state4
    rw [hu]
    rfl
  refine .finish hstate ?_
  rw [hr]
  exact .refl _

theorem spec_reaches (hf : 2 ^ 32 ≤ fuel) {f : Spec} {a : Arg} (hb : m.Bytes p f.bytes)
    (ha : a.At m (m.load32 s.args)) (ht : f.Takes a) : Reaches m fuel f.bytes.length (s.scan 0 p 0 0)
      ((s.nextArg.puts ((f.field a).map wide)).scan 0 (p + BitVec.ofNat 32 f.bytes.length) 0 0) := by
  rw [← f.directive_bytes] at hb ⊢
  obtain ⟨q, hq, hc, hahead⟩ := @directive_ahead m fuel s p f.directive hb
  have hpct : m.byte p ≠ 0 := by
    rw [hb.1]
    decide
  have hround := (hahead.inside (conv_inside (s := s) hf hc ha ht)).reaches hpct
  rw [hq] at hround
  obtain ⟨k, hk, hrun⟩ := hround
  have hmore := f.directive.more_lt
  exact ⟨k, by omega, hrun⟩

/-! The format. -/

/-- The calls of `fn`: a character of the format is sign-extended. -/
def words : List Piece → List Arg → List U32
  | .spec f :: ps, a :: as => (f.field a).map wide ++ words ps as
  | .lit c _ :: ps, as => c.signExtend 32 :: words ps as
  | .percent :: ps, as => (chr '%').signExtend 32 :: words ps as
  | _, _ => []

theorem scan_lit {c : U8} (hb : m.byte p = c) (hp : c ≠ chr '%') :
    switchState m fuel (s.scan 0 p 0 0) = some ((s.puts [c.signExtend 32]).scan 0 p 0 0) := by
  show state0 m fuel (s.scan 0 p 0 0) = _
  unfold state0
  rw [show (s.scan 0 p 0 0).fmt = p from rfl, hb]
  exact if_pos hp

theorem scan_percent {x wd : U32} (hb : m.byte p = chr '%') : switchState m fuel (s.scan 1 p x wd) =
    some ((s.puts [(chr '%').signExtend 32]).scan 0 p 0 0) := by
  show state1 m fuel (s.scan 1 p x wd) = _
  unfold state1
  rw [show (s.scan 1 p x wd).fmt = p from rfl, hb]
  exact if_pos rfl

theorem lit_reaches {c : U8} (hb : m.byte p = c) (h0 : c ≠ 0) (hp : c ≠ chr '%') :
    Reaches m fuel 1 (s.scan 0 p 0 0) ((s.puts [c.signExtend 32]).scan 0 (p + 1) 0 0) := by
  have hne : m.byte p ≠ 0 := hb ▸ h0
  exact (Inside.finish (scan_lit hb hp) (.refl _)).reaches hne

theorem percent_reaches (hb : m.Bytes p [chr '%', chr '%']) : Reaches m fuel 2 (s.scan 0 p 0 0)
    ((s.puts [(chr '%').signExtend 32]).scan 0 (p + BitVec.ofNat 32 2) 0 0) := by
  obtain ⟨hb, hb', -⟩ := hb
  have hstart : switchState m fuel (s.scan 0 p 0 0) = switchState m fuel (s.scan 1 (p + 1) 0 0) :=
    if_neg (not_not.2 hb)
  have hne : m.byte p ≠ 0 := by
    rw [hb]
    decide
  have hend : p + BitVec.ofNat 32 2 = p + 1 + 1 := by
    rw [BitVec.add_assoc]
    rfl
  rw [hend]
  obtain ⟨k, hk, h⟩ := ((Inside.finish (scan_percent hb') (.refl _)).fall hstart).reaches hne
  exact ⟨k, by omega, h⟩

/-- The variables after the arguments `as` and the calls `ws`. -/
def Printf.printed (s : Printf) (ws : List U32) (k : Nat) : Printf :=
  { s.puts ws with args := s.args + 4 * BitVec.ofNat 32 k }

theorem printed_nil (s : Printf) : s.printed [] 0 = s := by
  unfold Printf.printed
  rw [Printf.puts_nil, BitVec.mul_zero, BitVec.add_zero]

theorem printed_puts (s : Printf) (cs ws : List U32) (k : Nat) :
    (s.puts cs).printed ws k = s.printed (cs ++ ws) k := by
  unfold Printf.printed
  rw [Printf.puts_puts]
  rfl

theorem printed_nextArg (s : Printf) (cs ws : List U32) (k : Nat) :
    (s.nextArg.puts cs).printed ws k = s.printed (cs ++ ws) (k + 1) := by
  have hargs : s.args + 4 + 4 * BitVec.ofNat 32 k = s.args + 4 * BitVec.ofNat 32 (k + 1) := by
    rw [BitVec.ofNat_add, BitVec.mul_add, BitVec.add_assoc, BitVec.add_comm 4]
    rfl
  rw [printed_puts]
  unfold Printf.printed
  rw [← hargs]
  rfl

theorem Reaches.loop {l k : Nat} {e : Option Printf} (h : Reaches m fuel l s t) (hn : l + k < n)
    (ht : ∀ j, k < j → formatLoop m fuel j t = e) : formatLoop m fuel n s = e := by
  obtain ⟨r, hr, h⟩ := h
  obtain ⟨j, rfl⟩ : ∃ j, n = j + r := ⟨n - r, by omega⟩
  rw [h, ht j (by omega)]

theorem pieces_run (hf : 2 ^ 32 ≤ fuel) : ∀ {ps : List Piece} {as : List Arg} {s : Printf} {p : U32} {n : Nat},
    m.Bytes p (formatBytes ps ++ [0]) → ArgsAt m s.args as → Matches ps as → (formatBytes ps).length < n →
    formatLoop m fuel n (s.scan 0 p 0 0) =
      some ((s.printed (words ps as) as.length).scan 0 (p + BitVec.ofNat 32 (formatBytes ps).length) 0 0) := by
  intro ps
  -- between two pieces state, flags and width are as at the start
  induction ps with
  | nil =>
    rintro as s p (_ | n) ⟨hb, -⟩ _ rfl hn
    · exact absurd hn (Nat.not_lt_zero _)
    · have hp : p + BitVec.ofNat 32 (formatBytes []).length = p := BitVec.add_zero p
      rw [hp]
      show _ = some ((s.printed [] 0).scan 0 p 0 0)
      rw [printed_nil]
      exact if_pos hb
  | cons piece ps ih =>
    intro as s p n hb hargs hm hn
    have hcons : formatBytes (piece :: ps) = piece.bytes ++ formatBytes ps := List.flatMap_cons
    rw [hcons, List.append_assoc] at hb
    obtain ⟨hpiece, hrest⟩ := Bytes.append.1 hb
    rw [hcons, List.length_append] at hn ⊢
    rw [BitVec.ofNat_add, ← BitVec.add_assoc]
    cases piece with
    | lit c hc =>
      refine (lit_reaches hpiece.1 hc.1 hc.2).loop hn fun j hj => ?_
      refine (ih (s := s.puts [c.signExtend 32]) hrest hargs hm hj).trans ?_
      rw [printed_puts]
      rfl
    | percent =>
      refine (percent_reaches hpiece).loop hn fun j hj => ?_
      refine (ih (s := s.puts [(chr '%').signExtend 32]) hrest hargs hm hj).trans ?_
      rw [printed_puts]
      rfl
    | spec f =>
      cases as with
      | nil => exact absurd hm id
      | cons a as =>
        obtain ⟨ht, hm⟩ := hm
        obtain ⟨ha, hargs⟩ := hargs
        refine (spec_reaches hf hpiece ha ht).loop hn fun j hj => ?_
        refine (ih (s := s.nextArg.puts ((f.field a).map wide)) hrest hargs hm hj).trans ?_
        rw [printed_nextArg]
        rfl

end

theorem wide_char (c : U8) : (wide c).setWidth 8 = c :=
  BitVec.setWidth_setWidth_of_le c (by decide)

theorem signExtend_char (c : U8) : (c.signExtend 32).setWidth 8 = c := by
  apply BitVec.eq_of_getLsbD_eq
  intro i hi
  rw [BitVec.getLsbD_setWidth, BitVec.getLsbD_signExtend, decide_eq_true hi, if_pos hi]
  simp
  omega

/-- The characters that are passed to `fn`, and how they are widened. -/
theorem words_chars : ∀ (ps : List Piece) (as : List Arg),
    (words ps as).map (fun w => w.setWidth 8) = reference ps as ∧
    ∀ w ∈ words ps as, ∃ c : U8, w = c.setWidth 32 ∨ w = c.signExtend 32
  | [], _ => ⟨by simp [words, reference], by simp [words]⟩
  | .lit c h :: ps, as => by
    obtain ⟨h1, h2⟩ := words_chars ps as
    refine ⟨?_, ?_⟩
    · rw [words, reference, List.map_cons, h1, signExtend_char]
    · exact List.forall_mem_cons.2 ⟨⟨c, .inr rfl⟩, h2⟩
  | .percent :: ps, as => by
    obtain ⟨h1, h2⟩ := words_chars ps as
    refine ⟨?_, ?_⟩
    · rw [words, reference, List.map_cons, h1, signExtend_char]
    · exact List.forall_mem_cons.2 ⟨⟨chr '%', .inr rfl⟩, h2⟩
  | .spec f :: ps, [] => ⟨by simp [words, reference], by simp [words]⟩
  | .spec f :: ps, a :: as => by
    obtain ⟨h1, h2⟩ := words_chars ps as
    refine ⟨?_, fun w hw => ?_⟩
    · rw [words, reference, List.map_append, h1, List.map_map]
      have hid : (fun w : U32 => w.setWidth 8) ∘ wide = id := funext wide_char
      rw [hid, List.map_id]
    · obtain hm | hm := List.mem_append.1 hw
      · obtain ⟨c, -, rfl⟩ := List.mem_map.1 hm
        exact ⟨c, .inl rfl⟩
      · exact h2 w hm

/-- **`do_printf` implements its format language.** -/
theorem printf_fields {m : Mem} {fmt args : U32} {ps : List Piece} {as : List Arg} (hfmt : m.Str fmt (formatBytes ps))
    (hargs : ArgsAt m args as) (hmatch : Matches ps as) {fuel : Nat} (hf : 2 ^ 32 ≤ fuel) :
    ∃ s, doPrintf m fmt args fuel = some s ∧ s.out.map (fun w => w.setWidth 8) = reference ps as ∧
      (∀ w ∈ s.out, ∃ c : U8, w = c.setWidth 32 ∨ w = c.signExtend 32) ∧
      s.args = args + 4 * BitVec.ofNat 32 as.length ∧ s.count = BitVec.ofNat 32 s.out.length := by
  have hlen : (formatBytes ps).length < 2 ^ 32 := hfmt.length_lt
  have hrun := pieces_run (s := ⟨fmt, args, 0, 0, 0, 0, []⟩) hf hfmt.bytes hargs hmatch (Nat.lt_of_lt_of_le hlen hf)
  obtain ⟨h1, h2⟩ := words_chars ps as
  refine ⟨_, hrun, h1, h2, rfl, ?_⟩
  exact BitVec.zero_add _

/-! `<%-6s|%05d>` with the arguments `"left"` and -7. -/

def sampleFormat : List Piece :=
  [.lit (chr '<') (by decide), .spec ⟨true, false, [6], [], .s, by decide, by decide⟩, .lit (chr '|') (by decide),
    .spec ⟨false, true, [5], [], .d, by decide, by decide⟩, .lit (chr '>') (by decide)]

def sampleArgs : List Arg := [.text (['l', 'e', 'f', 't'].map chr), .value (-7)]

/-- The format at 0, its arguments at 16 and the string at 24. -/
def formatMem : Mem :=
  ⟨fun x => ((['<', '%', '-', '6', 's', '|', '%', '0', '5', 'd', '>'].map chr ++ [0, 0, 0, 0, 0] ++
    [24, 0, 0, 0, 0xF9, 0xFF, 0xFF, 0xFF] ++ ['l', 'e', 'f', 't'].map chr) : List U8).getD x.toNat 0, []⟩

theorem printf_fields_sample : ∃ s, doPrintf formatMem 0 16 (2 ^ 32) = some s ∧
    s.out.map (fun w => w.setWidth 8) =
      ['<', 'l', 'e', 'f', 't', ' ', ' ', '|', '-', '0', '0', '0', '7', '>'].map chr := by
  have hfmt : formatMem.Str 0 (formatBytes sampleFormat) := by decide +kernel
  have htext : formatMem.Str (formatMem.load32 16) (['l', 'e', 'f', 't'].map chr) := by decide +kernel
  have hvalue : formatMem.load32 20 = -7 := by decide +kernel
  have hargs : ArgsAt formatMem 16 sampleArgs := ⟨htext, hvalue, trivial⟩
  have href : reference sampleFormat sampleArgs =
      ['<', 'l', 'e', 'f', 't', ' ', ' ', '|', '-', '0', '0', '0', '7', '>'].map chr := by
    decide +kernel
  have hmatch : Matches sampleFormat sampleArgs := by simp [Matches, sampleFormat, sampleArgs, Spec.Takes]
  obtain ⟨s, hs, hout, -⟩ := printf_fields hfmt hargs hmatch (Nat.le_refl _)
  exact ⟨s, hs, hout.trans href⟩

end LineOS
