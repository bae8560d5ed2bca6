import LineOS.ByteMemory
import LineOS.Interleave

/- `mutex_lock` called by many processes, a statement at a time. A process turns preemption
   off, takes the mutex when it is free, and turns preemption on again: so by itself the test
   and the two stores are one step (`lock_alone`). A process that has to wait turns preemption
   on to wait, and does not turn it off when it looks again: it can lose the processor between
   the test and the stores, and two processes have the mutex (`mutex_both_hold`). While no
   process loses it there the mutex is exclusive (`mutex_exclusive`). -/
namespace LineOS
open ByteMemory Interleave

def MUTEX_UNLOCKED : U8 := 0
def MUTEX_LOCKED : U8 := 1

/-- The mutex, and what of the kernel its functions use. -/
structure MutexSys (ι : Type) where
  state : U8
  owner : Option ι
  kernelPreempt : Bool
  ints : Bool
  current : ι

def mutexInit {ι : Type} (s : MutexSys ι) : MutexSys ι := { s with owner := none, state := MUTEX_UNLOCKED }

inductive LockPc where
  | out
  /-- at the test of `is_kernel_preempt` -/
  | preempt
  | owner
  | disable
  | spin
  /-- in `mutex_wait` -/
  | waitInts
  | waitPreempt
  | waitOn
  | take
  | own
  | enable
  deriving DecidableEq

/-- A process: where it is, and whether it has returned from `mutex_lock` and not released the mutex since. -/
structure Locker where
  pc : LockPc
  held : Bool
  deriving DecidableEq

variable {ι : Type}

def lockStmt [DecidableEq ι] (l : Locker) (s : MutexSys ι) : MutexSys ι × Locker :=
  match l.pc with
  | .out => (s, l)
  | .preempt => (s, if s.kernelPreempt then { l with pc := .owner } else ⟨.out, true⟩)
  | .owner =>
    (s, if s.owner = some s.current ∧ s.state = MUTEX_LOCKED then ⟨.out, true⟩ else { l with pc := .disable })
  | .disable => ({ s with kernelPreempt := false }, { l with pc := .spin })
  | .spin => (s, { l with pc := if s.state = MUTEX_LOCKED then .waitInts else .take })
  | .waitInts => ({ s with ints := false }, { l with pc := .waitPreempt })
  | .waitPreempt => ({ s with kernelPreempt := true }, { l with pc := .waitOn })
  | .waitOn => ({ s with ints := true }, { l with pc := .spin })
  | .take => ({ s with state := MUTEX_LOCKED }, { l with pc := .own })
  | .own => ({ s with owner := some s.current }, { l with pc := .enable })
  | .enable => ({ s with kernelPreempt := true }, ⟨.out, true⟩)

/-- The running process calls `mutex_lock` with preemption on, runs its next statement, or releases the mutex
    it has; or process `i` gets the processor, which preemption has to be on for. -/
inductive LockStep [DecidableEq ι] : Program ι (MutexSys ι) Locker
  | call {i s l} : s.current = i → l.pc = .out → s.kernelPreempt = true → LockStep i s l s { l with pc := .preempt }
  | stmt {i s l} : s.current = i → l.pc ≠ .out → LockStep i s l (lockStmt l s).1 (lockStmt l s).2
  | release {i s l} : s.current = i → l.pc = .out → l.held = true →
    LockStep i s l { s with state := MUTEX_UNLOCKED } ⟨.out, false⟩
  | switch {i s l} : s.kernelPreempt = true → LockStep i s l { s with current := i } l

def HasMutex (l : Locker) : Prop := l.held = true ∨ l.pc = .own ∨ l.pc = .enable

def Taking (pc : LockPc) : Prop := pc = .take ∨ pc = .own

def Disabled (pc : LockPc) : Prop := pc ∉ [.out, .preempt, .owner, .disable, .waitOn]

structure Stands (s : MutexSys ι) (i : ι) (l : Locker) : Prop where
  locked : HasMutex l → s.state = MUTEX_LOCKED
  owner : l.held = true ∨ l.pc = .enable → s.owner = some i
  outside : l.held = true → l.pc = .out ∨ l.pc = .preempt ∨ l.pc = .owner
  running : Taking l.pc → i = s.current
  free : l.pc = .take → s.state ≠ MUTEX_LOCKED

structure Exclusive (c : Config ι (MutexSys ι) Locker) : Prop where
  one : ∀ i j, HasMutex (c.loc i) → HasMutex (c.loc j) → i = j
  someone : c.shared.state = MUTEX_LOCKED → ∃ i, HasMutex (c.loc i)
  stands : ∀ i, Stands c.shared i (c.loc i)
  preempt : c.shared.kernelPreempt = false → Disabled (c.loc c.shared.current).pc

/-- It is on its way, and has not stored that the mutex is locked. -/
def Coming (pc : LockPc) : Prop := pc ∈ [.owner, .disable, .spin, .waitInts, .waitPreempt, .waitOn]

theorem stands_coming {s : MutexSys ι} {i : ι} {pc : LockPc} (h : Coming pc) :
    Stands s i ⟨pc, false⟩ ∧ ¬ HasMutex ⟨pc, false⟩ := by
  have hne : pc ≠ .take ∧ pc ≠ .own ∧ pc ≠ .enable := by
    refine ⟨?_, ?_, ?_⟩ <;> rintro rfl <;> simp [Coming] at h
  obtain ⟨ht, ho, he⟩ := hne
  have hin : ¬ HasMutex ⟨pc, false⟩ := by simp [HasMutex, ho, he]
  exact ⟨⟨fun h' => absurd h' hin, by simp [he], by simp, by simp [Taking, ht, ho], fun h' => absurd h' ht⟩, hin⟩

section

variable {c : Config ι (MutexSys ι) Locker} {i : ι}

theorem Exclusive.others (h : Exclusive c) (hi : c.shared.current = i) {j : ι} (hj : j ≠ i) :
    ¬ Taking (c.loc j).pc :=
  fun ht => hj (((h.stands j).running ht).trans hi)

theorem Exclusive.owner_holds (h : Exclusive c) (hi : c.shared.current = i) (hl : (c.loc i).pc = .owner)
    (how : c.shared.owner = some i) (hlk : c.shared.state = MUTEX_LOCKED) : (c.loc i).held = true := by
  obtain ⟨j, hj⟩ := h.someone hlk
  have hji : j = i := by
    by_cases ho : (c.loc j).held = true ∨ (c.loc j).pc = .enable
    · exact Option.some.inj (((h.stands j).owner ho).symm.trans how)
    · -- it is between its two stores, so it is the process that runs
      have hown : (c.loc j).pc = .own := by
        unfold HasMutex at hj
        tauto
      exact ((h.stands j).running (.inr hown)).trans hi
  subst hji
  simpa [HasMutex, hl] using hj

variable [DecidableEq ι]

/-- A statement of the running process that leaves the mutex as it is. -/
theorem Exclusive.quiet {s : MutexSys ι} {l : Locker} (h : Exclusive c) (hi : c.shared.current = i)
    (hs : s.state = c.shared.state ∧ s.owner = c.shared.owner ∧ s.current = i) (hin : HasMutex l ↔ HasMutex (c.loc i))
    (hl : Stands s i l) (hp : s.kernelPreempt = false → Disabled l.pc) : Exclusive (c.put i s l) := by
  obtain ⟨hst, how, hcur⟩ := hs
  have hins : ∀ j, HasMutex ((c.put i s l).loc j) ↔ HasMutex (c.loc j) :=
    Config.forall_put (p := fun j l => HasMutex l ↔ HasMutex (c.loc j)) hin fun j _ => Iff.rfl
  refine ⟨fun j k hj hk => ?_, fun hlk => ?_, ?_, fun h0 => ?_⟩
  · exact h.one j k ((hins j).1 hj) ((hins k).1 hk)
  · rw [Config.put_shared, hst] at hlk
    obtain ⟨j, hj⟩ := h.someone hlk
    exact ⟨j, (hins j).2 hj⟩
  · refine Config.forall_put (p := Stands s) hl fun j hj => ?_
    obtain ⟨h1, h2, h3, h4, h5⟩ := h.stands j
    refine ⟨?_, ?_, h3, ?_, ?_⟩
    · rwa [hst]
    · rwa [how]
    · rwa [hcur, ← hi]
    · rwa [hst]
  · rw [Config.put_shared, hcur, Config.put_self]
    exact hp h0

theorem Exclusive.take (h : Exclusive c) (hi : c.shared.current = i) (hl : c.loc i = ⟨.take, false⟩) :
    Exclusive (c.put i { c.shared with state := MUTEX_LOCKED } ⟨.own, false⟩) := by
  have hfree : c.shared.state ≠ MUTEX_LOCKED := (h.stands i).free (by rw [hl])
  have hnone : ∀ j, ¬ HasMutex (c.loc j) := fun j hj => hfree ((h.stands j).locked hj)
  have hme : ∀ j, HasMutex ((c.put i { c.shared with state := MUTEX_LOCKED } ⟨.own, false⟩).loc j) → j = i :=
    Config.forall_put (p := fun j l => HasMutex l → j = i) (fun _ => rfl) fun j _ hj => absurd hj (hnone j)
  refine ⟨fun j k hj hk => (hme j hj).trans (hme k hk).symm, fun _ => ⟨i, ?_⟩, ?_, fun h0 => ?_⟩
  · rw [Config.put_self]
    exact .inr (.inl rfl)
  · refine Config.forall_put (p := Stands _) ?_ fun j hj => ?_
    · exact ⟨fun _ => rfl, by simp, by simp, fun _ => hi.symm, by simp⟩
    · obtain ⟨-, h2, h3, h4, -⟩ := h.stands j
      exact ⟨fun _ => rfl, h2, h3, h4, fun ht => absurd (.inl ht) (h.others hi hj)⟩
  · show Disabled ((c.put i _ _).loc c.shared.current).pc
    rw [hi, Config.put_self]
    simp [Disabled]

theorem Exclusive.own (h : Exclusive c) (hi : c.shared.current = i) (hl : c.loc i = ⟨.own, false⟩) :
    Exclusive (c.put i { c.shared with owner := some i } ⟨.enable, false⟩) := by
  have hme : HasMutex (c.loc i) := by
    rw [hl]
    exact .inr (.inl rfl)
  have hnone : ∀ j, j ≠ i → ¬ HasMutex (c.loc j) := fun j hj hin => hj (h.one j i hin hme)
  have hins : ∀ j, HasMutex ((c.put i { c.shared with owner := some i } ⟨.enable, false⟩).loc j) → j = i :=
    Config.forall_put (p := fun j l => HasMutex l → j = i) (fun _ => rfl) fun j hj hin => absurd hin (hnone j hj)
  refine ⟨fun j k hj hk => (hins j hj).trans (hins k hk).symm, fun _ => ⟨i, ?_⟩, ?_, fun h0 => ?_⟩
  · rw [Config.put_self]
    exact .inr (.inr rfl)
  · refine Config.forall_put (p := Stands _) ?_ fun j hj => ?_
    · exact ⟨fun _ => (h.stands i).locked hme, fun _ => rfl, by simp, fun _ => hi.symm, by simp⟩
    · obtain ⟨h1, -, h3, h4, h5⟩ := h.stands j
      exact ⟨h1, fun ho => absurd (ho.imp_right .inr) (hnone j hj), h3, h4, h5⟩
  · show Disabled ((c.put i _ _).loc c.shared.current).pc
    rw [hi, Config.put_self]
    simp [Disabled]

theorem Exclusive.release (h : Exclusive c) (hi : c.shared.current = i) (hl : c.loc i = ⟨.out, true⟩) :
    Exclusive (c.put i { c.shared with state := MUTEX_UNLOCKED } ⟨.out, false⟩) := by
  have hme : HasMutex (c.loc i) := by
    rw [hl]
    exact .inl rfl
  have hnone : ∀ j, ¬ HasMutex ((c.put i { c.shared with state := MUTEX_UNLOCKED } ⟨.out, false⟩).loc j) :=
    Config.forall_put (p := fun _ l => ¬ HasMutex l) (by simp [HasMutex]) fun j hj hin => hj (h.one j i hin hme)
  have hfree : MUTEX_UNLOCKED ≠ MUTEX_LOCKED := by decide
  refine ⟨fun j _ hj => absurd hj (hnone j), fun hlk => absurd hlk hfree, fun j => ?_, fun h0 => ?_⟩
  · have hst : Stands c.shared j ((c.put i { c.shared with state := MUTEX_UNLOCKED } ⟨.out, false⟩).loc j) :=
      Config.forall_put (p := Stands c.shared) ⟨by simp [HasMutex], by simp, by simp, by simp [Taking], by simp⟩
        (fun j _ => h.stands j) j
    exact ⟨fun hin => absurd hin (hnone j), hst.owner, hst.outside, hst.running, fun _ => hfree⟩
  · have hd := h.preempt h0
    rw [hi, hl] at hd
    exact absurd hd (by simp [Disabled])

theorem Exclusive.switch (h : Exclusive c) (hp : c.shared.kernelPreempt = true)
    (hok : ¬ Taking (c.loc c.shared.current).pc) : Exclusive (c.put i { c.shared with current := i } (c.loc i)) := by
  have hloc : (c.put i { c.shared with current := i } (c.loc i)).loc = c.loc := Function.update_eq_self i c.loc
  refine ⟨?_, ?_, ?_, fun h0 => ?_⟩
  · rw [hloc]
    exact h.one
  · rw [hloc]
    exact h.someone
  · rw [hloc]
    intro j
    obtain ⟨h1, h2, h3, h4, h5⟩ := h.stands j
    refine ⟨h1, h2, h3, fun ht => ?_, h5⟩
    obtain rfl := h4 ht
    exact absurd ht hok
  · exact absurd (hp.symm.trans h0) (by decide)

theorem Exclusive.call (h : Exclusive c) (hi : c.shared.current = i) (hl : (c.loc i).pc = .out)
    (hp : c.shared.kernelPreempt = true) : Exclusive (c.put i c.shared { c.loc i with pc := .preempt }) := by
  have hst := h.stands i
  have hin : HasMutex { c.loc i with pc := .preempt } ↔ HasMutex (c.loc i) := by simp [HasMutex, hl]
  refine h.quiet hi ⟨rfl, rfl, hi⟩ hin ⟨fun h' => hst.locked (hin.1 h'), fun h' => hst.owner (.inl ?_), ?_, ?_, ?_⟩ ?_
  · exact h'.resolve_right (by simp)
  · exact fun _ => .inr (.inl rfl)
  · simp [Taking]
  · simp
  · exact fun h0 => absurd (hp.symm.trans h0) (by decide)

theorem Exclusive.coming {s : MutexSys ι} {pc pc' : LockPc} (h : Exclusive c) (hi : c.shared.current = i)
    (hl : c.loc i = ⟨pc, false⟩) (hs : s.state = c.shared.state ∧ s.owner = c.shared.owner ∧ s.current = i)
    (hpc : Coming pc) (hpc' : Coming pc') (hp : s.kernelPreempt = false → Disabled pc') :
    Exclusive (c.put i s ⟨pc', false⟩) := by
  have hin : ¬ HasMutex (c.loc i) := hl ▸ (stands_coming (s := s) (i := i) hpc).2
  obtain ⟨hst, hin'⟩ := stands_coming (s := s) (i := i) hpc'
  exact h.quiet hi hs (iff_of_false hin' hin) hst hp

/-- **One statement** of the running process. -/
theorem Exclusive.stmt (h : Exclusive c) (hi : c.shared.current = i) (hout : (c.loc i).pc ≠ .out) :
    Exclusive (c.put i (lockStmt (c.loc i) c.shared).1 (lockStmt (c.loc i) c.shared).2) := by
  have hst := h.stands i
  have howns := h.owner_holds hi
  have hpre := h.preempt
  rw [hi] at hpre
  rcases hl : c.loc i with ⟨pc, held⟩
  rw [hl] at hst hout howns hpre
  -- after the first tests the process does not have the mutex yet
  have hheld : pc ≠ .preempt → pc ≠ .owner → held = false := by
    intro h1 h2
    have := hst.outside
    cases held <;> simp_all
  cases pc with
  | out => exact absurd rfl hout
  | preempt =>
    have hp : c.shared.kernelPreempt = true := by
      by_contra hp
      exact absurd (hpre (by simpa using hp)) (by simp [Disabled])
    unfold lockStmt
    dsimp only
    rw [if_pos hp]
    refine h.quiet hi ⟨rfl, rfl, hi⟩ (by simp [HasMutex, hl]) ⟨fun hin => hst.locked ?_, ?_, ?_, ?_, ?_⟩ ?_
    · simpa [HasMutex] using hin
    · simpa using hst.owner
    · simp
    · simp [Taking]
    · simp
    · exact fun h0 => absurd (hp.symm.trans h0) (by decide)
  | owner =>
    have hp : c.shared.kernelPreempt ≠ false := fun h0 => absurd (hpre h0) (by simp [Disabled])
    unfold lockStmt
    dsimp only
    rw [hi]
    split
    · next ho =>
      obtain rfl : held = true := howns rfl ho.1 ho.2
      exact h.quiet hi ⟨rfl, rfl, hi⟩ (by simp [HasMutex, hl])
        ⟨fun _ => ho.2, fun _ => ho.1, fun _ => .inl rfl, by simp [Taking], by simp⟩ fun h0 => absurd h0 hp
    · next ho =>
      obtain rfl : held = false := by
        by_contra hh
        have hh : held = true := by simpa using hh
        exact ho ⟨hst.owner (.inl hh), hst.locked (.inl hh)⟩
      exact h.coming hi hl ⟨rfl, rfl, hi⟩ (by simp [Coming]) (by simp [Coming]) fun h0 => absurd h0 hp
  | disable | waitInts | waitPreempt | waitOn =>
    obtain rfl := hheld (by decide) (by decide)
    exact h.coming hi hl ⟨rfl, rfl, hi⟩ (by simp [Coming]) (by simp [Coming])
      (by simp [Disabled, lockStmt])
  | spin =>
    obtain rfl := hheld (by decide) (by decide)
    unfold lockStmt
    dsimp only
    split
    · exact h.coming hi hl ⟨rfl, rfl, hi⟩ (by simp [Coming]) (by simp [Coming]) (by simp [Disabled])
    · next hfree =>
      refine h.quiet hi ⟨rfl, rfl, hi⟩ (by simp [HasMutex, hl]) ⟨?_, ?_, ?_, fun _ => hi.symm, fun _ => hfree⟩ ?_
      · simp [HasMutex]
      · simp
      · simp
      · simp [Disabled]
  | take =>
    obtain rfl := hheld (by decide) (by decide)
    exact h.take hi hl
  | own =>
    obtain rfl := hheld (by decide) (by decide)
    have how := h.own hi hl
    rwa [← hi] at how ⊢
  | enable =>
    refine h.quiet hi ⟨rfl, rfl, hi⟩ (by simp [HasMutex, hl, lockStmt])
      ⟨fun _ => hst.locked (.inr (.inr rfl)), fun _ => hst.owner (.inr rfl), fun _ => .inl rfl, ?_, ?_⟩ ?_
    · simp [Taking, lockStmt]
    · simp [lockStmt]
    · simp [lockStmt]

end

/-! Runs. -/

section

variable [DecidableEq ι] {c c₀ : Config ι (MutexSys ι) Locker} {i : ι}

/-- No process loses the processor from where it has seen the mutex free to where it is its owner. -/
def KeptTaking (i : ι) (c : Config ι (MutexSys ι) Locker) : Prop :=
  i = c.shared.current ∨ ¬ Taking (c.loc c.shared.current).pc

theorem exclusive_step {s : MutexSys ι} {l : Locker} (h : Exclusive c) (hok : KeptTaking i c)
    (hp : LockStep i c.shared (c.loc i) s l) : Exclusive (c.put i s l) := by
  generalize hl : c.loc i = l₀ at hp
  cases hp with
  | call hi hout hpre =>
    subst hl
    exact h.call hi hout hpre
  | stmt hi hout =>
    subst hl
    exact h.stmt hi hout
  | release hi hout hheld =>
    refine h.release hi ?_
    rw [hl, ← hout, ← hheld]
  | switch hpre =>
    subst hl
    by_cases hi : i = c.shared.current
    · subst hi
      rwa [Config.put_eq_self]
    · exact h.switch hpre (hok.resolve_left hi)

def OneHolder (c : Config ι (MutexSys ι) Locker) : Prop :=
  ∀ i j, (c.loc i).held = true → (c.loc j).held = true → i = j

/-- **Two processes never have the mutex at the same time**, in a run from `mutex_init` in which no process
loses the processor between the end of its loop and the store of the owner. -/
theorem mutex_exclusive {s : MutexSys ι} (hs : s.kernelPreempt = true)
    (h : Interleaving LockStep KeptTaking ⟨mutexInit s, fun _ => ⟨.out, false⟩⟩ c) : OneHolder c := by
  have hinv : Exclusive c := by
    refine h.inv ⟨?_, ?_, fun j => ⟨?_, ?_, ?_, ?_, ?_⟩, ?_⟩ fun c i s l => exclusive_step
    · simp [HasMutex]
    · exact fun hlk => absurd hlk (by decide : MUTEX_UNLOCKED ≠ MUTEX_LOCKED)
    · simp [HasMutex]
    · simp
    · simp
    · simp [Taking]
    · simp
    · exact fun h0 => absurd (hs.symm.trans h0) (by decide)
  exact fun i j hi hj => hinv.one i j (.inl hi) (.inl hj)

/-! A call by itself, and one that is let in. -/

def ByInterrupt (i : ι) (c : Config ι (MutexSys ι) Locker) : Prop := i = c.shared.current ∨ c.shared.ints = true

-- a schedule that lets the running process go on
variable {ok : ι → Config ι (MutexSys ι) Locker → Prop} (hok : ∀ i c, i = c.shared.current → ok i c)
include hok

theorem run_lockStmt {s : MutexSys ι} {l : Locker} (h : Interleaving LockStep ok c₀ (c.put i s l)) (hi : s.current = i)
    (hout : l.pc ≠ .out) : Interleaving LockStep ok c₀ (c.put i (lockStmt l s).1 (lockStmt l s).2) := by
  have hl : (c.put i s l).loc i = l := Config.put_self ..
  have hstep : LockStep i s ((c.put i s l).loc i) (lockStmt l s).1 (lockStmt l s).2 := by
    rw [hl]
    exact .stmt hi hout
  simpa using Interleaving.step i h (hok i _ hi.symm) hstep

theorem run_call (h : Interleaving LockStep ok c₀ c) (hi : c.shared.current = i) (hl : c.loc i = ⟨.out, false⟩)
    (hp : c.shared.kernelPreempt = true) : Interleaving LockStep ok c₀ (c.put i c.shared ⟨.preempt, false⟩) := by
  have hstep : LockStep i c.shared (c.loc i) c.shared ⟨.preempt, false⟩ := by
    rw [hl]
    exact .call hi rfl hp
  exact Interleaving.step i h (hok i _ hi.symm) hstep

/-- **A call left alone** takes the mutex when it is free. -/
theorem lock_alone (h : Interleaving LockStep ok c₀ c) (hi : c.shared.current = i) (hl : c.loc i = ⟨.out, false⟩)
    (hp : c.shared.kernelPreempt = true) (hfree : c.shared.state = MUTEX_UNLOCKED) :
    Interleaving LockStep ok c₀ (c.put i { c.shared with state := MUTEX_LOCKED, owner := some i } ⟨.out, true⟩) := by
  have hne : c.shared.state ≠ MUTEX_LOCKED := by
    rw [hfree]
    decide
  have h := run_lockStmt hok (run_call hok h hi hl hp) hi (by decide)
  simp only [lockStmt, if_pos hp] at h
  have h := run_lockStmt hok h hi (by decide)
  simp only [lockStmt, if_neg (fun ho : _ ∧ _ => hne ho.2)] at h
  have h := run_lockStmt hok h hi (by decide)
  have h := run_lockStmt hok h hi (by simp [lockStmt])
  dsimp only [lockStmt] at h
  rw [if_neg hne] at h
  have h := run_lockStmt hok h hi (by decide)
  have h := run_lockStmt hok (run_lockStmt hok h hi (by simp [lockStmt])) hi (by simp [lockStmt])
  simpa only [lockStmt, hi, ← hp] using h

/-- A call that finds the mutex locked by another process comes back to its loop with preemption on. -/
theorem lock_waits (h : Interleaving LockStep ok c₀ c) (hi : c.shared.current = i) (hl : c.loc i = ⟨.out, false⟩)
    (hp : c.shared.kernelPreempt = true) (hlk : c.shared.state = MUTEX_LOCKED) (how : c.shared.owner ≠ some i) :
    Interleaving LockStep ok c₀ (c.put i { c.shared with ints := true } ⟨.spin, false⟩) := by
  have h := run_lockStmt hok (run_call hok h hi hl hp) hi (by decide)
  simp only [lockStmt, if_pos hp] at h
  have h := run_lockStmt hok h hi (by decide)
  simp only [lockStmt, hi, if_neg (fun ho : _ ∧ _ => how ho.1)] at h
  have h := run_lockStmt hok h hi (by decide)
  have h := run_lockStmt hok h hi (by simp [lockStmt])
  dsimp only [lockStmt] at h
  rw [if_pos hlk] at h
  have h := run_lockStmt hok h hi (by decide)
  have h := run_lockStmt hok (run_lockStmt hok h hi (by simp [lockStmt])) hi (by simp [lockStmt])
  simpa only [lockStmt, ← hp] using h

omit hok in
theorem run_switch (h : Interleaving LockStep ByInterrupt c₀ c) (i : ι) (hp : c.shared.kernelPreempt = true)
    (hints : c.shared.ints = true) : Interleaving LockStep ByInterrupt c₀ ⟨{ c.shared with current := i }, c.loc⟩ := by
  have hstep := Interleaving.step i h (.inr hints) (.switch hp)
  rwa [Config.put, Function.update_eq_self] at hstep

end

def freeMutex : Config Bool (MutexSys Bool) Locker :=
  ⟨mutexInit ⟨MUTEX_LOCKED, none, true, true, true⟩, fun _ => ⟨.out, false⟩⟩

instance (pc : LockPc) : Decidable (Taking pc) := inferInstanceAs (Decidable (_ ∨ _))
instance (i : Bool) (c : Config Bool (MutexSys Bool) Locker) : Decidable (KeptTaking i c) :=
  inferInstanceAs (Decidable (_ ∨ _))

inductive LockEvent where
  | call
  | stmt
  | release
  | switch (i : Bool)

def lockEvent : LockEvent → MutexSys Bool × Locker → MutexSys Bool × Locker
  | .call, (s, l) => (s, { l with pc := .preempt })
  | .stmt, (s, l) => lockStmt l s
  | .release, (s, _) => ({ s with state := MUTEX_UNLOCKED }, ⟨.out, false⟩)
  | .switch i, (s, l) => ({ s with current := i }, l)

def lockGuard (e : LockEvent) (i : Bool) (c : Config Bool (MutexSys Bool) Locker) : Prop :=
  KeptTaking i c ∧ match e with
    | .call => c.shared.current = i ∧ (c.loc i).pc = .out ∧ c.shared.kernelPreempt = true
    | .stmt => c.shared.current = i ∧ (c.loc i).pc ≠ .out
    | .release => c.shared.current = i ∧ (c.loc i).pc = .out ∧ (c.loc i).held = true
    | .switch j => j = i ∧ c.shared.kernelPreempt = true

instance (i : Bool) (c : Config Bool (MutexSys Bool) Locker) : (e : LockEvent) → Decidable (lockGuard e i c)
  | .call | .stmt | .release | .switch _ => inferInstanceAs (Decidable (_ ∧ _ ∧ _))

theorem lockGuard_step (e : LockEvent) (i : Bool) (c : Config Bool (MutexSys Bool) Locker) (h : lockGuard e i c) :
    KeptTaking i c ∧ LockStep i c.shared (c.loc i) (lockEvent e (c.shared, c.loc i)).1 (lockEvent e (c.shared, c.loc i)).2 := by
  obtain ⟨hok, h⟩ := h
  refine ⟨hok, ?_⟩
  cases e with
  | call => exact .call h.1 h.2.1 h.2.2
  | stmt => exact .stmt h.1 h.2
  | release => exact .release h.1 h.2.1 h.2.2
  | switch j =>
    obtain ⟨rfl, hp⟩ := h
    exact .switch hp

/-- The first process takes the mutex, the second waits for it; the first releases it, and the second takes it. -/
def handedOn : List (Bool × LockEvent) :=
  [(true, .call)] ++ List.replicate 7 (true, .stmt) ++ [(false, .switch false), (false, .call)] ++
    List.replicate 6 (false, .stmt) ++ [(true, .switch true), (true, .release), (false, .switch false)] ++
    List.replicate 5 (false, .stmt)

theorem mutex_exclusive_sample : ∃ c, Interleaving LockStep KeptTaking freeMutex c ∧ (c.loc false).held = true ∧
    c.shared.owner = some false ∧ c.shared.state = MUTEX_LOCKED ∧ OneHolder c := by
  have hok : freeMutex.Plays lockEvent lockGuard handedOn := by decide +kernel
  have hrun : Interleaving LockStep KeptTaking freeMutex _ :=
    Interleaving.play lockEvent lockGuard lockGuard_step handedOn .start hok
  exact ⟨_, hrun, by decide +kernel, by decide +kernel, by decide +kernel, mutex_exclusive rfl hrun⟩

/-- Process 1 has the mutex, process 2 waits for it. Process 1 releases it, process 2 sees that and loses
the processor, process 1 takes the mutex once more, and process 2 goes on to take it as well. -/
theorem mutex_both_hold : ∃ c : Config Bool (MutexSys Bool) Locker, Interleaving LockStep ByInterrupt freeMutex c ∧
    (c.loc true).held = true ∧ (c.loc false).held = true ∧ ¬ OneHolder c := by
  have hok : ∀ (i : Bool) c, i = c.shared.current → ByInterrupt i c := fun _ _ hi => .inl hi
  have h : Interleaving LockStep ByInterrupt freeMutex freeMutex := .start
  have h := lock_alone (i := true) hok h rfl rfl rfl rfl
  have h := lock_waits (i := false) hok (run_switch h false rfl rfl) rfl rfl rfl rfl (by decide)
  have h := run_switch h true rfl rfl
  have h := Interleaving.step true h (.inl rfl) (.release rfl rfl rfl)
  have h := run_switch h false rfl rfl
  have h := Interleaving.step false h (.inl rfl) (.stmt rfl (by decide))
  have h := lock_alone (i := true) hok (run_switch h true rfl rfl) rfl rfl rfl rfl
  have h := run_switch h false rfl rfl
  have h := Interleaving.step false h (.inl rfl) (.stmt rfl (by decide))
  have h := Interleaving.step false h (.inl rfl) (.stmt rfl (by decide))
  have h := Interleaving.step false h (.inl rfl) (.stmt rfl (by decide))
  exact ⟨_, h, by decide, by decide, fun ho => absurd (ho true false rfl rfl) (by decide)⟩

end LineOS
