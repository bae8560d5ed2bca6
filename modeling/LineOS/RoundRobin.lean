import LineOS.ProcessRun
import LineOS.TickRounds

/- The scheduler as a wheel. With nothing but timer interrupts the processes take
   turns in the order of the list, 100 ticks each, and `give_ticks` begins a new
   round when the last one has had its turn. `Wheel` counts the rounds, the turns
   of this round and the ticks of this turn, as the digits of a mixed-radix
   counter, and `Wheel.next` adds one; `timer_next` is that a timer interrupt does
   the same to a kernel that shows the wheel.

   The total `tt` is a 32-bit word. It is the number of ticks charged modulo 2^32,
   so two processes of nearly equal charge can be far apart in it
   (`round_robin_wraps`). -/
namespace LineOS
open ByteMemory

/-! The wheel. -/

structure Wheel where
  round : Nat
  turn : Nat
  used : Nat

namespace Wheel

/-- One tick later, with `k` turns in a round. -/
def next (k : Nat) (w : Wheel) : Wheel :=
  if w.used + 1 < 100 then { w with used := w.used + 1 }
  else if w.turn + 1 < k then ⟨w.round, w.turn + 1, 0⟩
  else ⟨w.round + 1, 0, 0⟩

/-- `n` ticks after the start. -/
def after (k n : Nat) : Wheel := ⟨n / 100 / k, n / 100 % k, n % 100⟩

structure Valid (k : Nat) (w : Wheel) : Prop where
  turn : w.turn < k
  used : w.used < 100

theorem after_valid {k : Nat} (hk : 0 < k) (n : Nat) : (after k n).Valid k :=
  ⟨Nat.mod_lt _ hk, Nat.mod_lt _ (by decide)⟩

theorem after_succ {k : Nat} (hk : 0 < k) (n : Nat) : after k (n + 1) = (after k n).next k := by
  unfold next after
  by_cases hu : n % 100 + 1 < 100
  · have hd : (n + 1) / 100 = n / 100 := by omega
    have hm : (n + 1) % 100 = n % 100 + 1 := by omega
    rw [if_pos hu, hd, hm]
  · have hd : (n + 1) / 100 = n / 100 + 1 := by omega
    have hm : (n + 1) % 100 = 0 := by omega
    rw [if_neg hu, hd, hm]
    -- the turn that ends, in its round
    have hlt := Nat.mod_lt (n / 100) hk
    have hsum := Nat.div_add_mod (n / 100) k
    by_cases ht : n / 100 % k + 1 < k
    · rw [if_pos ht]
      have hn : n / 100 + 1 = k * (n / 100 / k) + (n / 100 % k + 1) := by omega
      rw [hn, Nat.mul_add_div hk, Nat.mul_add_mod, Nat.div_eq_of_lt ht, Nat.mod_eq_of_lt ht, Nat.add_zero]
    · rw [if_neg ht]
      have hn : n / 100 + 1 = k * (n / 100 / k + 1) :=
        calc n / 100 + 1 = k * (n / 100 / k) + (n / 100 % k + 1) := by omega
          _ = k * (n / 100 / k) + k := by omega
          _ = k * (n / 100 / k + 1) := (Nat.mul_succ _ _).symm
      rw [hn, Nat.mul_div_cancel_left _ hk, Nat.mul_mod_right]

/-- The ticks left to position `i` in this round. -/
def left (w : Wheel) (i : Nat) : Nat := if i < w.turn then 0 else if i = w.turn then 99 - w.used else 100

/-- The ticks charged to position `i` since the start. -/
def charged (w : Wheel) (i : Nat) : Nat := w.round * 100 + (100 - w.left i)

theorem left_le (w : Wheel) (i : Nat) : w.left i ≤ 100 := by
  unfold left
  split
  · exact Nat.zero_le _
  · split <;> omega

theorem charged_close (w : Wheel) (i j : Nat) : w.charged i ≤ w.charged j + 100 := by
  unfold charged
  omega

theorem left_turn (w : Wheel) : w.left w.turn = 99 - w.used := by
  rw [left, if_neg (Nat.lt_irrefl _), if_pos rfl]

theorem left_before {w : Wheel} {i : Nat} (h : i < w.turn) : w.left i = 0 := if_pos h

theorem left_after {w : Wheel} {i : Nat} (h : w.turn < i) : w.left i = 100 := by
  rw [left, if_neg (by omega), if_neg (by omega)]

end Wheel

/-! The kernel that shows it. -/

@[ext] structure Share where
  state : ProcState
  ticks : U16
  tt : U32
  deriving DecidableEq

def Process.share (q : Process) : Share := ⟨q.state, q.ticks, q.tt⟩

def Wheel.share (w : Wheel) (i : Nat) : Share :=
  ⟨if i = w.turn then .running else .ready, BitVec.ofNat 16 (w.left i), BitVec.ofNat 32 (w.charged i)⟩

/-- The listed processes are `ps`, and have the shares `sh`. -/
structure ShareList (ps : List U32) (sh : Nat → Share) (s : Kernel) : Prop where
  list : s.proclist.list = ps
  nodup : ps.Nodup
  null : 0 ∉ ps
  scheduling : Scheduling s
  shares : ∀ i (h : i < ps.length), (s.proc ps[i]).share = sh i

/-- The kernel shows the wheel, and runs the process whose turn it is. -/
structure Turns (ps : List U32) (w : Wheel) (s : Kernel) : Prop extends ShareList ps w.share s where
  current : ps[w.turn]? = some s.proclist.current

section
variable {ps : List U32} {sh sh' : Nat → Share} {s t : Kernel} {w : Wheel}

theorem ShareList.scheduled (h : ShareList ps sh s) (ht : Scheduled s t)
    (hs : ∀ i (h : i < ps.length), (t.proc ps[i]).share = sh' i) : ShareList ps sh' t := by
  refine ⟨?_, h.nodup, h.null, ?_, hs⟩
  · rw [ht.list]
    exact h.list
  · rw [Scheduling, ht.preempt, ht.count]
    exact h.scheduling

theorem ShareList.congr (h : ShareList ps sh s) (hs : ∀ i < ps.length, sh i = sh' i) : ShareList ps sh' s :=
  ⟨h.list, h.nodup, h.null, h.scheduling, fun i hi => (h.shares i hi).trans (hs i hi)⟩

theorem ShareList.modify (h : ShareList ps sh s) {i : Nat} (hi : i < ps.length) {f : Process → Process} {x : Share}
    (hf : ∀ q, (f q).pid = q.pid) (hx : (f (s.proc ps[i])).share = x) :
    ShareList ps (Function.update sh i x) (modify ps[i] f s) := by
  refine h.scheduled (scheduled_modify _ _ _ hf) fun j hj => ?_
  by_cases hij : j = i
  · subst hij
    rw [modify_same, Function.update_self, hx]
  · have hne : ps[j] ≠ ps[i] := fun e => hij (h.nodup.getElem_inj_iff.1 e)
    rw [modify_off _ _ _ hne, Function.update_of_ne hij]
    exact h.shares j hj

theorem ShareList.forEach (h : ShareList ps sh s) {f : Process → Process} (hf : ∀ q, (f q).pid = q.pid)
    (hx : ∀ i < ps.length, ∀ q : Process, q.share = sh i → (f q).share = sh' i) :
    ShareList ps sh' (forEach f s.proclist.list s) := by
  refine h.scheduled (scheduled_forEach _ _ s hf) fun i hi => ?_
  have hmem : ps[i] ∈ s.proclist.list := h.list ▸ List.getElem_mem hi
  rw [forEach_on f _ s (h.list ▸ h.nodup) hmem]
  exact hx i hi _ (h.shares i hi)

/-- Nobody sleeps, so `update_timeouts` finds nothing to do. -/
theorem ShareList.timeouts (h : ShareList ps sh s) (hs : ∀ i < ps.length, (sh i).state ≠ .sleeping) :
    ShareList ps sh (updateTimeouts s) := by
  refine h.forEach wake_pid fun i hi q hq => ?_
  have hst : q.state = (sh i).state := congrArg Share.state hq
  rw [wake_off (hst ▸ hs i hi), hq]

theorem ShareList.give (h : ShareList ps sh s) :
    ShareList ps (fun i => { sh i with ticks := 100 }) (giveTicks s) := by
  refine h.forEach (fun _ => rfl) fun i _ q hq => ?_
  rw [← hq]
  rfl

theorem spendTick_share {q : Process} {x : Share} (h : q.share = x) (ht : 0 < x.ticks) :
    (spendTick q).share = { x with ticks := x.ticks - 1, tt := x.tt + 1 } := by
  subst h
  have hq : 0 < q.ticks := ht
  rw [spendTick, if_pos hq]
  rfl

theorem yieldCpu_share {q : Process} {x : Share} (h : q.share = x) (hr : x.state = .running) :
    (yieldCpu q).share = { x with state := .ready } := by
  subst h
  have hq : q.state = .running := hr
  rw [yieldCpu, if_pos hq]
  rfl

/-! The search. -/

theorem findProc_first : ∀ {ps : List U32} {s : Kernel} {j : Nat} (hj : j < ps.length), Eligible (s.proc ps[j]) →
    (∀ i (_ : i < j), ¬ Eligible (s.proc ps[i])) → (findProc ps s).1 = some ps[j]
  | p :: ps, s, 0, _, he, _ => by
    rw [findProc, if_pos (show Eligible (s.proc p) from he)]
    rfl
  | p :: ps, s, j + 1, hj, he, hno => by
    have hp : ¬ Eligible (s.proc p) := hno 0 (Nat.succ_pos j)
    rw [findProc, if_neg hp]
    exact findProc_first (s := deref p s) (Nat.lt_of_succ_lt_succ hj) he
      fun i hi => hno (i + 1) (Nat.succ_lt_succ hi)

theorem findProc_empty (hno : ∀ p ∈ ps, ¬ Eligible (s.proc p)) : (findProc ps s).1 = none := by
  induction ps generalizing s with
  | nil => rfl
  | cons p ps ih =>
    rw [findProc, if_neg (hno p List.mem_cons_self)]
    apply ih
    intro q hq
    exact hno q (List.mem_cons_of_mem _ hq)

theorem ShareList.eligible (h : ShareList ps sh s) {i : Nat} (hi : i < ps.length) :
    Eligible (s.proc ps[i]) ↔ (sh i).state = .ready ∧ 0 < (sh i).ticks := by
  rw [← h.shares i hi]
  rfl

theorem ShareList.walk (h : ShareList ps sh s) : ShareList ps sh (findProc s.proclist.list s).2 := by
  refine h.scheduled (findProc_searched _ s).scheduled fun i hi => ?_
  rw [findProc_proc]
  exact h.shares i hi

theorem select_first (h : ShareList ps sh s) {j : Nat} (hj : j < ps.length) (hr : (sh j).state = .ready)
    (ht : 0 < (sh j).ticks) (h0 : ∀ i < j, (sh i).ticks = 0) (fuel : Nat) :
    ∃ t, selectNextProcess (fuel + 1) s = (some ps[j], t) ∧ ShareList ps sh t := by
  have hfirst : (findProc s.proclist.list s).1 = some ps[j] := by
    rw [h.list]
    refine findProc_first hj ((h.eligible hj).2 ⟨hr, ht⟩) fun i hi he => ?_
    have hpos := ((h.eligible (Nat.lt_trans hi hj)).1 he).2
    rw [h0 i hi] at hpos
    exact absurd hpos (by decide)
  have hwalk := h.walk
  cases hf : findProc s.proclist.list s with
  | mk found t =>
    rw [hf] at hfirst hwalk
    obtain rfl : found = some ps[j] := hfirst
    refine ⟨t, ?_, hwalk⟩
    rw [selectNextProcess, hf]

/-- With no ticks left a new round begins, at the head of the list. -/
theorem select_refill (h : ShareList ps sh s) (hk : 0 < ps.length) (hr : (sh 0).state = .ready)
    (h0 : ∀ i < ps.length, (sh i).ticks = 0) (fuel : Nat) : ∃ t, selectNextProcess (fuel + 2) s = (some ps[0], t) ∧
      ShareList ps (fun i => { sh i with ticks := 100 }) t := by
  have hnone : (findProc s.proclist.list s).1 = none := by
    refine findProc_empty fun p hp he => ?_
    rw [h.list] at hp
    obtain ⟨i, hi, rfl⟩ := List.getElem_of_mem hp
    have hpos := ((h.eligible hi).1 he).2
    rw [h0 i hi] at hpos
    exact absurd hpos (by decide)
  have hwalk := h.walk
  cases hf : findProc s.proclist.list s with
  | mk found u =>
    rw [hf] at hnone hwalk
    obtain rfl : found = none := hnone
    have hfull : (0 : U16) < 100 := by decide
    obtain ⟨t, ht, hs⟩ := select_first hwalk.give hk hr hfull (fun i hi => absurd hi (Nat.not_lt_zero i)) fuel
    refine ⟨t, ?_, hs⟩
    rw [selectNextProcess, hf]
    exact ht

theorem ShareList.dispatch (h : ShareList ps sh s) {j : Nat} (hj : j < ps.length) (ht : 0 < (sh j).ticks) :
    ShareList ps (Function.update sh j ⟨.running, (sh j).ticks - 1, (sh j).tt + 1⟩) (dispatch ps[j] s) := by
  refine h.scheduled (scheduled_dispatch _ s) fun i hi => ?_
  by_cases hij : i = j
  · subst hij
    have hrun : (Process.share { s.proc ps[i] with state := .running }) = { sh i with state := .running } := by
      rw [← h.shares i hi]
      rfl
    rw [LineOS.dispatch, switchTo_proc, accountTicks, modify_same, modify_same, Function.update_self]
    exact spendTick_share hrun ht
  · have hne : ps[i] ≠ ps[j] := fun e => hij (h.nodup.getElem_inj_iff.1 e)
    rw [dispatch_off _ hne, Function.update_of_ne hij]
    exact h.shares i hi

/-! One interrupt. -/

theorem Turns.of_dispatch (h : ShareList ps sh s) (hw : w.turn < ps.length) (ht : 0 < (sh w.turn).ticks)
    (hx : w.share w.turn = ⟨.running, (sh w.turn).ticks - 1, (sh w.turn).tt + 1⟩)
    (hs : ∀ i < ps.length, i ≠ w.turn → w.share i = sh i) : Turns ps w (dispatch ps[w.turn] s) := by
  refine ⟨(h.dispatch hw ht).congr fun i hi => ?_, ?_⟩
  · by_cases hij : i = w.turn
    · rw [hij, Function.update_self, hx]
    · rw [Function.update_of_ne hij, hs i hi hij]
  · rw [dispatch_current]
    exact List.getElem?_eq_getElem hw

theorem Wheel.share_state (w : Wheel) (i : Nat) : (w.share i).state ≠ .sleeping := by
  show (if i = w.turn then ProcState.running else .ready) ≠ .sleeping
  split <;> decide

theorem Wheel.share_turn (w : Wheel) : w.share w.turn =
    ⟨.running, BitVec.ofNat 16 (99 - w.used), BitVec.ofNat 32 (w.round * 100 + (100 - (99 - w.used)))⟩ := by
  rw [Wheel.share, if_pos rfl, Wheel.charged, Wheel.left_turn]

theorem Wheel.share_before {i : Nat} (h : i < w.turn) :
    w.share i = ⟨.ready, 0, BitVec.ofNat 32 (w.round * 100 + 100)⟩ := by
  rw [Wheel.share, if_neg (Nat.ne_of_lt h), Wheel.charged, Wheel.left_before h]
  rfl

theorem Wheel.share_after {i : Nat} (h : w.turn < i) :
    w.share i = ⟨.ready, 100, BitVec.ofNat 32 (w.round * 100)⟩ := by
  rw [Wheel.share, if_neg (Nat.ne_of_gt h), Wheel.charged, Wheel.left_after h]
  rfl

theorem Wheel.share_used {i : Nat} (h : i ≠ w.turn) (u : Nat) : w.share i = { w with used := u }.share i := by
  have hleft : w.left i = { w with used := u }.left i := by
    unfold Wheel.left
    rw [if_neg h]
    exact (if_congr Iff.rfl rfl (if_neg h)).symm
  unfold Wheel.share Wheel.charged
  rw [hleft]

theorem Turns.getElem (h : Turns ps w s) (hv : w.turn < ps.length) : ps[w.turn] = s.proclist.current :=
  (List.getElem_eq_iff hv).2 h.current

theorem Turns.timeouts (h : Turns ps w s) : Turns ps w (updateTimeouts s) := by
  refine ⟨h.toShareList.timeouts fun i _ => w.share_state i, ?_⟩
  rw [show (updateTimeouts s).proclist = s.proclist from forEach_proclist ..]
  exact h.current

theorem Turns.hasTicks (h : Turns ps w s) (hv : w.Valid ps.length) : HasTicks s ↔ w.used + 1 < 100 := by
  have hlt := hv.turn
  have hused := hv.used
  have hcur := h.getElem hlt
  have hnull : s.proclist.current ≠ 0 := fun e => h.null (e ▸ hcur ▸ List.getElem_mem hlt)
  have hticks : ((updateTimeouts s).proc s.proclist.current).ticks = BitVec.ofNat 16 (99 - w.used) := by
    rw [← hcur]
    exact congrArg Share.ticks ((h.timeouts.shares _ hlt).trans w.share_turn)
  rw [HasTicks, hticks]
  constructor
  · rintro ⟨-, h0⟩
    by_contra hu
    have hu : 99 - w.used = 0 := by omega
    exact h0 (by rw [hu]; rfl)
  · refine fun hu => ⟨hnull, fun h0 => ?_⟩
    have h0 := congrArg BitVec.toNat h0
    rw [BitVec.toNat_ofNat, Nat.mod_eq_of_lt (by omega)] at h0
    exact absurd (show 99 - w.used = 0 from h0) (by omega)

theorem ofNat_pred (b n : Nat) : BitVec.ofNat b (n + 1) - 1#b = BitVec.ofNat b n := by
  rw [BitVec.ofNat_add, BitVec.add_sub_cancel]

theorem timer_tick (h : Turns ps w s) (hv : w.Valid ps.length) (hu : w.used + 1 < 100) (fuel : Nat) :
    ∃ t, timerHandler fuel s = (true, t) ∧ Turns ps { w with used := w.used + 1 } t := by
  have hlt := hv.turn
  have hcur := h.getElem hlt
  have hturn := (h.timeouts.shares _ hlt).trans w.share_turn
  have hleft : 99 - w.used = 99 - (w.used + 1) + 1 := by omega
  have hpos : 0 < BitVec.ofNat 16 (99 - w.used) := by
    rw [BitVec.lt_def, BitVec.toNat_ofNat, Nat.mod_eq_of_lt (by omega)]
    show 0 < _
    omega
  refine ⟨_, schedule_ticks h.scheduling ((h.hasTicks hv).2 hu), ?_, h.timeouts.current⟩
  rw [← hcur]
  refine (h.timeouts.toShareList.modify hlt spendTick_pid (spendTick_share hturn hpos)).congr fun i _ => ?_
  by_cases hi : i = w.turn
  · subst hi
    have hsum : w.round * 100 + (100 - (99 - (w.used + 1))) = w.round * 100 + (100 - (99 - w.used)) + 1 := by omega
    rw [Function.update_self]
    refine Eq.trans ?_ (Wheel.share_turn _).symm
    refine Share.ext rfl ?_ ?_
    · show BitVec.ofNat 16 (99 - w.used) - 1 = _
      rw [hleft]
      exact ofNat_pred _ _
    · show BitVec.ofNat 32 _ + 1 = BitVec.ofNat 32 (w.round * 100 + (100 - (99 - (w.used + 1))))
      rw [hsum]
      exact (BitVec.ofNat_add _ 1).symm
  · rw [Function.update_of_ne hi]
    exact Wheel.share_used hi _

/-- The shares when the turn is over and nobody runs. -/
def Wheel.ended (w : Wheel) (i : Nat) : Share :=
  if i ≤ w.turn then ⟨.ready, 0, BitVec.ofNat 32 (w.round * 100 + 100)⟩
  else ⟨.ready, 100, BitVec.ofNat 32 (w.round * 100)⟩

theorem Wheel.ended_state (w : Wheel) (i : Nat) : (w.ended i).state = .ready := by
  unfold Wheel.ended
  split <;> rfl

theorem Turns.search (h : Turns ps w s) (hv : w.Valid ps.length) (hu : ¬ w.used + 1 < 100) :
    ShareList ps w.ended (searchState s) := by
  have hlt := hv.turn
  have hused := hv.used
  have hu : w.used = 99 := by omega
  have hturn := (h.timeouts.shares _ hlt).trans w.share_turn
  rw [searchState, ← h.getElem hlt]
  refine (h.timeouts.toShareList.modify hlt yieldCpu_pid (yieldCpu_share hturn rfl)).congr fun i _ => ?_
  by_cases hi : i = w.turn
  · rw [hi, Function.update_self, Wheel.ended, if_pos (Nat.le_refl _), hu]
    rfl
  · rw [Function.update_of_ne hi, Wheel.ended]
    by_cases hle : i ≤ w.turn
    · rw [if_pos hle]
      exact Wheel.share_before (by omega)
    · rw [if_neg hle]
      exact Wheel.share_after (by omega)

/-- The next in the list is dispatched. -/
theorem timer_turn (h : Turns ps w s) (hv : w.Valid ps.length) (hu : ¬ w.used + 1 < 100)
    (ht : w.turn + 1 < ps.length) (fuel : Nat) :
    ∃ t, timerHandler (fuel + 1) s = (true, t) ∧ Turns ps ⟨w.round, w.turn + 1, 0⟩ t := by
  have hfull : w.ended (w.turn + 1) = ⟨.ready, 100, BitVec.ofNat 32 (w.round * 100)⟩ := if_neg (by omega)
  have hpos : 0 < (w.ended (w.turn + 1)).ticks := by
    rw [hfull]
    show (0 : U16) < 100
    decide
  have hspent : ∀ i < w.turn + 1, (w.ended i).ticks = 0 := by
    intro i hi
    rw [Wheel.ended, if_pos (Nat.le_of_lt_succ hi)]
  obtain ⟨t, hsel, hlist⟩ := select_first (h.search hv hu) ht (w.ended_state _) hpos hspent fuel
  have hno : ¬ HasTicks s := fun hh => hu ((h.hasTicks hv).1 hh)
  refine ⟨_, schedule_found h.scheduling hno hsel, ?_⟩
  refine Turns.of_dispatch (w := ⟨w.round, w.turn + 1, 0⟩) hlist ht hpos ?_ fun i _ hi => ?_
  · rw [hfull, Wheel.share_turn]
    refine Share.ext rfl ?_ (BitVec.ofNat_add _ _)
    show (99 : U16) = 100 - 1
    decide
  · have hi : i ≠ w.turn + 1 := hi
    rw [Wheel.ended]
    by_cases hle : i ≤ w.turn
    · rw [if_pos hle]
      exact Wheel.share_before (Nat.lt_succ_of_le hle)
    · rw [if_neg hle]
      exact Wheel.share_after (show w.turn + 1 < i by omega)

/-- All are out of ticks, and the first is dispatched in a new round. -/
theorem timer_round (h : Turns ps w s) (hv : w.Valid ps.length) (hu : ¬ w.used + 1 < 100)
    (ht : ¬ w.turn + 1 < ps.length) (fuel : Nat) :
    ∃ t, timerHandler (fuel + 2) s = (true, t) ∧ Turns ps ⟨w.round + 1, 0, 0⟩ t := by
  have hlt := hv.turn
  have hended : ∀ i < ps.length, w.ended i = ⟨.ready, 0, BitVec.ofNat 32 (w.round * 100 + 100)⟩ :=
    fun i hi => if_pos (by omega)
  have hk : 0 < ps.length := by omega
  obtain ⟨t, hsel, hlist⟩ := select_refill (h.search hv hu) hk (w.ended_state 0)
    (fun i hi => by rw [hended i hi]) fuel
  have hno : ¬ HasTicks s := fun hh => hu ((h.hasTicks hv).1 hh)
  have hround : (w.round + 1) * 100 = w.round * 100 + 100 := Nat.succ_mul _ _
  refine ⟨_, schedule_found h.scheduling hno hsel, ?_⟩
  have hfull : (0 : U16) < 100 := by decide
  refine Turns.of_dispatch (w := ⟨w.round + 1, 0, 0⟩) hlist hk hfull ?_ fun i hi h0 => ?_
  · rw [Wheel.share_turn]
    refine Share.ext rfl ?_ ?_
    · show (99 : U16) = 100 - 1
      decide
    · show BitVec.ofNat 32 ((w.round + 1) * 100 + 1) = (w.ended 0).tt + 1
      rw [hended 0 hk, hround]
      exact BitVec.ofNat_add _ 1
  · rw [Wheel.share_after (Nat.pos_of_ne_zero h0), hended i hi]
    show Share.mk _ _ (BitVec.ofNat 32 ((w.round + 1) * 100)) = _
    rw [hround]

/-- A timer interrupt turns the wheel. -/
theorem timer_next (h : Turns ps w s) (hv : w.Valid ps.length) (fuel : Nat) :
    ∃ t, timerHandler (fuel + 2) s = (true, t) ∧ Turns ps (w.next ps.length) t := by
  unfold Wheel.next
  by_cases hu : w.used + 1 < 100
  · rw [if_pos hu]
    exact timer_tick h hv hu _
  · rw [if_neg hu]
    by_cases ht : w.turn + 1 < ps.length
    · rw [if_pos ht]
      exact timer_turn h hv hu ht _
    · rw [if_neg ht]
      exact timer_round h hv hu ht fuel

/-! Runs of interrupts. -/

/-- `n` timer interrupts, each with `fuel` walks for its search. -/
def interrupts (fuel : Nat) : Nat → Kernel → Option Kernel
  | 0, s => some s
  | n + 1, s => (interrupts fuel n s).bind fun t =>
    if (timerHandler fuel t).1 then some (timerHandler fuel t).2 else none

theorem interrupts_succ {fuel n : Nat} {u : Kernel} (h : interrupts fuel n s = some t)
    (hu : timerHandler fuel t = (true, u)) : interrupts fuel (n + 1) s = some u := by
  rw [interrupts, h, Option.bind_some, hu]
  rfl

/-- As `create_process` leaves a share. -/
def Share.fresh : Share := ⟨.ready, 100, 0⟩

theorem first_dispatch (h : ShareList ps (fun _ => .fresh) s) (hk : 0 < ps.length) (hc : s.proclist.current = 0)
    (fuel : Nat) : ∃ t, timerHandler (fuel + 1) s = (true, t) ∧ Turns ps ⟨0, 0, 0⟩ t := by
  have hno : ¬ HasTicks s := fun hh => hh.1 hc
  have hup := h.timeouts fun _ _ => by decide
  have hsearch : ShareList ps (fun _ => .fresh) (searchState s) := by
    refine h.scheduled (scheduled_search s) fun i hi => ?_
    -- the state written through the NULL pointer is no listed process's
    have hne : ps[i] ≠ s.proclist.current := fun e => h.null (hc ▸ e ▸ List.getElem_mem hi)
    rw [searchState, modify_off _ _ _ hne]
    exact hup.shares i hi
  obtain ⟨t, hsel, hlist⟩ := select_first hsearch hk rfl (by decide) (fun i hi => absurd hi (Nat.not_lt_zero i)) fuel
  refine ⟨_, schedule_found h.scheduling hno hsel, ?_⟩
  refine Turns.of_dispatch (w := ⟨0, 0, 0⟩) hlist hk (by decide) (by decide) fun i _ h0 => ?_
  exact Wheel.share_after (Nat.pos_of_ne_zero h0)

theorem interrupts_turns (h : ShareList ps (fun _ => .fresh) s) (hk : 0 < ps.length) (hc : s.proclist.current = 0)
    (fuel n : Nat) : ∃ t, interrupts (fuel + 2) (n + 1) s = some t ∧ Turns ps (.after ps.length n) t := by
  induction n with
  | zero =>
    obtain ⟨t, ht, hturns⟩ := first_dispatch h hk hc (fuel + 1)
    have hstart : Wheel.after ps.length 0 = ⟨0, 0, 0⟩ := by
      rw [Wheel.after, Nat.zero_div, Nat.zero_div, Nat.zero_mod, Nat.zero_mod]
    exact ⟨t, interrupts_succ rfl ht, hstart ▸ hturns⟩
  | succ n ih =>
    obtain ⟨t, ht, hturns⟩ := ih
    obtain ⟨u, hu, hnext⟩ := timer_next hturns (Wheel.after_valid hk n) fuel
    exact ⟨u, interrupts_succ ht hu, Wheel.after_succ hk n ▸ hnext⟩

end

/-! Before the first dispatch. -/

def Op.created : Op → Option U32
  | .create p _ => some p
  | _ => none

/-- The processes created in a run, in order. -/
def createdBy (tr : List (Kernel × Op)) : List U32 := (tr.filterMap fun x => x.2.created).reverse

structure Waits (ps : List U32) (s : Kernel) : Prop where
  list : s.proclist.list = ps
  ticks : ∀ p ∈ s.proclist.list, (s.proc p).ticks = 100 ∧ (s.proc p).tt = 0

section
variable {mem : U32 → Process} {tr : List (Kernel × Op)} {s t : Kernel} {b : Bool}

theorem calls_undispatched {op : Op} (hc : callsSchedule op s = some t) (hp : Permitted op s)
    (h0 : s.proclist.current = 0) : t.proclist = s.proclist ∧ ∀ q, q ≠ 0 → t.proc q = s.proc q := by
  cases op with
  | create p k => cases hc
  | timer =>
    obtain rfl := Option.some.inj hc
    exact ⟨rfl, fun _ _ => rfl⟩
  | expire =>
    obtain rfl := Option.some.inj hc
    exact ⟨rfl, fun q hq => modify_off _ _ _ (by rw [getCurrentProcess, h0]; exact hq)⟩
  | sleep n =>
    obtain rfl := Option.some.inj hc
    have hoff : ∀ q, q ≠ 0 → q ≠ s.proclist.current := fun q hq => h0.symm ▸ hq
    exact ⟨rfl, fun q hq => (modify_off _ _ _ (hoff q hq)).trans (modify_off _ _ _ (hoff q hq))⟩
  | exit => exact absurd h0 hp

theorem calls_switches {op : Op} (hc : callsSchedule op s = some t) : t.switches = s.switches := by
  cases op <;> cases hc <;> rfl

theorem Waits.create {n : Nat} {ks ps : List U32} {p k : U32} (hw : Waits ps s) (ht : Table n ks s)
    (hf : Fresh p k s) : Waits (ps ++ [p]) (createProcess p k s).2 := by
  have hlist := createProcess_list hf
  refine ⟨by rw [hlist, hw.list], fun q hq => ?_⟩
  rw [hlist] at hq
  obtain hq | hq := List.mem_append.mp hq
  · rw [createProcess_off hf (ht.proc_ne hf q hq)]
    exact hw.ticks q hq
  · rw [List.mem_singleton.mp hq, createProcess_new hf]
    exact ⟨rfl, rfl⟩

/-- A call of `schedule` that dispatched nobody left everything as it was. -/
theorem calls_wait {n fuel : Nat} {ks : List U32} {op : Op} {s' : Kernel} (ht : Table n ks s) (hset : Settled n s)
    (hp : Permitted op s) (hcall : callsSchedule op s = some t) (he : schedule fuel t = (true, s'))
    (hsw : s'.switches = []) : s.switches = [] ∧ ∀ ps, Waits ps s → Waits ps s' := by
  have hst := calls_switches hcall
  obtain ⟨-, rfl⟩ | ⟨-, hticks, rfl⟩ | ⟨-, -, p, u, -, rfl⟩ := schedule_cases he
  · have hsw' : s.switches = [] := hst.symm.trans hsw
    obtain ⟨hpl, hproc⟩ := calls_undispatched hcall hp (hset.switched.mpr hsw')
    refine ⟨hsw', fun ps hw => ⟨by rw [hpl, hw.list], fun q hq => ?_⟩⟩
    rw [hpl] at hq
    rw [hproc q fun e => ht.null_list (e ▸ hq)]
    exact hw.ticks q hq
  · have hsw' : s.switches = [] := hst.symm.trans ((forEach_switches ..).symm.trans hsw)
    have h0 := hset.switched.mpr hsw'
    obtain ⟨hpl, -⟩ := calls_undispatched hcall hp h0
    exact absurd (hpl ▸ h0) hticks.1
  · rw [dispatch_switches] at hsw
    cases hsw

theorem createdBy_calls {op : Op} (hcall : callsSchedule op s = some t) : createdBy ((s, op) :: tr) = createdBy tr := by
  cases op with
  | create p k => cases hcall
  | _ => rfl

theorem Run.waits (h : Run (booted mem) tr b s) : b = true → s.switches = [] → Waits (createdBy tr) s := by
  induction h with
  | start => exact fun _ _ => ⟨rfl, fun p hp => absurd hp List.not_mem_nil⟩
  | @step tr s b s' fuel op hrun hp he ih =>
    intro hb hsw
    subst hb
    obtain ⟨n, ks, ht, hset⟩ := booted_inv hrun
    cases hcall : callsSchedule op s with
    | none =>
      cases op with
      | create p k =>
        obtain rfl := (Prod.mk.inj he).2
        have hcr : createdBy ((s, Op.create p k) :: tr) = createdBy tr ++ [p] := List.reverse_cons
        rw [hcr]
        exact (ih rfl ((createProcess_switches hp).symm.trans hsw)).create ht hp
      | _ => cases hcall
    | some t =>
      rw [exec_schedule hcall] at he
      obtain ⟨hsw', hwaits⟩ := calls_wait ht hset hp hcall he hsw
      rw [createdBy_calls hcall]
      exact hwaits _ (ih rfl hsw')

/-- Processes that wait for the first dispatch show a wheel that has not started. -/
theorem Run.shows (h : Run (booted mem) tr true s) (hsw : s.switches = []) (hk : createdBy tr ≠ []) :
    ShareList (createdBy tr) (fun _ => .fresh) s ∧ s.proclist.current = 0 := by
  obtain ⟨n, ks, ht, hset⟩ := booted_inv h
  have hw := h.waits rfl hsw
  have h0 := hset.switched.mpr hsw
  have hund := hset.undispatched h0
  refine ⟨⟨hw.list, hw.list ▸ ht.nodup, hw.list ▸ ht.null_list, ⟨ht.preempt, fun hc => ?_⟩, fun i hi => ?_⟩, h0⟩
  · have hlen := hund.length
    rw [hw.list, ← ht.count, hc] at hlen
    exact hk (List.length_eq_zero_iff.1 hlen)
  · have hmem : (createdBy tr)[i] ∈ s.proclist.list := hw.list.symm ▸ List.getElem_mem hi
    obtain ⟨hticks, htt⟩ := hw.ticks _ hmem
    exact Share.ext (hund.ready _ hmem) hticks htt

end

/-! The round robin. -/

/-- `n` interrupts after the first dispatch, with the processes `ps` in the order of their creation. -/
structure RoundRobin (ps : List U32) (n : Nat) (s : Kernel) : Prop where
  current : ps[n / 100 % ps.length]? = some s.proclist.current
  remaining : (s.proc s.proclist.current).ticks.toNat = 99 - n % 100
  full : ∀ i (h : i < ps.length), (s.proc ps[i]).ticks = 100 ↔ n / 100 % ps.length < i
  spent : ∀ i (h : i < ps.length), i < n / 100 % ps.length → (s.proc ps[i]).ticks = 0
  /-- `tt` is what was charged, modulo 2^32. -/
  total : ∀ i (h : i < ps.length), (s.proc ps[i]).tt.toNat = (Wheel.after ps.length n).charged i % 2 ^ 32
  apart : ∀ p ∈ ps, ∀ q ∈ ps, ((s.proc p).tt - (s.proc q).tt).toNat ≤ 100 ∨ ((s.proc q).tt - (s.proc p).tt).toNat ≤ 100
  /-- As numbers, if both have wrapped equally often. -/
  close : ∀ i j (hi : i < ps.length) (hj : j < ps.length),
    (Wheel.after ps.length n).charged i / 2 ^ 32 = (Wheel.after ps.length n).charged j / 2 ^ 32 →
    (s.proc ps[i]).tt.toNat ≤ (s.proc ps[j]).tt.toNat + 100

theorem ofNat_apart {a b : Nat} (h : a ≤ b) (hb : b ≤ a + 100) :
    (BitVec.ofNat 32 b - BitVec.ofNat 32 a).toNat ≤ 100 := by
  obtain ⟨d, rfl⟩ := Nat.exists_eq_add_of_le h
  rw [BitVec.ofNat_add, BitVec.add_comm, BitVec.add_sub_cancel, BitVec.toNat_ofNat]
  exact (Nat.mod_le _ _).trans (by omega)

theorem Turns.roundRobin {ps : List U32} {s : Kernel} {n : Nat} (h : Turns ps (.after ps.length n) s)
    (hk : 0 < ps.length) : RoundRobin ps n s := by
  have hlt := (Wheel.after_valid hk n).turn
  have hticks : ∀ i (h : i < ps.length), (s.proc ps[i]).ticks = BitVec.ofNat 16 ((Wheel.after ps.length n).left i) :=
    fun i hi => congrArg Share.ticks (h.shares i hi)
  have htt : ∀ i (h : i < ps.length), (s.proc ps[i]).tt = BitVec.ofNat 32 ((Wheel.after ps.length n).charged i) :=
    fun i hi => congrArg Share.tt (h.shares i hi)
  have htotal : ∀ i (h : i < ps.length), (s.proc ps[i]).tt.toNat = (Wheel.after ps.length n).charged i % 2 ^ 32 := by
    intro i hi
    rw [htt i hi, BitVec.toNat_ofNat]
  refine ⟨h.current, ?_, fun i hi => ?_, fun i hi hbefore => ?_, htotal, ?_, ?_⟩
  · rw [← h.getElem hlt, hticks _ hlt, Wheel.left_turn, BitVec.toNat_ofNat]
    exact Nat.mod_eq_of_lt (by omega)
  · rw [hticks i hi]
    constructor
    · intro hfull
      have hfull := congrArg BitVec.toNat hfull
      have hle := (Wheel.after ps.length n).left_le i
      rw [BitVec.toNat_ofNat, Nat.mod_eq_of_lt (by omega)] at hfull
      have hfull : (Wheel.after ps.length n).left i = 100 := hfull
      unfold Wheel.left at hfull
      by_contra hlate
      split_ifs at hfull with hlo heq
      · omega
      · exact hlate (Nat.lt_of_le_of_ne (Nat.le_of_not_lt hlo) fun e => heq e.symm)
    · intro hlate
      rw [Wheel.left_after hlate]
      rfl
  · rw [hticks i hi, Wheel.left_before hbefore]
    rfl
  · intro p hp q hq
    obtain ⟨i, hi, rfl⟩ := List.getElem_of_mem hp
    obtain ⟨j, hj, rfl⟩ := List.getElem_of_mem hq
    rw [htt i hi, htt j hj]
    rcases Nat.le_total ((Wheel.after ps.length n).charged i) ((Wheel.after ps.length n).charged j) with hle | hle
    · exact .inr (ofNat_apart hle (Wheel.charged_close _ _ _))
    · exact .inl (ofNat_apart hle (Wheel.charged_close _ _ _))
  · intro i j hi hj hwraps
    have hclose := (Wheel.after ps.length n).charged_close i j
    rw [htotal i hi, htotal j hj]
    omega

/-- **Round robin.** After the processes are created, `n + 1` timer interrupts leave the turn, the ticks and the
totals that `n` says. -/
theorem round_robin {mem : U32 → Process} {tr : List (Kernel × Op)} {s : Kernel} (h : Run (booted mem) tr true s)
    (hsw : s.switches = []) (hk : createdBy tr ≠ []) {fuel : Nat} (hf : 2 ≤ fuel) (n : Nat) :
    ∃ t, interrupts fuel (n + 1) s = some t ∧ RoundRobin (createdBy tr) n t := by
  obtain ⟨hlist, h0⟩ := h.shows hsw hk
  have hlen : 0 < (createdBy tr).length := List.length_pos_of_ne_nil hk
  obtain ⟨f, rfl⟩ : ∃ f, fuel = f + 2 := ⟨fuel - 2, by omega⟩
  obtain ⟨t, ht, hturns⟩ := interrupts_turns hlist hlen h0 f n
  exact ⟨t, ht, hturns.roundRobin hlen⟩

theorem sampleTwo_run : Run (booted zeroMem)
    [(sampleOne, .create 0xC000B098 0xC000B108), (booted zeroMem, .create 0xC000A014 0xC000A084)] true sampleTwo :=
  run_after sampleOne_run _ (by constructor <;> decide) rfl

/-- In the second turn of the second round. -/
theorem round_robin_sample : ∃ t, interrupts 2 (342 + 1) sampleTwo = some t ∧
    RoundRobin [0xC000A014, 0xC000B098] 342 t :=
  round_robin sampleTwo_run (by decide) (by decide) (Nat.le_refl 2) 342

/-- The 2^32nd tick of the first process is charged when the second has taken 4294967200. -/
theorem round_robin_wraps : Run (booted zeroMem)
    [(sampleOne, .create 0xC000B098 0xC000B108), (booted zeroMem, .create 0xC000A014 0xC000A084)] true sampleTwo ∧
    sampleTwo.switches = [] ∧ ∃ t, interrupts 2 (8589934495 + 1) sampleTwo = some t ∧
      (t.proc 0xC000A014).tt = 0 ∧ (t.proc 0xC000B098).tt = 4294967200 ∧
      ¬ (t.proc 0xC000B098).tt.toNat ≤ (t.proc 0xC000A014).tt.toNat + 100 := by
  obtain ⟨hlist, h0⟩ := sampleTwo_run.shows (by decide) (by decide)
  obtain ⟨t, ht, hturns⟩ := interrupts_turns hlist (by decide) h0 0 8589934495
  have hfirst : (t.proc 0xC000A014).tt = 0 := congrArg Share.tt (hturns.shares 0 (by decide))
  have hsecond : (t.proc 0xC000B098).tt = 4294967200 := congrArg Share.tt (hturns.shares 1 (by decide))
  refine ⟨sampleTwo_run, by decide, t, ht, hfirst, hsecond, ?_⟩
  rw [hfirst, hsecond]
  decide

end LineOS
