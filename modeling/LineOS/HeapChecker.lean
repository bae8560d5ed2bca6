import LineOS.HeapCalls

/- `mm/heapchecker.c` beside the processes that use the heap. Any number of checkers
   walk the chain, a statement at a time, while the processes call `kmalloc` and
   `kfree`, a statement at a time and one call after the other, and write to
   their payloads. No checker finds a block without its magic (`heap_checked`), and
   a pass meets only blocks of the chain as it was at its first read
   (`checker_pass`): the chain grows at its front, behind every checker. -/
namespace LineOS
open ByteMemory ByteMemory.Mem LinkedRing Tiling Interleave

/-! The code. -/

inductive CheckPc where
  /-- in `process_sleep` -/
  | sleep
  | first
  | test (this : U32)
  | magic (this : U32)
  | next (this : U32)
  deriving DecidableEq

/-- One statement of `heapchecker`. -/
def checkStmt (L : HeapLayout) : Heap × CheckPc → Heap × CheckPc
  | (s, .sleep) => (s, .first)
  | (s, .first) => (s, .test (listNext s.mem L.chain))
  | (s, .test this) => (s, if this = L.chain then .sleep else .magic this)
  | (s, .magic this) =>
    (if headMagic s.mem this != 0xBEEF then s.panic "HEAP BLOCK CORRUPTION DETECTED!" else s, .next this)
  | (s, .next this) => (s, .test (listNext s.mem this))

inductive HeapCall where
  | idle
  | malloc (bytes : U32) (l : KmallocPc)
  | free (l : KfreePc)
  deriving DecidableEq

structure HeapWorld where
  heap : Heap
  live : List (U32 × U32)
  call : HeapCall

inductive ProcStep (L : HeapLayout) : HeapWorld → HeapWorld → Prop
  | kmalloc {s live} (bytes : U32) : (bytes ≠ 0 → Admissible L bytes s) →
      ProcStep L ⟨s, live, .idle⟩ ⟨s, live, .malloc bytes .start⟩
  | mallocStmt {s live bytes l} : ProcStep L ⟨s, live, .malloc bytes l⟩
      ⟨(kmallocStmt L bytes (s, l)).1, live, .malloc bytes (kmallocStmt L bytes (s, l)).2⟩
  | allocated {s live bytes p} : ProcStep L ⟨s, live, .malloc bytes (.done p)⟩
      ⟨s, if bytes = 0 then live else (p, bytes) :: live, .idle⟩
  | kfree {s live} (l : U32 × U32) : l ∈ live → ProcStep L ⟨s, live, .idle⟩ ⟨s, live.erase l, .free (.start l.1)⟩
  | freeStmt {s live l} : ProcStep L ⟨s, live, .free l⟩ ⟨(kfreeStmt (s, l)).1, live, .free (kfreeStmt (s, l)).2⟩
  | freed {s live} : ProcStep L ⟨s, live, .free .done⟩ ⟨s, live, .idle⟩
  | store {s live call} (x : U32) (v : U8) : ClientByte L s live x →
      ProcStep L ⟨s, live, call⟩ ⟨{ s with mem := s.mem.store8 x v }, live, call⟩

/-- The processes, as thread `none`, and the checkers. -/
def CheckedHeap {κ : Type} (L : HeapLayout) : Program (Option κ) HeapWorld CheckPc
  | none, w, l, w', l' => ProcStep L w w' ∧ l' = l
  | some _, w, l, w', l' => (w', l') = ({ w with heap := (checkStmt L (w.heap, l)).1 }, (checkStmt L (w.heap, l)).2)

/-! What holds at every moment. -/

def CallAt (L : HeapLayout) (bs : List Block) (w : HeapWorld) : Prop :=
  match w.call with
  | .idle => AtRest L w.live bs w.heap
  | .malloc bytes l => KmallocAt L bytes w.live bs w.heap l
  | .free l => KfreeAt L w.live bs w.heap l

/-- A checker has a part of the chain before it. -/
def CheckAt (L : HeapLayout) (as : List U32) : CheckPc → Prop
  | .sleep | .first => True
  | .test this => ∃ pre post, as = pre ++ post ∧ this = first L.chain post
  | .magic this | .next this => ∃ pre post, as = pre ++ this :: post

section
variable {L : HeapLayout} {s : Heap} {bs : List Block} {as as' : List U32} {live : List (U32 × U32)} {w w' : HeapWorld}

theorem CallAt.inOrder (h : CallAt L bs w) : InOrder L w.live bs w.heap := by
  obtain ⟨s, live, call⟩ := w
  cases call with
  | idle => exact AtRest.inOrder h
  | malloc bytes l => exact KmallocAt.inOrder h
  | free l => exact KfreeAt.inOrder h

/-! The processes. -/

theorem admissible_serves {bytes : U32} (h : HeapInv L s bs) (had : Admissible L bytes s) : Serves bytes bs s := by
  rcases had with hfree | hroom
  · obtain ⟨b, hb⟩ := Option.ne_none_iff_exists'.mp ((freeFits_iff h bytes).mp hfree)
    obtain ⟨hle, hu, -⟩ := firstFit_some hb
    exact Or.inl ⟨b, List.mem_of_find?_eq_some hb, hle, hu⟩
  · exact Or.inr hroom

theorem GivenAt.steady {bytes p : U32} (h : AtRest L live bs s) (hg : GivenAt bytes live bs p) :
    AtRest L ((p, bytes) :: live) bs s := by
  obtain ⟨b, hb, hu, rfl, hle, hs⟩ := hg
  refine ⟨h.heap, ⟨?_, ?_⟩⟩
  · exact List.forall_mem_cons.mpr ⟨⟨b, hb, hu, rfl, hle⟩, h.liveIn.owner⟩
  · exact List.pairwise_cons.mpr ⟨fun l hl e => hs l hl e.symm, h.liveIn.distinct⟩

theorem AtRest.owned (h : AtRest L live bs s) {l : U32 × U32} (hl : l ∈ live) :
    AtRest L (live.erase l) bs s ∧ OwnedAt (live.erase l) bs l.1 := by
  obtain ⟨b, hb, hu, hp, -⟩ := h.liveIn.owner l hl
  obtain ⟨pre, post, rfl⟩ := List.append_of_mem hb
  refine ⟨⟨h.heap, fun l' hl' => h.liveIn.owner l' (List.mem_of_mem_erase hl'),
    h.liveIn.distinct.sublist List.erase_sublist⟩, pre, b, post, rfl, hp, fun l' hl' e => ?_⟩
  exact (erase_ne h.liveIn.distinct hl hl').2 (e.trans hp.symm)

/-- **A step of a process**: what holds goes on to hold, and the chain has at most grown at its front. -/
theorem procStep_kept (hp : ProcStep L w w') (h : CallAt L bs w) : w'.heap.panics = w.heap.panics ∧
    ∃ bs', bs.map Block.addr <:+ bs'.map Block.addr ∧ CallAt L bs' w' := by
  cases hp with
  | kmalloc bytes had => exact ⟨rfl, bs, List.suffix_rfl, h, fun hne => admissible_serves (AtRest.heap h) (had hne)⟩
  | mallocStmt =>
    obtain ⟨⟨bs', hsuf, hcall⟩, hpan⟩ := kmallocStmt_kept h
    exact ⟨hpan, bs', hsuf, hcall⟩
  | @allocated s live bytes p =>
    obtain ⟨hst, hgiven⟩ := h
    refine ⟨rfl, bs, List.suffix_rfl, ?_⟩
    show AtRest L (if bytes = 0 then live else (p, bytes) :: live) bs s
    split
    · exact hst
    · next hne => exact (hgiven hne).steady hst
  | kfree l hl => exact ⟨rfl, bs, List.suffix_rfl, AtRest.owned h hl⟩
  | freeStmt =>
    obtain ⟨hpan, bs', hmap, hcall⟩ := kfreeStmt_kept h
    exact ⟨hpan, bs', hmap ▸ List.suffix_rfl, hcall⟩
  | freed => exact ⟨rfl, bs, List.suffix_rfl, h⟩
  | @store s live call x v hx =>
    refine ⟨rfl, bs, List.suffix_rfl, ?_⟩
    cases call with
    | idle => exact AtRest.client x v h hx
    | malloc bytes l => exact KmallocAt.client x v h hx
    | free l => exact KfreeAt.client x v h hx

/-! The checkers. -/

theorem CheckAt.suffix {l : CheckPc} (h : CheckAt L as l) (hs : as <:+ as') : CheckAt L as' l := by
  obtain ⟨t, rfl⟩ := hs
  cases l with
  | sleep | first => trivial
  | test this =>
    obtain ⟨pre, post, rfl, hthis⟩ := h
    exact ⟨t ++ pre, post, by simp, hthis⟩
  | magic this | next this =>
    obtain ⟨pre, post, rfl⟩ := h
    exact ⟨t ++ pre, post, by simp⟩

/-- **A statement of a checker** finds no corruption. -/
theorem checkStmt_kept {l : CheckPc} (hw : Walkable L s.mem as) (h : CheckAt L as l) :
    (checkStmt L (s, l)).1 = s ∧ CheckAt L as (checkStmt L (s, l)).2 := by
  cases l with
  | sleep => exact ⟨rfl, trivial⟩
  | first => exact ⟨rfl, [], as, rfl, hw.first⟩
  | test this =>
    obtain ⟨pre, post, rfl, rfl⟩ := h
    refine ⟨rfl, ?_⟩
    unfold checkStmt
    dsimp only
    split
    · trivial
    · next hne =>
      cases post with
      | nil => exact absurd rfl hne
      | cons a post => exact ⟨pre, post, rfl⟩
  | magic this =>
    obtain ⟨pre, post, rfl⟩ := h
    have hm : headMagic s.mem this = 0xBEEF := hw.magic this (by simp)
    have hno : ¬ (headMagic s.mem this != 0xBEEF) = true := by simp [hm]
    unfold checkStmt
    dsimp only
    rw [if_neg hno]
    exact ⟨rfl, pre, post, rfl⟩
  | next this =>
    obtain ⟨pre, post, rfl⟩ := h
    exact ⟨rfl, pre ++ [this], post, by simp, hw.next⟩

end

/-! All of them, in any order. -/

section
variable {κ : Type} [DecidableEq κ] {L : HeapLayout} {s : Heap} {bs : List Block} {live : List (U32 × U32)}
  {c c' c₀ : Config (Option κ) HeapWorld CheckPc}

/-- The chain has the blocks `bs`, and every checker a part of it before it. -/
def AllAt (L : HeapLayout) (bs : List Block) (c : Config (Option κ) HeapWorld CheckPc) : Prop :=
  CallAt L bs c.shared ∧ ∀ k, CheckAt L (bs.map Block.addr) (c.loc (some k))

theorem checked_step {i : Option κ} {w : HeapWorld} {l : CheckPc} (h : AllAt L bs c)
    (hp : CheckedHeap L i c.shared (c.loc i) w l) : w.heap.panics = c.shared.heap.panics ∧
      ∃ bs', bs.map Block.addr <:+ bs'.map Block.addr ∧ AllAt L bs' (c.put i w l) := by
  obtain ⟨hcall, hcheck⟩ := h
  cases i with
  | none =>
    obtain ⟨hstep, rfl⟩ := hp
    obtain ⟨hpan, bs', hsuf, hcall'⟩ := procStep_kept hstep hcall
    refine ⟨hpan, bs', hsuf, hcall', fun k => ?_⟩
    rw [Config.put_ne _ _ _ (Option.some_ne_none k)]
    exact (hcheck k).suffix hsuf
  | some j =>
    obtain ⟨hheap, hat⟩ := checkStmt_kept hcall.inOrder.walk (hcheck j)
    obtain ⟨rfl, rfl⟩ := Prod.mk.inj hp
    rw [hheap]
    refine ⟨rfl, bs, List.suffix_rfl, hcall, fun k => ?_⟩
    have hall := Config.forall_put (c := c) (i := some j) (s := c.shared) (l := (checkStmt L (c.shared.heap, c.loc (some j))).2)
      (p := fun i l => ∀ k, i = some k → CheckAt L (bs.map Block.addr) l) (fun _ _ => hat)
      (fun i _ k hk => hk ▸ hcheck k)
    exact hall (some k) k rfl

theorem checked_inv (h : Reach L s live)
    (hr : Interleaving (CheckedHeap L) (fun _ _ => True) ⟨⟨s, live, .idle⟩, fun _ => .sleep⟩ c) :
    c.shared.heap.panics = s.panics ∧ ∃ bs, AllAt L bs c := by
  refine hr.inv (I := fun c => c.shared.heap.panics = s.panics ∧ ∃ bs, AllAt L bs c) ?_ ?_
  · obtain ⟨bs, hi, hl⟩ := run_inv h
    exact ⟨rfl, bs, ⟨hi, hl⟩, fun _ => trivial⟩
  · intro c i w l hI _ hp
    obtain ⟨hpan, bs, hall⟩ := hI
    obtain ⟨hpan', bs', -, hall'⟩ := checked_step hall hp
    exact ⟨hpan'.trans hpan, bs', hall'⟩

theorem CheckAt.stands {l : CheckPc} {this : U32} (h : CheckAt L as l) (hl : l = .magic this ∨ l = .next this) :
    this ∈ as := by
  obtain rfl | rfl := hl <;> obtain ⟨pre, post, rfl⟩ := h <;> simp

theorem CheckAt.rest {m : Mem} {this : U32} (hw : Walkable L m as) (h : CheckAt L as (.test this)) :
    ∃ rest, rest <:+ as ∧ nodes (listNext m) L.chain (2 ^ 32) this = some rest := by
  obtain ⟨pre, post, rfl, rfl⟩ := h
  exact ⟨post, List.suffix_append _ _, hw.nodes⟩

/-- **The checkers find no corruption.** While any number of checkers and the processes take turns statement by
statement, nothing panics; at every moment the walk along the chain ends and every block it meets has its
magic, each checker stands on a block of the chain or has a last part of it before it, and the live payloads are
disjoint and inside the heap. Whenever no call is on, the heap is in order. -/
theorem heap_checked (h : Reach L s live)
    (hr : Interleaving (CheckedHeap L) (fun _ _ => True) ⟨⟨s, live, .idle⟩, fun _ => .sleep⟩ c) :
    c.shared.heap.panics = s.panics ∧
      (∃ as, chainBlocks L c.shared.heap.mem = some as ∧ (∀ a ∈ as, headMagic c.shared.heap.mem a = 0xBEEF) ∧
        (∀ k this, c.loc (some k) = .magic this ∨ c.loc (some k) = .next this → this ∈ as) ∧
        ∀ k this, c.loc (some k) = .test this → ∃ rest, rest <:+ as ∧
          nodes (listNext c.shared.heap.mem) L.chain (2 ^ 32) this = some rest) ∧
      (∀ l ∈ c.shared.live, c.shared.heap.base.toNat ≤ l.1.toNat ∧ l.1.toNat + l.2.toNat ≤ c.shared.heap.brk.toNat) ∧
      c.shared.live.Pairwise (fun x y => x.1.toNat + x.2.toNat ≤ y.1.toNat ∨ y.1.toNat + y.2.toNat ≤ x.1.toNat) ∧
      (c.shared.call = .idle → ∃ bs, HeapInv L c.shared.heap bs ∧ LiveIn bs c.shared.live) := by
  obtain ⟨hpan, bs, hcall, hcheck⟩ := checked_inv h hr
  obtain ⟨hw, hin, hap⟩ := hcall.inOrder
  refine ⟨hpan, ⟨bs.map Block.addr, hw.chain, hw.magic, ?_, ?_⟩, hin, hap, ?_⟩
  · exact fun k this hk => (hcheck k).stands hk
  · exact fun k this hk => CheckAt.rest hw (hk ▸ hcheck k)
  · intro hidle
    unfold CallAt at hcall
    rw [hidle] at hcall
    exact ⟨bs, hcall.heap, hcall.liveIn⟩

/-! One pass of a checker. -/

/-- The block whose magic a checker tests with its next statement. -/
def testing : CheckPc → List U32
  | .magic this => [this]
  | _ => []

/-- From its first read at `c` on, the pass of the checker `k` has tested the blocks `ts`. -/
inductive Pass (L : HeapLayout) (k : κ) (c : Config (Option κ) HeapWorld CheckPc) :
    List U32 → Config (Option κ) HeapWorld CheckPc → Prop
  | first : c.loc (some k) = .first →
      Pass L k c [] (c.put (some k) c.shared (.test (listNext c.shared.heap.mem L.chain)))
  | step {ts c' w l} (i : Option κ) : Pass L k c ts c' → (i = some k → c'.loc (some k) ≠ .sleep) →
      CheckedHeap L i c'.shared (c'.loc i) w l →
      Pass L k c (ts ++ if i = some k then testing (c'.loc (some k)) else []) (c'.put i w l)

/-- How far a pass through the blocks `as` has come. -/
def PassAt (L : HeapLayout) (as ts : List U32) : CheckPc → Prop
  | .sleep => ts = as
  | .first => False
  | .test this => ∃ post, as = ts ++ post ∧ this = first L.chain post
  | .magic this => ∃ post, as = ts ++ this :: post
  | .next this => ∃ pre post, ts = pre ++ [this] ∧ as = pre ++ this :: post

theorem PassAt.prefix {ts : List U32} {l : CheckPc} (h : PassAt L as ts l) : ts <+: as := by
  cases l with
  | sleep => exact h ▸ List.prefix_rfl
  | first => exact h.elim
  | test this =>
    obtain ⟨post, rfl, -⟩ := h
    exact List.prefix_append _ _
  | magic this =>
    obtain ⟨post, rfl⟩ := h
    exact List.prefix_append _ _
  | next this =>
    obtain ⟨pre, post, rfl, rfl⟩ := h
    exact ⟨post, by simp⟩

/-- **A statement of a pass**: it tests the next of the blocks, and sleeps when it has tested them all. -/
theorem PassAt.step {ts : List U32} {l : CheckPc} (hw : Walkable L s.mem as') (hs : as <:+ as') (h : PassAt L as ts l)
    (hl : l ≠ .sleep) : PassAt L as (ts ++ testing l) (checkStmt L (s, l)).2 := by
  obtain ⟨t, rfl⟩ := hs
  cases l with
  | sleep => exact absurd rfl hl
  | first => exact h.elim
  | test this =>
    obtain ⟨post, rfl, rfl⟩ := h
    unfold checkStmt testing
    dsimp only
    rw [List.append_nil]
    cases post with
    | nil =>
      rw [if_pos (show first L.chain [] = L.chain from rfl)]
      exact (List.append_nil ts).symm
    | cons a post =>
      have ha : a ∈ t ++ (ts ++ a :: post) := by simp
      have hne : first L.chain (a :: post) ≠ L.chain := fun e => hw.notMem (e ▸ ha)
      rw [if_neg hne]
      exact ⟨post, rfl⟩
  | magic this =>
    obtain ⟨post, rfl⟩ := h
    exact ⟨ts, post, rfl, rfl⟩
  | next this =>
    obtain ⟨pre, post, rfl, rfl⟩ := h
    rw [← List.append_assoc] at hw
    exact ⟨post, by simp [testing], hw.next⟩

/-- **A pass tests the chain as it was at its first read**: the blocks tested so far are the first ones of it, in
order, and all of it when the checker sleeps again. What the processes link in meanwhile comes before it, so each
block tested is one of the present chain. -/
theorem checker_pass (h : Reach L s live)
    (hr : Interleaving (CheckedHeap L) (fun _ _ => True) ⟨⟨s, live, .idle⟩, fun _ => .sleep⟩ c) {k : κ} {ts : List U32}
    (hp : Pass L k c ts c') : ∃ as as', chainBlocks L c.shared.heap.mem = some as ∧
      chainBlocks L c'.shared.heap.mem = some as' ∧ as <:+ as' ∧ ts <+: as ∧
      (c'.loc (some k) = .sleep → ts = as) ∧ ∀ this, c'.loc (some k) = .magic this → ts ++ [this] <+: as := by
  obtain ⟨-, bs, hall⟩ := checked_inv h hr
  have hchain := hall.1.inOrder.walk.chain
  -- the blocks of the pass are fixed while the chain grows before them
  have hpass : (∃ bs', AllAt L bs' c' ∧ bs.map Block.addr <:+ bs'.map Block.addr) ∧
      PassAt L (bs.map Block.addr) ts (c'.loc (some k)) := by
    induction hp with
    | first hk =>
      have hfirst : CheckedHeap L (some k) c.shared (c.loc (some k)) c.shared
          (.test (listNext c.shared.heap.mem L.chain)) := by
        rw [hk]
        rfl
      obtain ⟨-, bs', hsuf, hall'⟩ := checked_step hall hfirst
      rw [Config.put_self]
      exact ⟨⟨bs', hall', hsuf⟩, _, rfl, hall.1.inOrder.walk.first⟩
    | @step ts c' w l i hp hne hstep ih =>
      obtain ⟨⟨bs', hall', hsuf⟩, hat⟩ := ih
      obtain ⟨-, bs'', hsuf', hall''⟩ := checked_step hall' hstep
      refine ⟨⟨bs'', hall'', hsuf.trans hsuf'⟩, ?_⟩
      by_cases hi : i = some k
      · subst hi
        rw [Config.put_self, if_pos rfl, (Prod.mk.inj hstep).2]
        exact hat.step hall'.1.inOrder.walk hsuf (hne rfl)
      · rw [Config.put_ne _ _ _ (Ne.symm hi), if_neg hi, List.append_nil]
        exact hat
  obtain ⟨⟨bs', hall', hsuf⟩, hat⟩ := hpass
  refine ⟨_, _, hchain, hall'.1.inOrder.walk.chain, hsuf, hat.prefix, fun hk => ?_, fun this hk => ?_⟩
  · rw [hk] at hat
    exact hat
  · rw [hk] at hat
    obtain ⟨post, has⟩ := hat
    exact ⟨post, by rw [has]; simp⟩

end

/-! Two checkers beside a process that allocates and frees. -/

inductive CheckedEvent where
  | kmalloc (bytes : U32)
  | kfree (l : U32 × U32)
  /-- the next statement of the call, or its return -/
  | call
  /-- the next statement of a checker -/
  | check

def checkedDoes (L : HeapLayout) : CheckedEvent → HeapWorld × CheckPc → HeapWorld × CheckPc
  | .kmalloc bytes, (w, l) => ({ w with call := .malloc bytes .start }, l)
  | .kfree p, (w, l) => ({ w with live := w.live.erase p, call := .free (.start p.1) }, l)
  | .call, (⟨s, live, .malloc bytes (.done p)⟩, l) => (⟨s, if bytes = 0 then live else (p, bytes) :: live, .idle⟩, l)
  | .call, (⟨s, live, .malloc bytes k⟩, l) =>
    (⟨(kmallocStmt L bytes (s, k)).1, live, .malloc bytes (kmallocStmt L bytes (s, k)).2⟩, l)
  | .call, (⟨s, live, .free .done⟩, l) => (⟨s, live, .idle⟩, l)
  | .call, (⟨s, live, .free k⟩, l) => (⟨(kfreeStmt (s, k)).1, live, .free (kfreeStmt (s, k)).2⟩, l)
  | .call, (⟨s, live, .idle⟩, l) => (⟨s, live, .idle⟩, l)
  | .check, (w, l) => ({ w with heap := (checkStmt L (w.heap, l)).1 }, (checkStmt L (w.heap, l)).2)

def CheckedMay {κ : Type} (L : HeapLayout) :
    CheckedEvent → Option κ → Config (Option κ) HeapWorld CheckPc → Prop
  | .kmalloc bytes, i, c => i.isNone ∧ c.shared.call = .idle ∧ (bytes ≠ 0 → Admissible L bytes c.shared.heap)
  | .kfree l, i, c => i.isNone ∧ c.shared.call = .idle ∧ l ∈ c.shared.live
  | .call, i, c => i.isNone ∧ c.shared.call ≠ .idle
  | .check, i, _ => i.isSome

instance {κ : Type} (L : HeapLayout) (e : CheckedEvent) (i : Option κ) (c : Config (Option κ) HeapWorld CheckPc) :
    Decidable (CheckedMay L e i c) :=
  match e with
  | .kmalloc bytes => inferInstanceAs (Decidable (i.isNone ∧ c.shared.call = .idle ∧
      (bytes ≠ 0 → Admissible L bytes c.shared.heap)))
  | .kfree l => inferInstanceAs (Decidable (i.isNone ∧ c.shared.call = .idle ∧ l ∈ c.shared.live))
  | .call => inferInstanceAs (Decidable (i.isNone ∧ c.shared.call ≠ .idle))
  | .check => inferInstanceAs (Decidable (i.isSome = true))

theorem checkedDoes_program {κ : Type} {L : HeapLayout} {e : CheckedEvent} {i : Option κ}
    {c : Config (Option κ) HeapWorld CheckPc} (h : CheckedMay L e i c) :
    CheckedHeap L i c.shared (c.loc i) (checkedDoes L e (c.shared, c.loc i)).1 (checkedDoes L e (c.shared, c.loc i)).2 := by
  obtain ⟨⟨s, live, call⟩, loc⟩ := c
  cases e with
  | kmalloc bytes =>
    obtain ⟨hi, hidle, had⟩ := h
    obtain rfl := Option.isNone_iff_eq_none.mp hi
    obtain rfl : call = .idle := hidle
    exact ⟨.kmalloc bytes had, rfl⟩
  | kfree l =>
    obtain ⟨hi, hidle, hl⟩ := h
    obtain rfl := Option.isNone_iff_eq_none.mp hi
    obtain rfl : call = .idle := hidle
    exact ⟨.kfree l hl, rfl⟩
  | call =>
    obtain ⟨hi, hidle⟩ := h
    obtain rfl := Option.isNone_iff_eq_none.mp hi
    cases call with
    | idle => exact absurd rfl hidle
    | malloc bytes k => cases k <;> first | exact ⟨.allocated, rfl⟩ | exact ⟨.mallocStmt, rfl⟩
    | free k => cases k <;> first | exact ⟨.freed, rfl⟩ | exact ⟨.freeStmt, rfl⟩
  | check =>
    obtain ⟨k, rfl⟩ := Option.isSome_iff_exists.mp h
    rfl

/-- What may come next while the pass of the checker `k` is on. -/
def PassMay {κ : Type} (L : HeapLayout) (k : κ) (e : CheckedEvent) (i : Option κ)
    (c : Config (Option κ) HeapWorld CheckPc) : Prop :=
  CheckedMay L e i c ∧ (i = some k → c.loc (some k) ≠ .sleep)

instance {κ : Type} [DecidableEq κ] (L : HeapLayout) (k : κ) (e : CheckedEvent) (i : Option κ)
    (c : Config (Option κ) HeapWorld CheckPc) : Decidable (PassMay L k e i c) :=
  inferInstanceAs (Decidable (_ ∧ (_ → _)))

theorem Pass.play {κ : Type} [DecidableEq κ] {L : HeapLayout} {k : κ} {c : Config (Option κ) HeapWorld CheckPc} :
    ∀ es {ts : List U32} {c' : Config (Option κ) HeapWorld CheckPc}, Pass L k c ts c' →
      c'.Plays (checkedDoes L) (PassMay L k) es → ∃ ts', Pass L k c ts' (c'.play (checkedDoes L) es)
  | [], ts, _, h, _ => ⟨ts, h⟩
  | (i, _) :: es, _, _, h, ⟨⟨hmay, hne⟩, hes⟩ => Pass.play es (.step i h hne (checkedDoes_program hmay)) hes

def checkedStart : Config (Option Bool) HeapWorld CheckPc :=
  ⟨⟨sampleHeap, [(0xC000A014, 40), (0xC000A08C, 4096)], .idle⟩, fun _ => .sleep⟩

def manyTimes (n : Nat) (i : Option Bool) (e : CheckedEvent) : List (Option Bool × CheckedEvent) := List.replicate n (i, e)

/-- A block of 60 bytes comes into the chain behind the first checker, and a freed one stays in it. -/
def twoCheckers : List (Option Bool × CheckedEvent) :=
  manyTimes 4 (some true) .check ++ [(none, .kmalloc 60)] ++ manyTimes 26 none .call ++
    manyTimes 2 (some false) .check ++ manyTimes 2 (some true) .check ++
    [(none, .kfree (0xC000A014, 40))] ++ manyTimes 5 none .call

theorem heap_checked_sample : ∃ c : Config (Option Bool) HeapWorld CheckPc,
    Interleaving (CheckedHeap sampleLayout) (fun _ _ => True) checkedStart c ∧
      c.loc (some true) = .magic 0xC000A078 ∧ c.loc (some false) = .test 0xC000B08C ∧
      c.shared.live = [(0xC000B0A0, 60), (0xC000A08C, 4096)] ∧ c.shared.heap.panics = sampleHeap.panics ∧
      (∃ as, chainBlocks sampleLayout c.shared.heap.mem = some as ∧
        (∀ a ∈ as, headMagic c.shared.heap.mem a = 0xBEEF) ∧ 0xC000A078 ∈ as ∧ ∃ rest, rest <:+ as ∧
          nodes (listNext c.shared.heap.mem) sampleLayout.chain (2 ^ 32) 0xC000B08C = some rest) ∧
      (∀ l ∈ c.shared.live, c.shared.heap.base.toNat ≤ l.1.toNat ∧ l.1.toNat + l.2.toNat ≤ c.shared.heap.brk.toNat) ∧
      c.shared.live.Pairwise (fun x y => x.1.toNat + x.2.toNat ≤ y.1.toNat ∨ y.1.toNat + y.2.toNat ≤ x.1.toNat) ∧
      ∃ bs, HeapInv sampleLayout c.shared.heap bs ∧ LiveIn bs c.shared.live := by
  have hplay : checkedStart.Plays (checkedDoes sampleLayout) (CheckedMay sampleLayout) twoCheckers := by decide +kernel
  have htrue : (checkedStart.play (checkedDoes sampleLayout) twoCheckers).loc (some true) = .magic 0xC000A078 := by
    decide +kernel
  have hfalse : (checkedStart.play (checkedDoes sampleLayout) twoCheckers).loc (some false) = .test 0xC000B08C := by
    decide +kernel
  have hlive : (checkedStart.play (checkedDoes sampleLayout) twoCheckers).shared.live =
      [(0xC000B0A0, 60), (0xC000A08C, 4096)] := by decide +kernel
  have hidle : (checkedStart.play (checkedDoes sampleLayout) twoCheckers).shared.call = .idle := by decide +kernel
  have hrun : Interleaving (CheckedHeap sampleLayout) (fun _ _ => True) checkedStart _ :=
    Interleaving.play _ _ (fun _ _ _ h => ⟨trivial, checkedDoes_program h⟩) twoCheckers .start hplay
  generalize checkedStart.play (checkedDoes sampleLayout) twoCheckers = c at htrue hfalse hlive hidle hrun
  obtain ⟨hpan, ⟨as, has, hmagic, hstands, hrest⟩, hin, hap, hinv⟩ := heap_checked sampleHeap_reach hrun
  exact ⟨c, hrun, htrue, hfalse, hlive, hpan, ⟨as, has, hmagic, hstands true _ (.inl htrue), hrest false _ hfalse⟩,
    hin, hap, hinv hidle⟩

/-- The same block comes into the chain while a pass is on, which goes to its end. -/
def wholePass : List (Option Bool × CheckedEvent) :=
  manyTimes 3 (some true) .check ++ [(none, .kmalloc 60)] ++ manyTimes 26 none .call ++ manyTimes 7 (some true) .check

def passStart : Config (Option Bool) HeapWorld CheckPc := checkedStart.put (some true) checkedStart.shared .first

theorem checker_pass_sample : ∃ c c' : Config (Option Bool) HeapWorld CheckPc, ∃ ts,
    Interleaving (CheckedHeap sampleLayout) (fun _ _ => True) checkedStart c ∧ Pass sampleLayout true c ts c' ∧
      c'.loc (some true) = .sleep ∧ chainBlocks sampleLayout c.shared.heap.mem = some [0xC000A03C, 0xC000A078, 0xC000A000] ∧
      chainBlocks sampleLayout c'.shared.heap.mem = some [0xC000B08C, 0xC000A03C, 0xC000A078, 0xC000A000] ∧
      ts = [0xC000A03C, 0xC000A078, 0xC000A000] := by
  have hrun : Interleaving (CheckedHeap sampleLayout) (fun _ _ => True) checkedStart passStart :=
    .step (some true) .start trivial rfl
  have hfirst : Pass sampleLayout true passStart [] _ := .first (by decide +kernel)
  generalize hc : passStart.put (some true) passStart.shared
    (.test (listNext passStart.shared.heap.mem sampleLayout.chain)) = c at hfirst
  have hplay : c.Plays (checkedDoes sampleLayout) (PassMay sampleLayout true) wholePass := by
    subst hc
    decide +kernel
  have hsleep : (c.play (checkedDoes sampleLayout) wholePass).loc (some true) = .sleep := by
    subst hc
    decide +kernel
  have hafter : chainBlocks sampleLayout (c.play (checkedDoes sampleLayout) wholePass).shared.heap.mem =
      some [0xC000B08C, 0xC000A03C, 0xC000A078, 0xC000A000] := by
    subst hc
    decide +kernel
  have hbefore : chainBlocks sampleLayout passStart.shared.heap.mem = some [0xC000A03C, 0xC000A078, 0xC000A000] := by
    decide +kernel
  obtain ⟨ts, hpass⟩ := hfirst.play wholePass hplay
  obtain ⟨as, as', has, has', -, -, hall, -⟩ := checker_pass sampleHeap_reach hrun hpass
  obtain rfl : as = [0xC000A03C, 0xC000A078, 0xC000A000] := Option.some.inj (has.symm.trans hbefore)
  exact ⟨passStart, _, ts, hrun, hpass, hsleep, has, hafter, hall hsleep⟩

end LineOS
