import LineOS.ProcessHeap

/- `create_process` in memory: the same function as in `Process`, down to the
   bytes. A `process_t` is 84 bytes at the address `kmalloc` gave; its fields are
   named here by their offsets. The stack is filled by `setup_kernel_process`,
   sixteen words from `esp` downwards, and the list node at offset 24 is linked
   into `k_proclist.list`, whose head lies in the kernel image. The other members
   of `k_proclist` are reached by no pointer and are fields of `ProcGlobals`.

   `Created.stores` is kept for the statements: every address stored to for the
   new process, by the `memset`s, the name's copy, `setup_kernel_process` and the
   assignments to its fields, and not by `kmalloc`, `kfree` and `list_add_tail`. -/
namespace LineOS
open ByteMemory ByteMemory.Mem

/-! `lib/stdlib/stdlib.c` and `lib/string/string.c`. -/

/-- `memset` -/
def memset (dest : U32) (val : U8) : Nat → Mem → Mem
  | 0, m => m
  | count + 1, m => memset (dest + 1) val count (m.store8 dest val)

/-- `strncpy`, but for the number it returns: up to the NUL, which it does not copy. -/
def strncpy (d s : U32) : Nat → Mem → Mem
  | 0, m => m
  | count + 1, m => if m.byte s = 0 then m else strncpy (d + 1) (s + 1) count (m.store8 d (m.byte s))

/-- `list_add_tail` -/
def listAddTail (new head : U32) (m : Mem) : Mem := listAddBetween new (listPrev m head) head m

/-! `process_t`, by offset: `esp` is at 0. -/

def offSs : U32 := 4
def offKstack : U32 := 8
def offPid : U32 := 20
def offList : U32 := 24
def offName : U32 := 32
def offState : U32 := 64
def offTicks : U32 := 66
def offParent : U32 := 76
def offTt : U32 := 80

/-- The words `setup_kernel_process` stores, the first at `esp`. -/
def initialFrame (p proc : U32) : List U32 :=
  [p, 0x202, 0x10, proc,
    0x08, 0x08, 0x08, 0x08,
    0x00, 0x00, 0x00, 0x00, 0x00, 0x00, 0x08, 0x08]

/-- `*procstack=w` and `procstack--` between two words. -/
def storeDown (procstack : U32) : List U32 → Mem → Mem
  | [], m => m
  | w :: ws, m => storeDown (procstack - 4) ws (m.store32 procstack w)

/-- The fields `setup_kernel_process` sets in the end: `esp`, `ss` and `state`. -/
def setupFields (p procstack : U32) (m : Mem) : Mem :=
  ((m.store32 p procstack).store32 (p + offSs) 0x08).store8 (p + offState) 0x1

/-- `setup_kernel_process` -/
def setupKernelProcess (p proc : U32) (m : Mem) : Mem :=
  let procstack := m.load32 p
  setupFields p (procstack - 4 * 15) (storeDown procstack (initialFrame p proc) m)

/-- The members of `k_proclist` but the list. -/
structure ProcGlobals where
  current : U32
  pidcnt : U32
  count : U32

/-- What `create_process` returns, and the blocks and stores it was made of. -/
structure Created where
  pid : U32
  newproc : U32
  kstack : U32
  stores : List U32

/-- The addresses stored to between two memories, newest first. -/
def newStores (m m' : Mem) : List U32 := m'.written.take (m'.written.length - m.written.length)

/-- `create_process` up to the second `kmalloc`: zero, pid and name. -/
def fillProcess (p pid name : U32) (m : Mem) : Mem :=
  strncpy (p + offName) name (32 - 1) ((memset p 0 procSize.toNat m).store32 (p + offPid) pid)

/-- From there to `list_add_tail`: zero the stack and set `esp`. -/
def fillStack (p : U32) (m : Mem) : Mem :=
  let m := memset (m.load32 (p + offKstack)) 0 stackSize.toNat m
  m.store32 p (m.load32 (p + offKstack) + (stackSize - 1))

def fillAccount (p parent : U32) (m : Mem) : Mem :=
  ((m.store16 (p + offTicks) 100).store32 (p + offTt) 0).store32 (p + offParent) parent

/-- `create_process`. `panic` returns, and no `return` follows the second one. -/
def createProcessMem (L : HeapLayout) (head name _arg proc : U32) (g : ProcGlobals) (s : Heap) :
    Option (Created × ProcGlobals × Heap) := do
  let (p, s) ← kmalloc L procSize s
  if p = 0 then
    return (⟨0, 0, 0, []⟩, g, s.panic "Unable to malloc, panicing - this shouldn't be here")
  let m₁ := fillProcess p g.pidcnt name s.mem
  let g := { g with pidcnt := g.pidcnt + 1 }
  let (k, t) ← kmalloc L stackSize { s with mem := m₁ }
  let m₂ := t.mem.store32 (p + offKstack) k
  let u := { t with mem := m₂ }
  let u := if k = 0 then (kfree p u).panic "Couldn't malloc new stack, panicing - this shouldn't be here" else u
  let m₃ := fillStack p u.mem
  let m₄ := listAddTail (p + offList) head m₃
  let m₅ := fillAccount p g.current (setupKernelProcess p proc m₄)
  let stores := newStores m₄ m₅ ++ newStores u.mem m₃ ++ newStores t.mem m₂ ++ newStores s.mem m₁
  return (⟨m₅.load32 (p + offPid), p, k, stores⟩, { g with count := g.count + 1 }, { u with mem := m₅ })

/-! What the pieces store to. -/

theorem memset_writes (v : U8) : ∀ (n : Nat) (dest : U32) (m : Mem), dest.toNat + n ≤ 2 ^ 32 →
    WritesOnly (InSpan dest n) m (memset dest v n m)
  | 0, _, m, _ => WritesOnly.refl m
  | n + 1, dest, m, h => by
    have hd : InSpan dest (n + 1) dest := ⟨by omega, by omega⟩
    refine (WritesOnly.store8 m v hd).trans ?_
    by_cases hn : n = 0
    · subst hn
      exact WritesOnly.refl _
    · have e : (dest + 1).toNat = dest.toNat + 1 := by bv_omega
      refine (memset_writes v n (dest + 1) _ (by omega)).mono fun x hx => ?_
      unfold InSpan at hx ⊢
      omega

theorem strncpy_writes : ∀ (n : Nat) (d s : U32) (m : Mem), d.toNat + n < 2 ^ 32 →
    WritesOnly (InSpan d n) m (strncpy d s n m)
  | 0, _, _, m, _ => WritesOnly.refl m
  | n + 1, d, s, m, h => by
    unfold strncpy
    split
    · exact WritesOnly.refl m
    · have e : (d + 1).toNat = d.toNat + 1 := by bv_omega
      have hd : InSpan d (n + 1) d := ⟨by omega, by omega⟩
      refine (WritesOnly.store8 m _ hd).trans ((strncpy_writes n (d + 1) (s + 1) _ (by omega)).mono fun x hx => ?_)
      unfold InSpan at hx ⊢
      omega

theorem storeDown_writes : ∀ (ws : List U32) (a : U32) (m : Mem), 4 * ws.length ≤ a.toNat + 4 →
    a.toNat + 4 ≤ 2 ^ 32 →
    WritesOnly (fun x => a.toNat + 4 - 4 * ws.length ≤ x.toNat ∧ x.toNat < a.toNat + 4) m (storeDown a ws m)
  | [], _, m, _, _ => WritesOnly.refl m
  | w :: ws, a, m, hlo, hhi => by
    rw [List.length_cons] at hlo ⊢
    refine (WritesOnly.store32 m w hhi fun x hx => ?_).trans ?_
    · unfold InSpan at hx
      omega
    · by_cases hn : ws = []
      · subst hn
        exact WritesOnly.refl _
      · have hpos : 0 < ws.length := List.length_pos_iff.2 hn
        have e : (a - 4).toNat = a.toNat - 4 := by bv_omega
        exact (storeDown_writes ws (a - 4) _ (by omega) (by omega)).mono fun x hx => by omega

/-- The sixteen words of a frame whose first lies at `top`. -/
def FrameByte (top x : U32) : Prop := top.toNat - 60 ≤ x.toNat ∧ x.toNat < top.toNat + 4

theorem setupFields_writes {m : Mem} {p : U32} (esp : U32) (hp : p.toNat + 84 ≤ 2 ^ 32) :
    WritesOnly (InSpan p 84) m (setupFields p esp m) := by
  have e4 : (p + offSs).toNat = p.toNat + 4 := by unfold offSs; bv_omega
  have e64 : (p + offState).toNat = p.toNat + 64 := by unfold offState; bv_omega
  refine ((WritesOnly.store32 m _ (by omega) fun x hx => ?_).trans
    (WritesOnly.store32 _ _ (by omega) fun x hx => ?_)).trans (WritesOnly.store8 _ _ ⟨by omega, by omega⟩)
  · unfold InSpan at hx ⊢
    omega
  · unfold InSpan at hx ⊢
    omega

theorem setupFields_esp {m : Mem} {p : U32} (esp : U32) (hp : p.toNat + 84 ≤ 2 ^ 32) :
    (setupFields p esp m).load32 p = esp := by
  have e4 : (p + offSs).toNat = p.toNat + 4 := by unfold offSs; bv_omega
  have e64 : (p + offState).toNat = p.toNat + 64 := by unfold offState; bv_omega
  rw [setupFields, load32_store8_off _ _ (by omega) (by unfold InSpan; omega),
    load32_store32_off _ _ (by omega) (by omega) (by omega), load32_store32_same]

/-- `setup_kernel_process` stores to the frame, its first word whole, and to three
fields of the structure. -/
theorem setup_writes {m : Mem} {p top : U32} (proc : U32) (hesp : m.load32 p = top) (hlo : 60 ≤ top.toNat)
    (hhi : top.toNat + 4 ≤ 2 ^ 32) (hp : p.toNat + 84 ≤ 2 ^ 32) :
    WritesOnly (fun x => InSpan p 84 x ∨ FrameByte top x) m (setupKernelProcess p proc m) ∧
      Stored (top + 1) m (setupKernelProcess p proc m) := by
  have hsub : (top - 4).toNat = top.toNat - 4 := by bv_omega
  have hlen : (initialFrame p proc).length = 16 := rfl
  have hlen' : (initialFrame p proc).tail.length = 15 := rfl
  have hfields : ∀ m₁ : Mem, WritesOnly (InSpan p 84) m₁ (setupFields p (top - 4 * 15) m₁) :=
    fun m₁ => setupFields_writes _ hp
  have hframe := storeDown_writes (initialFrame p proc) top m (by omega) hhi
  rw [setupKernelProcess, hesp]
  refine ⟨(hframe.mono fun x hx => ?_).trans ((hfields _).mono fun x hx => .inl hx), ?_⟩
  · rw [hlen] at hx
    exact .inr ⟨by omega, hx.2⟩
  · have hfirst : Stored (top + 1) m (m.store32 top p) := Stored.store32 m _ p (by simp)
    have hcons : storeDown top (initialFrame p proc) m =
        storeDown (top - 4) (initialFrame p proc).tail (m.store32 top p) := by
      rw [initialFrame, storeDown, List.tail_cons]
    have hrest := storeDown_writes (initialFrame p proc).tail (top - 4) (m.store32 top p) (by omega) (by omega)
    rw [hcons]
    exact (hfirst.after hrest).after (hfields _)

end LineOS
