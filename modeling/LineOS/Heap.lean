import LineOS.KernelList

/- The kernel heap: `mm/heap.c` over byte-addressed memory.

   A block is a `malloc_head_t` and the payload after it. The header has five
   fields at fixed offsets: `list.next` (0), `list.prev` (4), `magic` (8), `size`
   (12), and the byte `state` (16); three bytes of padding make it 20 long. The
   list field comes first, so `list_entry` is the identity. The break, the base
   and the two counters are globals no pointer reaches and are fields of the
   state; the list head of `k_malloc_chain` lies in memory, because the blocks
   point at it.

   `panic` (`main.c`) prints, halts until the next interrupt and returns to its
   caller; here it appends its message to `panics` and the code after it runs. -/
namespace LineOS
open ByteMemory LinkedRing

/-- The kernel's virtual base, where `link.ld` places the image. -/
def kVirStart : U32 := 0xC0000000

/-- `k_sysmem.brk_max` as `init_paging` sets it: `TEMP_RESERVE` pages below the
page directory's window. -/
def brkMax : U32 := 0xFFC00000 - 4 * 4096

/-- `sizeof(malloc_head_t)`. -/
def headLen : U32 := 20

/-- The addresses the linker fixes for this file's globals, and the end of the
kernel when `init_heap` runs. Both globals lie in the kernel image. -/
structure HeapLayout where
  /-- `&k_malloc_chain.chain` -/
  chain : U32
  /-- `&k_temp_map` -/
  tempMap : U32
  /-- `k_sysmem.kernel_end` -/
  kernelEnd : U32
  chain_lo : kVirStart.toNat ≤ chain.toNat
  chain_hi : chain.toNat + 16 ≤ kernelEnd.toNat
  temp_lo : kVirStart.toNat ≤ tempMap.toNat
  temp_hi : tempMap.toNat + 8 ≤ kernelEnd.toNat
  apart : chain.toNat + 16 ≤ tempMap.toNat ∨ tempMap.toNat + 8 ≤ chain.toNat
  end_lt : kernelEnd.toNat < brkMax.toNat

/-- `k_heap`, the counters of `k_malloc_chain`, and memory. -/
structure Heap where
  mem : Mem
  base : U32
  brk : U32
  totalBlocks : U32
  usedBlocks : U32
  panics : List String

def Heap.panic (msg : String) (s : Heap) : Heap := { s with panics := msg :: s.panics }

/-! Header fields. -/

def headMagic (m : Mem) (p : U32) : U32 := m.load32 (p + 8)
def headSize (m : Mem) (p : U32) : U32 := m.load32 (p + 12)
def headState (m : Mem) (p : U32) : U8 := m.byte (p + 16)

/-- `ptr->state & KMALLOC_USED`. -/
def stateUsed (v : U8) : Bool := v &&& 1 != 0

/-! `mm/heap.c`. -/

def initHeap (L : HeapLayout) (m : Mem) : Heap :=
  { mem := initListHead L.tempMap (initListHead L.chain m)
    base := L.kernelEnd
    brk := L.kernelEnd
    totalBlocks := 0
    usedBlocks := 0
    panics := [] }

/-- Move the break, unless the new one reaches `brk_max` (result -1). -/
def kbrk (e : U32) (s : Heap) : Int × Heap :=
  if brkMax ≤ e then (-1, s) else (0, { s with brk := e })

/-- Raise the break by `bytes` and return the old one. A refused `kbrk` panics,
and the code goes on with the break it did not move. -/
def ksbrk (bytes : U32) (s : Heap) : U32 × Heap :=
  if bytes = 0 then (s.brk, s)
  else
    let (r, s) := kbrk (s.brk + bytes) s
    let s := if r = -1 then s.panic "Unable to kbrk - Reached max_brk!\n" else s
    (s.brk - bytes, s)

/-- The test of the search loop: big enough, and not in use. -/
def fits (bytes : U32) (m : Mem) (p : U32) : Bool :=
  decide (bytes ≤ headSize m p) && !stateUsed (headState m p)

/-- The search loop. It reads memory and writes none, so its position alone
decides how it goes on: a walk that has not ended after one step for every
address never ends (`none`). -/
def searchChain (L : HeapLayout) (bytes : U32) (m : Mem) : Option (Option U32) :=
  seek (listNext m) L.chain (fits bytes m) (2 ^ 32) (listNext m L.chain)

/-- The branch of `kmalloc` that found no block: a new one at the break. `sb` is
still NULL when its state is cleared, so the byte set to zero is the one at
`NULL + 16`, and `ptr->state` keeps what memory held there. -/
def kmallocGrow (L : HeapLayout) (bytes : U32) (s : Heap) : U32 × Heap :=
  let (ptr, s) := ksbrk (headLen + bytes) s
  let m := s.mem.store32 (ptr + 12) bytes
  let m := m.store32 (ptr + 8) 0xBEEF
  let m := m.store8 (0 + 16) 0
  let m := listAdd ptr L.chain m
  (ptr, { s with mem := m, totalBlocks := s.totalBlocks + 1 })

/-- The branch that found the free block `ptr`: the rest of it becomes a block of
its own when it has room for a header and 8 bytes. -/
def kmallocReuse (L : HeapLayout) (bytes ptr : U32) (s : Heap) : Heap :=
  let leftover := headSize s.mem ptr - bytes
  if headLen + 8 ≤ leftover then
    let sb := ptr + headLen + bytes
    let m := s.mem.store32 (sb + 12) (leftover - headLen)
    let m := m.store32 (sb + 8) 0xBEEF
    let m := m.store8 (sb + 16) 0
    let m := m.store32 (ptr + 12) bytes
    let m := listAdd sb L.chain m
    { s with mem := m, totalBlocks := s.totalBlocks + 1 }
  else s

/-- The end of `kmalloc`: set the used flag, count the block, return its payload. -/
def kmallocTake (ptr : U32) (s : Heap) : U32 × Heap :=
  (ptr + headLen,
    { s with
      mem := s.mem.store8 (ptr + 16) (headState s.mem ptr ||| 1)
      usedBlocks := s.usedBlocks + 1 })

/-- `kmalloc(bytes, flags)`; `flags` is never read. `none`: the search does not
end. -/
def kmalloc (L : HeapLayout) (bytes : U32) (s : Heap) : Option (U32 × Heap) :=
  if bytes = 0 then some (0, s)
  else match searchChain L bytes s.mem with
    | none => none
    | some none =>
      let (ptr, s) := kmallocGrow L bytes s
      some (kmallocTake ptr s)
    | some (some ptr) =>
      let s := if headMagic s.mem ptr != 0xBEEF then s.panic "Corruption in malloc chain!" else s
      some (kmallocTake ptr (kmallocReuse L bytes ptr s))

def kfree (p : U32) (s : Heap) : Heap :=
  if p = 0 then s
  else
    let ptr := p - headLen
    let s := if headMagic s.mem ptr != 0xBEEF
      then s.panic "Attempt to free corrupt/non existent block!" else s
    { s with
      mem := s.mem.store8 (ptr + 16) (headState s.mem ptr &&& 0)
      usedBlocks := s.usedBlocks - 1 }

/-- The blocks of `k_malloc_chain`, in chain order. -/
def chainBlocks (L : HeapLayout) (m : Mem) : Option (List U32) :=
  nodes (listNext m) L.chain (2 ^ 32) (listNext m L.chain)

end LineOS
