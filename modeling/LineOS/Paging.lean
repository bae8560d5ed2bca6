import LineOS.PageAlloc

/- Page tables: `__map_page`, `__unmap_page` and the entry accessors of `cpu/page.c`,
   the fault handler of `cpu/handler.c`, and the tables `start.asm` builds.

   Physical memory is frames of 1024 words. The processor translates an address
   by the two-level walk from the directory in `cr3`; the code reaches the tables
   only by addresses in the last 4 MB (`pd[index]`), which go through that same
   walk. An access whose address does not translate is `none`: a page fault.
   There is no TLB in the model, as if every `invlpg` did its work; and no access
   rights, since every entry the kernel makes has `P_WRITE`. -/
namespace LineOS
open ByteMemory

/-! Entries. -/

def pPresent : U32 := 1
def pWrite : U32 := 2
def pUser : U32 := 4

def present (e : U32) : Bool := e &&& pPresent != 0

/-- The frame an entry points to. -/
def frameOf (e : U32) : Nat := e.toNat / 4096

/-- Physical memory by frame and word, the directory's frame, and `k_sysmem`. -/
structure Machine where
  phys : Nat → Nat → U32
  cr3 : Nat
  sys : Sysmem

namespace Machine

/-- The directory entries. -/
def dir (m : Machine) (i : Nat) : U32 := m.phys m.cr3 i

def setWord (m : Machine) (f i : Nat) (w : U32) : Machine :=
  { m with phys := fun f' i' => if f' = f ∧ i' = i then w else m.phys f' i' }

/-- The processor's walk: the frame a page number is mapped to. -/
def walk (m : Machine) (page : Nat) : Option Nat :=
  if present (m.dir (page / 1024)) then
    let e := m.phys (frameOf (m.dir (page / 1024))) (page % 1024)
    if present e then some (frameOf e) else none
  else none

def load (m : Machine) (a : U32) : Option U32 :=
  (m.walk (a.toNat / 4096)).map fun f => m.phys f (a.toNat % 4096 / 4)

def store (m : Machine) (a w : U32) : Option Machine :=
  (m.walk (a.toNat / 4096)).map fun f => m.setWord f (a.toNat % 4096 / 4) w

end Machine

/-! The macros of `page.h`. -/

def getPe (table entry : U32) : U32 := table * 1024 + entry
def vaddrPte (a : U32) : U32 := (a >>> 12) &&& 0x3FF
def vaddrPde (a : U32) : U32 := (a >>> 22) &&& 0x3FF
def vaddrFromIndex (table entry : U32) : U32 := (table * 4096 + entry * 4) * 1024
def vaddrBase (pdIndex : U32) : U32 := pdIndex <<< 22

/-- `&k_addrspc.pd[index]` -/
def pdAddr (index : U32) : U32 := vaddrBase 1023 + 4 * index

/-! Accessors. -/

def pteAddr (v : U32) : U32 := pdAddr (getPe (vaddrPde v) (vaddrPte v))
def pdeAddr (v : U32) : U32 := pdAddr (getPe 1023 (vaddrPde v))

def getPageTableEntry (v : U32) (m : Machine) : Option U32 := m.load (pteAddr v)
def setPageTableEntry (v e : U32) (m : Machine) : Option Machine := m.store (pteAddr v) e
def getPageDirectoryEntry (v : U32) (m : Machine) : Option U32 := m.load (pdeAddr v)
def setPageDirectoryEntry (v e : U32) (m : Machine) : Option Machine := m.store (pdeAddr v) e

/-! `__map_page`. -/

/-- `memset` to zero from `a` on, a word at a time. -/
def zeroWords : Nat → U32 → Machine → Option Machine
  | 0, _, m => some m
  | n + 1, a, m => (m.store a 0).bind (zeroWords n (a + 4))

/-- The branch that makes a page table. A failed `alloc_pages` panics, and goes on
with frame 0. -/
def newTable (v : U32) (m : Machine) : Option Machine :=
  let (pt, sys) := allocPages 1 zoneNormal m.sys
  let sys := if pt = 0 then sys.panic "Unable to alloc_pages while mapping page!\n" else sys
  (setPageDirectoryEntry v (pt ||| pPresent ||| pWrite) { m with sys := sys }).bind
    (zeroWords 1024 (vaddrFromIndex 1023 (vaddrPde v)))

def mapPage (p v : U32) (m : Machine) : Option (U32 × Machine) :=
  if p.toNat % 4096 ≠ 0 ∨ v.toNat % 4096 ≠ 0 then some (0, m)
  else
    (getPageDirectoryEntry v m).bind fun pt =>
      (if pt = 0 then newTable v m else some m).bind fun m =>
        (getPageTableEntry v m).bind fun e =>
          if e ≠ 0 then some (0, m)
          else (setPageTableEntry v (p ||| pPresent ||| pWrite ||| pUser) m).map fun m => (v, m)

/-! Page faults. -/

/-- `page_fault`, for the faulting address in `cr2`: the frame it took, what
`__map_page` returned (the code drops both), and the machine. -/
def pageFault (a : U32) (m : Machine) : Option (U32 × U32 × Machine) :=
  let (phys, sys) := allocPages 1 zoneNormal m.sys
  let vbase : U32 := BitVec.ofNat 32 (a.toNat / 4096 * 4096)
  (mapPage phys vbase { m with sys := sys }).map fun r => (phys, r.1, r.2)

/-- An access outside the fault handler: if the address does not translate, the
handler runs and the access is tried again. -/
def touch (a : U32) (m : Machine) : Option Machine :=
  if (m.walk (a.toNat / 4096)).isSome then some m
  else (pageFault a m).bind fun r => if (r.2.2.walk (a.toNat / 4096)).isSome then some r.2.2 else none

/-! `__unmap_page`. -/

def unmapPage (v : U32) (m : Machine) : Option Machine :=
  if v = 0 then some m
  else
    (touch (pteAddr v) m).bind fun m =>
      (getPageTableEntry v m).bind fun e =>
        if e ||| pPresent ≠ 0 then (touch (pteAddr v) m).bind (setPageTableEntry v 0) else some m

/-! Start-up. -/

/-- The tables of `start.asm`: `_K_PD` in frame `pd`, `_I_PT` and `_K_PT` in the two
after it. -/
def startTables (pd : Nat) (phys : Nat → Nat → U32) : Nat → Nat → U32 := fun f i =>
  if f = pd then
    if i = 0 then BitVec.ofNat 32 ((pd + 1) * 4096) ||| pPresent ||| pWrite ||| pUser
    else if i = 0xC0000000 / (4096 * 1024) then BitVec.ofNat 32 ((pd + 2) * 4096) ||| pPresent ||| pWrite ||| pUser
    else if i = 1023 then BitVec.ofNat 32 (pd * 4096) ||| pPresent ||| pWrite ||| pUser
    else 0
  else if f = pd + 1 then BitVec.ofNat 32 (i * 4096) ||| pPresent ||| pWrite
  else if f = pd + 2 then BitVec.ofNat 32 (0x100000 + i * 4096) ||| pPresent ||| pWrite
  else phys f i

/-- The cleaning loop of `init_paging`. -/
def cleanPages (cleanTo : U32) : Nat → U32 → Machine → Option Machine
  | 0, _, _ => none
  | fuel + 1, cp, m =>
    if cp < cleanTo then (unmapPage cp m).bind (cleanPages cleanTo fuel (cp + 4096)) else some m

/-- One step more than there are pages: no loop over pages takes longer. -/
def pageFuel : Nat := 1048577

/-- The end of the 4 MB region `cleanFrom` lies in. -/
def cleanEnd (cleanFrom : U32) : U32 :=
  cleanFrom + (((cleanFrom / 0x400000) * 0x400000 + 0x400000) - cleanFrom)

/-- `init_paging`, for a kernel image of `k` pages. `raw` is what memory holds where
the bitmap will lie. -/
def initPaging (k : Nat) (raw : Nat → U8) (m : Machine) : Option Machine :=
  let kernelStart : U32 := 0xC0000000
  let kernelEnd : U32 := 0xC0000000 + BitVec.ofNat 32 (k * 4096)
  let sys := initSysmem (32 * 1024) kernelStart kernelEnd raw
  (getPageTableEntry kernelStart m).bind fun startEntry =>
    (getPageTableEntry kernelEnd m).bind fun endEntry =>
      let sys := initPageAllocator startEntry endEntry sys
      cleanPages (cleanEnd sys.kernelEnd) pageFuel sys.kernelEnd { m with sys := sys }

end LineOS
