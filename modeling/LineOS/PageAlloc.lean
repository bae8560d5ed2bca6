import LineOS.Bitmap
import LineOS.RunSearch

/- The page frame allocator: the zone table of `init_paging`, `init_page_allocator`,
   `__get_zone`, `__mark_pages_used` and `alloc_pages` of `cpu/page.c`. A page is
   known by its number; the pages in use are the set bits of `k_page_bitmap`,
   and two counters are kept beside it, `free_pages` and each zone's `usedpages`.

   The bitmap's bytes lie behind the kernel image, in pages the allocator marks
   for itself; here they are a field of the state. The two page table entries
   `init_page_allocator` reads, of the kernel's start and of its end, are its
   arguments. As in the heap, `panic` records its message and returns. -/
namespace LineOS
open ByteMemory RunSearch

/-! Allocation flags. -/

def zoneDma : U32 := 1
def zoneNormal : U32 := 2
def zoneHighmem : U32 := 4

/-- `page_zone_t` -/
structure PageZone where
  allocationFlag : U32
  basePage : Nat
  endPage : Nat
  usedPages : U32

/-- `k_sysmem`, the table `k_page_zones` it points to, and `k_page_bitmap`. -/
structure Sysmem where
  kbInstalled : Nat
  totalPages : Nat
  freePages : U32
  zone : Nat → PageZone
  numZones : Nat
  kernelStart : U32
  kernelEnd : U32
  bitmap : Bitmap
  panics : List String

def Sysmem.panic (msg : String) (s : Sysmem) : Sysmem := { s with panics := msg :: s.panics }

/-! `init_paging`, up to the call of `init_page_allocator`. -/

/-- The zone table for `total` pages, and how many zones are defined. The third
entry stays as the loader zeroed it when there is no high memory. -/
def zoneTable (total : Nat) : (Nat → PageZone) × Nat :=
  let dma : PageZone := ⟨zoneDma, 0, 0xfff, 0⟩
  if total ≤ 0x36fff then
    (fun i => if i = 0 then dma else if i = 1 then ⟨zoneNormal, 0x1000, total, 0⟩ else ⟨0, 0, 0, 0⟩, 2)
  else
    (fun i => if i = 0 then dma else if i = 1 then ⟨zoneNormal, 0x1000, 0x36fff, 0⟩
      else if i = 2 then ⟨zoneHighmem, 0x37000, total, 0⟩ else ⟨0, 0, 0, 0⟩, 3)

/-- The globals when `init_page_allocator` is called. `raw` is what memory holds
behind the kernel, where the bitmap will lie. -/
def initSysmem (kb : Nat) (kernelStart kernelEnd : U32) (raw : Nat → U8) : Sysmem :=
  { kbInstalled := kb
    totalPages := kb / 4
    freePages := BitVec.ofNat 32 (kb / 4)
    zone := (zoneTable (kb / 4)).1
    numZones := (zoneTable (kb / 4)).2
    kernelStart := kernelStart
    kernelEnd := kernelEnd
    bitmap := ⟨raw, 0⟩
    panics := [] }

/-! `__get_zone` and `__mark_pages_used`. -/

/-- The loop of `__get_zone`: the first zone whose bounds hold the page. -/
def zoneAt (page : Nat) (s : Sysmem) : Option Nat :=
  (List.range s.numZones).find? (fun i => decide ((s.zone i).basePage ≤ page ∧ page ≤ (s.zone i).endPage))

def getZone (page : Nat) (s : Sysmem) : U32 × Sysmem :=
  match zoneAt page s with
  | some i => ((s.zone i).allocationFlag, s)
  | none => (0, s.panic "Zones are not properly defined!")

/-- The inner loop of `__mark_pages_used`: the zone with this flag, or the index
past the last one. -/
def zoneIndex (flag : U32) (s : Sysmem) : Nat :=
  ((List.range s.numZones).find? (fun j => flag == (s.zone j).allocationFlag)).getD s.numZones

/-- `usedpages++` in entry `j` of the table. -/
def countPage (j : Nat) (s : Sysmem) : Sysmem :=
  { s with zone := Function.update s.zone j { s.zone j with usedPages := (s.zone j).usedPages + 1 } }

def markPage (s : Sysmem) (i : Nat) : Sysmem :=
  let (flag, s) := getZone i s
  let s := countPage (zoneIndex flag s) s
  let (r, bitmap) := s.bitmap.bitset i
  let s := { s with bitmap := bitmap }
  if r = -1 then s.panic "Unable to set bit in bitmap!" else s

/-- The sum that bounds the loop is a `u32`. -/
def markPagesUsed (page pages : Nat) (s : Sysmem) : Sysmem :=
  let s := (List.range' page ((page + pages) % 2 ^ 32 - page)).foldl markPage s
  { s with freePages := s.freePages - BitVec.ofNat 32 pages }

/-! `alloc_pages`. -/

/-- The bounds of the first zone one of whose flags is asked for. -/
def zoneBounds (flags : U32) (s : Sysmem) : Nat × Nat :=
  match (List.range s.numZones).find? (fun i => flags &&& (s.zone i).allocationFlag != 0) with
  | some i => ((s.zone i).basePage, (s.zone i).endPage)
  | none => (0, 0)

def allocPages (pages flags : U32) (s : Sysmem) : U32 × Sysmem :=
  if pages = 0 then (0, s)
  else
    let (sp, ep) := zoneBounds flags s
    if s.totalPages < sp then (0, s)
    else
      let ep := if s.totalPages < ep then s.totalPages else ep
      if sp = 0 ∧ ep = 0 then (0, s)
      else
        let (chosen, pir) := scan (fun i => s.bitmap.bitget i == 0) pages.toNat (ep - sp) sp 0 0
        if pir ≠ pages.toNat then (0, s)
        else (BitVec.ofNat 32 (chosen * 4096), markPagesUsed chosen pages.toNat s)

/-! `init_page_allocator`. -/

/-- `PE_MASK_FLAGS` -/
def peMaskFlags (e : U32) : U32 := (e >>> 12) <<< 12

/-- The pages the bitmap takes. -/
def bitmapPages (limit : Nat) : Nat :=
  let pages := limit / 8 / 4096
  if limit / 8 % 4096 ≠ 0 then pages + 1 else pages

def initBitmap (s : Sysmem) : Sysmem :=
  { s with bitmap := Bitmap.init { s.bitmap with limit := s.kbInstalled / 4 } }

def initPageAllocator (startEntry endEntry : U32) (s : Sysmem) : Sysmem :=
  let s := initBitmap s
  let pages := bitmapPages s.bitmap.limit
  let kphysstart := peMaskFlags startEntry
  let kphysend := peMaskFlags endEntry
  let kpages := (kphysend - kphysstart).toNat / 4096
  let s := markPagesUsed (kphysstart.toNat / 4096) kpages s
  let s := markPagesUsed (kphysend.toNat / 4096) pages s
  let s := markPagesUsed 0 256 s
  { s with kernelEnd := s.kernelEnd + BitVec.ofNat 32 (pages * 4096) }

end LineOS
