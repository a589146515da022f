import TerraOS.Utils
import TerraOS.Lib.Bits

/-! pmm.c: the page frame allocator.

    One bit per page of physical memory, packed into the array `mem_bitmap`: set is used, clear is free.
    `pmm_init` sizes the array from the firmware's memory map and takes it from the bootstrap pool,
    marks everything used, frees the pages of the usable entries, and marks the kernel window used
    again. The array is modelled by its bytes, apart from the rest of memory, which is what it is as
    long as it fits the pool pages taken for it. -/

namespace TerraOS.Pmm
open Lib Lib.Word

/-- `mem_bitmap` (its bytes), `mem_bitmap_size`, `mem_bitmap_bit_size`. -/
structure Pmm where
  memBitmap : Mem
  memBitmapSize : ℕ
  memBitmapBitSize : ℕ

/-- Page `i` is marked used. -/
def Pmm.used (p : Pmm) (i : ℕ) : Bool := Bits.bit p.memBitmap i

/-! ### Allocation -/

/-- The loop of `pmm_alloc` from page `i`, with `n` pages left: the first page whose bit is clear. -/
def scan (bm : Mem) : ℕ → ℕ → Option ℕ
  | 0, _ => none
  | n + 1, i => if Bits.test bm i = 0 then some i else scan bm n (i + 1)

def pmmAlloc (p : Pmm) : ℕ × Pmm :=
  match scan p.memBitmap p.memBitmapBitSize 0 with
  | some i => (mul64 i PAGE_SIZE, { p with memBitmap := Bits.set p.memBitmap i })
  | none => (0, p)

def pmmFree (p : Pmm) (block : ℕ) : Pmm :=
  let pageIndex := block / PAGE_SIZE
  if pageIndex ≥ p.memBitmapBitSize then p
  else { p with memBitmap := Bits.clear p.memBitmap pageIndex }

/-! ### Initialisation -/

/-- `bios_mmap_entry`, less the field no code reads. -/
structure MmapEntry where
  baseAddr : ℕ
  length : ℕ
  type : ℕ
  deriving DecidableEq, Repr

/-- `(x + PAGE_SIZE - 1) / PAGE_SIZE`. -/
def pagesUp (x : ℕ) : ℕ := sub64 (add64 x PAGE_SIZE) 1 / PAGE_SIZE

/-- `last_usable_end` after the first loop. -/
def lastUsableEnd (mmap : List MmapEntry) : ℕ :=
  mmap.foldl (fun last e =>
    if e.type = 1 then
      if add64 e.baseAddr e.length > last then add64 e.baseAddr e.length else last
    else last) 0

/-- Clear the bits `i, i + 1, ..` of `n` pages. -/
def clearPages (bm : Mem) : ℕ → ℕ → Mem
  | 0, _ => bm
  | n + 1, i => clearPages (Bits.clear bm i) n (i + 1)

/-- Set the bits `i, i + 1, ..` of `n` pages. -/
def setPages (bm : Mem) : ℕ → ℕ → Mem
  | 0, _ => bm
  | n + 1, i => setPages (Bits.set bm i) n (i + 1)

/-- The body of the loop that marks usable memory free. -/
def freeEntry (last : ℕ) (bm : Mem) (e : MmapEntry) : Mem :=
  if e.type ≠ 1 then bm
  else if e.baseAddr > last then bm
  else clearPages bm (pagesUp (add64 e.baseAddr e.length) - pagesUp e.baseAddr) (pagesUp e.baseAddr)

/-- The state `pmm_init` leaves: `mem_bitmap` as a pointer, `next_free`, and the allocator. -/
structure Booted where
  memBitmapPtr : ℕ
  nextFree : ℕ
  pmm : Pmm

/-- `pmm_init`; `bm` is what memory held at the bitmap before. -/
def pmmInit (nextFree : ℕ) (bm : Mem) (mmap : List MmapEntry) : Booted :=
  let last := lastUsableEnd mmap
  let numPages := pagesUp last
  let memBitmapSize := add64 numPages 7 / 8
  let pageCount := pagesUp memBitmapSize
  let page := allocPage nextFree
  let nextFree := allocPages (sub64 pageCount 1) page.2
  let bm := fillBytes bm 0 memBitmapSize 0xFF
  let bm := mmap.foldl (freeEntry last) bm
  let bm := setPages bm (pagesUp (KERNEL_END - KERNEL_BASE)) 0
  ⟨page.1, nextFree, ⟨bm, memBitmapSize, numPages⟩⟩

end TerraOS.Pmm
