import TerraOS.Pmm.Init
import TerraOS.Lib.Radix

/-! vmm.c, and the page-table part of kernel.c: the machine whose page tables the kernel edits.

    The machine has byte-addressed physical memory, `CR3`, the kernel's global `pml4t` pointer and the
    frame allocator. Kernel code reaches physical memory only through a virtual address, translated by
    the four-level walk from `CR3`:

      63      48 47    39 38    30 29    21 20    12 11         0
      | sign    | PML4   | PDPT   | PD     | PT     | offset     |

    The kernel runs in ring 0 with `CR0.WP` clear, so an access asks only that the entries are present.
    An access that finds an entry absent, or whose address is not canonical, faults. The bitmap of the
    allocator is kept apart from the physical memory it lies in: its pages are pool pages, which no
    page table and no frame the allocator hands out shares. -/

namespace TerraOS.Vmm
open Lib Lib.Word Pmm

abbrev TEMP_PAGE : ℕ := 0xFFFFFFFF801FF000

/-! ### Entries and tables -/

/-- The page number an entry holds. -/
def frame (e : ℕ) : ℕ := (e &&& PAGE_MASK) / PAGE_SIZE

/-- The page an entry links, if it is present. -/
def child (e : ℕ) : Option ℕ := if e &&& 0x1 = 0 then none else some (frame e)

/-- A table has entries, so that numerals name them. -/
instance neZero_entries : NeZero 512 := ⟨by decide⟩

/-- Entry `i` of the table in page `n`. -/
def ents (m : Mem) (n : ℕ) (i : Fin 512) : ℕ := m.load64 (n * 4096 + 8 * i)

/-- `(va >> k) & 0x1FF`. -/
def index (k va : ℕ) : Fin 512 := ⟨(va >>> k) &&& 0x1FF, Nat.lt_succ_of_le Nat.and_le_right⟩

/-- The indices of the three upper levels. -/
def path (va : ℕ) : List (Fin 512) := [index 39 va, index 30 va, index 21 va]

/-- The present entry at index `i` of the table at path `p`. -/
def entryAt (m : Mem) (root : ℕ) (p : List (Fin 512)) (i : Fin 512) : Option ℕ :=
  (Radix.node child (ents m) root p).bind fun n =>
    if ents m n i &&& 0x1 = 0 then none else some (ents m n i)

/-- The hardware walk: the leaf entry of `va`, if the walk gets to a present one. -/
def walk (m : Mem) (root va : ℕ) : Option ℕ := entryAt m root (path va) (index 12 va)

/-- Bits 63..47 of the address are equal. -/
def Canonical (va : ℕ) : Prop := va < 2 ^ 47 ∨ (2 ^ 64 - 2 ^ 47 ≤ va ∧ va < 2 ^ 64)

instance (va : ℕ) : Decidable (Canonical va) := inferInstanceAs (Decidable (_ ∨ _))

/-! ### The machine -/

structure Machine where
  phys : Mem
  cr3 : ℕ
  pml4t : ℕ
  pmm : Pmm

inductive Fault where
  | access (va : ℕ)
  | panic (message : String)
  deriving DecidableEq, Repr

/-- How a kernel function stops short: the fault, and the machine as it was then. -/
structure Stop where
  fault : Fault
  machine : Machine

namespace Machine

/-- The page of the active PML4. -/
def root (s : Machine) : ℕ := frame s.cr3

/-- The physical address behind a virtual one. -/
def translate (s : Machine) (va : ℕ) : Option ℕ :=
  if Canonical va then (walk s.phys s.root va).map fun e => (e &&& PAGE_MASK) + va % 4096 else none

def load8 (s : Machine) (va : ℕ) : Except Stop UInt8 :=
  match s.translate va with
  | some x => .ok (s.phys x)
  | none => .error ⟨.access va, s⟩

def store8 (s : Machine) (va : ℕ) (b : UInt8) : Except Stop Machine :=
  match s.translate va with
  | some x => .ok { s with phys := s.phys.store8 x b }
  | none => .error ⟨.access va, s⟩

/-- Load of an aligned 64-bit word. -/
def load64 (s : Machine) (va : ℕ) : Except Stop ℕ :=
  match s.translate va with
  | some x => .ok (s.phys.load64 x)
  | none => .error ⟨.access va, s⟩

/-- Store of an aligned 64-bit word. -/
def store64 (s : Machine) (va v : ℕ) : Except Stop Machine :=
  match s.translate va with
  | some x => .ok { s with phys := s.phys.store64 x v }
  | none => .error ⟨.access va, s⟩

end Machine

/-- The memory that `memcpy` and `memset` run on. -/
def pagedBus : Bus Machine Stop := ⟨Machine.load8, Machine.store8⟩

/-- `&table[i]` for a pointer to 64-bit entries. -/
def slot (table : ℕ) (i : Fin 512) : ℕ := add64 table (8 * i)

/-! ### vmm.c -/

/-- `temp_map`: point the leaf of `TEMP_PAGE` at a physical page. -/
def tempMap (s : Machine) (physicalAddress : ℕ) : Except Stop Machine := do
  let pdpt := add64 ((← s.load64 (slot s.pml4t (index 39 TEMP_PAGE))) &&& PAGE_MASK) KERNEL_BASE
  let pd := add64 ((← s.load64 (slot pdpt (index 30 TEMP_PAGE))) &&& PAGE_MASK) KERNEL_BASE
  let pt := add64 ((← s.load64 (slot pd (index 21 TEMP_PAGE))) &&& PAGE_MASK) KERNEL_BASE
  s.store64 (slot pt (index 12 TEMP_PAGE)) (physicalAddress ||| 0x13)

/-- The block `map_page` has three times over, once for each upper level: bring the table that entry
    `i` of `table` links under `TEMP_PAGE`, making a zeroed one if the entry is absent. -/
def nextTable (s : Machine) (table : ℕ) (i : Fin 512) (flags : ℕ) : Except Stop Machine := do
  let entry ← s.load64 (slot table i)
  if entry &&& 0x1 = 0 then
    let check := pmmAlloc s.pmm
    let s := { s with pmm := check.2 }
    if check.1 = 0 then .error ⟨.panic "Out of physical memory for page table!", s⟩
    else
      let s ← s.store64 (slot table i) (check.1 ||| flags ||| 0x1)
      let s ← tempMap s check.1
      memset pagedBus s TEMP_PAGE 0 0x1000
  else tempMap s (entry &&& PAGE_MASK)

/-- `map_page`; `ctx` is the pointer `ctx.pml4t`. -/
def mapPage (s : Machine) (ctx virtualAddress physicalAddress flags : ℕ) : Except Stop Machine := do
  let s ← nextTable s ctx (index 39 virtualAddress) flags
  let s ← nextTable s TEMP_PAGE (index 30 virtualAddress) flags
  let s ← nextTable s TEMP_PAGE (index 21 virtualAddress) flags
  s.store64 (slot TEMP_PAGE (index 12 virtualAddress)) (physicalAddress ||| flags)

/-- The scan of `unmap_page`: is no entry from `i` on present? `n` entries are left. -/
def emptyFrom (s : Machine) (table : ℕ) : ℕ → ℕ → Except Stop Bool
  | 0, _ => .ok true
  | n + 1, i => do
    let entry ← s.load64 (add64 table (8 * i))
    if entry &&& 0x1 ≠ 0 then .ok false else emptyFrom s table n (i + 1)

/-- The block `unmap_page` has three times over: free a table if it is empty. -/
def freeIfEmpty (s : Machine) (phys : ℕ) : Except Stop Machine := do
  let s ← tempMap s phys
  if ← emptyFrom s TEMP_PAGE 512 0 then .ok { s with pmm := pmmFree s.pmm phys } else .ok s

/-- `unmap_page`. -/
def unmapPage (s : Machine) (ctx virtualAddress : ℕ) : Except Stop Machine := do
  let pdptPhys := (← s.load64 (slot ctx (index 39 virtualAddress))) &&& PAGE_MASK
  let s ← tempMap s pdptPhys
  let pdPhys := (← s.load64 (slot TEMP_PAGE (index 30 virtualAddress))) &&& PAGE_MASK
  let s ← tempMap s pdPhys
  let ptPhys := (← s.load64 (slot TEMP_PAGE (index 21 virtualAddress))) &&& PAGE_MASK
  let s ← tempMap s ptPhys
  let pte := (← s.load64 (slot TEMP_PAGE (index 12 virtualAddress))) &&& PAGE_MASK
  let s ← s.store64 (slot TEMP_PAGE (index 12 virtualAddress)) 0
  let s := { s with pmm := pmmFree s.pmm pte }
  let s ← freeIfEmpty s ptPhys
  let s ← freeIfEmpty s pdPhys
  freeIfEmpty s pdptPhys

/-- `get_physical_address`: the address, and the machine with `TEMP_PAGE` moved. -/
def getPhysicalAddress (s : Machine) (ctx virtualAddress : ℕ) : Except Stop (ℕ × Machine) := do
  let pdptPhys := (← s.load64 (slot ctx (index 39 virtualAddress))) &&& PAGE_MASK
  let s ← tempMap s pdptPhys
  let pdPhys := (← s.load64 (slot TEMP_PAGE (index 30 virtualAddress))) &&& PAGE_MASK
  let s ← tempMap s pdPhys
  let ptPhys := (← s.load64 (slot TEMP_PAGE (index 21 virtualAddress))) &&& PAGE_MASK
  let s ← tempMap s ptPhys
  let pte ← s.load64 (slot TEMP_PAGE (index 12 virtualAddress))
  .ok (add64 (pte &&& PAGE_MASK) (virtualAddress &&& 0xFFF), s)

/-! ### kernel.c -/

def v2p (v : ℕ) : ℕ := sub64 v KERNEL_BASE

/-- The loop of `paging_init` that fills the page table with the first 2 MiB. -/
def identityTable (m : Mem) (pt : ℕ) : Mem :=
  (List.range 512).foldl (fun m i => m.store64 (pt + 8 * i) (i * PAGE_SIZE ||| 0x03)) m

/-- What `paging_init` leaves: the memory, the pointer `pml4t` and `next_free`. -/
structure PagingTables where
  phys : Mem
  pml4t : ℕ
  nextFree : ℕ

/-- `paging_init`. It runs on the bootloader's tables, under which the kernel window is the first 2 MiB
    of physical memory; a pool that is used up gives `NULL`, which they do not map. -/
def pagingInit (m : Mem) (nextFree : ℕ) : Option PagingTables :=
  let pml4t := allocPage nextFree
  let pdpt := allocPage pml4t.2
  let pdt := allocPage pdpt.2
  let pt := allocPage pdt.2
  if pml4t.1 = 0 ∨ pdpt.1 = 0 ∨ pdt.1 = 0 ∨ pt.1 = 0 then none
  else
    let m := fillBytes m (v2p pml4t.1) PAGE_SIZE 0
    let m := fillBytes m (v2p pdpt.1) PAGE_SIZE 0
    let m := fillBytes m (v2p pdt.1) PAGE_SIZE 0
    let m := fillBytes m (v2p pt.1) PAGE_SIZE 0
    let m := m.store64 (v2p pml4t.1 + 8 * 511) (v2p pdpt.1 ||| 0x03)
    let m := m.store64 (v2p pdpt.1 + 8 * 510) (v2p pdt.1 ||| 0x03)
    let m := m.store64 (v2p pdt.1 + 8 * 0) (v2p pt.1 ||| 0x03)
    some ⟨identityTable m (v2p pt.1), pml4t.1, pt.2⟩

/-- `next_free` when `kernel_main` comes to `paging_init`: the stack page and the pages of the memory
    map (24 bytes an entry) are taken. -/
def bootNextFree (mmap : List MmapEntry) : ℕ :=
  allocPages (pagesUp (24 * mmap.length)) (allocPage POOL_START).2

/-- `kernel_main` through `paging_init` and `pmm_init`, on memory `m` (`bm` where the bitmap will lie).
    A bitmap that does not fit the rest of the pool runs into `TEMP_PAGE` or off the window; no machine
    comes of that. -/
def boot (m bm : Mem) (mmap : List MmapEntry) : Option Machine := do
  let tables ← pagingInit m (bootNextFree mmap)
  let b := pmmInit tables.nextFree bm mmap
  if b.memBitmapPtr ≠ 0 ∧ b.memBitmapPtr + b.pmm.memBitmapSize ≤ POOL_END then
    some ⟨tables.phys, v2p tables.pml4t, tables.pml4t, b.pmm⟩
  else none

/-- The part of `struct task` that the loader uses. -/
structure Task where
  pml4t : ℕ

/-- `kernel_main` from the task's setup to the load of `CR3`. -/
def startTask (s : Machine) : Except Stop (Machine × Task) := do
  let tmp := pmmAlloc s.pmm
  let s := { s with pmm := tmp.2 }
  let pml4t := add64 tmp.1 KERNEL_BASE
  let s ← mapPage s s.pml4t pml4t tmp.1 0x3
  let s ← memcpy pagedBus s pml4t s.pml4t 0x1000
  let a ← getPhysicalAddress s s.pml4t pml4t
  .ok ({ a.2 with cr3 := a.1 }, ⟨pml4t⟩)

end TerraOS.Vmm
