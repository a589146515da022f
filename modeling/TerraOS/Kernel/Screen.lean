import TerraOS.Vmm.Regions

/-! The screen.

    80 times 25 cells at `VGA_MEMORY`, in the window. `kernel_main` clears them once the heap is there. The
    pool that the kernel's regions come from goes right through them: its page 152 is the screen's. -/

namespace TerraOS.Kernel
open Lib Lib.Word Pmm Vmm

abbrev VGA_MEMORY : ℕ := KERNEL_BASE + 0xB8000

/-- What `kernel_main` clears. -/
def InScreen (x : ℕ) : Prop := VGA_MEMORY ≤ x ∧ x < VGA_MEMORY + 80 * 25 * 2

/-- No byte of a region is the screen's. -/
def OffScreen (r : Regions) : Prop := ∀ a ∈ r.all, ∀ x, a.1 ≤ x → x < a.2 → ¬ InScreen x

/-- The pool holds the regions in the pages before the screen. -/
def BeforeScreen (mmap : List MmapEntry) : Prop :=
  pagesUp (24 * mmap.length) + pagesUp (bitmapSize mmap) + 9 ≤ 152

section
variable {mmap : List MmapEntry} {r : Regions} {n b j : ℕ}

/-- The regions start on pages, and leave none of the pages before the end of the heap out. -/
theorem region_starts_page (P : Placed n (n + b + 5) r) (hroom : n + b + 9 ≤ 478)
    (hlen : (n - 1) * 4096 < 24 * r.mmapCount ∨ n = 0) (hsize : (b - 1) * 4096 < r.memBitmapSize) (hb : 0 < b)
    (hj : j < n + b + 9) : ∃ a ∈ r.all, a.1 ≤ poolPage j ∧ poolPage j < a.2 := by
  obtain ⟨hstart, hend, -⟩ := (P.heap.resolve_right fun h => by omega).2
  have ht := P.tables
  have hm := P.memBitmap
  unfold Regions.all
  generalize r.memBitmapSize = z at hsize
  generalize 24 * r.mmapCount = l at hlen
  rw [ht, hm, hstart, hend]
  clear P ht hm hstart hend
  simp only [poolPage_eq, PAGE_SIZE, STACK_PAGE, MMAP_ARRAY, List.exists_mem_cons_iff, List.not_mem_nil, false_and,
    exists_false, or_false]
  omega

theorem inScreen_first : InScreen (poolPage 152) := by
  rw [poolPage_eq]
  unfold InScreen
  decide

end

/-- BUG: the regions are clear of the screen for the memory maps whose regions take no more than the 152 pages of
    the pool before it, and for no others: with more usable memory the clearing of the screen meets the
    heap or the bitmap, although the pool holds them. -/
theorem offScreen_iff {mmap : List MmapEntry} {r : Regions} (hcount : mmap.length < 2 ^ 16) (hp : Physical mmap)
    (hpool : PoolHolds mmap) (hr : Vmm.kernelMain mmap = some r) : OffScreen r ↔ BeforeScreen mmap := by
  obtain ⟨hcnt, hsz, P⟩ := kernelMain_placed hr
  obtain ⟨hn, hlen, hsize, hbig, hpos⟩ := pages_bounds hcount hp
  obtain ⟨husable, hroom⟩ := hpool
  have hb := hpos.mp husable
  -- the last page of each of the two is begun
  have hbegun : ∀ x ≤ 2 ^ 52, (pagesUp x - 1) * 4096 < x ∨ pagesUp x = 0 := fun x hx => by
    rw [pagesUp_eq hx]
    omega
  have hlen' := hbegun (24 * mmap.length) (by omega)
  have hsize' := (hbegun (bitmapSize mmap) (by omega)).resolve_right hb.ne'
  unfold BeforeScreen
  generalize pagesUp (24 * mmap.length) = n at *
  generalize pagesUp (bitmapSize mmap) = b at *
  rw [← hcnt] at hlen hlen'
  rw [← hsz] at hsize hsize'
  rw [(pages_before_heap hn hbig).1 hb, Nat.min_eq_left (by omega)] at P
  constructor
  · intro hoff
    by_contra hlt
    obtain ⟨a, ha, h1, h2⟩ := region_starts_page P hroom hlen' hsize' hb (show 152 < n + b + 9 by omega)
    exact hoff a ha _ h1 h2 inScreen_first
  · intro hbefore a ha x _ h2 hx
    obtain ⟨-, hend⟩ := (P.bounds hroom hlen hsize).2.1 a ha
    rw [poolPage_eq] at hend
    unfold InScreen at hx
    simp only [VGA_MEMORY, KERNEL_BASE] at hx
    omega

/-- With 32 GiB the bitmap takes 256 pages of the pool. -/
theorem offScreen_iff_32GiB : ∃ r, Vmm.kernelMain [⟨0x100000, 0x7FFF00000, 1⟩] = some r ∧ r.Sound ∧ ¬ OffScreen r := by
  have hp : Physical [⟨0x100000, 0x7FFF00000, 1⟩] := by
    unfold Physical
    decide
  have hpool : PoolHolds [⟨0x100000, 0x7FFF00000, 1⟩] := by
    unfold PoolHolds
    decide
  have hscreen : ¬ BeforeScreen [⟨0x100000, 0x7FFF00000, 1⟩] := by
    unfold BeforeScreen
    decide
  obtain ⟨r, hr, hsound⟩ := regions_of_pool (by decide) hp hpool
  exact ⟨r, hr, hsound, fun hoff => hscreen ((offScreen_iff (by decide) hp hpool hr).mp hoff)⟩

end TerraOS.Kernel
