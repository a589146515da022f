import TerraOS.Vmm.InitPt
import TerraOS.Vmm.Regions

/-! From the bootloader's tables to the kernel's.

    `init_pt` and `paging_init` build the kernel window independently, one by dwords and one through
    `v2p`. Both trees are one path of links with 512 leaves under it (`WindowTree`), and whatever has
    that shape maps the window to the first 2 MiB. The kernel's tree has nothing else in it. -/

namespace TerraOS.Vmm
open Lib Lib.Word Pmm

/-! ### The walk, with rights and large pages -/

/-- The walk from level `k` down: 3 is the PML4, 0 the page table. An entry with bit 7 set maps a large
    page in the two levels between. `w` says whether every entry passed is writable; reserved bits are
    not looked at. -/
def descend (m : Mem) (va : ℕ) : ℕ → ℕ → Bool → Option (ℕ × Bool)
  | 0, n, w =>
    let e := ents m n (index 12 va)
    if e &&& 0x1 = 0 then none else some (frame e * 4096 + va % 4096, w && decide (e &&& 0x2 ≠ 0))
  | k + 1, n, w =>
    let e := ents m n (index (12 + 9 * (k + 1)) va)
    let w := w && decide (e &&& 0x2 ≠ 0)
    if e &&& 0x1 = 0 then none
    else if k < 2 ∧ e &&& 0x80 ≠ 0 then
      let size := 2 ^ (12 + 9 * (k + 1))
      some (frame e * 4096 / size * size + va % size, w)
    else descend m va k (frame e) w

/-- What the tables under the PML4 in page `root` map `va` to, and whether it is writable. -/
def lookup (m : Mem) (root va : ℕ) : Option (ℕ × Bool) :=
  if Canonical va then descend m va 3 root true else none

/-- A present, writable entry for page `f`, with bit 7 clear. -/
structure Link (e f : ℕ) : Prop where
  present : e &&& 0x1 ≠ 0
  writable : e &&& 0x2 ≠ 0
  small : e &&& 0x80 = 0
  frame_eq : frame e = f

theorem link_three {g : ℕ} (h : g < 2 ^ 40) : Link (g * 4096 + 3) g := by
  have hor : g * 4096 + 3 = g * 4096 ||| 3 := (or_eq_add (k := 12) (by omega) (by decide)).symm
  rw [hor]
  refine ⟨?_, ?_, ?_, ?_⟩
  · rw [Nat.and_or_distrib_right]
    simp
  · rw [Nat.and_or_distrib_right]
    simp
  · rw [Nat.and_or_distrib_right]
    have h80 := Nat.and_two_pow (g * 4096) 7
    have hbit : (g * 4096).testBit 7 = false := by
      rw [show g * 4096 = g * 2 ^ 12 from rfl, Nat.testBit_mul_two_pow]
      simp
    rw [hbit] at h80
    simpa using h80
  · rw [frame_or (by decide), frame_page h]

section
variable {m : Mem} {va k n f : ℕ} {w : Bool}

theorem descend_absent (h : ents m n (index (12 + 9 * k) va) &&& 0x1 = 0) : descend m va k n w = none := by
  cases k with
  | zero => exact if_pos h
  | succ k => exact if_pos h

theorem descend_link (h : Link (ents m n (index (12 + 9 * (k + 1)) va)) f) :
    descend m va (k + 1) n w = descend m va k f w := by
  have hno : ¬ (k < 2 ∧ ents m n (index (12 + 9 * (k + 1)) va) &&& 0x80 ≠ 0) := fun hc => hc.2 h.small
  rw [descend]
  simp only [if_neg h.present, if_neg hno, h.frame_eq, decide_eq_true h.writable, Bool.and_true]

theorem descend_leaf (h : Link (ents m n (index 12 va)) f) :
    descend m va 0 n w = some (f * 4096 + va % 4096, w) := by
  rw [descend]
  simp only [if_neg h.present, h.frame_eq, decide_eq_true h.writable, Bool.and_true]

end

/-! ### The window's tree -/

/-- The path of links to a page table of 512 leaves: `r` the PML4, then `a`, `b`, `c`. -/
structure WindowTree (m : Mem) (r a b c : ℕ) : Prop where
  link4 : Link (ents m r 511) a
  link3 : Link (ents m a 510) b
  link2 : Link (ents m b 0) c
  leaf : ∀ i : Fin 512, Link (ents m c i) i

theorem WindowTree.lookup_eq {m : Mem} {r a b c va : ℕ} (W : WindowTree m r a b c) (h1 : KERNEL_BASE ≤ va)
    (h2 : va < KERNEL_END) : lookup m r va = some (va - KERNEL_BASE, true) := by
  obtain ⟨x, rfl⟩ := Nat.exists_eq_add_of_le h1
  have hx : x < 0x200000 := by simp only [KERNEL_BASE, KERNEL_END] at h2; omega
  have hpath := path_window hx
  simp only [path, List.cons.injEq, and_true] at hpath
  obtain ⟨i4, i3, i2⟩ := hpath
  rw [lookup, if_pos (canonical_window hx), descend_link (k := 2) (f := a) (by rw [i4]; exact W.link4),
    descend_link (k := 1) (f := b) (by rw [i3]; exact W.link3),
    descend_link (k := 0) (f := c) (by rw [i2]; exact W.link2), descend_leaf (W.leaf _), index_window hx]
  simp only [KERNEL_BASE, Option.some.injEq, Prod.mk.injEq, and_true]
  omega

/-- The three upper indices of an address in the window, and of no other canonical address. -/
theorem window_of_indices {va : ℕ} (hc : Canonical va) (h4 : (index 39 va : ℕ) = 511)
    (h3 : (index 30 va : ℕ) = 510) (h2 : (index 21 va : ℕ) = 0) : KERNEL_BASE ≤ va ∧ va < KERNEL_END := by
  rw [index_val] at h4 h3 h2
  unfold Canonical at hc
  simp only [KERNEL_BASE, KERNEL_END]
  omega

/-- Below the window's PDPT only the window's addresses are mapped, if nothing but its links is there. -/
theorem WindowTree.descend_outside {m : Mem} {r a b c va : ℕ} (W : WindowTree m r a b c) (hc : Canonical va)
    (h4 : (index 39 va : ℕ) = 511) (ha : ∀ i : Fin 512, (i : ℕ) ≠ 510 → ents m a i = 0)
    (hb : ∀ i : Fin 512, (i : ℕ) ≠ 0 → ents m b i = 0) (h : ¬ (KERNEL_BASE ≤ va ∧ va < KERNEL_END)) :
    descend m va 3 r true = none := by
  have e4 : index 39 va = 511 := Fin.ext h4
  rw [descend_link (k := 2) (f := a) (by rw [e4]; exact W.link4)]
  by_cases h3 : (index 30 va : ℕ) = 510
  · have e3 : index 30 va = 510 := Fin.ext h3
    rw [descend_link (k := 1) (f := b) (by rw [e3]; exact W.link3)]
    have h2 : (index 21 va : ℕ) ≠ 0 := fun h2 => h (window_of_indices hc h4 h3 h2)
    exact descend_absent (by rw [hb _ h2]; rfl)
  · exact descend_absent (by rw [ha _ h3]; rfl)

/-- `init_pt` builds the window, whatever memory held. -/
theorem BootTables.window {m m' : Mem} (B : BootTables m m') : WindowTree m' 1 2 3 4 := by
  refine ⟨?_, ?_, ?_, fun i => ?_⟩
  · rw [B.pml4]
    exact link_three (g := 2) (by decide)
  · rw [B.pdpt]
    exact link_three (g := 3) (by decide)
  · rw [B.pd]
    exact link_three (g := 4) (by decide)
  · rw [B.pt]
    exact link_three (by omega)

/-- An entry of `paging_init`. -/
theorem or_three (g : ℕ) : g * 4096 ||| 0x03 = g * 4096 + 3 := or_eq_add (k := 12) (by omega) (by decide)

/-- So does `paging_init`. -/
theorem FourTables.window {m : Mem} {n : ℕ} (T : FourTables m n) (hn : n < 511) :
    WindowTree m n (n + 1) (n + 2) (n + 3) := by
  refine ⟨?_, ?_, ?_, fun i => ?_⟩
  · rw [T.pml4, if_pos (show ((511 : Fin 512) : ℕ) = 511 from rfl), or_three]
    exact link_three (by omega)
  · rw [T.pdpt, if_pos (show ((510 : Fin 512) : ℕ) = 510 from rfl), or_three]
    exact link_three (by omega)
  · rw [T.pd, if_pos (show ((0 : Fin 512) : ℕ) = 0 from rfl), or_three]
    exact link_three (by omega)
  · rw [T.pt, or_three]
    exact link_three (by omega)

/-- And nothing else. -/
theorem FourTables.lookup_none {m : Mem} {n va : ℕ} (T : FourTables m n) (hn : n < 511)
    (h : ¬ (KERNEL_BASE ≤ va ∧ va < KERNEL_END)) : lookup m n va = none := by
  unfold lookup
  by_cases hc : Canonical va
  · rw [if_pos hc]
    by_cases h4 : (index 39 va : ℕ) = 511
    · exact (T.window hn).descend_outside hc h4 (fun i hi => by rw [T.pdpt, if_neg hi])
        (fun i hi => by rw [T.pd, if_neg hi]) h
    · exact descend_absent (by rw [T.pml4, if_neg h4]; rfl)
  · exact if_neg hc

/-! ### The pages -/

/-- What `n` calls of `alloc_page` return. -/
def allocResults : ℕ → ℕ → List ℕ
  | 0, _ => []
  | n + 1, nextFree => (allocPage nextFree).1 :: allocResults n (allocPage nextFree).2

theorem allocs_nextFree : ∀ (n : ℕ) (p : Pool), (p.allocs n).nextFree = allocPages n p.nextFree
  | 0, p => by rw [Pool.allocs, allocPages]
  | n + 1, p => by rw [Pool.allocs, allocs_nextFree n, allocPages, Pool.alloc]

theorem allocResults_poolPage : ∀ (n k : ℕ), k + n ≤ 478 →
    allocResults n (poolPage k) = (List.range' k n).map poolPage
  | 0, _, _ => rfl
  | n + 1, k, h => by
    rw [allocResults, allocPage_poolPage (by omega), if_pos (by omega), allocResults_poolPage n (k + 1) (by omega),
      List.range'_succ, List.map_cons]

/-- The first page `paging_init` takes: the stack and the memory map come before it. -/
theorem bootNextFree_eq {mmap : List MmapEntry} (hcount : mmap.length < 2 ^ 16) :
    ∃ n ≤ 384, 24 * mmap.length ≤ n * 4096 ∧ bootNextFree mmap = poolPage (1 + n) := by
  have hn : pagesUp (24 * mmap.length) = (24 * mmap.length + 4095) / 4096 := pagesUp_eq (by omega)
  obtain ⟨-, -, A₀⟩ := pool_start.alloc.resolve_right fun hr => absurd hr.1 (by decide)
  have A := A₀.allocs (n := pagesUp (24 * mmap.length))
  refine ⟨pagesUp (24 * mmap.length), by omega, by omega, ?_⟩
  have hnext := A.nextFree
  rw [allocs_nextFree, show min (0 + 1 + pagesUp (24 * mmap.length)) 478 = 1 + pagesUp (24 * mmap.length) by
    clear A A₀ hnext; omega] at hnext
  exact hnext

theorem pagingInit_poolPage {m : Mem} {k : ℕ} (h : k + 3 < 478) :
    ∃ t, pagingInit m (poolPage k) = some t ∧ t.pml4t = poolPage k := by
  have given : ∀ j < 478, allocPage (poolPage j) = (poolPage j, poolPage (j + 1)) := fun j hj => by
    rw [allocPage_poolPage (by omega), if_pos hj]
  simp only [pagingInit, given k (by omega), given (k + 1) (by omega), given (k + 1 + 1) (by omega),
    given (k + 1 + 1 + 1) (by omega), poolPage_ne, or_self, if_false]
  exact ⟨_, rfl, rfl⟩

/-- The pages that `paging_init` takes are there, apart from each other, and clear of the stack's page
    and the memory map. -/
structure PagesSound (mmap : List MmapEntry) (pages : List ℕ) : Prop where
  taken : pages.length = 4 ∧ ∀ p ∈ pages, p ≠ 0 ∧ p % PAGE_SIZE = 0 ∧ p + PAGE_SIZE ≤ POOL_END
  apart : pages.Pairwise fun p q => p + PAGE_SIZE ≤ q ∨ q + PAGE_SIZE ≤ p
  clear : ∀ p ∈ pages, STACK_PAGE + PAGE_SIZE ≤ p ∧ MMAP_ARRAY + 24 * mmap.length ≤ p

theorem pages_sound {mmap : List MmapEntry} {n : ℕ} (hn : n ≤ 384) (hlen : 24 * mmap.length ≤ n * 4096) :
    PagesSound mmap (allocResults 4 (poolPage (1 + n))) := by
  rw [allocResults_poolPage 4 (1 + n) (by omega)]
  have hmem : ∀ p ∈ (List.range' (1 + n) 4).map poolPage, ∃ k, 1 + n ≤ k ∧ k < 1 + n + 4 ∧ p = poolPage k := by
    intro p hp
    obtain ⟨k, hk, rfl⟩ := List.mem_map.mp hp
    obtain ⟨h1, h2⟩ := List.mem_range'_1.mp hk
    exact ⟨k, h1, h2, rfl⟩
  refine ⟨⟨by simp, fun p hp => ?_⟩, ?_, fun p hp => ?_⟩
  · obtain ⟨k, _, _, rfl⟩ := hmem p hp
    rw [poolPage_eq]
    simp only [PAGE_SIZE, POOL_END]
    omega
  · rw [List.pairwise_map]
    refine (List.pairwise_lt_range' (s := 1 + n) (n := 4)).imp fun {a b} hab => ?_
    rw [poolPage_eq, poolPage_eq]
    simp only [PAGE_SIZE]
    omega
  · obtain ⟨k, _, _, rfl⟩ := hmem p hp
    rw [poolPage_eq]
    simp only [STACK_PAGE, MMAP_ARRAY, PAGE_SIZE]
    omega

theorem v2p_window {va : ℕ} (h1 : KERNEL_BASE ≤ va) (h2 : va < KERNEL_END) : v2p va = va - KERNEL_BASE := by
  simp only [KERNEL_BASE, KERNEL_END] at h1 h2
  rw [v2p, sub64_of_le h1 (by omega)]

/-- CORRECT: for every memory map the bootloader can count, `paging_init` gets four sound pages, and the
    tables it builds there map every address of the kernel window as the bootloader's do, to `v2p` of
    it, and no other address; the pages below the pool, with the bootloader's tables, it leaves alone. -/
theorem handover_keeps_window (m m₂ : Mem) {mmap : List MmapEntry} (hcount : mmap.length < 2 ^ 16) :
    PagesSound mmap (allocResults 4 (bootNextFree mmap)) ∧
    ∃ t, pagingInit m₂ (bootNextFree mmap) = some t ∧
      (allocResults 4 (bootNextFree mmap)).head? = some t.pml4t ∧
      (∀ va, KERNEL_BASE ≤ va → va < KERNEL_END → v2p va = va - KERNEL_BASE ∧
        lookup (initPt m) 1 va = some (v2p va, true) ∧
        lookup t.phys (frame (v2p t.pml4t)) va = some (v2p va, true)) ∧
      (∀ va, ¬ (KERNEL_BASE ≤ va ∧ va < KERNEL_END) → lookup t.phys (frame (v2p t.pml4t)) va = none) ∧
      ∀ x < 0x20000, t.phys x = m₂ x := by
  have hpool := bootNextFree_inPool mmap
  obtain ⟨n, hn, hlen, hnext⟩ := bootNextFree_eq hcount
  rw [hnext] at hpool ⊢
  obtain ⟨t, ht, hptr⟩ := pagingInit_poolPage (m := m₂) (k := 1 + n) (by omega)
  obtain ⟨r, h32, h511, hr, -, T, hbytes⟩ := pagingInit_spec hpool ht
  have hroot : frame (v2p t.pml4t) = r := by
    rw [hr, v2p, sub64_of_le (by omega) (by simp only [KERNEL_BASE]; omega), Nat.add_sub_cancel_left,
      frame_page (by omega)]
  have hhead : (allocResults 4 (poolPage (1 + n))).head? = some t.pml4t := by
    rw [hptr, allocResults_poolPage 4 (1 + n) (by omega), List.range'_succ, List.map_cons, List.head?_cons]
  refine ⟨pages_sound hn hlen, t, ht, hhead, fun va h1 h2 => ?_, fun va hva => ?_,
    fun x hx => hbytes x (by omega)⟩
  · rw [hroot, v2p_window h1 h2]
    exact ⟨rfl, (initPt_tables m).window.lookup_eq h1 h2, (T.window (by omega)).lookup_eq h1 h2⟩
  · rw [hroot]
    exact T.lookup_none (by omega) hva

/-- A machine with 64 MiB, with whatever its memory held. -/
theorem handover_small_machine : smallMap.length < 2 ^ 16 ∧
    ∃ t, pagingInit (fun _ => 0) (bootNextFree smallMap) = some t ∧
      lookup t.phys (frame (v2p t.pml4t)) KERNEL_BASE = some (0, true) := by
  have hcount : smallMap.length < 2 ^ 16 := by decide
  obtain ⟨-, t, ht, -, hwindow, -⟩ := handover_keeps_window (fun _ => 0) (fun _ => 0) hcount
  refine ⟨hcount, t, ht, ?_⟩
  obtain ⟨hv, -, h⟩ := hwindow KERNEL_BASE (le_refl _) (by decide)
  rw [h, hv]
  rfl

end TerraOS.Vmm
