import TerraOS.Pmm.Init

/-! What `pmm_init` keeps of the usable memory.

    A page whose first byte an entry covers is freed by that entry, however the rest of the page is shared
    out, so no wholly usable page is lost. Each entry clears only pages below its own end, which is at
    most `last_usable_end`: no write leaves the bitmap and no padding bit is cleared. The order of the
    entries shows nowhere, because the size is a maximum and a bit is cleared by whichever entry frees
    it. -/

namespace TerraOS.Pmm
open Lib Lib.Word

/-! ### The writes of the freeing loops -/

/-- The pages that the inner loop visits for one entry, in order. -/
def freedPages (last : ℕ) (e : MmapEntry) : List ℕ :=
  if e.type ≠ 1 then []
  else if e.baseAddr > last then []
  else List.range' (pagesUp e.baseAddr) (pagesUp (add64 e.baseAddr e.length) - pagesUp e.baseAddr)

theorem clearPages_eq (bm : Mem) : ∀ n i : ℕ, clearPages bm n i = (List.range' i n).foldl Bits.clear bm
  | 0, _ => rfl
  | n + 1, i => by rw [clearPages, clearPages_eq, List.range'_succ, List.foldl_cons]

/-- The two loops are one sequence of writes. -/
theorem freeEntries_eq (last : ℕ) (mmap : List MmapEntry) (bm : Mem) :
    mmap.foldl (freeEntry last) bm = (mmap.flatMap (freedPages last)).foldl Bits.clear bm := by
  induction mmap generalizing bm with
  | nil => rfl
  | cons e mmap ih =>
    have he : freeEntry last bm e = (freedPages last e).foldl Bits.clear bm := by
      unfold freeEntry freedPages
      split_ifs
      · rfl
      · rfl
      · exact clearPages_eq ..
    rw [List.foldl_cons, ih, he, List.flatMap_cons, List.foldl_append]

/-- Every page visited is below the number of pages. -/
theorem freedPages_lt {mmap : List MmapEntry} (hp : Physical mmap) {e : MmapEntry} (he : e ∈ mmap) {i : ℕ}
    (hi : i ∈ freedPages (lastUsableEnd mmap) e) : i < pagesUp (lastUsableEnd mmap) := by
  obtain ⟨hl, hmax⟩ := lastUsableEnd_spec hp
  have hpe := hp e he
  unfold freedPages at hi
  split_ifs at hi with h1 h2
  · cases hi
  · cases hi
  · have hstop := hmax e he (not_not.mp h1)
    rw [List.mem_range'_1, add64_of_lt (by omega), pagesUp_eq (by omega), pagesUp_eq hpe] at hi
    rw [pagesUp_eq hl]
    unfold MmapEntry.stop at hstop
    omega

/-! ### The order of the entries -/

theorem lastUsableEnd_perm {mmap mmap' : List MmapEntry} (h : mmap.Perm mmap') :
    lastUsableEnd mmap = lastUsableEnd mmap' := by
  unfold lastUsableEnd
  refine h.foldl_eq' (fun d _ e _ last => ?_) 0
  split_ifs <;> omega

/-- Bit `j` after `pmm_init`, inside the bitmap or not. -/
theorem pmmInit_bit {mmap : List MmapEntry} (hp : Physical mmap) (nextFree : ℕ) (bm : Mem) (j : ℕ) :
    (pmmInit nextFree bm mmap).pmm.used j = false ↔ 512 ≤ j ∧ ((∃ e ∈ mmap, e.Frees j) ∨
      Bits.bit (fillBytes bm 0 (add64 (pagesUp (lastUsableEnd mmap)) 7 / 8) 0xFF) j = false) := by
  have hk : pagesUp (KERNEL_END - KERNEL_BASE) = 512 := by decide
  simp only [pmmInit, Pmm.used, hk, bit_setPages, Bool.or_eq_false_iff, decide_eq_false_iff_not,
    bit_freeEntries mmap _ hp (lastUsableEnd_spec hp).2]
  have hlt : ¬ (0 ≤ j ∧ j < 0 + 512) ↔ 512 ≤ j := by omega
  rw [hlt]

theorem pmmInit_perm {mmap mmap' : List MmapEntry} (hp : Physical mmap) (h : mmap.Perm mmap')
    (nextFree : ℕ) (bm : Mem) : (pmmInit nextFree bm mmap').pmm = (pmmInit nextFree bm mmap).pmm := by
  have hp' : Physical mmap' := fun e he => hp e (h.mem_iff.mpr he)
  have hlast := lastUsableEnd_perm h
  have hbits : (pmmInit nextFree bm mmap').pmm.memBitmap = (pmmInit nextFree bm mmap).pmm.memBitmap := by
    refine Bits.ext fun j => ?_
    have hex : (∃ e ∈ mmap', e.Frees j) ↔ ∃ e ∈ mmap, e.Frees j := by simp only [h.mem_iff]
    have hiff := pmmInit_bit hp' nextFree bm j
    rw [← hlast, hex, ← pmmInit_bit hp nextFree bm j] at hiff
    exact Bool.eq_iff_iff.mpr (by simpa [Pmm.used] using not_congr hiff)
  have hsize : (pmmInit nextFree bm mmap').pmm.memBitmapSize = (pmmInit nextFree bm mmap).pmm.memBitmapSize := by
    simp only [pmmInit, hlast]
  have hbitSize : (pmmInit nextFree bm mmap').pmm.memBitmapBitSize =
      (pmmInit nextFree bm mmap).pmm.memBitmapBitSize := by
    simp only [pmmInit, hlast]
  generalize (pmmInit nextFree bm mmap').pmm = q at *
  generalize (pmmInit nextFree bm mmap).pmm = p at *
  obtain ⟨_, _, _⟩ := p
  obtain ⟨_, _, _⟩ := q
  simp only at hbits hsize hbitSize
  rw [hbits, hsize, hbitSize]

/-! ### Nothing is lost -/

/-- CORRECT: for every memory map whose entries end at or below `2^52`, `pmm_init` frees every wholly
    usable page from page 512 on, keeps the pages below and the padding of the last byte used, writes
    inside the bitmap while it frees, and does not depend on the order of the entries. -/
theorem pmmInit_keeps_usable {mmap : List MmapEntry} (hp : Physical mmap) (nextFree : ℕ) (bm : Mem)
    (p : Pmm) (hb : (pmmInit nextFree bm mmap).pmm = p) :
    (∀ i, 512 ≤ i → (∀ x, InPage i x → ∃ e ∈ mmap, e.type = 1 ∧ e.Covers x) →
      i < p.memBitmapBitSize ∧ p.used i = false) ∧
    (∀ i < 512, p.used i = true) ∧
    (∀ i, p.memBitmapBitSize ≤ i → i < 8 * p.memBitmapSize → p.used i = true) ∧
    (p.memBitmap = setPages ((mmap.flatMap (freedPages (lastUsableEnd mmap))).foldl Bits.clear
        (fillBytes bm 0 p.memBitmapSize 0xFF)) 512 0 ∧
      ∀ i ∈ mmap.flatMap (freedPages (lastUsableEnd mmap)), i / 8 < p.memBitmapSize) ∧
    ∀ mmap', mmap.Perm mmap' → (pmmInit nextFree bm mmap').pmm = p := by
  subst hb
  obtain ⟨hl, hmax⟩ := lastUsableEnd_spec hp
  have hbits : (pmmInit nextFree bm mmap).pmm.memBitmapBitSize = pagesUp (lastUsableEnd mmap) := rfl
  have hbytes : (pmmInit nextFree bm mmap).pmm.memBitmapSize = (pagesUp (lastUsableEnd mmap) + 7) / 8 := by
    show add64 (pagesUp (lastUsableEnd mmap)) 7 / 8 = _
    rw [add64_of_lt (by rw [pagesUp_eq hl]; omega)]
  refine ⟨fun i h512 hcov => ?_, fun i hi => ?_, fun i h1 h2 => ?_, ⟨?_, fun i hi => ?_⟩,
    fun mmap' h => pmmInit_perm hp h nextFree bm⟩
  · -- the entry that covers the first byte of the page frees it
    obtain ⟨e, he, ht, h1, h2⟩ := hcov (i * 4096) ⟨le_rfl, by omega⟩
    have hf : e.Frees i := by
      unfold MmapEntry.Frees MmapEntry.firstPage MmapEntry.stopPage MmapEntry.stop
      exact ⟨ht, by omega, by omega⟩
    have hlt := frees_lt hp nextFree bm he hf
    exact ⟨hlt, (pmmInit_free hp nextFree bm hlt).mpr ⟨h512, e, he, hf⟩⟩
  · by_contra hu
    rw [Bool.not_eq_true, pmmInit_bit hp] at hu
    omega
  · by_contra hu
    rw [Bool.not_eq_true, pmmInit_bit hp] at hu
    rw [hbytes] at h2
    rcases hu.2 with ⟨e, he, hf⟩ | hz
    · have := frees_lt hp nextFree bm he hf
      omega
    · rw [bit_fillBytes (by rw [add64_of_lt (by rw [pagesUp_eq hl]; omega)]; omega)] at hz
      cases hz
  · have hk : pagesUp (KERNEL_END - KERNEL_BASE) = 512 := by decide
    simp only [pmmInit, hk, freeEntries_eq]
  · obtain ⟨e, he, hie⟩ := List.mem_flatMap.mp hi
    have := freedPages_lt hp he hie
    rw [hbytes]
    omega

/-- On a machine with 64 MiB, with the entries in the order they come and in the opposite one. -/
theorem pmmInit_keeps_usable_small_machine :
    Physical smallMap ∧ (pmmInit POOL_START (fun _ => 0) smallMap).pmm.used 511 = true ∧
      (pmmInit POOL_START (fun _ => 0) smallMap.reverse).pmm =
        (pmmInit POOL_START (fun _ => 0) smallMap).pmm := by
  obtain ⟨_, hlow, _, _, hperm⟩ := pmmInit_keeps_usable smallMap_physical POOL_START (fun _ => 0) _ rfl
  exact ⟨smallMap_physical, hlow 511 (by decide), hperm _ smallMap.reverse_perm.symm⟩

end TerraOS.Pmm
