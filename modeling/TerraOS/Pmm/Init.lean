import TerraOS.Pmm.Frames

/-! What `pmm_init` marks free.

    The bitmap starts all used; each usable entry then clears the pages from its start rounded up to its
    end rounded up, and the kernel window is set again. The second rounding is the one to watch: a
    region that ends inside a page frees that page, whatever the rest of it is. Regions of other types
    are never looked at. `realRam_iff` says for which memory maps this comes out right. -/

namespace TerraOS.Pmm
open Lib Lib.Word

/-- `x` is a byte of the entry. -/
def MmapEntry.Covers (e : MmapEntry) (x : ℕ) : Prop :=
  e.baseAddr ≤ x ∧ x < e.baseAddr + e.length

/-- The end of the entry. -/
def MmapEntry.stop (e : MmapEntry) : ℕ := e.baseAddr + e.length

/-- The first page the entry frees. -/
def MmapEntry.firstPage (e : MmapEntry) : ℕ := (e.baseAddr + 4095) / 4096

/-- The page after the last one the entry frees. -/
def MmapEntry.stopPage (e : MmapEntry) : ℕ := (e.stop + 4095) / 4096

/-- The entry is usable and frees page `i`. -/
def MmapEntry.Frees (e : MmapEntry) (i : ℕ) : Prop :=
  e.type = 1 ∧ e.firstPage ≤ i ∧ i < e.stopPage

/-- What is assumed of the firmware: entries end at or below `2^52`. -/
def Physical (mmap : List MmapEntry) : Prop := ∀ e ∈ mmap, e.baseAddr + e.length ≤ 2 ^ 52

theorem pagesUp_eq {x : ℕ} (h : x ≤ 2 ^ 52) : pagesUp x = (x + 4095) / 4096 := by
  rw [pagesUp, add64_of_lt (by simp only [PAGE_SIZE]; omega),
    sub64_of_le (by simp only [PAGE_SIZE]; omega) (by simp only [PAGE_SIZE]; omega)]
  simp only [PAGE_SIZE]
  congr 1

/-! ### The loops -/

theorem bit_clearPages (j : ℕ) : ∀ (n i : ℕ) (bm : Mem),
    Bits.bit (clearPages bm n i) j = (!decide (i ≤ j ∧ j < i + n) && Bits.bit bm j)
  | 0, i, bm => by
    have : ¬ (i ≤ j ∧ j < i + 0) := by omega
    rw [decide_eq_false this]
    rfl
  | n + 1, i, bm => by
    rw [clearPages, bit_clearPages j n (i + 1), Bits.bit_clear]
    by_cases hj : j = i
    · simp [hj]
    · have : (i + 1 ≤ j ∧ j < i + 1 + n) ↔ (i ≤ j ∧ j < i + (n + 1)) := by omega
      rw [decide_eq_decide.mpr this, decide_eq_false hj]
      rfl

theorem bit_setPages (j : ℕ) : ∀ (n i : ℕ) (bm : Mem),
    Bits.bit (setPages bm n i) j = (decide (i ≤ j ∧ j < i + n) || Bits.bit bm j)
  | 0, i, bm => by
    have : ¬ (i ≤ j ∧ j < i + 0) := by omega
    rw [decide_eq_false this]
    rfl
  | n + 1, i, bm => by
    rw [setPages, bit_setPages j n (i + 1), Bits.bit_set]
    by_cases hj : j = i
    · simp [hj]
    · have : (i + 1 ≤ j ∧ j < i + 1 + n) ↔ (i ≤ j ∧ j < i + (n + 1)) := by omega
      rw [decide_eq_decide.mpr this, decide_eq_false hj]
      rfl

theorem bit_fillBytes {bm : Mem} {n j : ℕ} (h : j / 8 < n) :
    Bits.bit (fillBytes bm 0 n 0xFF) j = true := by
  have hones : ∀ k < 8, Nat.testBit 255 k = true := by decide
  rw [Bits.bit, fillBytes, if_pos ⟨by omega, by omega⟩]
  exact hones _ (by omega)

/-- The bound the first loop keeps: at least every usable end seen, at most `2^52`. -/
theorem lastUsableEnd_fold : ∀ (mmap : List MmapEntry) (last : ℕ), Physical mmap → last ≤ 2 ^ 52 →
    let r := mmap.foldl (fun last e =>
      if e.type = 1 then
        if add64 e.baseAddr e.length > last then add64 e.baseAddr e.length else last
      else last) last
    last ≤ r ∧ r ≤ 2 ^ 52 ∧ ∀ e ∈ mmap, e.type = 1 → e.stop ≤ r
  | [], last, _, hl => ⟨le_refl _, hl, by simp⟩
  | e :: mmap, last, hp, hl => by
    have he := hp e (by simp)
    have hadd : add64 e.baseAddr e.length = e.stop := add64_of_lt (by omega)
    have hp' : Physical mmap := fun d hd => hp d (List.mem_cons_of_mem _ hd)
    simp only [List.foldl_cons, hadd]
    generalize hn : (if e.type = 1 then if e.stop > last then e.stop else last else last) = next
    have hnext : last ≤ next ∧ next ≤ 2 ^ 52 ∧ (e.type = 1 → e.stop ≤ next) := by
      rw [← hn]
      unfold MmapEntry.stop
      split_ifs <;> simp_all <;> omega
    obtain ⟨h1, h2, h3⟩ := lastUsableEnd_fold mmap next hp' hnext.2.1
    refine ⟨le_trans hnext.1 h1, h2, fun d hd hd1 => ?_⟩
    rcases List.mem_cons.mp hd with rfl | hd
    · exact le_trans (hnext.2.2 hd1) h1
    · exact h3 d hd hd1

theorem lastUsableEnd_spec {mmap : List MmapEntry} (hp : Physical mmap) :
    lastUsableEnd mmap ≤ 2 ^ 52 ∧ ∀ e ∈ mmap, e.type = 1 → e.stop ≤ lastUsableEnd mmap :=
  (lastUsableEnd_fold mmap 0 hp (by decide)).2

/-- A usable entry clears its pages, any other entry nothing. -/
theorem bit_freeEntry {last j : ℕ} {bm : Mem} {e : MmapEntry} (hp : e.baseAddr + e.length ≤ 2 ^ 52)
    (hl : e.type = 1 → e.stop ≤ last) :
    Bits.bit (freeEntry last bm e) j = false ↔ e.Frees j ∨ Bits.bit bm j = false := by
  unfold freeEntry MmapEntry.Frees
  by_cases ht : e.type = 1
  · have hle := hl ht
    have hb : ¬ e.baseAddr > last := by unfold MmapEntry.stop at hle; omega
    rw [if_neg (by simp [ht]), if_neg hb, bit_clearPages, add64_of_lt (by omega),
      pagesUp_eq (by omega), pagesUp_eq hp]
    have hr : ((e.baseAddr + 4095) / 4096 ≤ j ∧ j < (e.baseAddr + 4095) / 4096 +
        ((e.baseAddr + e.length + 4095) / 4096 - (e.baseAddr + 4095) / 4096)) ↔
        (e.firstPage ≤ j ∧ j < e.stopPage) := by
      unfold MmapEntry.firstPage MmapEntry.stopPage MmapEntry.stop; omega
    rw [Bool.and_eq_false_iff, Bool.not_eq_false', decide_eq_true_iff, hr]
    simp [ht]
  · rw [if_pos ht]
    simp [ht]

theorem bit_freeEntries {last j : ℕ} : ∀ (mmap : List MmapEntry) (bm : Mem), Physical mmap →
    (∀ e ∈ mmap, e.type = 1 → e.stop ≤ last) →
    (Bits.bit (mmap.foldl (freeEntry last) bm) j = false ↔
      (∃ e ∈ mmap, e.Frees j) ∨ Bits.bit bm j = false)
  | [], bm, _, _ => by simp
  | e :: mmap, bm, hp, hl => by
    rw [List.foldl_cons, bit_freeEntries mmap _ (fun d hd => hp d (List.mem_cons_of_mem _ hd))
      (fun d hd => hl d (List.mem_cons_of_mem _ hd)),
      bit_freeEntry (hp e (by simp)) (hl e (by simp))]
    rw [← or_assoc, @or_comm (∃ d ∈ mmap, d.Frees j)]
    simp only [List.mem_cons, exists_eq_or_imp]

/-- The pages `pmm_init` leaves free: those from page 512 on that a usable entry frees. -/
theorem pmmInit_free {mmap : List MmapEntry} (hp : Physical mmap) (nextFree : ℕ) (bm : Mem) {i : ℕ}
    (hi : i < (pmmInit nextFree bm mmap).pmm.memBitmapBitSize) :
    (pmmInit nextFree bm mmap).pmm.used i = false ↔ 512 ≤ i ∧ ∃ e ∈ mmap, e.Frees i := by
  obtain ⟨hl, hmax⟩ := lastUsableEnd_spec hp
  have hk : pagesUp (KERNEL_END - KERNEL_BASE) = 512 := by decide
  simp only [pmmInit, pagesUp_eq hl] at hi
  have hlt : i / 8 < add64 (pagesUp (lastUsableEnd mmap)) 7 / 8 := by
    rw [pagesUp_eq hl, add64_of_lt (by omega)]; omega
  simp only [pmmInit, Pmm.used, hk, bit_setPages, Bool.or_eq_false_iff, decide_eq_false_iff_not,
    bit_freeEntries mmap _ hp hmax, bit_fillBytes hlt]
  simp

/-- An entry's pages lie inside the bitmap. -/
theorem frees_lt {mmap : List MmapEntry} (hp : Physical mmap) (nextFree : ℕ) (bm : Mem) {i : ℕ}
    {e : MmapEntry} (he : e ∈ mmap) (hf : e.Frees i) :
    i < (pmmInit nextFree bm mmap).pmm.memBitmapBitSize := by
  obtain ⟨hl, hmax⟩ := lastUsableEnd_spec hp
  have := hmax e he hf.1
  have := hf.2.2
  simp only [pmmInit, pagesUp_eq hl]
  unfold MmapEntry.stopPage at this
  omega

/-! ### Which memory maps come out right -/

/-- `x` is a byte of page `i`. -/
def InPage (i x : ℕ) : Prop := i * 4096 ≤ x ∧ x < (i + 1) * 4096

/-- Every page the allocator owns is usable memory, all of it and nothing else, and outside the
    kernel window. -/
def RealRam (mmap : List MmapEntry) (p : Pmm) : Prop :=
  ∀ i < p.memBitmapBitSize, p.used i = false →
    (∀ x, InPage i x → ∃ e ∈ mmap, e.type = 1 ∧ e.Covers x) ∧
    (∀ e ∈ mmap, e.type ≠ 1 → ∀ x, InPage i x → ¬ e.Covers x) ∧ 512 ≤ i

/-- Where a usable entry ends inside a page that it starts, the rest of the page is usable too. -/
def TailsCovered (mmap : List MmapEntry) : Prop :=
  ∀ e ∈ mmap, e.type = 1 → e.stop % 4096 ≠ 0 → e.baseAddr ≤ e.stop / 4096 * 4096 →
    0x200000 ≤ e.stop → ∀ x, e.stop ≤ x → x < (e.stop / 4096 + 1) * 4096 →
    ∃ d ∈ mmap, d.type = 1 ∧ d.Covers x

/-- No entry of another type meets a usable entry rounded up to pages, above the kernel window. -/
def NoOverlap (mmap : List MmapEntry) : Prop :=
  ∀ e ∈ mmap, e.type = 1 → ∀ d ∈ mmap, d.type ≠ 1 → ∀ x, 0x200000 ≤ x →
    e.firstPage * 4096 ≤ x → x < e.stopPage * 4096 → ¬ d.Covers x

/-- CORRECT: `pmm_init` leaves only real usable pages free exactly for the memory maps whose usable
    entries leave no partial page uncovered and meet no other entry. -/
theorem realRam_iff {mmap : List MmapEntry} (hp : Physical mmap) (nextFree : ℕ) (bm : Mem) :
    RealRam mmap (pmmInit nextFree bm mmap).pmm ↔ TailsCovered mmap ∧ NoOverlap mmap := by
  constructor
  · intro h
    have free : ∀ e ∈ mmap, ∀ i, e.Frees i → 512 ≤ i →
        (∀ x, InPage i x → ∃ d ∈ mmap, d.type = 1 ∧ d.Covers x) ∧
        ∀ d ∈ mmap, d.type ≠ 1 → ∀ x, InPage i x → ¬ d.Covers x := by
      intro e he i hf hi
      have hlt := frees_lt hp nextFree bm he hf
      have := h i hlt ((pmmInit_free hp nextFree bm hlt).mpr ⟨hi, e, he, hf⟩)
      exact ⟨this.1, this.2.1⟩
    refine ⟨fun e he ht hmod hbase hwin x h1 h2 => ?_, fun e he ht d hd hdt x hx h1 h2 => ?_⟩
    · refine (free e he (e.stop / 4096) ⟨ht, ?_, ?_⟩ (by omega)).1 x ⟨by omega, h2⟩
      · unfold MmapEntry.firstPage; omega
      · unfold MmapEntry.stopPage; omega
    · have hpage : InPage (x / 4096) x := by unfold InPage; omega
      exact (free e he (x / 4096) ⟨ht, by omega, by omega⟩ (by omega)).2 d hd hdt x hpage
  · rintro ⟨htail, hover⟩ i hi hu
    obtain ⟨h512, e, he, ht, h1, h2⟩ := (pmmInit_free hp nextFree bm hi).mp hu
    unfold MmapEntry.firstPage at h1
    unfold MmapEntry.stopPage at h2
    refine ⟨fun x hx => ?_, fun d hd hdt x hx => ?_, h512⟩
    · unfold InPage at hx
      by_cases hin : x < e.stop
      · exact ⟨e, he, ht, by omega, by unfold MmapEntry.stop at hin; omega⟩
      · -- the byte is past the end of the entry: the page is its last, and partial
        exact htail e he ht (by omega) (by omega) (by omega) x (by omega) (by omega)
    · unfold InPage at hx
      refine hover e he ht d hd hdt x (by omega) ?_ ?_
      · unfold MmapEntry.firstPage; omega
      · unfold MmapEntry.stopPage; omega

/-- The memory map of a machine with 64 MiB. -/
def smallMap : List MmapEntry := [⟨0, 0x9F000, 1⟩, ⟨0x9F000, 0x61000, 2⟩, ⟨0x100000, 0x3F00000, 1⟩]

theorem smallMap_physical : Physical smallMap := by unfold Physical; decide

/-- Its memory above the kernel window is free. -/
theorem smallMap_free (nextFree : ℕ) (bm : Mem) {i : ℕ} (h : 512 ≤ i) (hi : i < 16384) :
    i < (pmmInit nextFree bm smallMap).pmm.memBitmapBitSize ∧
      (pmmInit nextFree bm smallMap).pmm.used i = false := by
  have hm : (⟨0x100000, 0x3F00000, 1⟩ : MmapEntry) ∈ smallMap := by simp [smallMap]
  have hf : MmapEntry.Frees ⟨0x100000, 0x3F00000, 1⟩ i := by
    unfold MmapEntry.Frees MmapEntry.firstPage MmapEntry.stopPage MmapEntry.stop
    simp only [true_and]
    omega
  have hlt := frees_lt smallMap_physical nextFree bm hm hf
  exact ⟨hlt, (pmmInit_free smallMap_physical nextFree bm hlt).mpr ⟨h, _, hm, hf⟩⟩

/-- On that machine both conditions hold and every free page is real. -/
theorem realRam_iff_small_machine :
    (TailsCovered smallMap ∧ NoOverlap smallMap) ∧
      RealRam smallMap (pmmInit POOL_START (fun _ => 0) smallMap).pmm := by
  have hc : TailsCovered smallMap ∧ NoOverlap smallMap := by
    refine ⟨fun e he ht hmod => ?_, fun e he ht d hd hdt x hx h1 h2 hcov => ?_⟩
    · simp only [smallMap, List.mem_cons, List.not_mem_nil, or_false] at he
      rcases he with rfl | rfl | rfl <;> simp [MmapEntry.stop] at hmod
    · simp only [smallMap, List.mem_cons, List.not_mem_nil, or_false] at hd
      rcases hd with rfl | rfl | rfl
      · exact hdt rfl
      · obtain ⟨_, h⟩ := hcov
        simp only at h
        omega
      · exact hdt rfl
  exact ⟨hc, (realRam_iff smallMap_physical _ _).mpr hc⟩

/-- A usable region of 2050 KiB at 1 MiB: page 768 is half usable memory, and `pmm_init` leaves it
    free. -/
theorem partial_page_freed :
    ¬ RealRam [⟨0x100000, 0x200800, 1⟩] (pmmInit POOL_START (fun _ => 0) [⟨0x100000, 0x200800, 1⟩]).pmm := by
  intro h
  have hp : Physical [⟨0x100000, 0x200800, 1⟩] := by unfold Physical; decide
  have hf : MmapEntry.Frees ⟨0x100000, 0x200800, 1⟩ 768 := by unfold MmapEntry.Frees; decide
  have hm : (⟨0x100000, 0x200800, 1⟩ : MmapEntry) ∈ [(⟨0x100000, 0x200800, 1⟩ : MmapEntry)] := by simp
  have hlt := frees_lt hp POOL_START (fun _ => 0) hm hf
  obtain ⟨hcov, _⟩ := h 768 hlt ((pmmInit_free hp _ _ hlt).mpr ⟨by decide, _, hm, hf⟩)
  obtain ⟨e, he, _, hx⟩ := hcov 0x300FFF ⟨by decide, by decide⟩
  rw [List.mem_singleton.mp he] at hx
  exact absurd hx (by unfold MmapEntry.Covers; decide)

end TerraOS.Pmm
