import TerraOS.Pmm.Model
import TerraOS.Lib.Runs

/-! The frame allocator as a set of free frames.

    Abstractly an allocator owns a set of free page numbers: allocation takes the least of them, freeing
    puts one back. `pmmAlloc_refines` and `pmmFree_refines` say that the bitmap code does just that.
    Frame 0 has the address `NULL`, so the bitmap must never offer it; `pmm_init` sees to that. A page
    number times 4096 is an address only below `2^52`, which bounds the bitmap sizes the code can serve
    (`pmm_init` computes no larger one). -/

namespace TerraOS.Pmm
open Lib Lib.Word

/-! ### The abstract allocator -/

/-- Allocation from a set of free pages: the least, or nothing when there is none. -/
def TakesLeast (F : Set ℕ) (r : Option ℕ) (F' : Set ℕ) : Prop :=
  match r with
  | none => F = ∅ ∧ F' = F
  | some i => IsLeast F i ∧ F' = F \ {i}

/-- The free pages of a bitmap. -/
def Pmm.free (p : Pmm) : Set ℕ := {i | i < p.memBitmapBitSize ∧ p.used i = false}

/-- The page an address returned by `pmm_alloc` stands for. -/
def pageOf (b : ℕ) : Option ℕ := if b = 0 then none else some (b / PAGE_SIZE)

/-! ### The scan -/

theorem scan_some {bm : Mem} : ∀ {n i k : ℕ}, scan bm n i = some k →
    i ≤ k ∧ k < i + n ∧ Bits.bit bm k = false ∧ ∀ j, i ≤ j → j < k → Bits.bit bm j = true
  | 0, _, _, h => by cases h
  | n + 1, i, k, h => by
    rw [scan] at h
    by_cases ht : Bits.test bm i = 0
    · rw [if_pos ht] at h
      obtain rfl := Option.some.inj h
      exact ⟨le_refl _, by omega, (Bits.test_eq_zero bm i).mp ht, fun j h1 h2 => by omega⟩
    · rw [if_neg ht] at h
      obtain ⟨h1, h2, h3, h4⟩ := scan_some h
      refine ⟨by omega, by omega, h3, fun j hj1 hj2 => ?_⟩
      rcases eq_or_ne j i with rfl | hne
      · simpa using mt (Bits.test_eq_zero bm j).mpr ht
      · exact h4 j (by omega) hj2

theorem scan_none {bm : Mem} : ∀ {n i : ℕ}, scan bm n i = none →
    ∀ j, i ≤ j → j < i + n → Bits.bit bm j = true
  | 0, _, _, j, h1, h2 => by omega
  | n + 1, i, h, j, h1, h2 => by
    rw [scan] at h
    by_cases ht : Bits.test bm i = 0
    · rw [if_pos ht] at h; cases h
    · rw [if_neg ht] at h
      rcases eq_or_ne j i with rfl | hne
      · simpa using mt (Bits.test_eq_zero bm j).mpr ht
      · exact scan_none h j (by omega) (by omega)

/-- The two ways `pmm_alloc` returns. -/
theorem pmmAlloc_cases (p : Pmm) :
    ((∀ j < p.memBitmapBitSize, p.used j = true) ∧ pmmAlloc p = (0, p)) ∨
    ∃ i, i < p.memBitmapBitSize ∧ p.used i = false ∧ (∀ j < i, p.used j = true) ∧
      pmmAlloc p = (mul64 i PAGE_SIZE, { p with memBitmap := Bits.set p.memBitmap i }) := by
  unfold pmmAlloc
  cases hs : scan p.memBitmap p.memBitmapBitSize 0 with
  | none => exact .inl ⟨fun j hj => scan_none hs j (by omega) (by omega), rfl⟩
  | some i =>
    obtain ⟨_, h2, h3, h4⟩ := scan_some hs
    exact .inr ⟨i, by omega, h3, fun j hj => h4 j (by omega) hj, rfl⟩

/-- A bitmap the code can serve: frame 0 is used and every page number is an address. -/
structure Pmm.Ok (p : Pmm) : Prop where
  zero : p.used 0 = true
  size : p.memBitmapBitSize ≤ 2 ^ 52

/-- An `Ok` allocator returns `NULL` or the address of the least free page, and marks it. -/
theorem Pmm.Ok.alloc {p : Pmm} (ok : p.Ok) :
    ((∀ j < p.memBitmapBitSize, p.used j = true) ∧ pmmAlloc p = (0, p)) ∨
    ∃ i, 0 < i ∧ i < p.memBitmapBitSize ∧ p.used i = false ∧ (∀ j < i, p.used j = true) ∧
      pmmAlloc p = (i * 4096, { p with memBitmap := Bits.set p.memBitmap i }) := by
  have hsz := ok.size
  rcases pmmAlloc_cases p with h | ⟨i, h1, h2, h3, h4⟩
  · exact .inl h
  · refine .inr ⟨i, ?_, h1, h2, h3, by rw [h4, mul64_of_lt (by simp only [PAGE_SIZE]; omega)]⟩
    rcases Nat.eq_zero_or_pos i with rfl | h
    · rw [ok.zero] at h2; cases h2
    · exact h

theorem pmmAlloc_refines {p : Pmm} (ok : p.Ok) :
    TakesLeast p.free (pageOf (pmmAlloc p).1) (pmmAlloc p).2.free := by
  rcases ok.alloc with ⟨hall, h⟩ | ⟨i, h0, h1, h2, h3, h4⟩
  · rw [h]
    refine ⟨Set.eq_empty_iff_forall_notMem.mpr fun j hj => ?_, rfl⟩
    have := hall j hj.1
    rw [hj.2] at this; cases this
  · have hp : pageOf (i * 4096) = some i := by
      rw [pageOf, if_neg (by omega)]
      simp [PAGE_SIZE]
    rw [h4]
    simp only [hp]
    refine ⟨⟨⟨h1, h2⟩, fun j hj => ?_⟩, ?_⟩
    · by_contra hlt
      have := h3 j (by omega)
      rw [hj.2] at this; cases this
    · ext j
      simp only [Pmm.free, Pmm.used, Set.mem_ofPred_eq, Set.mem_sdiff, Set.mem_singleton_iff, Bits.bit_set]
      by_cases hj : j = i
      · simp [hj]
      · simp [hj]

theorem pmmFree_refines {p : Pmm} {i : ℕ} (hi : i < p.memBitmapBitSize) :
    (pmmFree p (i * 4096)).free = insert i p.free := by
  have hpi : i * 4096 / PAGE_SIZE = i := by simp [PAGE_SIZE]
  have hf : pmmFree p (i * 4096) = { p with memBitmap := Bits.clear p.memBitmap i } := by
    simp only [pmmFree, hpi]
    rw [if_neg (by omega)]
  rw [hf]
  ext j
  simp only [Pmm.free, Pmm.used, Set.mem_ofPred_eq, Set.mem_insert_iff, Bits.bit_clear]
  by_cases hj : j = i
  · simp [hj, hi]
  · simp [hj]

/-- How many pages are free. -/
def Pmm.freeCount (p : Pmm) : ℕ :=
  ((Finset.range p.memBitmapBitSize).filter fun i => p.used i = false).card

theorem freeCount_eq_zero {p : Pmm} (h : ∀ j < p.memBitmapBitSize, p.used j = true) :
    p.freeCount = 0 := by
  refine Finset.card_eq_zero.mpr (Finset.filter_eq_empty_iff.mpr fun j hj => ?_)
  rw [h j (Finset.mem_range.mp hj)]
  decide

theorem le_freeCount {p : Pmm} {a k : ℕ}
    (h : ∀ i, a ≤ i → i < a + k → i < p.memBitmapBitSize ∧ p.used i = false) : k ≤ p.freeCount := by
  have hcard : (Finset.Ico a (a + k)).card = k := by simp
  rw [← hcard]
  refine Finset.card_le_card fun i hi => ?_
  obtain ⟨h1, h2⟩ := Finset.mem_Ico.mp hi
  obtain ⟨h3, h4⟩ := h i h1 h2
  exact Finset.mem_filter.mpr ⟨Finset.mem_range.mpr h3, h4⟩

/-- The frames `T` taken, and no others. -/
theorem freeCount_taken {p₀ p : Pmm} {T : Finset ℕ} (hsize : p.memBitmapBitSize = p₀.memBitmapBitSize)
    (hbits : ∀ n, p.used n = true ↔ p₀.used n = true ∨ n ∈ T)
    (hT : ∀ n ∈ T, n < p₀.memBitmapBitSize ∧ p₀.used n = false) : p.freeCount + T.card = p₀.freeCount := by
  have hsub : T ⊆ (Finset.range p₀.memBitmapBitSize).filter fun i => p₀.used i = false := fun n hn =>
    Finset.mem_filter.mpr ⟨Finset.mem_range.mpr (hT n hn).1, (hT n hn).2⟩
  unfold Pmm.freeCount
  rw [← Finset.card_sdiff_add_card_eq_card hsub, hsize]
  congr 2
  ext n
  have h := hbits n
  simp only [Finset.mem_filter, Finset.mem_sdiff, Finset.mem_range, Bool.eq_false_iff, ne_eq, h]
  tauto

/-- An allocation takes one. -/
theorem freeCount_set {p : Pmm} {i : ℕ} (hi : i < p.memBitmapBitSize) (hu : p.used i = false) :
    Pmm.freeCount { p with memBitmap := Bits.set p.memBitmap i } + 1 = p.freeCount := by
  have hmem : i ∈ (Finset.range p.memBitmapBitSize).filter fun j => p.used j = false :=
    Finset.mem_filter.mpr ⟨Finset.mem_range.mpr hi, hu⟩
  unfold Pmm.freeCount
  rw [← Finset.card_erase_add_one hmem]
  congr 2
  ext j
  rw [Finset.mem_erase, Finset.mem_filter, Finset.mem_filter]
  simp only [Pmm.used, Bits.bit_set]
  by_cases hj : j = i
  · simp [hj]
  · simp [hj]

/-! ### Owners and their runs -/

/-- The allocator and the blocks handed out and not freed since. -/
structure Owner where
  pmm : Pmm
  out : List ℕ

inductive Call where
  | alloc
  | free (b : ℕ)

def call (s : Owner) : Call → Except Empty Owner
  | .alloc =>
    let r := pmmAlloc s.pmm
    .ok ⟨r.2, if r.1 = 0 then s.out else r.1 :: s.out⟩
  | .free b => .ok ⟨pmmFree s.pmm b, s.out.erase b⟩

/-- Blocks are freed by those who hold them. -/
def Held (s : Owner) : Call → Prop
  | .alloc => True
  | .free b => b ∈ s.out

instance (s : Owner) : DecidablePred (Held s)
  | .alloc => inferInstanceAs (Decidable True)
  | .free b => inferInstanceAs (Decidable (b ∈ s.out))

/-- The invariant: a bit is set if it was set at the start or its page is outstanding. -/
structure Owned (p₀ : Pmm) (s : Owner) : Prop where
  size : s.pmm.memBitmapBitSize = p₀.memBitmapBitSize
  nodup : s.out.Nodup
  block : ∀ b ∈ s.out, ∃ i, i < p₀.memBitmapBitSize ∧ b = i * 4096 ∧ p₀.used i = false
  bits : ∀ j, s.pmm.used j = (p₀.used j || decide (j * 4096 ∈ s.out))

theorem Owned.ok {p₀ : Pmm} {s : Owner} (ok : p₀.Ok) (O : Owned p₀ s) : s.pmm.Ok :=
  ⟨by rw [O.bits, ok.zero, Bool.true_or], by rw [O.size]; exact ok.size⟩

/-- A free page is not outstanding. -/
theorem Owned.not_mem_out {p₀ : Pmm} {s : Owner} (O : Owned p₀ s) {i : ℕ} (h : s.pmm.used i = false) :
    i * 4096 ∉ s.out := by
  intro hm
  rw [O.bits, decide_eq_true hm, Bool.or_true] at h
  cases h

theorem pmmFree_used {p : Pmm} {i : ℕ} (hi : i < p.memBitmapBitSize) (j : ℕ) :
    (pmmFree p (i * 4096)).used j = (!decide (j = i) && p.used j) := by
  have hpi : i * 4096 / PAGE_SIZE = i := by simp [PAGE_SIZE]
  simp only [pmmFree, hpi, if_neg (show ¬ i ≥ p.memBitmapBitSize by omega), Pmm.used, Bits.bit_clear]

/-- One call keeps the invariant. -/
theorem call_owned {p₀ : Pmm} {s s' : Owner} {c : Call} (ok : p₀.Ok) (O : Owned p₀ s) (hc : Held s c)
    (h : call s c = .ok s') : Owned p₀ s' := by
  cases c with
  | alloc =>
    obtain rfl := Except.ok.inj h
    rcases (O.ok ok).alloc with ⟨_, h⟩ | ⟨i, h0, h1, h2, _, h4⟩
    · simp only [h]
      exact O
    · have hne : ¬ i * 4096 = 0 := by omega
      have hno := O.not_mem_out h2
      have hb := O.bits i
      rw [h2, decide_eq_false hno, Bool.or_false] at hb
      simp only [h4, if_neg hne]
      refine ⟨O.size, List.nodup_cons.mpr ⟨hno, O.nodup⟩, fun b hbm => ?_, fun j => ?_⟩
      · rcases List.mem_cons.mp hbm with rfl | hbm
        · exact ⟨i, O.size ▸ h1, rfl, hb.symm⟩
        · exact O.block b hbm
      · have hbj := O.bits j
        simp only [Pmm.used] at hbj ⊢
        rw [Bits.bit_set, hbj]
        have hiff : j * 4096 = i * 4096 ↔ j = i := by omega
        simp only [List.mem_cons, hiff, Bool.decide_or]
        rw [Bool.or_left_comm]
  | free b =>
    obtain rfl := Except.ok.inj h
    obtain ⟨i, hi, rfl, hfree⟩ := O.block b hc
    have hi' : i < s.pmm.memBitmapBitSize := O.size.symm ▸ hi
    refine ⟨?_, O.nodup.erase _, fun b hb => O.block b (List.mem_of_mem_erase hb), fun j => ?_⟩
    · have hpi : i * 4096 / PAGE_SIZE = i := by simp [PAGE_SIZE]
      simp only [pmmFree, hpi, if_neg (show ¬ i ≥ s.pmm.memBitmapBitSize by omega)]
      exact O.size
    · rw [pmmFree_used hi', O.bits j]
      by_cases hj : j = i
      · subst hj
        simp [hfree, List.Nodup.not_mem_erase O.nodup]
      · have hne : j * 4096 ≠ i * 4096 := by omega
        simp [hj, List.mem_erase_of_ne hne]

/-- Freeing an outstanding block gives its page back and changes no other bit. -/
theorem Owned.frees {p₀ : Pmm} {s : Owner} (O : Owned p₀ s) : ∀ b ∈ s.out,
    (pmmFree s.pmm b).free = insert (b / 4096) s.pmm.free ∧
    ∀ j, b ≠ j * 4096 → (pmmFree s.pmm b).used j = s.pmm.used j := by
  intro b hb
  obtain ⟨i, hi, rfl, _⟩ := O.block b hb
  have hi' : i < s.pmm.memBitmapBitSize := O.size.symm ▸ hi
  refine ⟨by rw [pmmFree_refines hi', Nat.mul_div_cancel _ (by decide)], fun j hj => ?_⟩
  rw [pmmFree_used hi']
  have : j ≠ i := by rintro rfl; exact hj rfl
  simp [this]

theorem Owned.restores {p₀ : Pmm} {s : Owner} (O : Owned p₀ s) (hout : s.out = []) :
    s.pmm.memBitmap = p₀.memBitmap := by
  refine Bits.ext fun i => ?_
  have := O.bits i
  simpa [Pmm.used, hout] using this

/-- CORRECT: over every history of allocations and frees of outstanding blocks, on every bitmap of at
    most `2^52` bits with bit 0 set, `pmm_alloc` returns the least free page (`NULL` when there is none)
    and never one that is outstanding, each call changes one bit at most, and with every block freed the
    bitmap is byte for byte the initial one. -/
theorem pmm_refines_free_set {p₀ : Pmm} {calls : List Call} {s : Owner} (h0 : p₀.used 0 = true)
    (hsz : p₀.memBitmapBitSize ≤ 2 ^ 52) (hrun : Run Held call ⟨p₀, []⟩ calls s) :
    TakesLeast s.pmm.free (pageOf (pmmAlloc s.pmm).1) (pmmAlloc s.pmm).2.free ∧
    (∀ i, IsLeast s.pmm.free i → (pmmAlloc s.pmm).1 = i * 4096) ∧
    ((pmmAlloc s.pmm).1 = 0 ↔ s.pmm.free = ∅) ∧
    (pmmAlloc s.pmm).1 ∉ s.out ∧
    (∀ j, (pmmAlloc s.pmm).1 ≠ j * 4096 → (pmmAlloc s.pmm).2.used j = s.pmm.used j) ∧
    (∀ b ∈ s.out, (pmmFree s.pmm b).free = insert (b / 4096) s.pmm.free ∧
      ∀ j, b ≠ j * 4096 → (pmmFree s.pmm b).used j = s.pmm.used j) ∧
    (s.out = [] → s.pmm.memBitmap = p₀.memBitmap) := by
  have ok : p₀.Ok := ⟨h0, hsz⟩
  have O : Owned p₀ s := hrun.invariant (I := Owned p₀) ⟨rfl, .nil, by simp, by simp⟩
    fun t c u O hc hst => call_owned ok O hc hst
  have hzero : 0 ∉ s.out := by
    intro hm
    obtain ⟨i, _, hi, hf⟩ := O.block 0 hm
    obtain rfl : i = 0 := by omega
    rw [h0] at hf; cases hf
  have href := pmmAlloc_refines (O.ok ok)
  refine ⟨href, ?_⟩
  rcases (O.ok ok).alloc with ⟨hall, h⟩ | ⟨i, hi0, h1, h2, h3, h4⟩
  · have hempty : s.pmm.free = ∅ := Set.eq_empty_iff_forall_notMem.mpr fun j hj => by
      have := hall j hj.1
      rw [hj.2] at this; cases this
    rw [h]
    refine ⟨fun i hi => ?_, ⟨fun _ => hempty, fun _ => rfl⟩, hzero, fun _ _ => rfl, ?_, ?_⟩
    · have := hi.1
      rw [hempty] at this; cases this
    · exact O.frees
    · exact O.restores
  · have hleast : IsLeast s.pmm.free i := ⟨⟨h1, h2⟩, fun j hj => by
      by_contra hlt
      have := h3 j (by omega)
      rw [hj.2] at this; cases this⟩
    rw [h4]
    refine ⟨fun k hk => by rw [hk.unique hleast], ⟨fun h => ?_, fun h => ?_⟩, O.not_mem_out h2,
      fun j hj => ?_, O.frees, O.restores⟩
    · simp only at h; omega
    · rw [h] at hleast; cases hleast.1
    · exact Bits.bit_set_ne (by rintro rfl; exact hj rfl)

/-- Twelve pages, two of them used: three allocations, the first freed again. -/
theorem pmm_refines_free_set_twelve :
    ∃ s, Run.perform Held call ⟨⟨fun a => if a = 0 then 5 else 0, 2, 12⟩, []⟩
        [.alloc, .alloc, .alloc, .free 4096] = some s ∧
      TakesLeast s.pmm.free (pageOf (pmmAlloc s.pmm).1) (pmmAlloc s.pmm).2.free := by
  obtain ⟨s, hs⟩ := Option.isSome_iff_exists.mp (show (Run.perform Held call
    ⟨⟨fun a => if a = 0 then 5 else 0, 2, 12⟩, []⟩ [.alloc, .alloc, .alloc, .free 4096]).isSome = true
    by decide)
  exact ⟨s, hs, (pmm_refines_free_set (by decide) (by decide) (Run.of_perform hs)).1⟩

/-- Past `2^52` pages the address of a page wraps: with only page `2^52` free, the code returns its
    address, which is 0, and so reports that no page is free. -/
theorem pmm_alloc_wraps :
    ∃ p : Pmm, p.memBitmapBitSize = 2 ^ 52 + 1 ∧ p.used 0 = true ∧ 2 ^ 52 ∈ p.free ∧
      (pmmAlloc p).1 = 0 := by
  refine ⟨⟨fun a => if a = 2 ^ 49 then 0xFE else 0xFF, 2 ^ 49 + 1, 2 ^ 52 + 1⟩, rfl, by decide,
    ⟨by decide, by decide⟩, ?_⟩
  have hones : ∀ k < 8, Nat.testBit 255 k = true := by decide
  rcases pmmAlloc_cases ⟨fun a => if a = 2 ^ 49 then 0xFE else 0xFF, 2 ^ 49 + 1, 2 ^ 52 + 1⟩ with
    ⟨_, h⟩ | ⟨i, h1, h2, _, h4⟩
  · rw [h]
  · -- every page below `2^52` is used, so the page found is `2^52`
    obtain rfl : i = 2 ^ 52 := by
      by_contra hne
      have hlt : i / 8 ≠ 2 ^ 49 := by simp only at h1; omega
      simp only [Pmm.used, Bits.bit, if_neg hlt] at h2
      rw [show (0xFF : UInt8).toNat = 255 from rfl, hones _ (by omega)] at h2
      cases h2
    rw [h4]; decide

end TerraOS.Pmm
