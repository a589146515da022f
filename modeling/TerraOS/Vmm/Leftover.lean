import TerraOS.Vmm.Handover

/-! What earlier memory contents leave in the boot page tables.

    `init_pt` clears 0x1000 to 0x4FFF only. Of the second path it writes one entry each in 0x5000 and
    0x6000, and two in 0x8000, where the real-mode stack was; whatever else those pages held is page
    tables from then on. `bootMap_iff` says for which memory nothing comes of that. -/

namespace TerraOS.Vmm
open Lib Lib.Word Pmm

/-- What the boot tables are meant to map. -/
def bootMap (va : ℕ) : Option (ℕ × Bool) :=
  if KERNEL_BASE ≤ va ∧ va < KERNEL_END then some (va - KERNEL_BASE, true)
  else if va / 4096 = 7 ∨ va / 4096 = 0xB8 then some (va, true) else none

/-! ### Memory that leaves nothing -/

/-- The pages `init_pt` makes tables of. -/
def bootPages : List ℕ := [1, 2, 3, 4, 5, 6, 8]

/-- As a page table, page `f` maps nothing: it is none of the boot tables, which all have entries, and
    nothing in it has bit 0 set. -/
def Bare (m : Mem) (f : ℕ) : Prop := f ∉ bootPages ∧ ∀ j : Fin 512, ents m f j &&& 0x1 = 0

/-- Under the page directory entry `e` nothing is mapped. -/
def BarePde (m : Mem) (e : ℕ) : Prop := e &&& 0x1 = 0 ∨ e &&& 0x80 = 0 ∧ Bare m (frame e)

/-- Under the PDPT entry `e` nothing is mapped. It may link 0x8000, if the two pages that the entries
    there name hold nothing that could be one. -/
def BarePdpte (m : Mem) (e : ℕ) : Prop :=
  e &&& 0x1 = 0 ∨ e &&& 0x80 = 0 ∧ ((frame e ∉ bootPages ∧ ∀ j : Fin 512, BarePde m (ents m (frame e) j)) ∨
    (frame e = 8 ∧ Bare m 7 ∧ Bare m 0xB8))

/-- The parts of 0x5000, 0x6000 and 0x8000 that `init_pt` does not write map nothing. -/
structure Clean (m : Mem) : Prop where
  pdpt2 : ∀ i : Fin 512, (i : ℕ) ≠ 0 → BarePdpte m (ents m 5 i)
  pd2 : ∀ i : Fin 512, (i : ℕ) ≠ 0 → BarePde m (ents m 6 i)
  pt2 : ∀ i : Fin 512, (i : ℕ) ≠ 7 → (i : ℕ) ≠ 0xB8 → ents m 8 i &&& 0x1 = 0

/-! ### Entries that lead nowhere -/

/-- Under the entry `e` of level `k` nothing is mapped. -/
def Idle (m : Mem) : ℕ → ℕ → Prop
  | 0, e => e &&& 0x1 = 0
  | k + 1, e => e &&& 0x1 = 0 ∨ e &&& 0x80 = 0 ∧ ∀ i : Fin 512, Idle m k (ents m (frame e) i)

theorem descend_zero_none {m : Mem} {va n : ℕ} {w : Bool} :
    descend m va 0 n w = none ↔ ents m n (index 12 va) &&& 0x1 = 0 := by
  rw [descend]
  split_ifs with h
  · exact ⟨fun _ => h, fun _ => rfl⟩
  · exact ⟨fun hn => hn.elim, fun hz => absurd hz h⟩

theorem descend_succ_none {m : Mem} {va k n : ℕ} {w : Bool} (hk : k < 2) :
    descend m va (k + 1) n w = none ↔ ents m n (index (12 + 9 * (k + 1)) va) &&& 0x1 = 0 ∨
      ents m n (index (12 + 9 * (k + 1)) va) &&& 0x80 = 0 ∧
        descend m va k (frame (ents m n (index (12 + 9 * (k + 1)) va)))
          (w && decide (ents m n (index (12 + 9 * (k + 1)) va) &&& 0x2 ≠ 0)) = none := by
  rw [descend]
  generalize ents m n (index (12 + 9 * (k + 1)) va) = e
  dsimp only
  by_cases hp : e &&& 0x1 = 0
  · rw [if_pos hp]
    exact ⟨fun _ => .inl hp, fun _ => rfl⟩
  · rw [if_neg hp]
    by_cases hs : e &&& 0x80 = 0
    · rw [if_neg (fun h => h.2 hs)]
      exact ⟨fun h => .inr ⟨hs, h⟩, fun h => (h.resolve_left hp).2⟩
    · rw [if_pos ⟨hk, hs⟩]
      exact ⟨fun h => absurd h (Option.some_ne_none _), fun h => absurd (h.resolve_left hp).1 hs⟩

/-- Whether an address is mapped does not depend on the rights gathered so far. -/
theorem descend_none_rights {m : Mem} {va : ℕ} : ∀ {k n : ℕ} {w w' : Bool}, k ≤ 2 →
    descend m va k n w = none → descend m va k n w' = none
  | 0, n, w, w', _, h => descend_zero_none.mpr (descend_zero_none.mp h)
  | k + 1, n, w, w', hk, h => (descend_succ_none (by omega)).mpr
      (((descend_succ_none (by omega)).mp h).imp_right fun hd => ⟨hd.1, descend_none_rights (by omega) hd.2⟩)

/-- Two addresses with the same bits from `k` up have the same index there. -/
theorem index_congr {k a b : ℕ} (h : a / 2 ^ k = b / 2 ^ k) : index k a = index k b :=
  index_eq (by rw [h, ← index_val])

/-- An entry leads nowhere exactly when nothing under it is mapped. -/
theorem idle_iff {m : Mem} {w : Bool} : ∀ {k n va : ℕ}, k ≤ 2 →
    (Idle m k (ents m n (index (12 + 9 * k) va)) ↔
      ∀ x, x / 2 ^ (12 + 9 * k) = va / 2 ^ (12 + 9 * k) → descend m x k n w = none)
  | 0, n, va, _ => by
    constructor
    · intro h x hx
      rw [descend_zero_none, index_congr hx]
      exact h
    · intro h
      exact descend_zero_none.mp (h va rfl)
  | k + 1, n, va, hk => by
    constructor
    · intro h x hx
      rw [descend_succ_none (by omega), index_congr hx]
      refine h.imp_right fun hd => ⟨hd.1, ?_⟩
      exact (idle_iff (by omega)).mp (hd.2 (index (12 + 9 * k) x)) x rfl
    · intro h
      by_cases hp : ents m n (index (12 + 9 * (k + 1)) va) &&& 0x1 = 0
      · exact .inl hp
      refine .inr ⟨(((descend_succ_none (by omega)).mp (h va rfl)).resolve_left hp).1, fun i => ?_⟩
      -- an address under entry `i` of the table below
      obtain ⟨y, hup, hi⟩ : ∃ y, y / 2 ^ (12 + 9 * (k + 1)) = va / 2 ^ (12 + 9 * (k + 1)) ∧
          index (12 + 9 * k) y = i := by
        refine ⟨(va / 2 ^ (12 + 9 * (k + 1)) * 512 + i) * 2 ^ (12 + 9 * k), ?_, index_eq ?_⟩
        · rw [show 12 + 9 * (k + 1) = 9 + (12 + 9 * k) by omega, Nat.pow_add 2 9,
            Nat.mul_div_mul_right _ _ (Nat.two_pow_pos _)]
          omega
        · rw [Nat.mul_div_cancel _ (Nat.two_pow_pos _)]
          omega
      rw [← hi]
      refine (idle_iff (w := w) (by omega)).mpr fun x hx => ?_
      have hxup : x / 2 ^ (12 + 9 * (k + 1)) = va / 2 ^ (12 + 9 * (k + 1)) := by
        rw [← hup, show 12 + 9 * (k + 1) = 12 + 9 * k + 9 by omega, Nat.pow_add, ← Nat.div_div_eq_div_mul,
          ← Nat.div_div_eq_div_mul, hx]
      have hd := (descend_succ_none (by omega)).mp (h x hxup)
      rw [index_congr hxup] at hd
      exact descend_none_rights (by omega) (hd.resolve_left hp).2

theorem idle_link {m : Mem} {k e f : ℕ} (h : Link e f) :
    Idle m (k + 1) e ↔ ∀ i : Fin 512, Idle m k (ents m f i) := by
  constructor
  · intro hi
    rw [← h.frame_eq]
    exact (hi.resolve_left h.present).2
  · intro hi
    rw [← h.frame_eq] at hi
    exact .inr ⟨h.small, hi⟩

/-! ### The second path -/

section
variable {m m' : Mem} (B : BootTables m m')
include B

/-- The entries that the second path has for certain. -/
theorem BootTables.second : ents m' 5 0 = 0x6003 ∧ ents m' 6 0 = 0x8003 ∧ ents m' 8 7 = 0x7003 ∧
    ents m' 8 0xB8 = 0xB8003 := ⟨B.pdpt2 0, B.pd2 0, B.pt2 7, B.pt2 0xB8⟩

/-- Every boot table has a present entry. -/
theorem BootTables.present {f : ℕ} (hf : f ∈ bootPages) : ∃ i : Fin 512, ents m' f i &&& 0x1 ≠ 0 := by
  obtain ⟨s5, s6, s8, -⟩ := B.second
  simp only [bootPages, List.mem_cons, List.not_mem_nil, or_false] at hf
  rcases hf with rfl | rfl | rfl | rfl | rfl | rfl | rfl
  · exact ⟨0, by rw [B.pml4]; decide⟩
  · exact ⟨510, by rw [B.pdpt]; decide⟩
  · exact ⟨0, by rw [B.pd]; decide⟩
  · exact ⟨0, by rw [B.pt]; decide⟩
  · exact ⟨0, by rw [s5]; decide⟩
  · exact ⟨0, by rw [s6]; decide⟩
  · exact ⟨7, by rw [s8]; decide⟩

/-- Other pages are as they were. -/
theorem BootTables.other {f : ℕ} (hf : f ∉ bootPages) (i : Fin 512) : ents m' f i = ents m f i := by
  simp only [bootPages, List.mem_cons, List.not_mem_nil, or_false, not_or] at hf
  exact B.rest f (by omega) i

theorem BootTables.bare_iff {f : ℕ} : Bare m f ↔ ∀ j : Fin 512, ents m' f j &&& 0x1 = 0 := by
  unfold Bare
  by_cases hf : f ∈ bootPages
  · obtain ⟨i, hi⟩ := B.present hf
    exact ⟨fun h => absurd hf h.1, fun h => absurd (h i) hi⟩
  · simp only [B.other hf, hf, not_false_eq_true, true_and]

theorem BootTables.barePde_iff {e : ℕ} : BarePde m e ↔ Idle m' 1 e :=
  or_congr_right (and_congr_right fun _ => B.bare_iff)

/-- A link to a boot table maps something. -/
theorem BootTables.not_idle {e f : ℕ} (h : Link e f) (hf : f ∈ bootPages) : ¬ Idle m' 1 e := by
  obtain ⟨i, hi⟩ := B.present hf
  exact fun hidle => hi ((idle_link h).mp hidle i)

theorem BootTables.barePdpte_iff {e : ℕ}
    (hpt2 : ∀ i : Fin 512, (i : ℕ) ≠ 7 → (i : ℕ) ≠ 0xB8 → ents m 8 i &&& 0x1 = 0) :
    BarePdpte m e ↔ Idle m' 2 e := by
  obtain ⟨h5, h6, h7, hB8⟩ := B.second
  refine or_congr_right (and_congr_right fun _ => ?_)
  by_cases hf : frame e ∈ bootPages
  · by_cases h8 : frame e = 8
    · rw [h8]
      constructor
      · rintro (⟨hno, -⟩ | ⟨-, hb7, hbB8⟩) i
        · exact absurd (by decide) hno
        · rw [B.bare_iff] at hb7 hbB8
          by_cases hi : (i : ℕ) = 7
          · obtain rfl : i = 7 := Fin.ext hi
            rw [h7]
            exact (idle_link (link_three (g := 7) (by decide))).mpr hb7
          · by_cases hi' : (i : ℕ) = 0xB8
            · obtain rfl : i = 0xB8 := Fin.ext hi'
              rw [hB8]
              exact (idle_link (link_three (g := 0xB8) (by decide))).mpr hbB8
            · rw [B.pt2, if_neg hi', if_neg hi]
              exact .inl (hpt2 i hi hi')
      · intro h
        have i7 := h 7
        have iB8 := h 0xB8
        rw [h7] at i7
        rw [hB8] at iB8
        exact .inr ⟨rfl, B.bare_iff.mpr ((idle_link (link_three (g := 7) (by decide))).mp i7),
          B.bare_iff.mpr ((idle_link (link_three (g := 0xB8) (by decide))).mp iB8)⟩
    · -- the other boot tables all link one of themselves
      obtain ⟨i, g, hg, hl⟩ : ∃ (i : Fin 512) (g : ℕ), g ∈ bootPages ∧ Link (ents m' (frame e) i) g := by
        generalize frame e = f at hf h8
        simp only [bootPages, List.mem_cons, List.not_mem_nil, or_false] at hf
        rcases hf with rfl | rfl | rfl | rfl | rfl | rfl | rfl
        · exact ⟨0, 5, by decide, by rw [B.pml4]; exact link_three (g := 5) (by decide)⟩
        · exact ⟨510, 3, by decide, by rw [B.pdpt]; exact link_three (g := 3) (by decide)⟩
        · exact ⟨0, 4, by decide, by rw [B.pd]; exact link_three (g := 4) (by decide)⟩
        · exact ⟨4, 4, by decide, by rw [B.pt]; exact link_three (g := 4) (by decide)⟩
        · exact ⟨0, 6, by decide, by rw [h5]; exact link_three (g := 6) (by decide)⟩
        · exact ⟨0, 8, by decide, by rw [h6]; exact link_three (g := 8) (by decide)⟩
        · exact absurd rfl h8
      exact ⟨fun h => h.elim (fun h => absurd hf h.1) (fun h => absurd h.1 h8),
        fun h => absurd (h i) (B.not_idle hl hg)⟩
  · have h8 : frame e ≠ 8 := fun h => hf (by rw [h]; decide)
    simp only [hf, h8, false_and, or_false, not_false_eq_true, true_and, B.other hf, B.barePde_iff]

/-! ### The second path, in addresses -/

theorem BootTables.lookup_low {va : ℕ} (h : va < 2 ^ 39) : lookup m' 1 va = descend m' va 2 5 true := by
  have hi : (index 39 va : ℕ) = 0 := by rw [index_val]; omega
  have hl : Link (ents m' 1 (index (12 + 9 * (2 + 1)) va)) 5 := by
    rw [B.pml4, if_pos hi]
    exact link_three (g := 5) (by decide)
  rw [lookup, if_pos (.inl (by omega)), descend_link hl]

theorem BootTables.lookup_gib {va : ℕ} (h : va < 2 ^ 30) : lookup m' 1 va = descend m' va 1 6 true := by
  have hi : (index 30 va : ℕ) = 0 := by rw [index_val]; omega
  have hl : Link (ents m' 5 (index (12 + 9 * (1 + 1)) va)) 6 := by
    rw [B.pdpt2, if_pos hi]
    exact link_three (g := 6) (by decide)
  rw [B.lookup_low (by omega), descend_link hl]

theorem BootTables.lookup_2mib {va : ℕ} (h : va < 2 ^ 21) : lookup m' 1 va = descend m' va 0 8 true := by
  have hi : (index 21 va : ℕ) = 0 := by rw [index_val]; omega
  have hl : Link (ents m' 6 (index (12 + 9 * (0 + 1)) va)) 8 := by
    rw [B.pd2, if_pos hi]
    exact link_three (g := 8) (by decide)
  rw [B.lookup_gib (by omega), descend_link hl]

/-- Above the second path there is only the window. -/
theorem BootTables.lookup_high {va : ℕ} (h : 2 ^ 39 ≤ va) : lookup m' 1 va = bootMap va := by
  have hno : ¬ (va / 4096 = 7 ∨ va / 4096 = 0xB8) := by omega
  by_cases hw : KERNEL_BASE ≤ va ∧ va < KERNEL_END
  · rw [bootMap, if_pos hw, B.window.lookup_eq hw.1 hw.2]
  rw [bootMap, if_neg hw, if_neg hno, lookup]
  split_ifs with hc
  · by_cases h4 : (index 39 va : ℕ) = 511
    · exact B.window.descend_outside hc h4 (fun i hi => by rw [B.pdpt, if_neg hi])
        (fun i hi => by rw [B.pd, if_neg hi]) hw
    · have h0 : (index 39 va : ℕ) ≠ 0 := by
        rw [index_val] at h4 ⊢
        unfold Canonical at hc
        omega
      exact descend_absent (by rw [B.pml4, if_neg h0, if_neg h4]; rfl)
  · rfl

end

theorem bootMap_low {va : ℕ} (h : va < 2 ^ 39) (h7 : va / 4096 ≠ 7) (hB8 : va / 4096 ≠ 0xB8) :
    bootMap va = none := by
  have hw : ¬ (KERNEL_BASE ≤ va ∧ va < KERNEL_END) := by simp only [KERNEL_BASE]; omega
  have hno : ¬ (va / 4096 = 7 ∨ va / 4096 = 0xB8) := by omega
  rw [bootMap, if_neg hw, if_neg hno]

/-- Tables that map what they should have no other entry in 0x8000. -/
theorem BootTables.pt2_clear {m m' : Mem} (B : BootTables m m') (h : ∀ va, lookup m' 1 va = bootMap va)
    (i : Fin 512) (h7 : (i : ℕ) ≠ 7) (hB8 : (i : ℕ) ≠ 0xB8) : ents m 8 i &&& 0x1 = 0 := by
  have hidx : index 12 ((i : ℕ) * 4096) = i := index_eq (by omega)
  have hlow : (i : ℕ) * 4096 < 2 ^ 21 := by omega
  have hnone := (B.lookup_2mib hlow).symm.trans
    ((h _).trans (bootMap_low (by omega) (by omega) (by omega)))
  rwa [descend_zero_none, hidx, B.pt2, if_neg hB8, if_neg h7] at hnone

/-- CORRECT: whatever memory held before `init_pt`, the boot tables map what they are meant to map, and
    nothing else, exactly if what it held in the parts not written maps nothing. -/
theorem bootMap_iff (m : Mem) : (∀ va, lookup (initPt m) 1 va = bootMap va) ↔ Clean m := by
  have B := initPt_tables m
  generalize initPt m = m' at B
  constructor
  · intro h
    have hpt2 := B.pt2_clear h
    refine ⟨fun i hi => ?_, fun i hi => ?_, hpt2⟩
    · have hidx : index (12 + 9 * 2) ((i : ℕ) * 2 ^ 30) = i := index_eq (by omega)
      have hidle : Idle m' 2 (ents m' 5 (index (12 + 9 * 2) ((i : ℕ) * 2 ^ 30))) :=
        (idle_iff (w := true) (by omega)).mpr fun x hx => by
          rw [← B.lookup_low (by omega), h, bootMap_low (by omega) (by omega) (by omega)]
      rw [hidx, B.pdpt2, if_neg hi] at hidle
      exact (B.barePdpte_iff hpt2).mpr hidle
    · have hidx : index (12 + 9 * 1) ((i : ℕ) * 2 ^ 21) = i := index_eq (by omega)
      have hidle : Idle m' 1 (ents m' 6 (index (12 + 9 * 1) ((i : ℕ) * 2 ^ 21))) :=
        (idle_iff (w := true) (by omega)).mpr fun x hx => by
          rw [← B.lookup_gib (by omega), h, bootMap_low (by omega) (by omega) (by omega)]
      rw [hidx, B.pd2, if_neg hi] at hidle
      exact B.barePde_iff.mpr hidle
  · intro h va
    by_cases hhigh : 2 ^ 39 ≤ va
    · exact B.lookup_high hhigh
    by_cases h3 : 2 ^ 30 ≤ va
    · have hi : (index 30 va : ℕ) ≠ 0 := by rw [index_val]; omega
      have hidle := (B.barePdpte_iff h.pt2).mp (h.pdpt2 (index 30 va) hi)
      have he := B.pdpt2 (index 30 va)
      rw [if_neg hi] at he
      rw [← he] at hidle
      rw [B.lookup_low (by omega), bootMap_low (by omega) (by omega) (by omega)]
      exact (idle_iff (k := 2) (by omega)).mp hidle va rfl
    by_cases h2 : 2 ^ 21 ≤ va
    · have hi : (index 21 va : ℕ) ≠ 0 := by rw [index_val]; omega
      have hidle := B.barePde_iff.mp (h.pd2 (index 21 va) hi)
      have he := B.pd2 (index 21 va)
      rw [if_neg hi] at he
      rw [← he] at hidle
      rw [B.lookup_gib (by omega), bootMap_low (by omega) (by omega) (by omega)]
      exact (idle_iff (k := 1) (by omega)).mp hidle va rfl
    have hi : (index 12 va : ℕ) = va / 4096 := by rw [index_val]; omega
    have he := B.pt2 (index 12 va)
    rw [hi] at he
    have hw : ¬ (KERNEL_BASE ≤ va ∧ va < KERNEL_END) := by simp only [KERNEL_BASE]; omega
    rw [B.lookup_2mib (by omega)]
    by_cases hB8 : va / 4096 = 0xB8
    · rw [if_pos hB8] at he
      rw [bootMap, if_neg hw, if_pos (.inr hB8),
        descend_leaf (f := 0xB8) (by rw [he]; exact link_three (g := 0xB8) (by decide)),
        show 0xB8 * 4096 + va % 4096 = va by omega]
    · by_cases h7 : va / 4096 = 7
      · rw [if_neg hB8, if_pos h7] at he
        rw [bootMap, if_neg hw, if_pos (.inl h7),
          descend_leaf (f := 7) (by rw [he]; exact link_three (g := 7) (by decide)),
          show 7 * 4096 + va % 4096 = va by omega]
      · rw [if_neg hB8, if_neg h7] at he
        rw [bootMap_low (by omega) h7 hB8, descend_zero_none, he]
        exact h.pt2 _ (by omega) (by omega)

/-- A return address that a call left at the top of the real-mode stack, 0x7C03 at 0x8FF8, maps the page
    0x1FF000 to 0x7000. -/
theorem stack_maps_page : ¬ ∀ va, lookup (initPt (Mem.store64 (fun _ => 0) 0x8FF8 0x7C03)) 1 va = bootMap va := by
  intro h
  have hclear := (initPt_tables _).pt2_clear h 511 (by decide) (by decide)
  have hent := ents_store64_at (m := fun _ => 0) (n := 8) (v := 0x7C03) (c := 511) (by decide) (by decide) 8 511
  rw [if_pos ⟨rfl, rfl⟩] at hent
  rw [hent] at hclear
  exact absurd hclear (by decide)

end TerraOS.Vmm
