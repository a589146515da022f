import TerraOS.Vmm.Boot

/-! init_pt.asm: the bootloader's page tables.

    The tables of the kernel window lie in the four pages from 0x1000, which are cleared first. A second
    path through 0x5000, 0x6000 and 0x8000 maps the page that the jump into the kernel is made from and
    the VGA framebuffer. 64-bit entries are written as two dwords; the first three links write the upper
    dword of the wrong entry, which is clear already.

        0x1000 ──[511]──▶ 0x2000 ──[510]──▶ 0x3000 ──[0]──▶ 0x4000 ──[i]──▶ page i
               ──[0]────▶ 0x5000 ──[0]────▶ 0x6000 ──[0]──▶ 0x8000 ──[7]──▶ 0x7000, ──[0xB8]──▶ 0xB8000 -/

namespace TerraOS.Vmm
open Lib Lib.Word Pmm

/-- `rep stosd`. -/
def stosd (m : Mem) (eax : ℕ) : ℕ → ℕ → Mem
  | 0, _ => m
  | ecx + 1, edi => stosd (m.store32 edi eax) eax ecx (edi + 4)

/-- The loop `add_page_entry_protected`. -/
def addPageEntryProtected (m : Mem) : ℕ → ℕ → ℕ → Mem
  | 0, _, _ => m
  | ecx + 1, edi, ebx =>
    addPageEntryProtected ((m.store32 edi ebx).store32 (edi + 4) 0) ecx (edi + 8) (ebx + 0x1000)

/-- `init_pt`, from the memory as it is once `pushad` has saved the registers, below 0x90000. It sets
    `CR3` to 0x1000. -/
def initPt (m : Mem) : Mem :=
  let cr3 := 0x1000
  let m := stosd m 0 4096 0x1000
  let edi := 0x1000 + 511 * 8
  let m := (m.store32 edi 0x2003).store32 (edi + 8) 0
  let edi := 0x2000 + 510 * 8
  let m := (m.store32 edi 0x3003).store32 (edi + 8) 0
  let edi := 0x3000
  let m := (m.store32 edi 0x4003).store32 (edi + 8) 0
  let edi := edi + 0x1000
  let m := addPageEntryProtected m 512 edi 0x00000003
  let edi := cr3
  let m := (m.store32 edi 0x5003).store32 (edi + 4) 0
  let edi := 0x5000
  let m := (m.store32 edi 0x6003).store32 (edi + 4) 0
  let edi := 0x6000
  let m := (m.store32 edi 0x8003).store32 (edi + 4) 0
  let edi := 0x8000 + 8 * 7
  let m := (m.store32 edi 0x7003).store32 (edi + 4) 0
  let edi := 0x8000 + 0xB8 * 8
  (m.store32 edi 0xB8003).store32 (edi + 4) 0

/-! ### Dword stores and entries -/

theorem stosd_apply (x : ℕ) : ∀ (n a : ℕ) (m : Mem),
    stosd m 0 n a x = if a ≤ x ∧ x < a + 4 * n then 0 else m x
  | 0, a, m => by rw [if_neg (by omega)]; rfl
  | n + 1, a, m => by
    rw [stosd, stosd_apply x n]
    by_cases h : a ≤ x ∧ x < a + 4
    · have hz : m.store32 a 0 x = 0 := by
        rw [Mem.store32, Mem.storeLE, if_pos h, Nat.zero_div]
        rfl
      rw [hz, ite_self, if_pos (by omega)]
    · rw [Mem.store32_out (by omega)]
      have hiff : (a + 4 ≤ x ∧ x < a + 4 + 4 * n) ↔ (a ≤ x ∧ x < a + 4 * (n + 1)) := by omega
      rw [if_congr hiff rfl rfl]

/-- The pages 1 to 4 are cleared. -/
theorem ents_stosd (m : Mem) (n : ℕ) (j : Fin 512) :
    ents (stosd m 0 4096 0x1000) n j = if 1 ≤ n ∧ n < 5 then 0 else ents m n j := by
  unfold ents
  by_cases h : 1 ≤ n ∧ n < 5
  · have hz : (stosd m 0 4096 0x1000).load64 (n * 4096 + 8 * j) = Mem.load64 (fun _ => 0) 0 :=
      Mem.loadLE_congr fun i hi => by rw [stosd_apply, if_pos (by omega)]
    rw [if_pos h, hz]
    rfl
  · rw [if_neg h]
    exact Mem.load64_congr fun x h1 h2 => by rw [stosd_apply, if_neg (by omega)]

section entry
variable {a k c v : ℕ}

/-- The lower dword of entry `c` in page `k`. -/
theorem ents_store32 {m : Mem} (ha : a = k * 4096 + 8 * c) (hc : c < 512) (hv : v < 2 ^ 32) (n : ℕ)
    (j : Fin 512) : ents (m.store32 a v) n j
      = if n = k ∧ (j : ℕ) = c then v + 2 ^ 32 * (ents m n j / 2 ^ 32) else ents m n j := by
  unfold ents
  by_cases h : n = k ∧ (j : ℕ) = c
  · obtain ⟨rfl, rfl⟩ := h
    rw [if_pos ⟨rfl, rfl⟩, ha, Mem.load64_store32_low hv]
  · rw [if_neg h, Mem.load64_store32_out (by omega)]

/-- Both dwords of entry `c` in page `k`. -/
theorem ents_store32_pair {m : Mem} (ha : a = k * 4096 + 8 * c) (hc : c < 512) (hv : v < 2 ^ 32) (n : ℕ)
    (j : Fin 512) : ents ((m.store32 a v).store32 (a + 4) 0) n j
      = if n = k ∧ (j : ℕ) = c then v else ents m n j := by
  unfold ents
  by_cases h : n = k ∧ (j : ℕ) = c
  · obtain ⟨rfl, rfl⟩ := h
    rw [if_pos ⟨rfl, rfl⟩, ha, Mem.load64_store32_high (by decide), Mem.load64_store32_low hv]
    omega
  · rw [if_neg h, Mem.load64_store32_out (by omega), Mem.load64_store32_out (by omega)]

/-- The four cleared tables hold nothing in an upper dword. -/
def Low (m : Mem) : Prop := ∀ n, 1 ≤ n → n < 5 → ∀ i : Fin 512, ents m n i < 2 ^ 32

theorem Low.store32 {m : Mem} (h : Low m) (ha : a = k * 4096 + 8 * c) (hc : c < 512) (hv : v < 2 ^ 32) :
    Low (m.store32 a v) := by
  intro n h1 h5 i
  have := h n h1 h5 i
  rw [ents_store32 ha hc hv]
  split_ifs <;> omega

/-- There the lower dword is the whole entry. -/
theorem Low.ents {m : Mem} (h : Low m) (ha : a = k * 4096 + 8 * c) (hc : c < 512) (hv : v < 2 ^ 32)
    (hk : 1 ≤ k ∧ k < 5) (n : ℕ) (j : Fin 512) :
    ents (m.store32 a v) n j = if n = k ∧ (j : ℕ) = c then v else ents m n j := by
  rw [ents_store32 ha hc hv]
  by_cases he : n = k ∧ (j : ℕ) = c
  · have := h n (by omega) (by omega) j
    rw [if_pos he, if_pos he]
    omega
  · rw [if_neg he, if_neg he]

end entry

/-- The loop fills the page table from entry `c` on. -/
theorem ents_addPageEntryProtected (k n : ℕ) (j : Fin 512) : ∀ (r c : ℕ) (m : Mem), c + r = 512 →
    ents (addPageEntryProtected m r (k * 4096 + 8 * c) (c * 4096 + 3)) n j
      = if n = k ∧ c ≤ (j : ℕ) then (j : ℕ) * 4096 + 3 else ents m n j
  | 0, c, m, h => by rw [if_neg (by omega)]; rfl
  | r + 1, c, m, h => by
    have hnext := ents_addPageEntryProtected k n j r (c + 1)
      ((m.store32 (k * 4096 + 8 * c) (c * 4096 + 3)).store32 (k * 4096 + 8 * c + 4) 0) (by omega)
    rw [show k * 4096 + 8 * (c + 1) = k * 4096 + 8 * c + 8 by omega,
      show (c + 1) * 4096 + 3 = c * 4096 + 3 + 0x1000 by omega] at hnext
    rw [addPageEntryProtected, hnext, ents_store32_pair rfl (by omega) (by omega)]
    split_ifs <;> omega

/-- What `init_pt` leaves in the seven tables, over a memory `m`; every other page is as it was. -/
structure BootTables (m m' : Mem) : Prop where
  pml4 : ∀ i : Fin 512, ents m' 1 i = if (i : ℕ) = 0 then 0x5003 else if (i : ℕ) = 511 then 0x2003 else 0
  pdpt : ∀ i : Fin 512, ents m' 2 i = if (i : ℕ) = 510 then 0x3003 else 0
  pd : ∀ i : Fin 512, ents m' 3 i = if (i : ℕ) = 0 then 0x4003 else 0
  pt : ∀ i : Fin 512, ents m' 4 i = i * 4096 + 3
  pdpt2 : ∀ i : Fin 512, ents m' 5 i = if (i : ℕ) = 0 then 0x6003 else ents m 5 i
  pd2 : ∀ i : Fin 512, ents m' 6 i = if (i : ℕ) = 0 then 0x8003 else ents m 6 i
  pt2 : ∀ i : Fin 512, ents m' 8 i =
    if (i : ℕ) = 0xB8 then 0xB8003 else if (i : ℕ) = 7 then 0x7003 else ents m 8 i
  rest : ∀ n, n = 0 ∨ n = 7 ∨ 9 ≤ n → ∀ i : Fin 512, ents m' n i = ents m n i

theorem initPt_tables (m : Mem) : BootTables m (initPt m) := by
  -- the clear, and the first three links with the dwords they clear again
  have l₀ : Low (stosd m 0 4096 0x1000) := fun n h1 h5 i => by
    rw [ents_stosd, if_pos ⟨h1, h5⟩]
    decide
  have l₁ := l₀.store32 (k := 1) (c := 511) (v := 0x2003) (a := 0x1000 + 511 * 8) rfl (by decide) (by decide)
  have l₂ := l₁.store32 (k := 2) (c := 0) (v := 0) (a := 0x1000 + 511 * 8 + 8) rfl (by decide) (by decide)
  have l₃ := l₂.store32 (k := 2) (c := 510) (v := 0x3003) (a := 0x2000 + 510 * 8) rfl (by decide) (by decide)
  have l₄ := l₃.store32 (k := 2) (c := 511) (v := 0) (a := 0x2000 + 510 * 8 + 8) rfl (by decide) (by decide)
  have l₅ := l₄.store32 (k := 3) (c := 0) (v := 0x4003) (a := 0x3000) rfl (by decide) (by decide)
  have hents (n : ℕ) (j : Fin 512) : ents (initPt m) n j =
      if n = 8 ∧ (j : ℕ) = 0xB8 then 0xB8003 else if n = 8 ∧ (j : ℕ) = 7 then 0x7003
      else if n = 6 ∧ (j : ℕ) = 0 then 0x8003 else if n = 5 ∧ (j : ℕ) = 0 then 0x6003
      else if n = 1 ∧ (j : ℕ) = 0 then 0x5003 else if n = 4 ∧ 0 ≤ (j : ℕ) then (j : ℕ) * 4096 + 3
      else if n = 3 ∧ (j : ℕ) = 1 then 0 else if n = 3 ∧ (j : ℕ) = 0 then 0x4003
      else if n = 2 ∧ (j : ℕ) = 511 then 0 else if n = 2 ∧ (j : ℕ) = 510 then 0x3003
      else if n = 2 ∧ (j : ℕ) = 0 then 0 else if n = 1 ∧ (j : ℕ) = 511 then 0x2003
      else if 1 ≤ n ∧ n < 5 then 0 else ents m n j := by
    unfold initPt
    rw [ents_store32_pair (k := 8) (c := 0xB8) rfl (by decide) (by decide),
      ents_store32_pair (k := 8) (c := 7) rfl (by decide) (by decide),
      ents_store32_pair (k := 6) (c := 0) rfl (by decide) (by decide),
      ents_store32_pair (k := 5) (c := 0) rfl (by decide) (by decide),
      ents_store32_pair (k := 1) (c := 0) rfl (by decide) (by decide),
      ents_addPageEntryProtected 4 n j 512 0 _ rfl,
      l₅.ents (k := 3) (c := 1) rfl (by decide) (by decide) (by decide),
      l₄.ents (k := 3) (c := 0) rfl (by decide) (by decide) (by decide),
      l₃.ents (k := 2) (c := 511) rfl (by decide) (by decide) (by decide),
      l₂.ents (k := 2) (c := 510) rfl (by decide) (by decide) (by decide),
      l₁.ents (k := 2) (c := 0) rfl (by decide) (by decide) (by decide),
      l₀.ents (k := 1) (c := 511) rfl (by decide) (by decide) (by decide), ents_stosd]
  clear l₀ l₁ l₂ l₃ l₄ l₅
  refine ⟨fun i => ?_, fun i => ?_, fun i => ?_, fun i => ?_, fun i => ?_, fun i => ?_, fun i => ?_,
    fun n hn i => ?_⟩
  · rw [hents]
    simp
  · have h : (i : ℕ) = 511 → ¬ (i : ℕ) = 510 := by omega
    rw [hents]
    simpa using h
  · have h : (i : ℕ) = 1 → ¬ (i : ℕ) = 0 := by omega
    rw [hents]
    simpa using h
  · rw [hents]
    simp
  · rw [hents]
    simp
  · rw [hents]
    simp
  · rw [hents]
    simp
  · rw [hents]
    repeat rw [if_neg (by omega)]

end TerraOS.Vmm
