import TerraOS.Vmm.PointUpdate

/-! `unmap_page`, for an address whose page table exists.

    The call clears one leaf, frees the page the leaf named, and scans the three tables it came
    through. It never clears the entry of a table it frees, so the page directory it scans next still
    has a present entry: only the last table can be freed (`unmapPage_spec`). -/

namespace TerraOS.Vmm
open Lib Lib.Word Pmm

section
variable {s : Machine} {pdpt pd pt f g va : ℕ} {p q : List (Fin 512)} {i j : Fin 512}

/-! ### The scan -/

/-- No entry of the table in page `f` is present. -/
def EmptyTable (m : Mem) (f : ℕ) : Prop := ∀ j, child (ents m f j) = none

instance (m : Mem) (f : ℕ) : Decidable (EmptyTable m f) := inferInstanceAs (Decidable (∀ _, _))

theorem emptyFrom_eq {table : ℕ} (hp : Points s table f) : ∀ (n k : ℕ), k + n = 512 →
    ∃ b, emptyFrom s table n k = .ok b ∧ (b = true ↔ ∀ j : Fin 512, k ≤ j → child (ents s.phys f j) = none)
  | 0, k, h => ⟨true, rfl, by simp only [true_iff]; exact fun j hj => absurd j.isLt (by omega)⟩
  | n + 1, k, h => by
    have hload : s.load64 (add64 table (8 * k)) = .ok (ents s.phys f ⟨k, by omega⟩) := hp.load64 ⟨k, by omega⟩
    rw [emptyFrom, hload, ok_bind]
    by_cases hz : ents s.phys f ⟨k, by omega⟩ &&& 0x1 = 0
    · obtain ⟨b, hb, hiff⟩ := emptyFrom_eq hp n (k + 1) (by omega)
      rw [if_neg (not_not.mpr hz), hb]
      refine ⟨b, rfl, hiff.trans ⟨fun hall j hj => ?_, fun hall j hj => hall j (by omega)⟩⟩
      rcases Nat.eq_or_lt_of_le hj with heq | hlt
      · rw [show j = ⟨k, by omega⟩ from Fin.ext heq.symm]
        exact child_eq_none.mpr hz
      · exact hall j hlt
    · rw [if_pos hz]
      refine ⟨false, rfl, iff_of_false (by simp) fun hall => hz ?_⟩
      exact child_eq_none.mp (hall ⟨k, by omega⟩ (le_refl k))

theorem freeIfEmpty_eq (W : Window s pdpt pd pt) (hg : g < 2 ^ 40) :
    freeIfEmpty s (g * 4096) = .ok { withTemp s pt g with
      pmm := if EmptyTable (withTemp s pt g).phys g then pmmFree s.pmm (g * 4096) else s.pmm } := by
  have hpts : Points (withTemp s pt g) TEMP_PAGE g := (W.withTemp hg).points_temp (child_ents_withTemp hg)
  obtain ⟨b, hb, hiff⟩ := emptyFrom_eq hpts 512 0 (by omega)
  rw [freeIfEmpty, tempMap_eq W, ok_bind, hb, ok_bind]
  by_cases he : EmptyTable (withTemp s pt g).phys g
  · rw [hiff.mpr fun j _ => he j, if_pos he]
    rfl
  · rw [Bool.eq_false_iff.mpr fun h => he fun j => hiff.mp h j (Nat.zero_le _), if_neg he]
    rfl

/-- The next table takes the place of the last one under `TEMP_PAGE`. -/
theorem freeIfEmpty_next (W : Window s pdpt pd pt) {c : ℕ} (hc : c < 2 ^ 40) (hg : g < 2 ^ 40) (p : Pmm) :
    freeIfEmpty { withTemp s pt c with pmm := p } (g * 4096) = .ok { withTemp s pt g with
      pmm := if EmptyTable (withTemp s pt g).phys g then pmmFree p (g * 4096) else p } := by
  have hnext : withTemp { withTemp s pt c with pmm := p } pt g = { withTemp s pt g with pmm := p } := by
    simp only [withTemp, Mem.store64_store64]
  rw [freeIfEmpty_eq ((W.withTemp hc).withPmm p) hg, hnext]

/-! ### The call -/

/-- The memory after the call: the leaf cleared, `TEMP_PAGE` left at the page `g`. -/
def cleared (s : Machine) (pt f g : ℕ) (i : Fin 512) : Machine :=
  withTemp (withEntry (withTemp s pt f) f i 0) pt g

/-- The allocator after the call: the page the leaf named is freed, and the page of the table if no
    other entry of it is present. -/
def released (s : Machine) (f : ℕ) (i : Fin 512) : Pmm :=
  if ∀ j, j ≠ i → child (ents s.phys f j) = none then
    pmmFree (pmmFree s.pmm (ents s.phys f i &&& PAGE_MASK)) (f * 4096)
  else pmmFree s.pmm (ents s.phys f i &&& PAGE_MASK)

theorem cleared_ents (hf40 : f < 2 ^ 40) (hg : g < 2 ^ 40) (n : ℕ) (j : Fin 512) :
    ents (cleared s pt f g i).phys n j = if n = pt ∧ j = 511 then g * 4096 ||| 0x13
      else if n = f ∧ j = i then 0 else ents s.phys n j := by
  rw [cleared, ents_withTemp hg, withEntry, ents_store64 (by decide), ents_withTemp hf40]
  by_cases h : n = pt ∧ j = 511
  · rw [if_pos h, if_pos h]
  · rw [if_neg h, if_neg h, if_neg h]

section call
variable (P : Paged s pdpt pd pt) (hf : s.table p = some f) (hp : p.length = 3) (hw : p ≠ windowPath)
include P hf hp hw

theorem ne_pt_of_leafTable : f ≠ pt := fun h =>
  hw (P.inj p windowPath f (by omega) (by simp) hf (by rw [h]; exact P.table_window))

/-- The machine between the store and the scans is as good as any. -/
theorem cleared_paged (hf40 : f < 2 ^ 40) : Paged (withEntry (withTemp s pt f) f i 0) pdpt pd pt :=
  withLeaf_paged (withTemp_paged P hf40) hp hw (by rw [withTemp_table P hf40 (by omega), hf]) (by decide)

theorem cleared_table (hf40 : f < 2 ^ 40) (hg : g < 2 ^ 40) (hq : q.length ≤ 3) :
    (cleared s pt f g i).table q = s.table q := by
  rw [cleared, withTemp_table (cleared_paged P hf hp hw hf40) hg hq,
    withLeaf_table (withTemp_paged P hf40) hp (by rw [withTemp_table P hf40 (by omega), hf]) (by decide) hq,
    withTemp_table P hf40 hq]

/-- Only the one leaf goes. -/
theorem cleared_entry (hf40 : f < 2 ^ 40) (hg : g < 2 ^ 40) (hq : q.length ≤ 3)
    (ht : (q, j) ≠ (windowPath, 511)) :
    (cleared s pt f g i).entry q j = if (q, j) = (p, i) then none else s.entry q j := by
  split
  · rename_i he
    obtain ⟨rfl, rfl⟩ := Prod.mk.inj he
    have hfpt := ne_pt_of_leafTable P hf hp hw
    have hz : ents (cleared s pt f g j).phys f j = 0 := by
      rw [cleared_ents hf40 hg, if_neg fun h => hfpt h.1, if_pos ⟨rfl, rfl⟩]
    rw [entry_of_table (by rw [cleared_table P hf hp hw hf40 hg hq, hf]), hz]
    rfl
  · rename_i hne
    rw [cleared, withTemp_entry (cleared_paged P hf hp hw hf40) hg hq ht,
      withLeaf_entry (withTemp_paged P hf40) hp (by rw [withTemp_table P hf40 (by omega), hf]) (by decide) hq hne,
      withTemp_entry P hf40 hq ht]

end call

/-- A table that links another is not empty. -/
theorem not_empty_of_table (h : s.table p = some g) (hn : s.table (p ++ [i]) = some f) :
    ¬ EmptyTable s.phys g := fun he => by
  rw [child_of_table h, he i] at hn
  cases hn

/-- What `unmap_page` does when the page table is there. -/
theorem unmapPage_spec (P : Paged s pdpt pd pt) {ctx : ℕ} (hctx : Reaches s ctx [] (index 39 va))
    (hw : path va ≠ windowPath) (hf : s.table (path va) = some f) :
    ∃ g, g < 2 ^ 40 ∧ s.table [index 39 va] = some g ∧ unmapPage s ctx va
      = .ok { cleared s pt f g (index 12 va) with pmm := released s f (index 12 va) } := by
  obtain ⟨g₁, g₂, e₁, e₂, e₃, D, h₁, h₂⟩ := descent P hctx hf
  have l₁ := table_lt (by simp) h₁
  have l₂ := table_lt (by simp) h₂
  have l₃ := table_lt (by simp [path]) hf
  have hfpt := ne_pt_of_leafTable P hf rfl hw
  have Q := cleared_paged (i := index 12 va) P hf rfl hw l₃
  have hleaf : ents (withTemp s pt f).phys f (index 12 va) = ents s.phys f (index 12 va) := by
    rw [ents_withTemp l₃, if_neg fun h => hfpt h.1]
  -- the two upper tables link the next one, so neither is found empty
  have hmid : ¬ EmptyTable (cleared s pt f g₂ (index 12 va)).phys g₂ :=
    not_empty_of_table (p := [index 39 va, index 30 va]) (i := index 21 va)
      (by rw [cleared_table P hf rfl hw l₃ l₂ (by simp), h₂])
      (by rw [cleared_table P hf rfl hw l₃ l₂ (by simp)]; exact hf)
  have htop : ¬ EmptyTable (cleared s pt f g₁ (index 12 va)).phys g₁ :=
    not_empty_of_table (p := [index 39 va]) (i := index 30 va)
      (by rw [cleared_table P hf rfl hw l₃ l₁ (by simp), h₁])
      (by rw [cleared_table P hf rfl hw l₃ l₁ (by simp)]; exact h₂)
  have hlast : EmptyTable (cleared s pt f f (index 12 va)).phys f ↔
      ∀ j, j ≠ index 12 va → child (ents s.phys f j) = none := by
    refine forall_congr' fun j => ?_
    rw [cleared_ents l₃ l₃, if_neg fun h => hfpt h.1]
    by_cases hj : j = index 12 va
    · simp [hj, child_zero]
    · simp [hj]
  refine ⟨g₁, l₁, h₁, ?_⟩
  unfold unmapPage
  simp only [D.load₁, ok_bind, D.addr₁, D.temp₁, D.load₂, D.addr₂, D.temp₂, D.load₃, D.addr₃, D.temp₃,
    D.last.load64, D.last.store64, hleaf]
  change (freeIfEmpty { withEntry (withTemp s pt f) f (index 12 va) 0 with
    pmm := pmmFree s.pmm (ents s.phys f (index 12 va) &&& PAGE_MASK) } _ >>= _) = _
  rw [freeIfEmpty_eq (Q.toWindow.withPmm _) l₃, ok_bind]
  change (freeIfEmpty { withTemp (withEntry (withTemp s pt f) f (index 12 va) 0) pt f with
    pmm := if EmptyTable (cleared s pt f f (index 12 va)).phys f then _ else _ } _ >>= _) = _
  rw [freeIfEmpty_next Q.toWindow l₃ l₂, ok_bind, freeIfEmpty_next Q.toWindow l₂ l₁]
  rw [cleared] at htop hmid
  rw [if_neg htop, if_neg hmid, released]
  simp only [hlast]
  rfl

end

-- a scan of 512 entries: not to be evaluated when machines are compared
attribute [irreducible] released

end TerraOS.Vmm
