import TerraOS.Vmm.Places

/-! `unmap_page` and `get_physical_address` of a page that is not mapped.

    Neither checks the present bit, so an absent entry is followed: it names frame 0, which is then read
    as a table. Where only the leaf is absent, the frame `unmap_page` frees is frame 0. Either way
    something foreign is touched (`unmapped_touches_foreign`). -/

namespace TerraOS.Vmm
open Lib Lib.Word Pmm

/-! ### The entries read on the way down -/

/-- What the two functions share: the addresses of the three lower tables and of the page, as far as the
    entries give them, the machine with `TEMP_PAGE` at the last table, and the physical addresses of
    the four entries read. -/
structure Walked where
  pdptPhys : ℕ
  pdPhys : ℕ
  ptPhys : ℕ
  pte : ℕ
  machine : Machine
  reads : List ℕ

def walkDown (s : Machine) (ctx virtualAddress : ℕ) : Except Stop Walked := do
  let pdptPhys := (← s.load64 (slot ctx (index 39 virtualAddress))) &&& PAGE_MASK
  let s₁ ← tempMap s pdptPhys
  let pdPhys := (← s₁.load64 (slot TEMP_PAGE (index 30 virtualAddress))) &&& PAGE_MASK
  let s₂ ← tempMap s₁ pdPhys
  let ptPhys := (← s₂.load64 (slot TEMP_PAGE (index 21 virtualAddress))) &&& PAGE_MASK
  let s₃ ← tempMap s₂ ptPhys
  let pte := (← s₃.load64 (slot TEMP_PAGE (index 12 virtualAddress))) &&& PAGE_MASK
  .ok ⟨pdptPhys, pdPhys, ptPhys, pte, s₃,
    [s.translate (slot ctx (index 39 virtualAddress)), s₁.translate (slot TEMP_PAGE (index 30 virtualAddress)),
      s₂.translate (slot TEMP_PAGE (index 21 virtualAddress)),
      s₃.translate (slot TEMP_PAGE (index 12 virtualAddress))].filterMap id⟩

theorem getPhysicalAddress_walkDown (s : Machine) (ctx va : ℕ) : getPhysicalAddress s ctx va
    = walkDown s ctx va >>= fun w => .ok (add64 w.pte (va &&& 0xFFF), w.machine) := by
  simp only [getPhysicalAddress, walkDown, bind_assoc, ok_bind]

theorem unmapPage_walkDown (s : Machine) (ctx va : ℕ) : unmapPage s ctx va
    = (do
      let w ← walkDown s ctx va
      let s ← w.machine.store64 (slot TEMP_PAGE (index 12 va)) 0
      let s := { s with pmm := pmmFree s.pmm w.pte }
      let s ← freeIfEmpty s w.ptPhys
      let s ← freeIfEmpty s w.pdPhys
      freeIfEmpty s w.pdptPhys) := by
  simp only [unmapPage, walkDown, bind_assoc, ok_bind]

/-- The leaf of `TEMP_PAGE`, as an address. -/
def InTempLeaf (pt x : ℕ) : Prop := pt * 4096 + 8 * 511 ≤ x ∧ x < pt * 4096 + 8 * 512

/-- `unmap_page` leaves the bitmap and memory as they were, `TEMP_PAGE`'s leaf apart, and the entries
    that both functions read on the way down are entries of tables. -/
def TouchesNothing (s : Machine) (ctx va : ℕ) : Prop :=
  (∀ s', unmapPage s ctx va = .ok s' → s'.pmm.memBitmap = s.pmm.memBitmap ∧
    ∀ x, (∀ pt, s.table windowPath = some pt → ¬ InTempLeaf pt x) → s'.phys x = s.phys x) ∧
  ∀ w, walkDown s ctx va = .ok w → ∀ x ∈ w.reads, ∃ p, p.length ≤ 3 ∧ s.table p = some (x / 4096)

/-! ### The invariant -/

/-- The machine between calls of `map_page`: absent entries are zero, and the tables that `map_page`
    made are in frames of the allocator. -/
structure Tidy (s : Machine) : Prop where
  running : Running s
  zeros : AbsentZero s
  alloc : ∀ p n, p.length ≤ 3 → ¬ p <+: windowPath → s.table p = some n → n < s.pmm.memBitmapBitSize

theorem boot_tidy {m bm : Mem} {mmap : List MmapEntry} {s : Machine} (h : boot m bm mmap = some s) :
    Tidy s := by
  obtain ⟨n, P, hr, hk, _, h511, T, _⟩ := boot_spec h
  have hz : ∀ {c : Prop} [Decidable c] {v : ℕ}, child v ≠ none → child (if c then v else 0) = none →
      (if c then v else 0) = 0 := fun hv hc => by
    split at hc
    · exact absurd hc hv
    · rename_i hn
      rw [if_neg hn]
  have h3 : ∀ {k : ℕ}, k < 2 ^ 40 → child (k * 4096 ||| 0x03) ≠ none := fun hk => by
    rw [child_three hk]
    simp
  refine ⟨boot_running h, fun p k i hp hk hc => ?_, fun p k hp hw hk => ?_⟩
  · rcases T.table_cases (by omega) hr hp hk with ⟨_, rfl⟩ | ⟨_, rfl⟩ | ⟨_, rfl⟩ | ⟨_, rfl⟩
    · rw [T.pml4] at hc ⊢
      exact hz (h3 (by omega)) hc
    · rw [T.pdpt] at hc ⊢
      exact hz (h3 (by omega)) hc
    · rw [T.pd] at hc ⊢
      exact hz (h3 (by omega)) hc
    · rw [T.pt] at hc
      exact absurd hc (h3 (by omega))
  · rcases T.table_cases (by omega) hr hp hk with ⟨rfl, _⟩ | ⟨rfl, _⟩ | ⟨rfl, _⟩ | ⟨rfl, _⟩
    · exact absurd ⟨_, rfl⟩ hw
    · exact absurd ⟨_, rfl⟩ hw
    · exact absurd ⟨_, rfl⟩ hw
    · exact absurd ⟨[], rfl⟩ hw

theorem Mapped.zeros {s s' : Machine} {flags va leaf pdpt pd pt : ℕ}
    (M : Mapped flags va leaf s s' pdpt pd pt) (hleaf : leaf < 2 ^ 64) (hpres : leaf &&& 0x1 ≠ 0)
    (Z : AbsentZero s) : AbsentZero s' := by
  obtain ⟨_, g, f, P, G, htab, rfl⟩ := M
  intro p n i hp hn hc
  rw [withLeaf_table P rfl htab hleaf hp] at hn
  rw [withEntry, ents_store64 hleaf] at hc ⊢
  split at hc
  · exact absurd (child_eq_none.mp hc) hpres
  · rename_i hne
    rw [if_neg hne]
    exact G.zeros Z p n i hp hn hc

theorem Tidy.run {s s' : Machine} {c : MapCall} (D : Tidy s) (A : Admitted s c) (h : c.run s = .ok s') :
    Tidy s' := by
  obtain ⟨pdpt, pd, pt, P, _⟩ := D.running
  have M := A.mapped P h
  refine ⟨run_running D.running A h, M.zeros A.leaf_lt (or_present A.flags_present) D.zeros,
    fun p n hp hw hn => ?_⟩
  obtain ⟨g, G, _, htab, _⟩ := M.upper A.leaf_lt
  rw [M.size A.leaf_lt]
  rw [htab p hp] at hn
  rcases G.table_or_free P.size (flagBits_of_lt (by have := A.flags_lt; omega)) hp hn with h | ⟨h, _⟩
  · exact D.alloc p n hp hw h
  · exact h

/-! ### Following an absent entry -/

section
variable {s : Machine} {pdpt pd pt ctx va r : ℕ}

/-- Each level is read where the entry above points, present or not. -/
theorem walkDown_reads (W : Window s pdpt pd pt) (hp : Points s ctx r) : ∃ w n₁ n₂ n₃,
    walkDown s ctx va = .ok w ∧ n₁ = frame (ents s.phys r (index 39 va)) ∧
    n₂ = frame (ents (withTemp s pt n₁).phys n₁ (index 30 va)) ∧
    n₃ = frame (ents (withTemp s pt n₂).phys n₂ (index 21 va)) ∧
    w.reads = [r * 4096 + 8 * index 39 va, n₁ * 4096 + 8 * index 30 va, n₂ * 4096 + 8 * index 21 va,
      n₃ * 4096 + 8 * index 12 va] := by
  have hpts : ∀ n, n < 2 ^ 40 → Points (withTemp s pt n) TEMP_PAGE n := fun n hn =>
    (W.withTemp hn).points_temp (child_ents_withTemp hn)
  have hnext : ∀ c n, c < 2 ^ 40 → tempMap (withTemp s pt c) (n * 4096) = .ok (withTemp s pt n) :=
    fun c n hc => by rw [tempMap_eq (W.withTemp hc), withTemp_withTemp]
  obtain ⟨n₁, h₁⟩ : ∃ n₁, n₁ = frame (ents s.phys r (index 39 va)) := ⟨_, rfl⟩
  have l₁ : n₁ < 2 ^ 40 := h₁ ▸ frame_lt _
  obtain ⟨n₂, h₂⟩ : ∃ n₂, n₂ = frame (ents (withTemp s pt n₁).phys n₁ (index 30 va)) := ⟨_, rfl⟩
  have l₂ : n₂ < 2 ^ 40 := h₂ ▸ frame_lt _
  obtain ⟨n₃, h₃⟩ : ∃ n₃, n₃ = frame (ents (withTemp s pt n₂).phys n₂ (index 21 va)) := ⟨_, rfl⟩
  have l₃ : n₃ < 2 ^ 40 := h₃ ▸ frame_lt _
  have hw : walkDown s ctx va = .ok ⟨n₁ * 4096, n₂ * 4096, n₃ * 4096,
      frame (ents (withTemp s pt n₃).phys n₃ (index 12 va)) * 4096, withTemp s pt n₃,
      [r * 4096 + 8 * index 39 va, n₁ * 4096 + 8 * index 30 va, n₂ * 4096 + 8 * index 21 va,
        n₃ * 4096 + 8 * index 12 va]⟩ := by
    unfold walkDown
    rw [hp.load64, ok_bind]
    simp only [and_pageMask, ← h₁, tempMap_eq W, ok_bind, (hpts n₁ l₁).load64, ← h₂, hnext n₁ n₂ l₁,
      (hpts n₂ l₂).load64, ← h₃, hnext n₂ n₃ l₂, (hpts n₃ l₃).load64, hp _, (hpts n₁ l₁) _, (hpts n₂ l₂) _,
      (hpts n₃ l₃) _]
    rfl
  exact ⟨_, n₁, n₂, n₃, hw, h₁, h₂, h₃, rfl⟩

theorem frame_zero : frame 0 = 0 := rfl

/-- In a tidy machine, `unmap_page` of a page that is not mapped touches something foreign. -/
theorem Tidy.touches (D : Tidy s) (hctx : ctx % 4096 = 0) (hact : s.translate ctx = some s.cr3)
    (hno : walk s.phys s.root va = none) : ¬ TouchesNothing s ctx va := by
  obtain ⟨pdpt, pd, pt, P, _⟩ := D.running
  rintro ⟨hsame, hreads⟩
  have hpts : Points s ctx s.root :=
    points_of_translate hctx (by rw [hact, ← cr3_of_active hctx hact])
  obtain ⟨w, n₁, n₂, n₃, hw, h₁, h₂, h₃, hr⟩ := walkDown_reads P.toWindow hpts
  -- frame 0 is no table
  have foreign : ∀ {n : ℕ} {i : Fin 512}, n * 4096 + 8 * (i : ℕ) ∈ w.reads → n ≠ 0 := fun {n i} hm h0 => by
    obtain ⟨p, hp, ht⟩ := hreads w hw _ hm
    rw [h0, show (0 * 4096 + 8 * (i : ℕ)) / 4096 = 0 by omega] at ht
    exact P.nonzero p hp ht
  have r₁ : n₁ ≠ 0 := foreign (i := index 30 va) (by rw [hr]; simp)
  have r₂ : n₂ ≠ 0 := foreign (i := index 21 va) (by rw [hr]; simp)
  have r₃ : n₃ ≠ 0 := foreign (i := index 12 va) (by rw [hr]; simp)
  -- so no upper entry is absent
  have link : ∀ {q : List (Fin 512)} {i : Fin 512} {n c : ℕ}, q.length ≤ 2 → s.table q = some n →
      c = frame (ents s.phys n i) → c ≠ 0 → s.table (q ++ [i]) = some c := fun {q i n c} hq hn hc h0 => by
    rw [child_of_table hn]
    cases hch : child (ents s.phys n i) with
    | none => rw [hc, D.zeros q n i (by omega) hn hch] at h0; exact absurd frame_zero h0
    | some x => rw [hc, (child_eq_some.mp hch).2]
  have t₁ : s.table [index 39 va] = some n₁ := link (q := []) (by simp) rfl h₁ r₁
  have l₁ := table_lt (by simp) t₁
  rw [ents_withTemp l₁, if_neg fun h => P.ne_pt (by simp) t₁ h.1] at h₂
  have t₂ : s.table [index 39 va, index 30 va] = some n₂ := link (q := [index 39 va]) (by simp) t₁ h₂ r₂
  have l₂ := table_lt (by simp) t₂
  rw [ents_withTemp l₂, if_neg fun h => P.ne_pt (by simp) t₂ h.1] at h₃
  have t₃ : s.table (path va) = some n₃ := link (q := [index 39 va, index 30 va]) (by simp) t₂ h₃ r₃
  -- only the leaf is absent: the frame freed is frame 0
  have hwin : path va ≠ windowPath := fun h => by
    have hleaf : ∃ c, child (ents s.phys pt (index 12 va)) = some c := by
      rcases Nat.lt_or_ge (index 12 va : ℕ) 511 with hlt | hge
      · exact ⟨_, P.leaf _ hlt⟩
      · rw [show index 12 va = 511 from Fin.ext (Nat.le_antisymm (Nat.le_of_lt_succ (index 12 va).isLt) hge)]
        exact P.temp
    obtain ⟨c, hc⟩ := hleaf
    rw [show walk s.phys s.root va = s.entry (path va) (index 12 va) from rfl, h,
      entry_of_table P.table_window, if_neg (child_eq_some.mp hc).1] at hno
    cases hno
  have hz : ents s.phys n₃ (index 12 va) &&& PAGE_MASK = 0 * 4096 := by
    rw [D.zeros (path va) n₃ (index 12 va) (by simp [path]) t₃ (child_none_of_entry t₃ hno)]
    rfl
  have hlt := D.alloc (path va) n₃ (by simp [path]) (fun h => hwin (h.eq_of_length (by simp [path]))) t₃
  obtain ⟨g, _, _, hrun⟩ := unmapPage_spec P (reaches_of_active hctx hact _) hwin t₃
  have hbits := (hsame _ hrun).1
  have hzero := released_self hz (by omega) (Ne.symm r₃)
  rw [Pmm.used, show (released s n₃ (index 12 va)).memBitmap = s.pmm.memBitmap from hbits] at hzero
  rw [show Bits.bit s.pmm.memBitmap 0 = true from P.reserved 0 (by omega)] at hzero
  cases hzero

end

/-- CORRECT: after boot and any calls of `map_page`, at every page that is not mapped the two functions
    touch something foreign. -/
theorem unmapped_touches_foreign {m bm : Mem} {mmap : List MmapEntry} {s₀ s : Machine} {calls : List MapCall}
    {ctx va : ℕ} (hboot : boot m bm mmap = some s₀) (hrun : Run Admitted MapCall.run s₀ calls s)
    (hctx : ctx % 4096 = 0) (hact : s.translate ctx = some s.cr3) (hno : walk s.phys s.root va = none) :
    ¬ TouchesNothing s ctx va :=
  (hrun.invariant (I := Tidy) (boot_tidy hboot) fun _ _ _ D A hst => D.run A hst).touches hctx hact hno

/-- On the 64 MiB machine after boot, the stack page of a program. -/
theorem unmapped_touches_foreign_stack : ∃ s, boot (fun _ => 0) (fun _ => 0) smallMap = some s ∧
    walk s.phys s.root 0x700000000000 = none ∧ ¬ TouchesNothing s s.pml4t 0x700000000000 := by
  obtain ⟨s, hboot, _⟩ := boot_smallMap (fun _ => 0) (fun _ => 0)
  have A : Admitted s ⟨s.pml4t, 0x700000000000, 0, 0x7⟩ := .first hboot (by decide) (by decide) (by decide)
  have hno : walk s.phys s.root 0x700000000000 = none :=
    walk_none_of_table (boot_unmapped hboot (path_ne_window A.canonical A.outside))
  exact ⟨s, hboot, hno, unmapped_touches_foreign hboot (.nil s) A.ctx_aligned A.ctx_active hno⟩

/-- There `unmap_page` of the page at 4 MiB, none of whose tables exist, reads frame 0 as a table. -/
theorem unmap_reads_frame_zero : ∃ s, boot (fun _ => 0) (fun _ => 0) smallMap = some s ∧
    walk s.phys s.root 0x400000 = none ∧ ¬ TouchesNothing s s.pml4t 0x400000 := by
  obtain ⟨s, hboot, _⟩ := boot_smallMap (fun _ => 0) (fun _ => 0)
  have A : Admitted s ⟨s.pml4t, 0x400000, 0, 0x7⟩ := .first hboot (by decide) (by decide) (by decide)
  have hno : walk s.phys s.root 0x400000 = none :=
    walk_none_of_table (boot_unmapped hboot (path_ne_window A.canonical A.outside))
  exact ⟨s, hboot, hno, (boot_tidy hboot).touches A.ctx_aligned A.ctx_active hno⟩

end TerraOS.Vmm
