import TerraOS.Vmm.Places

/-! The translation cache.

    `Cpu` is the machine with the translations that its TLB may hold. Every access caches the
    translation it uses, `invlpg` drops those of one page and a load of `CR3` drops them all; what a real
    TLB holds is some part of this list, since it may forget a translation at any time. The functions
    of vmm.c are written once more, over such a machine and with the `tlb_invalidate` of `temp_map`. -/

namespace TerraOS.Vmm
open Lib Lib.Word Pmm

/-- The machine, and the cached translations: a page and its leaf entry. -/
structure Cpu where
  machine : Machine
  tlb : List (ℕ × ℕ)

namespace Cpu

/-- An access caches the translation of its page. -/
def fill (c : Cpu) (va : ℕ) : Cpu :=
  if Canonical va then
    match walk c.machine.phys c.machine.root va with
    | some e => { c with tlb := (va / 4096, e) :: c.tlb }
    | none => c
  else c

def load64 (c : Cpu) (va : ℕ) : Except Stop (ℕ × Cpu) := do
  let v ← c.machine.load64 va
  .ok (v, c.fill va)

def store64 (c : Cpu) (va v : ℕ) : Except Stop Cpu := do
  let m ← c.machine.store64 va v
  .ok { c.fill va with machine := m }

def load8 (c : Cpu) (va : ℕ) : Except Stop UInt8 := c.machine.load8 va

def store8 (c : Cpu) (va : ℕ) (b : UInt8) : Except Stop Cpu := do
  let m ← c.machine.store8 va b
  .ok { c.fill va with machine := m }

/-- `tlb_invalidate`. -/
def tlbInvalidate (c : Cpu) (va : ℕ) : Cpu :=
  { c with tlb := c.tlb.filter fun x => x.1 ≠ va / 4096 }

/-- A load of `CR3`. -/
def loadCr3 (c : Cpu) (cr3 : ℕ) : Cpu := ⟨{ c.machine with cr3 := cr3 }, []⟩

end Cpu

/-- The memory that `memset` runs on. -/
def cachedBus : Bus Cpu Stop := ⟨Cpu.load8, Cpu.store8⟩

/-! ### vmm.c, with the cache -/

/-- `temp_map`. -/
def tempMapCached (c : Cpu) (physicalAddress : ℕ) : Except Stop Cpu := do
  let (entry, c) ← c.load64 (slot c.machine.pml4t (index 39 TEMP_PAGE))
  let pdpt := add64 (entry &&& PAGE_MASK) KERNEL_BASE
  let (entry, c) ← c.load64 (slot pdpt (index 30 TEMP_PAGE))
  let pd := add64 (entry &&& PAGE_MASK) KERNEL_BASE
  let (entry, c) ← c.load64 (slot pd (index 21 TEMP_PAGE))
  let pt := add64 (entry &&& PAGE_MASK) KERNEL_BASE
  let c ← c.store64 (slot pt (index 12 TEMP_PAGE)) (physicalAddress ||| 0x13)
  .ok (c.tlbInvalidate TEMP_PAGE)

/-- One level of `map_page`. -/
def nextTableCached (c : Cpu) (table : ℕ) (i : Fin 512) (flags : ℕ) : Except Stop Cpu := do
  let (entry, c) ← c.load64 (slot table i)
  if entry &&& 0x1 = 0 then
    let check := pmmAlloc c.machine.pmm
    let c := { c with machine := { c.machine with pmm := check.2 } }
    if check.1 = 0 then .error ⟨.panic "Out of physical memory for page table!", c.machine⟩
    else
      let c ← c.store64 (slot table i) (check.1 ||| flags ||| 0x1)
      let c ← tempMapCached c check.1
      memset cachedBus c TEMP_PAGE 0 0x1000
  else tempMapCached c (entry &&& PAGE_MASK)

/-- `map_page`. -/
def mapPageCached (c : Cpu) (ctx virtualAddress physicalAddress flags : ℕ) : Except Stop Cpu := do
  let c ← nextTableCached c ctx (index 39 virtualAddress) flags
  let c ← nextTableCached c TEMP_PAGE (index 30 virtualAddress) flags
  let c ← nextTableCached c TEMP_PAGE (index 21 virtualAddress) flags
  c.store64 (slot TEMP_PAGE (index 12 virtualAddress)) (physicalAddress ||| flags)

/-- The scan of `unmap_page`. -/
def emptyFromCached (c : Cpu) (table : ℕ) : ℕ → ℕ → Except Stop (Bool × Cpu)
  | 0, _ => .ok (true, c)
  | n + 1, i => do
    let (entry, c) ← c.load64 (add64 table (8 * i))
    if entry &&& 0x1 ≠ 0 then .ok (false, c) else emptyFromCached c table n (i + 1)

def freeIfEmptyCached (c : Cpu) (phys : ℕ) : Except Stop Cpu := do
  let c ← tempMapCached c phys
  let (empty, c) ← emptyFromCached c TEMP_PAGE 512 0
  if empty then .ok { c with machine := { c.machine with pmm := pmmFree c.machine.pmm phys } } else .ok c

/-- `unmap_page`. -/
def unmapPageCached (c : Cpu) (ctx virtualAddress : ℕ) : Except Stop Cpu := do
  let (entry, c) ← c.load64 (slot ctx (index 39 virtualAddress))
  let pdptPhys := entry &&& PAGE_MASK
  let c ← tempMapCached c pdptPhys
  let (entry, c) ← c.load64 (slot TEMP_PAGE (index 30 virtualAddress))
  let pdPhys := entry &&& PAGE_MASK
  let c ← tempMapCached c pdPhys
  let (entry, c) ← c.load64 (slot TEMP_PAGE (index 21 virtualAddress))
  let ptPhys := entry &&& PAGE_MASK
  let c ← tempMapCached c ptPhys
  let (entry, c) ← c.load64 (slot TEMP_PAGE (index 12 virtualAddress))
  let pte := entry &&& PAGE_MASK
  let c ← c.store64 (slot TEMP_PAGE (index 12 virtualAddress)) 0
  let c := { c with machine := { c.machine with pmm := pmmFree c.machine.pmm pte } }
  let c ← freeIfEmptyCached c ptPhys
  let c ← freeIfEmptyCached c pdPhys
  freeIfEmptyCached c pdptPhys

@[simp] theorem fill_machine (c : Cpu) (va : ℕ) : (c.fill va).machine = c.machine := by
  unfold Cpu.fill
  split
  · split <;> rfl
  · rfl

/-! ### The cache changes nothing else -/

/-- The call does to the machine what `y` does. -/
def Erased (x : Except Stop Cpu) (y : Except Stop Machine) : Prop := x.map Cpu.machine = y

theorem Erased.eq_ok {x : Except Stop Cpu} {y : Except Stop Machine} {c : Cpu} (h : Erased x y)
    (hx : x = .ok c) : y = .ok c.machine := by
  rw [hx] at h
  exact h.symm

theorem Erased.of_ok {x : Except Stop Cpu} {y : Except Stop Machine} {m : Machine} (h : Erased x y)
    (hy : y = .ok m) : ∃ c, x = .ok c ∧ c.machine = m := by
  cases x with
  | error e => rw [hy] at h; cases h
  | ok c => rw [hy] at h; exact ⟨c, rfl, Except.ok.inj h⟩

theorem Erased.bind {x : Except Stop Cpu} {y : Except Stop Machine} {k : Cpu → Except Stop Cpu}
    {k' : Machine → Except Stop Machine} (h : Erased x y) (hk : ∀ c, Erased (k c) (k' c.machine)) :
    Erased (x >>= k) (y >>= k') := by
  cases x with
  | error e => rw [← show Except.error e = y from h]; rfl
  | ok c => rw [← show Except.ok c.machine = y from h]; exact hk c

theorem Erased.load64 {c : Cpu} {va : ℕ} {k : ℕ × Cpu → Except Stop Cpu} {k' : ℕ → Except Stop Machine}
    (hk : ∀ v c', c'.machine = c.machine → Erased (k (v, c')) (k' v)) :
    Erased (c.load64 va >>= k) (c.machine.load64 va >>= k') := by
  unfold Cpu.load64
  cases c.machine.load64 va with
  | error e => rfl
  | ok v => exact hk v _ (fill_machine c va)

theorem erased_store64 (c : Cpu) (va v : ℕ) : Erased (c.store64 va v) (c.machine.store64 va v) := by
  unfold Cpu.store64
  cases c.machine.store64 va v <;> rfl

theorem erased_store8 (c : Cpu) (va : ℕ) (b : UInt8) : Erased (c.store8 va b) (c.machine.store8 va b) := by
  unfold Cpu.store8
  cases c.machine.store8 va b <;> rfl

theorem Erased.tlbInvalidate {x : Except Stop Cpu} {y : Except Stop Machine} (h : Erased x y) (va : ℕ) :
    Erased (x >>= fun c => .ok (c.tlbInvalidate va)) y := by
  cases x with
  | error e => exact h
  | ok c => exact h

theorem erased_tempMap (c : Cpu) (pa : ℕ) : Erased (tempMapCached c pa) (tempMap c.machine pa) := by
  unfold tempMapCached tempMap
  refine Erased.load64 fun e₁ c₁ m₁ => ?_
  rw [← m₁]
  refine Erased.load64 fun e₂ c₂ m₂ => ?_
  rw [← m₂]
  refine Erased.load64 fun e₃ c₃ m₃ => ?_
  rw [← m₃]
  exact (erased_store64 c₃ _ _).tlbInvalidate TEMP_PAGE

theorem erased_memset : ∀ (n i : ℕ) (c : Cpu) (dest : ℕ) (b : UInt8),
    Erased (memsetLoop cachedBus dest b n i c) (memsetLoop pagedBus dest b n i c.machine)
  | 0, _, _, _, _ => rfl
  | n + 1, i, c, dest, b => (erased_store8 c _ b).bind fun c => erased_memset n (i + 1) c dest b

theorem erased_nextTable (c : Cpu) (table : ℕ) (i : Fin 512) (flags : ℕ) :
    Erased (nextTableCached c table i flags) (nextTable c.machine table i flags) := by
  unfold nextTableCached nextTable
  refine Erased.load64 fun e₁ c₁ m₁ => ?_
  rw [← m₁]
  by_cases he : e₁ &&& 0x1 = 0
  · simp only [if_pos he]
    by_cases hz : (pmmAlloc c₁.machine.pmm).1 = 0
    · simp only [if_pos hz]
      rfl
    · simp only [if_neg hz]
      exact (erased_store64 _ _ _).bind fun c => (erased_tempMap c _).bind fun c => erased_memset _ _ c _ _
  · simp only [if_neg he]
    exact erased_tempMap c₁ _

theorem erased_mapPage (c : Cpu) (ctx va pa flags : ℕ) :
    Erased (mapPageCached c ctx va pa flags) (mapPage c.machine ctx va pa flags) :=
  (erased_nextTable c ctx _ flags).bind fun c => (erased_nextTable c _ _ flags).bind fun c =>
    (erased_nextTable c _ _ flags).bind fun c => erased_store64 c _ _

theorem Erased.emptyFrom (table : ℕ) {k : Bool × Cpu → Except Stop Cpu} {k' : Bool → Except Stop Machine} :
    ∀ (n i : ℕ) (c : Cpu), (∀ b c', c'.machine = c.machine → Erased (k (b, c')) (k' b)) →
    Erased (emptyFromCached c table n i >>= k) (emptyFrom c.machine table n i >>= k')
  | 0, _, c, hk => hk true c rfl
  | n + 1, i, c, hk => by
    unfold emptyFromCached Vmm.emptyFrom Cpu.load64
    cases c.machine.load64 (add64 table (8 * i)) with
    | error e => rfl
    | ok v =>
      simp only [ok_bind]
      by_cases hv : v &&& 0x1 ≠ 0
      · rw [if_pos hv, if_pos hv]
        exact hk false _ (fill_machine c _)
      · rw [if_neg hv, if_neg hv]
        have ih := Erased.emptyFrom table n (i + 1) (c.fill (add64 table (8 * i))) (fun b c' h => hk b c' (by
          rw [h, fill_machine]))
        rw [fill_machine] at ih
        exact ih

theorem erased_freeIfEmpty (c : Cpu) (phys : ℕ) :
    Erased (freeIfEmptyCached c phys) (freeIfEmpty c.machine phys) := by
  refine (erased_tempMap c phys).bind fun c₁ => Erased.emptyFrom TEMP_PAGE 512 0 c₁ fun b c₂ m₂ => ?_
  rw [← m₂]
  cases b <;> rfl

theorem erased_unmapPage (c : Cpu) (ctx va : ℕ) :
    Erased (unmapPageCached c ctx va) (unmapPage c.machine ctx va) := by
  unfold unmapPageCached unmapPage
  refine Erased.load64 fun e₁ c₁ m₁ => ?_
  rw [← m₁]
  refine (erased_tempMap c₁ _).bind fun c₂ => Erased.load64 fun e₂ c₃ m₂ => ?_
  rw [← m₂]
  refine (erased_tempMap c₃ _).bind fun c₄ => Erased.load64 fun e₃ c₅ m₃ => ?_
  rw [← m₃]
  refine (erased_tempMap c₅ _).bind fun c₆ => Erased.load64 fun e₄ c₇ m₄ => ?_
  rw [← m₄]
  refine (erased_store64 c₇ _ _).bind fun c₈ => ?_
  exact (erased_freeIfEmpty ⟨_, _⟩ _).bind fun c => (erased_freeIfEmpty c _).bind fun c => erased_freeIfEmpty c _

section
variable {c c' : Cpu} {s : Machine} {pdpt pd pt va f g n flags : ℕ} {i : Fin 512} {x : ℕ × ℕ}

/-! ### What a step caches -/

/-- A cached translation was cached before, or is the one of the page accessed. -/
theorem mem_fill (h : x ∈ (c.fill va).tlb) : x ∈ c.tlb ∨
    x.1 = va / 4096 ∧ Canonical va ∧ walk c.machine.phys c.machine.root (x.1 * 4096) = some x.2 := by
  unfold Cpu.fill at h
  split at h
  · rename_i hc
    split at h
    · rename_i e he
      rcases List.mem_cons.mp h with rfl | h
      · refine .inr ⟨rfl, hc, ?_⟩
        have hva : va / 4096 * 4096 + va % 4096 = va := by omega
        rw [← hva, walk_add (by omega) (by omega)] at he
        exact he
      · exact .inl h
    · exact .inl h
  · exact .inl h

theorem cached_load64 {table : ℕ} (h : Points c.machine table f) (i : Fin 512) :
    c.load64 (slot table i) = .ok (ents c.machine.phys f i, c.fill (slot table i)) := by
  rw [Cpu.load64, h.load64, ok_bind]

theorem cached_store64 {table : ℕ} (h : Points c.machine table f) (i : Fin 512) (v : ℕ) :
    c.store64 (slot table i) v
      = .ok { c.fill (slot table i) with machine := withEntry c.machine f i v } := by
  rw [Cpu.store64, h.store64, ok_bind]
  rfl

/-- The pages of the window below `TEMP_PAGE`. -/
def WindowPage (n : ℕ) : Prop := ∃ k < 511, n = KERNEL_BASE / 4096 + k

/-- A translation cached on the way: of a page that satisfies `A`, from the tables of `s`. -/
def CachedFrom (s : Machine) (A : ℕ → Prop) (x : ℕ × ℕ) : Prop :=
  A x.1 ∧ Canonical (x.1 * 4096) ∧ walk s.phys s.root (x.1 * 4096) = some x.2

theorem canonical_page (h : Canonical va) : Canonical (va / 4096 * 4096) := by
  unfold Canonical at h ⊢
  omega

theorem slot_page {table : ℕ} (ha : table % 4096 = 0) (hlt : table + 4096 ≤ 2 ^ 64) (i : Fin 512) :
    slot table i / 4096 = table / 4096 := by
  rw [slot_eq hlt]
  omega

theorem slot_windowPage (hn : n < 511) (i : Fin 512) : WindowPage (slot (KERNEL_BASE + n * 4096) i / 4096) := by
  refine ⟨n, hn, ?_⟩
  rw [slot_page (by simp only [KERNEL_BASE]; omega) (by simp only [KERNEL_BASE]; omega)]
  simp only [KERNEL_BASE]
  omega

/-- An access through a pointer to the window. -/
theorem mem_fill_window (hn : n < 511) (h : x ∈ (c.fill (slot (KERNEL_BASE + n * 4096) i)).tlb) :
    x ∈ c.tlb ∨ CachedFrom c.machine WindowPage x := by
  rcases mem_fill h with h | ⟨h1, h2, h3⟩
  · exact .inl h
  · refine .inr ⟨?_, ?_, h3⟩
    · rw [h1]
      exact slot_windowPage hn i
    · rw [h1]
      exact canonical_page h2

theorem kernel_pointer_child {e n : ℕ} (hc : child e = some n) (hn : n < 511) :
    add64 (e &&& PAGE_MASK) KERNEL_BASE = KERNEL_BASE + n * 4096 := by
  rw [and_pageMask, (child_eq_some.mp hc).2, add64_of_lt (by simp only [KERNEL_BASE]; omega), Nat.add_comm]

/-- `temp_map` caches pages of the window and leaves nothing cached for `TEMP_PAGE`. -/
theorem tempMapCached_spec (W : Window c.machine pdpt pd pt) (n : ℕ) :
    ∃ T, tempMapCached c (n * 4096) = .ok ⟨withTemp c.machine pt n, T⟩ ∧
      ∀ x ∈ T, x.1 ≠ TEMP_PAGE / 4096 ∧ (x ∈ c.tlb ∨ CachedFrom c.machine WindowPage x) := by
  obtain ⟨l1, l2, l3, l4⟩ := W.low
  have i4 : index 39 TEMP_PAGE = 511 := index_eq (by norm_num [TEMP_PAGE])
  have i3 : index 30 TEMP_PAGE = 510 := index_eq (by norm_num [TEMP_PAGE])
  have i2 : index 21 TEMP_PAGE = 0 := index_eq (by norm_num [TEMP_PAGE])
  have i1 : index 12 TEMP_PAGE = 511 := index_eq (by norm_num [TEMP_PAGE])
  obtain ⟨k, hk⟩ : ∃ k, k = c.machine.kroot := ⟨_, rfl⟩
  have hptr : c.machine.pml4t = KERNEL_BASE + k * 4096 := by rw [hk]; exact W.ptr
  rw [← hk] at l1
  have hlink : child (ents c.machine.phys k 511) = some pdpt := by rw [hk]; exact W.klink4
  -- the four accesses
  obtain ⟨c₁, h₁⟩ : ∃ c₁, c₁ = c.fill (slot (KERNEL_BASE + k * 4096) 511) := ⟨_, rfl⟩
  obtain ⟨c₂, h₂⟩ : ∃ c₂, c₂ = c₁.fill (slot (KERNEL_BASE + pdpt * 4096) 510) := ⟨_, rfl⟩
  obtain ⟨c₃, h₃⟩ : ∃ c₃, c₃ = c₂.fill (slot (KERNEL_BASE + pd * 4096) 0) := ⟨_, rfl⟩
  obtain ⟨c₄, h₄⟩ : ∃ c₄, c₄ = c₃.fill (slot (KERNEL_BASE + pt * 4096) 511) := ⟨_, rfl⟩
  have m₁ : c₁.machine = c.machine := by rw [h₁, fill_machine]
  have m₂ : c₂.machine = c.machine := by rw [h₂, fill_machine, m₁]
  have m₃ : c₃.machine = c.machine := by rw [h₃, fill_machine, m₂]
  refine ⟨c₄.tlb.filter fun x => x.1 ≠ TEMP_PAGE / 4096, ?_, fun x hx => ?_⟩
  · unfold tempMapCached
    rw [i4, i3, i2, i1, hptr, cached_load64 (W.points l1), ok_bind, ← h₁]
    dsimp only
    rw [kernel_pointer_child hlink l2, cached_load64 (by rw [m₁]; exact W.points l2), ok_bind, ← h₂, m₁]
    dsimp only
    rw [kernel_pointer_child W.link3 l3, cached_load64 (by rw [m₂]; exact W.points l3), ok_bind, ← h₃, m₂]
    dsimp only
    rw [kernel_pointer_child W.link2 l4, cached_store64 (by rw [m₃]; exact W.points l4), ok_bind, ← h₄, m₃]
    rfl
  · obtain ⟨hmem, hne⟩ := List.mem_filter.mp hx
    refine ⟨by simpa using hne, ?_⟩
    rw [h₄] at hmem
    rcases mem_fill_window l4 hmem with hmem | h
    · rw [h₃] at hmem
      rcases mem_fill_window l3 hmem with hmem | h
      · rw [h₂] at hmem
        rcases mem_fill_window l2 hmem with hmem | h
        · rw [h₁] at hmem
          exact mem_fill_window l1 hmem
        · exact .inr (m₁ ▸ h)
      · exact .inr (m₂ ▸ h)
    · exact .inr (m₃ ▸ h)

/-- The leaf of a page of the window, `TEMP_PAGE` with the others. -/
theorem Window.walk_at (W : Window s pdpt pd pt) {k : Fin 512} {m : ℕ}
    (hc : child (ents s.phys pt k) = some m) :
    walk s.phys s.root ((KERNEL_BASE / 4096 + k) * 4096) = some (ents s.phys pt k) := by
  have hva : (KERNEL_BASE / 4096 + (k : ℕ)) * 4096 = KERNEL_BASE + (k : ℕ) * 4096 := by
    simp only [KERNEL_BASE]
    omega
  have hi : index 12 (KERNEL_BASE + (k : ℕ) * 4096) = k := Fin.ext (by rw [index_window (by omega)]; omega)
  rw [hva, walk, path_window (by omega), hi]
  exact entryAt_eq_some W.node hc

theorem temp_page : TEMP_PAGE / 4096 = KERNEL_BASE / 4096 + ((511 : Fin 512) : ℕ) := rfl

/-- The memory zeroed through `TEMP_PAGE`, whose one translation is cached. -/
theorem memsetCached_loop (W : Window s pdpt pd pt) (hg : 511 ≤ g) (hr : g ≠ s.root)
    (ht : child (ents s.phys pt 511) = some g) : ∀ (n i : ℕ) (T : List (ℕ × ℕ)), i + n ≤ 4096 →
    ∃ T', memsetLoop cachedBus TEMP_PAGE 0 n i ⟨{ s with phys := fillBytes s.phys (g * 4096) i 0 }, T⟩
        = .ok ⟨{ s with phys := fillBytes s.phys (g * 4096) (i + n) 0 }, T'⟩ ∧
      ∀ x ∈ T', x ∈ T ∨ x = (TEMP_PAGE / 4096, ents s.phys pt 511)
  | 0, _, T, _ => ⟨T, rfl, fun x hx => .inl hx⟩
  | n + 1, i, T, h => by
    have hm : ∀ x, x / 4096 ≠ g → fillBytes s.phys (g * 4096) i 0 x = s.phys x := fun x hx => by
      rw [fillBytes, if_neg (by omega)]
    have W' := W.of_bytes hg hr hm
    have he : ents (fillBytes s.phys (g * 4096) i 0) pt 511 = ents s.phys pt 511 :=
      ents_congr (fun x hx => hm x (by have := W.low; omega)) 511
    have ht' : child (ents (fillBytes s.phys (g * 4096) i 0) pt 511) = some g := by rw [he, ht]
    have htr := W'.translate_temp ht' (show i < 4096 by omega)
    obtain ⟨T', hT', hmem⟩ := memsetCached_loop W hg hr ht n (i + 1)
      (Cpu.fill ⟨{ s with phys := fillBytes s.phys (g * 4096) i 0 }, T⟩ (TEMP_PAGE + i)).tlb (by omega)
    refine ⟨T', ?_, fun x hx => ?_⟩
    · rw [memsetLoop, add64_of_lt (by simp only [TEMP_PAGE]; omega)]
      simp only [cachedBus, Cpu.store8, Machine.store8, htr, ok_bind, store8_fillBytes]
      rw [show i + (n + 1) = i + 1 + n by omega]
      exact hT'
    · rcases hmem x hx with hx | hx
      · rcases mem_fill hx with hx | ⟨h1, _, h3⟩
        · exact .inl hx
        · have hpage : (TEMP_PAGE + i) / 4096 = TEMP_PAGE / 4096 := by
            simp only [TEMP_PAGE]
            omega
          rw [hpage] at h1
          have hw := W'.walk_at ht'
          rw [← temp_page, ← h1] at hw
          exact .inr (Prod.ext h1 (by rw [← he]; exact Option.some.inj (h3.symm.trans hw)))
      · exact .inr hx

theorem memsetCached_spec (W : Window c.machine pdpt pd pt) (hg : 511 ≤ g) (hr : g ≠ c.machine.root)
    (ht : child (ents c.machine.phys pt 511) = some g) :
    ∃ T, memset cachedBus c TEMP_PAGE 0 0x1000 = .ok ⟨zeroed c.machine g, T⟩ ∧
      ∀ x ∈ T, x ∈ c.tlb ∨ x = (TEMP_PAGE / 4096, ents c.machine.phys pt 511) := by
  have hz : fillBytes c.machine.phys (g * 4096) 0 0 = c.machine.phys := by
    funext x
    exact if_neg (by omega)
  obtain ⟨T, hT, hmem⟩ := memsetCached_loop W hg hr ht 0x1000 0 c.tlb (by omega)
  rw [hz, Nat.zero_add] at hT
  refine ⟨T, ?_, hmem⟩
  rw [memset, show UInt8.ofNat 0 = 0 from rfl, hT]
  rfl

/-! ### Agreement -/

/-- Every cached translation is the current one; those of page `pg` are only known to be among `T₀`. -/
def Agrees (T₀ : List (ℕ × ℕ)) (pg : ℕ) (c : Cpu) : Prop := ∀ x ∈ c.tlb, Canonical (x.1 * 4096) ∧
  (x.1 = pg → x ∈ T₀) ∧ (x.1 ≠ pg → walk c.machine.phys c.machine.root (x.1 * 4096) = some x.2)

/-- `pg` is no page of the window. -/
def OutsideWindow (pg : ℕ) : Prop := ∀ k < 512, pg ≠ KERNEL_BASE / 4096 + k

section agrees
variable {T₀ : List (ℕ × ℕ)} {pg : ℕ} (A : Agrees T₀ pg c) (hout : OutsideWindow pg)
include A

theorem Agrees.fill (hne : va / 4096 ≠ pg) : Agrees T₀ pg (c.fill va) := fun x hx => by
  rw [fill_machine]
  rcases mem_fill hx with hx | ⟨h1, h2, h3⟩
  · exact A x hx
  · exact ⟨by rw [h1]; exact canonical_page h2, fun h => absurd (h1.symm.trans h) hne, fun _ => h3⟩

/-- Other tables with the same leaves, but for `pg`'s. -/
theorem Agrees.withMachine {m : Machine} (h : ∀ n, n ≠ pg → Canonical (n * 4096) →
    walk m.phys m.root (n * 4096) = walk c.machine.phys c.machine.root (n * 4096)) :
    Agrees T₀ pg { c with machine := m } := fun x hx => by
  obtain ⟨h1, h2, h3⟩ := A x hx
  exact ⟨h1, h2, fun hne => by rw [h x.1 hne h1]; exact h3 hne⟩

include hout

omit A in
theorem OutsideWindow.temp : TEMP_PAGE / 4096 ≠ pg := fun h => hout 511 (by omega) (by rw [← h]; rfl)

omit A in
theorem OutsideWindow.window (h : WindowPage n) : n ≠ pg := by
  obtain ⟨k, hk, rfl⟩ := h
  exact fun he => hout k (by omega) he.symm

/-- `temp_map` keeps the agreement. -/
theorem Agrees.tempMap {q : Pmm} (P : Paged { c.machine with pmm := q } pdpt pd pt) (hn : n < 2 ^ 40) :
    ∃ c', tempMapCached c (n * 4096) = .ok c' ∧ c'.machine = withTemp c.machine pt n ∧ Agrees T₀ pg c' := by
  have W : Window c.machine pdpt pd pt := P.toWindow.withPmm c.machine.pmm
  obtain ⟨T, hT, hmem⟩ := tempMapCached_spec W n
  refine ⟨_, hT, rfl, fun x hx => ?_⟩
  obtain ⟨hne, hx⟩ := hmem x hx
  have same : Canonical (x.1 * 4096) → walk (withTemp c.machine pt n).phys (withTemp c.machine pt n).root (x.1 * 4096)
      = walk c.machine.phys c.machine.root (x.1 * 4096) := fun hc => by
    have hpage : (path (x.1 * 4096), index 12 (x.1 * 4096)) ≠ (windowPath, 511) := by
      rw [← path_temp]
      exact page_ne canonical_temp hc (by omega)
    exact @withTemp_entry { c.machine with pmm := q } pdpt pd pt n _ _ P hn (le_refl _) hpage
  rcases hx with hx | ⟨h1, h2, h3⟩
  · obtain ⟨h1, h2, h3⟩ := A x hx
    exact ⟨h1, h2, fun h => (same h1).trans (h3 h)⟩
  · exact ⟨h2, fun h => absurd h (hout.window h1), fun _ => (same h2).trans h3⟩

end agrees

end

end TerraOS.Vmm
