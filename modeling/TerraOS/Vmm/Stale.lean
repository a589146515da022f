import TerraOS.Vmm.Tlb
import TerraOS.Vmm.Undo
import TerraOS.Vmm.Task

/-! Stale translations.

    `map_page` and `unmap_page` invalidate `TEMP_PAGE` and nothing else. The pages they touch on the
    way keep their translations, so what was cached of any other page stays right; what was cached of
    the page mapped or unmapped stays as well, and is right only by luck. Over whole runs the cache
    agrees with the tables exactly as long as no call is made at a page with a cached translation
    (`cache_agrees`). -/

namespace TerraOS.Vmm
open Lib Lib.Word Pmm

section
variable {c : Cpu} {s : Machine} {pdpt pd pt va f g n flags table : ℕ} {i : Fin 512} {p π : List (Fin 512)}
  {T₀ : List (ℕ × ℕ)} {pg : ℕ}

/-! ### `map_page` -/

/-- Growing the tree keeps the leaf of every page but `TEMP_PAGE`. -/
theorem Grown.walk_eq {s' : Machine} (G : Grown flags π s s') (hc : Canonical va)
    (hne : va / 4096 ≠ TEMP_PAGE / 4096) : walk s'.phys s'.root va = walk s.phys s.root va :=
  G.leaf (path va) (index 12 va) rfl (by rw [← path_temp]; exact page_ne canonical_temp hc hne)

/-- A leaf of the window, across the linking of an absent entry. -/
theorem withTable_window (P : Paged s pdpt pd pt) (hflags : FlagBits flags) (h512 : 512 ≤ g)
    (h40 : g < 2 ^ 40) {k : Fin 512} (hk : (k : ℕ) < 511) :
    ents (withEntry { s with pmm := (pmmAlloc s.pmm).2 } f i (g * 4096 ||| flags ||| 0x1)).phys pt k
      = ents (withTable s pt f i g flags).phys pt k := by
  have hpt : pt ≠ g := by have := P.low.2.2.2; omega
  have hk' : ¬ (pt = pt ∧ k = 511) := fun h => by rw [h.2] at hk; exact absurd hk (by simp)
  rw [ents_withTable h40 hflags, if_neg hpt, if_neg hk', withEntry, ents_store64 (link_lt h40 hflags)]

/-- One level of `map_page` keeps the agreement. -/
theorem Agrees.nextTable (A : Agrees T₀ pg c) (hout : OutsideWindow pg) (P : Paged c.machine pdpt pd pt)
    (htbl : Reaches c.machine table p i) (hpage : slot table i / 4096 ≠ pg) (hp : p.length ≤ 2)
    (hflags : FlagBits flags) (hπ : p ++ [i] <+: π) {c' : Cpu} (h : nextTableCached c table i flags = .ok c') :
    Agrees T₀ pg c' := by
  obtain ⟨f, hpt, hf⟩ := htbl
  have A₁ := A.fill hpage
  have m₁ : (c.fill (slot table i)).machine = c.machine := fill_machine _ _
  unfold nextTableCached at h
  rw [cached_load64 hpt, ok_bind] at h
  dsimp only at h
  rcases nextTable_spec P.toWindow P.toFrames (i := i) hpt hflags with
    ⟨g, hc, _⟩ | ⟨hc, hall, _⟩ | ⟨g, hc, hlt, hu, hpmm, _⟩
  · -- the table is there
    have hg : g < 2 ^ 40 := (child_eq_some.mp hc).2 ▸ frame_lt _
    obtain ⟨c'', hc'', _, A'⟩ := A₁.tempMap hout (q := c.machine.pmm) (by rw [m₁]; exact P) hg
    rw [if_neg (child_eq_some.mp hc).1, and_pageMask, (child_eq_some.mp hc).2, hc''] at h
    obtain rfl := Except.ok.inj h
    exact A'
  · have hnull : (pmmAlloc c.machine.pmm).1 = 0 := by
      rcases P.toFrames.ok.alloc with ⟨_, ha⟩ | ⟨k, _, hlt, hu, _, _⟩
      · rw [ha]
      · rw [hall k hlt] at hu
        cases hu
    rw [if_pos (child_eq_none.mp hc), m₁, if_pos hnull] at h
    cases h
  · -- a table is made: linked, brought under `TEMP_PAGE`, and zeroed
    obtain ⟨h512, hr, h40⟩ := P.free hlt hu
    have hf : c.machine.table p = some f := by
      rcases hf with hf | ⟨rfl, rfl, rfl⟩
      · exact hf
      · rw [P.klink4] at hc
        cases hc
    have P' := withTable_paged P hflags hp hf hc hlt hu hpmm
    have G := withTable_grown (π := π) P hflags hp hf hc hlt hu hpmm hπ
    have W₁ := (P.toWindow.withPmm (pmmAlloc c.machine.pmm).2).withEntry (f := f) (i := i) (link_lt h40 hflags) hc
    have W₂ := W₁.withTemp h40
    have hpt' : Points { c.machine with pmm := (pmmAlloc c.machine.pmm).2 } table f := hpt
    have A₂ : Agrees T₀ pg (Cpu.fill ⟨{ c.machine with pmm := (pmmAlloc c.machine.pmm).2 },
        (c.fill (slot table i)).tlb⟩ (slot table i)) :=
      (A₁.withMachine (m := { c.machine with pmm := (pmmAlloc c.machine.pmm).2 })
        fun n _ _ => by rw [m₁]; rfl).fill hpage
    obtain ⟨T₃, e₃, mem₃⟩ := tempMapCached_spec (c := ⟨withEntry { c.machine with
      pmm := (pmmAlloc c.machine.pmm).2 } f i (g * 4096 ||| flags ||| 0x1), (Cpu.fill ⟨{ c.machine with
      pmm := (pmmAlloc c.machine.pmm).2 }, (c.fill (slot table i)).tlb⟩ (slot table i)).tlb⟩) W₁ g
    obtain ⟨T₄, e₄, mem₄⟩ := memsetCached_spec (c := ⟨withTemp (withEntry { c.machine with
      pmm := (pmmAlloc c.machine.pmm).2 } f i (g * 4096 ||| flags ||| 0x1)) pt g, T₃⟩) W₂ (by omega) hr
      (child_ents_withTemp h40)
    have hne : ¬ g * 4096 = 0 := by omega
    rw [if_pos (child_eq_none.mp hc), m₁, if_neg (by rw [hpmm]; exact hne),
      show (pmmAlloc c.machine.pmm).1 = g * 4096 by rw [hpmm]] at h
    rw [@cached_store64 ⟨{ c.machine with pmm := (pmmAlloc c.machine.pmm).2 },
      (c.fill (slot table i)).tlb⟩ f table hpt' i (g * 4096 ||| flags ||| 0x1), ok_bind, e₃, ok_bind, e₄] at h
    have h : Except.ok ⟨withTable c.machine pt f i g flags, T₄⟩ = (Except.ok c' : Except Stop Cpu) := h
    obtain rfl := Except.ok.inj h
    intro x hx
    have hpt11 : pt < 511 := P.low.2.2.2
    have htemp : ents (withTable c.machine pt f i g flags).phys pt 511 = g * 4096 ||| 0x13 := by
      rw [ents_withTable h40 hflags, if_neg (by omega), if_pos ⟨rfl, rfl⟩]
    rcases mem₄ x hx with hx | rfl
    · obtain ⟨hne, hx⟩ := mem₃ x hx
      rcases hx with hx | ⟨hwin, hcan, hw⟩
      · obtain ⟨h1, h2, h3⟩ := A₂ x hx
        refine ⟨h1, h2, fun hpg => ?_⟩
        have h3 := h3 hpg
        rw [fill_machine] at h3
        rw [← h3]
        exact G.walk_eq h1 (by omega)
      · refine ⟨hcan, fun h => absurd h (hout.window hwin), fun _ => ?_⟩
        obtain ⟨k, hk, hxk⟩ := hwin
        have hleaf := W₁.leaf ⟨k, by omega⟩ hk
        have hl := withTable_window (i := i) (f := f) P hflags h512 h40 (k := ⟨k, by omega⟩) hk
        have e₁ := W₁.walk_at hleaf
        rw [hl] at hleaf e₁
        have e₂ := P'.toWindow.walk_at hleaf
        rw [hxk] at hw ⊢
        exact e₂.trans (e₁.symm.trans hw)
    · refine ⟨by rw [Nat.div_mul_cancel (by decide)]; exact canonical_temp, fun h => absurd h hout.temp, fun _ => ?_⟩
      rw [temp_page]
      have e₁ := P'.toWindow.walk_at (k := 511) (m := g) (by rw [htemp]; exact child_temp h40)
      rw [htemp] at e₁
      rw [e₁]
      dsimp only
      rw [ents_withTemp h40, if_pos ⟨rfl, rfl⟩]

theorem slot_temp (i : Fin 512) : slot TEMP_PAGE i / 4096 = TEMP_PAGE / 4096 := by
  have ha : TEMP_PAGE % 4096 = 0 ∧ TEMP_PAGE + 4096 ≤ 2 ^ 64 := by decide
  exact slot_page ha.1 ha.2 i

/-- A leaf written keeps the leaf of every other page. -/
theorem withLeaf_walk {v : ℕ} (P : Paged s pdpt pd pt) (hc : Canonical va) (hf : s.table (path va) = some f)
    (hv : v < 2 ^ 64) (h : n ≠ va / 4096) (hn : Canonical (n * 4096)) :
    walk (withEntry s f (index 12 va) v).phys (withEntry s f (index 12 va) v).root (n * 4096)
      = walk s.phys s.root (n * 4096) := by
  have hne : n * 4096 / 4096 ≠ va / 4096 := by omega
  exact withLeaf_entry P rfl hf hv (le_refl _) (page_ne hc hn hne)

/-- What the next level starts from. -/
theorem Agrees.level (A : Agrees T₀ pg c) (hout : OutsideWindow pg) (P : Paged c.machine pdpt pd pt)
    (htbl : Reaches c.machine table p i) (hpage : slot table i / 4096 ≠ pg) (hp : p.length ≤ 2)
    (hflags : FlagBits flags) {c' : Cpu} (h : nextTableCached c table i flags = .ok c') :
    Agrees T₀ pg c' ∧ Paged c'.machine pdpt pd pt ∧
      ∃ g, c'.machine.table (p ++ [i]) = some g ∧ child (ents c'.machine.phys pt 511) = some g := by
  have A' := A.nextTable hout P htbl hpage hp hflags (List.prefix_refl _) h
  have hrun := (erased_nextTable c table i flags).eq_ok h
  rcases nextTable_grows P htbl hp hflags (List.prefix_refl _) with ⟨s', g, h', P', _, ht, hm, _⟩ | ⟨_, _, h'⟩
  · obtain rfl := Except.ok.inj (h'.symm.trans hrun)
    exact ⟨A', P', g, ht, hm⟩
  · cases h'.symm.trans hrun

/-- `map_page` keeps the agreement, the page mapped apart. -/
theorem Agrees.mapPage {ctx pa : ℕ} (A : Agrees T₀ (va / 4096) c) (hout : OutsideWindow (va / 4096))
    (P : Paged c.machine pdpt pd pt) (hc : Canonical va) (hctx : Reaches c.machine ctx [] (index 39 va))
    (hpage : slot ctx (index 39 va) / 4096 ≠ va / 4096) (hflags : FlagBits flags) (hpa : pa < 2 ^ 64)
    {c' : Cpu} (h : mapPageCached c ctx va pa flags = .ok c') :
    Agrees T₀ (va / 4096) c' := by
  have htemp : ∀ i, slot TEMP_PAGE i / 4096 ≠ va / 4096 := fun i => by
    rw [slot_temp]
    exact hout.temp
  unfold mapPageCached at h
  obtain ⟨c₁, k₁, h⟩ := bind_eq_ok.mp h
  obtain ⟨c₂, k₂, h⟩ := bind_eq_ok.mp h
  obtain ⟨c₃, k₃, h⟩ := bind_eq_ok.mp h
  obtain ⟨A₁, P₁, g₁, t₁, m₁⟩ := A.level hout P hctx hpage (by simp) hflags k₁
  obtain ⟨A₂, P₂, g₂, t₂, m₂⟩ := A₁.level hout P₁ (reaches_temp P₁ t₁ m₁ _) (htemp _) (by simp) hflags k₂
  obtain ⟨A₃, P₃, g₃, t₃, m₃⟩ := A₂.level hout P₂ (reaches_temp P₂ t₂ m₂ _) (htemp _) (by simp) hflags k₃
  have hpts := P₃.toWindow.points_temp m₃
  rw [cached_store64 hpts] at h
  obtain rfl := Except.ok.inj h
  refine (A₃.fill (htemp (index 12 va))).withMachine fun n hne hn => ?_
  rw [fill_machine]
  exact withLeaf_walk P₃ hc t₃ (entry_lt hpa hflags.1) hne hn

/-! ### `unmap_page` -/

/-- The scan caches `TEMP_PAGE`. -/
theorem Agrees.emptyFrom (hout : OutsideWindow pg) {n k : ℕ} (A : Agrees T₀ pg c)
    (hpts : Points c.machine TEMP_PAGE f) (h : k + n = 512) :
    ∃ b c', emptyFromCached c TEMP_PAGE n k = .ok (b, c') ∧ c'.machine = c.machine ∧ Agrees T₀ pg c' := by
  induction n generalizing k c with
  | zero => exact ⟨true, c, rfl, rfl, A⟩
  | succ n ih =>
    obtain ⟨i, hi⟩ : ∃ i : Fin 512, (i : ℕ) = k := ⟨⟨k, by omega⟩, rfl⟩
    have A' : Agrees T₀ pg (c.fill (slot TEMP_PAGE i)) := A.fill (by rw [slot_temp]; exact hout.temp)
    have m' : (c.fill (slot TEMP_PAGE i)).machine = c.machine := fill_machine _ _
    have hslot : add64 TEMP_PAGE (8 * k) = slot TEMP_PAGE i := by rw [← hi]; rfl
    rw [emptyFromCached, hslot, cached_load64 hpts, ok_bind]
    dsimp only
    by_cases hz : ents c.machine.phys f i &&& 0x1 ≠ 0
    · rw [if_pos hz]
      exact ⟨false, _, rfl, m', A'⟩
    · rw [if_neg hz]
      obtain ⟨b, c', h1, h2, h3⟩ := ih A' (by rw [m']; exact hpts) (show k + 1 + n = 512 by omega)
      exact ⟨b, c', h1, h2.trans m', h3⟩

/-- Each scan of a table keeps the agreement. -/
theorem Agrees.freeIfEmpty {q : Pmm} (A : Agrees T₀ pg c) (hout : OutsideWindow pg)
    (P : Paged { c.machine with pmm := q } pdpt pd pt) (hg : g < 2 ^ 40) :
    ∃ c' q', freeIfEmptyCached c (g * 4096) = .ok c' ∧
      c'.machine = { withTemp c.machine pt g with pmm := q' } ∧ Agrees T₀ pg c' := by
  have W : Window c.machine pdpt pd pt := P.toWindow.withPmm c.machine.pmm
  obtain ⟨c₁, r₁, m₁, A₁⟩ := A.tempMap hout P hg
  have hpts : Points c₁.machine TEMP_PAGE g := by
    rw [m₁]
    exact (W.withTemp hg).points_temp (child_ents_withTemp hg)
  obtain ⟨b, c₂, r₂, m₂, A₂⟩ := A₁.emptyFrom hout hpts (show 0 + 512 = 512 from rfl)
  rw [freeIfEmptyCached, r₁, ok_bind, r₂, ok_bind, ← m₁]
  dsimp only
  rw [← m₂]
  cases b with
  | true => exact ⟨_, pmmFree c₂.machine.pmm (g * 4096), rfl, rfl, A₂.withMachine fun _ _ _ => rfl⟩
  | false => exact ⟨c₂, c₂.machine.pmm, rfl, rfl, A₂⟩

/-- One level of the way down: the entry is read, and the table it links moved under `TEMP_PAGE`. -/
theorem Agrees.down (A : Agrees T₀ pg c) (hout : OutsideWindow pg) (P : Paged c.machine pdpt pd pt)
    (hr : Reaches c.machine table p i) (hpage : slot table i / 4096 ≠ pg)
    (hg : c.machine.table (p ++ [i]) = some g) :
    ∃ e c', c.load64 (slot table i) = .ok (e, c.fill (slot table i)) ∧ e &&& PAGE_MASK = g * 4096 ∧
      tempMapCached (c.fill (slot table i)) (g * 4096) = .ok c' ∧
      Agrees T₀ pg c' ∧ Paged c'.machine pdpt pd pt ∧
      (∀ q, q.length ≤ 3 → c'.machine.table q = c.machine.table q) ∧
      Points c'.machine TEMP_PAGE g := by
  have hlt := table_lt (by simp) hg
  obtain ⟨e, he, hmask⟩ := load_child P hr hg
  obtain ⟨f, hpts, _⟩ := hr
  obtain ⟨c', r, m, A'⟩ := (A.fill hpage).tempMap hout (q := c.machine.pmm) (by rw [fill_machine]; exact P) hlt
  rw [fill_machine] at m
  refine ⟨e, c', ?_, hmask, r, A', ?_, fun q hq => ?_, ?_⟩
  · rw [hpts.load64] at he
    rw [cached_load64 hpts, Except.ok.inj he]
  · rw [m]
    exact withTemp_paged P hlt
  · rw [m]
    exact withTemp_table P hlt hq
  · rw [m]
    exact (withTemp_paged P hlt).toWindow.points_temp (child_ents_withTemp hlt)

/-- `unmap_page` keeps the agreement, the page unmapped apart. -/
theorem Agrees.unmapPage {ctx : ℕ} (A : Agrees T₀ (va / 4096) c) (hout : OutsideWindow (va / 4096))
    (P : Paged c.machine pdpt pd pt) (hc : Canonical va) (hw : path va ≠ windowPath)
    (hctx : Reaches c.machine ctx [] (index 39 va)) (hpage : slot ctx (index 39 va) / 4096 ≠ va / 4096)
    (hf : c.machine.table (path va) = some f) :
    ∃ c', unmapPageCached c ctx va = .ok c' ∧ Agrees T₀ (va / 4096) c' := by
  have htemp : ∀ i, slot TEMP_PAGE i / 4096 ≠ va / 4096 := fun i => by
    rw [slot_temp]
    exact hout.temp
  obtain ⟨g₁, g₂, h₁, h₂⟩ := tables_above hf
  have l₁ := table_lt (by simp) h₁
  have l₂ := table_lt (by simp) h₂
  have l₃ := table_lt (by simp [path]) hf
  obtain ⟨e₁, c₁, r₁, k₁, t₁, A₁, P₁, same₁, pts₁⟩ := A.down hout P hctx hpage h₁
  obtain ⟨e₂, c₂, r₂, k₂, t₂, A₂, P₂, same₂, pts₂⟩ := A₁.down (i := index 30 va) (p := [index 39 va])
    (g := g₂) hout P₁ ⟨g₁, pts₁, .inl (by rw [same₁ _ (by simp)]; exact h₁)⟩ (htemp _)
    (by rw [same₁ _ (by simp)]; exact h₂)
  obtain ⟨e₃, c₃, r₃, k₃, t₃, A₃, P₃, same₃, pts₃⟩ := A₂.down (i := index 21 va)
    (p := [index 39 va, index 30 va]) (g := f) hout P₂
    ⟨g₂, pts₂, .inl (by rw [same₂ _ (by simp), same₁ _ (by simp)]; exact h₂)⟩ (htemp _)
    (by rw [same₂ _ (by simp), same₁ _ (by simp)]; exact hf)
  have hf₃ : c₃.machine.table (path va) = some f := by
    rw [same₃ _ (by simp [path]), same₂ _ (by simp [path]), same₁ _ (by simp [path]), hf]
  obtain ⟨pte, hpte⟩ : ∃ pte, pte = ents c₃.machine.phys f (index 12 va) &&& PAGE_MASK := ⟨_, rfl⟩
  -- the leaf is cleared, and the page it named freed
  have Q := withLeaf_paged (i := index 12 va) P₃ rfl hw hf₃ (show 0 < 2 ^ 64 by decide)
  have hfill : (c₃.fill (slot TEMP_PAGE (index 12 va))).machine = c₃.machine := fill_machine _ _
  obtain ⟨c₄, hc₄⟩ : ∃ c₄, c₄ = Cpu.mk { withEntry c₃.machine f (index 12 va) 0 with
      pmm := pmmFree c₃.machine.pmm pte }
    ((c₃.fill (slot TEMP_PAGE (index 12 va))).fill (slot TEMP_PAGE (index 12 va))).tlb := ⟨_, rfl⟩
  have m₄ : c₄.machine = { withEntry c₃.machine f (index 12 va) 0 with
      pmm := pmmFree c₃.machine.pmm pte } := by rw [hc₄]
  have A₄ : Agrees T₀ (va / 4096) c₄ := by
    rw [hc₄]
    refine ((A₃.fill (htemp (index 12 va))).fill (htemp (index 12 va))).withMachine fun n hne hn => ?_
    rw [fill_machine, hfill]
    exact withLeaf_walk P₃ hc hf₃ (by decide) hne hn
  have Q₄ : Paged { c₄.machine with pmm := c₃.machine.pmm } pdpt pd pt := by
    rw [m₄]
    exact Q
  obtain ⟨c₅, q₅, r₅, m₅, A₅⟩ := A₄.freeIfEmpty hout Q₄ l₃
  have Q₅ : Paged { c₅.machine with pmm := c₃.machine.pmm } pdpt pd pt := by
    rw [m₅]
    exact withTemp_paged Q₄ l₃
  obtain ⟨c₆, q₆, r₆, m₆, A₆⟩ := A₅.freeIfEmpty hout Q₅ l₂
  have Q₆ : Paged { c₆.machine with pmm := c₃.machine.pmm } pdpt pd pt := by
    rw [m₆]
    exact withTemp_paged Q₅ l₂
  obtain ⟨c₇, q₇, r₇, m₇, A₇⟩ := A₆.freeIfEmpty hout Q₆ l₁
  refine ⟨c₇, ?_, A₇⟩
  unfold unmapPageCached
  rw [r₁, ok_bind]
  dsimp only
  rw [k₁, t₁, ok_bind, r₂, ok_bind]
  dsimp only
  rw [k₂, t₂, ok_bind, r₃, ok_bind]
  dsimp only
  rw [k₃, t₃, ok_bind, cached_load64 pts₃, ok_bind]
  dsimp only
  rw [cached_store64 (by rw [hfill]; exact pts₃), ok_bind, hfill]
  dsimp only
  rw [← hpte]
  rw [show (withEntry c₃.machine f (index 12 va) 0).pmm = c₃.machine.pmm from rfl, ← hc₄]
  rw [r₅, ok_bind, r₆, ok_bind, r₇]

end

/-! ### Runs -/

/-- The machine with its cache, and the blocks taken from `pmm_alloc` and not mapped yet. -/
structure CachedSession where
  cpu : Cpu
  held : List ℕ

/-- The session without the cache. -/
def CachedSession.plain (s : CachedSession) : Session := ⟨s.cpu.machine, s.held⟩

/-- The calls, and between them accesses, reloads of `CR3`, and translations that the cache drops by
    itself. -/
inductive CachedOp where
  | alloc
  | map (c : MapCall)
  | unmap (ctx va : ℕ)
  | read (va : ℕ)
  | write (va : ℕ) (b : UInt8)
  | reload
  | drop (page : ℕ)

def CachedOp.run (s : CachedSession) : CachedOp → Except Stop CachedSession
  | .alloc =>
    let r := pmmAlloc s.cpu.machine.pmm
    .ok ⟨{ s.cpu with machine := { s.cpu.machine with pmm := r.2 } },
      if r.1 = 0 then s.held else r.1 :: s.held⟩
  | .map c => do
    let cpu ← mapPageCached s.cpu c.ctx c.va c.pa c.flags
    .ok ⟨cpu, s.held.erase c.pa⟩
  | .unmap ctx va => do
    let cpu ← unmapPageCached s.cpu ctx va
    .ok ⟨cpu, s.held⟩
  | .read va => .ok ⟨s.cpu.fill va, s.held⟩
  | .write va b => do
    let cpu ← s.cpu.store8 va b
    .ok ⟨cpu, s.held⟩
  | .reload => .ok ⟨s.cpu.loadCr3 s.cpu.machine.cr3, s.held⟩
  | .drop page => .ok ⟨{ s.cpu with tlb := s.cpu.tlb.filter fun x => x.1 ≠ page }, s.held⟩

/-- Steps that no `invlpg` was needed for: what is cached of the page mapped is already its new leaf,
    nothing is cached of the page unmapped, and no other page table is written or freed. -/
def Harmless (s : CachedSession) : CachedOp → Prop
  | .map c => MapsHeld s.plain c ∧ ∀ x ∈ s.cpu.tlb, x.1 = c.va / 4096 → x.2 = c.pa ||| c.flags
  | .unmap ctx va => Unmaps s.cpu.machine ctx va ∧ va ≠ ctx ∧
      (walk s.cpu.machine.phys s.cpu.machine.root va).isSome ∧ LeavesOther s.plain (.unmap ctx va) ∧
      ∀ x ∈ s.cpu.tlb, x.1 ≠ va / 4096
  | .write va _ => ∀ x p, s.cpu.machine.translate va = some x → p.length ≤ 3 →
      s.cpu.machine.table p ≠ some (x / 4096)
  | _ => True

/-- Every cached translation is the one of the tables. -/
def Coherent (c : Cpu) : Prop :=
  ∀ x ∈ c.tlb, Canonical (x.1 * 4096) ∧ walk c.machine.phys c.machine.root (x.1 * 4096) = some x.2

theorem Coherent.agrees {c : Cpu} (C : Coherent c) (pg : ℕ) : Agrees c.tlb pg c := fun x hx =>
  ⟨(C x hx).1, fun _ => hx, fun _ => (C x hx).2⟩

/-- Where what is cached of `pg` is known to be right. -/
theorem Agrees.coherent {T₀ : List (ℕ × ℕ)} {pg : ℕ} {c : Cpu} (A : Agrees T₀ pg c)
    (h : ∀ x ∈ T₀, x.1 = pg → walk c.machine.phys c.machine.root (x.1 * 4096) = some x.2) : Coherent c :=
  fun x hx => by
    obtain ⟨h1, h2, h3⟩ := A x hx
    refine ⟨h1, ?_⟩
    by_cases hpg : x.1 = pg
    · exact h x (h2 hpg) hpg
    · exact h3 hpg

theorem outsideWindow {va : ℕ} (ha : va % 4096 = 0) (h : ¬ (KERNEL_BASE ≤ va ∧ va < KERNEL_END)) :
    OutsideWindow (va / 4096) := fun k hk he => by
  simp only [KERNEL_BASE, KERNEL_END] at h he
  omega

theorem ctx_page_ne {s : Machine} {ctx va : ℕ} (ha : ctx % 4096 = 0) (hva : va % 4096 = 0) (hne : va ≠ ctx)
    (hact : s.translate ctx = some s.cr3) (i : Fin 512) : slot ctx i / 4096 ≠ va / 4096 := by
  have hc := canonical_of_translate hact
  rw [slot_page ha (by unfold Canonical at hc; omega)]
  omega

/-- A byte written outside the tables. -/
theorem Sound.of_bytes {s : Machine} {held : List ℕ} {m : Mem} (S : Sound ⟨s, held⟩)
    (hm : ∀ q n, q.length ≤ 3 → s.table q = some n → ∀ x, x / 4096 = n → m x = s.phys x) :
    Sound ⟨{ s with phys := m }, held⟩ := by
  obtain ⟨pdpt, pd, pt, P, hk⟩ := S.running
  have P : Paged s pdpt pd pt := P
  have hk : s.kroot = s.root := hk
  have P' := P.of_bytes hm fun x hx => hm [] s.root (by simp) rfl x (by rw [hx, hk])
  have place : ∀ p, Place p → Machine.table { s with phys := m } p = s.table p := fun p hp => by
    rcases hp.cases with hp3 | ⟨q, i, rfl, hq, _⟩
    · exact table_of_bytes hp3 fun q n hq => hm q n (by omega)
    · rw [table_snoc, table_snoc, entry_of_bytes (by omega) hm]
  refine ⟨⟨pdpt, pd, pt, P', hk⟩, fun p q n hp hq h₁ h₂ => ?_, fun p n hp h₁ => ?_, fun p n hp hw h₁ => ?_,
    fun b hb => ?_, S.nodup, fun q f hq hw hf => ?_⟩
  · rw [place p hp] at h₁
    rw [place q hq] at h₂
    exact S.inj p q n hp hq h₁ h₂
  · rw [place p hp] at h₁
    exact S.used p n hp h₁
  · rw [place p hp] at h₁
    exact S.high p n hp hw h₁
  · obtain ⟨k, h1, h2, h3, h4, h5⟩ := S.held b hb
    exact ⟨k, h1, h2, h3, h4, fun p hp => by rw [place p hp]; exact h5 p hp⟩
  · rw [place q (place_of_le (by omega))] at hf
    obtain ⟨i, n, hn⟩ := S.leaves q f hq hw hf
    exact ⟨i, n, by rw [place _ (place_leaf hq hw i)]; exact hn⟩

/-- A translation is cached from tables that hold it. -/
theorem Coherent.fill {c : Cpu} (C : Coherent c) (va : ℕ) : Coherent (c.fill va) := fun x hx => by
  rw [fill_machine]
  rcases mem_fill hx with hx | ⟨h1, h2, h3⟩
  · exact C x hx
  · exact ⟨by rw [h1]; exact canonical_page h2, h3⟩

/-- One harmless step. -/
theorem coherent_step {s s' : CachedSession} {a : CachedOp} (S : Sound s.plain) (C : Coherent s.cpu)
    (ha : Harmless s a) (h : a.run s = .ok s') : Sound s'.plain ∧ Coherent s'.cpu := by
  obtain ⟨pdpt, pd, pt, P, _⟩ := S.running
  have P : Paged s.cpu.machine pdpt pd pt := P
  cases a with
  | alloc =>
    obtain rfl := Except.ok.inj h
    exact ⟨alloc_sound (s := s.plain) S rfl, C⟩
  | map c =>
    obtain ⟨⟨A, hheld⟩, hcached⟩ := ha
    have A : Admitted s.cpu.machine c := A
    simp only [CachedOp.run] at h
    obtain ⟨cpu, hcpu, h⟩ := bind_eq_ok.mp h
    obtain rfl := Except.ok.inj h
    have hfl := A.flags_lt
    have hpa := A.pa_lt
    have hva := A.aligned
    have hrun := (erased_mapPage _ _ _ _ _).eq_ok hcpu
    have B := (C.agrees (c.va / 4096)).mapPage (outsideWindow hva A.outside) P A.canonical A.reaches
      (ctx_page_ne A.ctx_aligned hva A.ctx_ne A.ctx_active _) (flagBits_of_lt (show c.flags < 4096 by omega))
      (show c.pa < 2 ^ 64 by omega) hcpu
    have hop : Op.run s.plain (.map c) = .ok ⟨cpu.machine, s.held.erase c.pa⟩ := by
      simp only [Op.run, MapCall.run, CachedSession.plain, hrun, ok_bind]
    refine ⟨map_sound S ⟨A, hheld⟩ hop, B.coherent fun x hx hpg => ?_⟩
    have M := A.mapped P hrun
    rw [hcached x hx hpg, hpg, show c.va / 4096 * 4096 = c.va by omega]
    exact M.entry_self A.leaf_lt (or_present A.flags_present)
  | unmap ctx va =>
    obtain ⟨U, hne, hsome, hother, hcached⟩ := ha
    simp only [CachedOp.run] at h
    obtain ⟨cpu, hcpu, h⟩ := bind_eq_ok.mp h
    obtain rfl := Except.ok.inj h
    obtain ⟨e, he⟩ := Option.isSome_iff_exists.mp hsome
    obtain ⟨f, hf⟩ := table_of_present (s := s.cpu.machine) he
    have hrun := (erased_unmapPage _ _ _).eq_ok hcpu
    obtain ⟨c', hc', B⟩ := (C.agrees (va / 4096)).unmapPage (outsideWindow U.aligned U.outside) P U.canonical
      (path_ne_window U.canonical U.outside) (reaches_of_active U.ctx_aligned U.ctx_active _)
      (ctx_page_ne U.ctx_aligned U.aligned hne U.ctx_active _) hf
    obtain rfl := Except.ok.inj (hc'.symm.trans hcpu)
    have hop : Op.run s.plain (.unmap ctx va) = .ok ⟨c'.machine, s.held⟩ := by
      simp only [Op.run, CachedSession.plain, hrun, ok_bind]
    exact ⟨unmap_sound S U he hother hop, B.coherent fun x hx hpg => absurd hpg (hcached x hx)⟩
  | read va =>
    obtain rfl := Except.ok.inj h
    refine ⟨?_, C.fill va⟩
    show Sound ⟨(s.cpu.fill va).machine, s.held⟩
    rw [fill_machine]
    exact S
  | write va b =>
    simp only [CachedOp.run] at h
    obtain ⟨cpu, hcpu, h⟩ := bind_eq_ok.mp h
    obtain rfl := Except.ok.inj h
    obtain ⟨m, hm, hcpu⟩ := bind_eq_ok.mp hcpu
    obtain rfl := Except.ok.inj hcpu
    unfold Machine.store8 at hm
    split at hm
    · rename_i x hx
      obtain rfl := Except.ok.inj hm
      -- no table holds the byte
      have spared : ∀ q n, q.length ≤ 3 → s.cpu.machine.table q = some n → ∀ y, y / 4096 = n →
          s.cpu.machine.phys.store8 x b y = s.cpu.machine.phys y := fun q n hq hn y hy =>
        Mem.store8_out fun he => ha x q hx hq (by rw [hn, ← hy, he])
      refine ⟨Sound.of_bytes S spared, fun y hy => ?_⟩
      obtain ⟨h1, h2⟩ := C.fill va y hy
      rw [fill_machine] at h2
      refine ⟨h1, ?_⟩
      rw [← h2]
      exact entry_of_bytes (p := path (y.1 * 4096)) (le_refl _) spared
    · cases hm
  | reload =>
    obtain rfl := Except.ok.inj h
    exact ⟨S, fun x hx => absurd hx List.not_mem_nil⟩
  | drop page =>
    obtain rfl := Except.ok.inj h
    exact ⟨S, fun x hx => C x (List.mem_filter.mp hx).1⟩

/-- CORRECT: after boot and any run of harmless steps every cached translation is the one that the
    page tables give. -/
theorem cache_agrees {m bm : Mem} {mmap : List MmapEntry} {s₀ : Machine} {s : CachedSession}
    {ops : List CachedOp} (hboot : boot m bm mmap = some s₀)
    (hrun : Run Harmless CachedOp.run ⟨⟨s₀, []⟩, []⟩ ops s) {page e : ℕ} (h : (page, e) ∈ s.cpu.tlb) :
    walk s.cpu.machine.phys s.cpu.machine.root (page * 4096) = some e := by
  have hinv : Sound s.plain ∧ Coherent s.cpu :=
    hrun.invariant (I := fun s => Sound s.plain ∧ Coherent s.cpu)
      ⟨boot_sound hboot, fun x hx => absurd hx List.not_mem_nil⟩
      fun _ _ _ hI ha hst => coherent_step hI.1 hI.2 ha hst
  exact (hinv.2 _ h).2

theorem fill_mem {c : Cpu} {va e : ℕ} (hc : Canonical va)
    (h : walk c.machine.phys c.machine.root va = some e) : (va / 4096, e) ∈ (c.fill va).tlb := by
  rw [Cpu.fill, if_pos hc, h]
  exact List.mem_cons_self

/-- On the 64 MiB machine, a page mapped with the cache. -/
theorem cachedSession_boot {m bm : Mem} {s₀ : Machine} (hboot : boot m bm smallMap = some s₀) : ∃ k s₁ s₂ cpu,
    Op.run ⟨s₀, []⟩ .alloc = .ok ⟨s₁, [k * 4096]⟩ ∧
    MapsHeld ⟨s₁, [k * 4096]⟩ ⟨s₁.pml4t, 0x400000, k * 4096, 0x3⟩ ∧
    Op.run ⟨s₁, [k * 4096]⟩ (.map ⟨s₁.pml4t, 0x400000, k * 4096, 0x3⟩) = .ok ⟨s₂, []⟩ ∧
    s₁.table (path 0x400000) = none ∧ Unmaps s₂ s₁.pml4t 0x400000 ∧
    walk s₂.phys s₂.root 0x400000 = some (k * 4096 ||| 0x3) ∧ cpu.machine = s₂ ∧
    CachedOp.run ⟨⟨s₀, []⟩, []⟩ .alloc = .ok ⟨⟨s₁, []⟩, [k * 4096]⟩ ∧
    CachedOp.run ⟨⟨s₁, []⟩, [k * 4096]⟩ (.map ⟨s₁.pml4t, 0x400000, k * 4096, 0x3⟩) = .ok ⟨cpu, []⟩ := by
  obtain ⟨k, s₁, s₂, h₁, A, hno, h₂, U⟩ := session_boot hboot
  obtain ⟨pdpt, pd, pt, P, _⟩ := (alloc_sound (boot_sound hboot) h₁).running
  have M := A.1.mapped P (map_run h₂).1
  obtain ⟨cpu, hcpu, hm⟩ := (erased_mapPage ⟨s₁, []⟩ s₁.pml4t 0x400000 (k * 4096) 0x3).of_ok (map_run h₂).1
  refine ⟨k, s₁, s₂, cpu, h₁, A, h₂, hno, U,
    M.entry_self A.1.leaf_lt (or_present A.1.flags_present), hm, ?_, ?_⟩
  · have h := Except.ok.inj h₁
    simp only [Session.mk.injEq] at h
    simp only [CachedOp.run, h.1, h.2]
  · simp only [CachedOp.run, hcpu, ok_bind, List.erase_cons_head]

/-- There the page read is cached with the leaf it was mapped with. -/
theorem cache_agrees_one_page : ∃ s₀ c s e, boot (fun _ => 0) (fun _ => 0) smallMap = some s₀ ∧
    Run Harmless CachedOp.run ⟨⟨s₀, []⟩, []⟩ [.alloc, .map c, .read c.va] s ∧
    (c.va / 4096, e) ∈ s.cpu.tlb ∧ walk s.cpu.machine.phys s.cpu.machine.root (c.va / 4096 * 4096) = some e := by
  obtain ⟨s₀, hboot, _⟩ := boot_smallMap (fun _ => 0) (fun _ => 0)
  obtain ⟨k, s₁, s₂, cpu, _, A, _, _, _, hwalk, hm, h₁, h₂⟩ := cachedSession_boot hboot
  have hrun : Run Harmless CachedOp.run ⟨⟨s₀, []⟩, []⟩
      [.alloc, .map ⟨s₁.pml4t, 0x400000, k * 4096, 0x3⟩, .read 0x400000] ⟨cpu.fill 0x400000, []⟩ :=
    .cons trivial h₁ (.cons ⟨A, fun x hx => absurd hx List.not_mem_nil⟩ h₂ (.cons trivial rfl (.nil _)))
  have hmem : (0x400000 / 4096, k * 4096 ||| 0x3) ∈ (cpu.fill 0x400000).tlb :=
    fill_mem A.1.canonical (by rw [hm]; exact hwalk)
  exact ⟨s₀, _, _, _, hboot, hrun, hmem, cache_agrees hboot hrun hmem⟩

/-! ### What stays cached -/

/-- Nothing but `TEMP_PAGE` is dropped. -/
def Kept (c c' : Cpu) : Prop := ∀ x ∈ c.tlb, x.1 ≠ TEMP_PAGE / 4096 → x ∈ c'.tlb

section kept
variable {c c' : Cpu} {va v phys : ℕ}

theorem Kept.trans {c'' : Cpu} (h : Kept c c') (h' : Kept c' c'') : Kept c c'' :=
  fun x hx hne => h' x (h x hx hne) hne

theorem kept_fill (c : Cpu) (va : ℕ) : Kept c (c.fill va) := fun x hx _ => by
  unfold Cpu.fill
  split
  · split
    · exact List.mem_cons_of_mem _ hx
    · exact hx
  · exact hx

theorem kept_load64 (h : c.load64 va = .ok (v, c')) : Kept c c' := by
  obtain ⟨_, _, h⟩ := bind_eq_ok.mp h
  rw [← (Prod.mk.inj (Except.ok.inj h)).2]
  exact kept_fill c va

theorem kept_store64 (h : c.store64 va v = .ok c') : Kept c c' := by
  obtain ⟨_, _, h⟩ := bind_eq_ok.mp h
  rw [← Except.ok.inj h]
  exact kept_fill c va

theorem kept_tempMap (h : tempMapCached c phys = .ok c') : Kept c c' := by
  obtain ⟨⟨_, c₁⟩, h₁, h⟩ := bind_eq_ok.mp h
  obtain ⟨⟨_, c₂⟩, h₂, h⟩ := bind_eq_ok.mp h
  obtain ⟨⟨_, c₃⟩, h₃, h⟩ := bind_eq_ok.mp h
  obtain ⟨c₄, h₄, h⟩ := bind_eq_ok.mp h
  intro x hx hne
  rw [← Except.ok.inj h]
  refine List.mem_filter.mpr ⟨?_, by simpa using hne⟩
  exact ((((kept_load64 h₁).trans (kept_load64 h₂)).trans (kept_load64 h₃)).trans (kept_store64 h₄)) x hx hne

theorem kept_emptyFrom {table : ℕ} {b : Bool} : ∀ (n i : ℕ) {c : Cpu},
    emptyFromCached c table n i = .ok (b, c') → Kept c c'
  | 0, _, c, h => by
    rw [(Prod.mk.inj (Except.ok.inj h)).2]
    exact fun x hx _ => hx
  | n + 1, i, c, h => by
    obtain ⟨⟨_, c₁⟩, h₁, h⟩ := bind_eq_ok.mp h
    dsimp only at h
    split at h
    · rw [← (Prod.mk.inj (Except.ok.inj h)).2]
      exact kept_load64 h₁
    · exact (kept_load64 h₁).trans (kept_emptyFrom n (i + 1) h)

theorem kept_freeIfEmpty (h : freeIfEmptyCached c phys = .ok c') : Kept c c' := by
  obtain ⟨c₁, h₁, h⟩ := bind_eq_ok.mp h
  obtain ⟨⟨b, c₂⟩, h₂, h⟩ := bind_eq_ok.mp h
  have k := (kept_tempMap h₁).trans (kept_emptyFrom 512 0 h₂)
  cases b with
  | true => rw [← Except.ok.inj h]; exact k
  | false => rw [← Except.ok.inj h]; exact k

/-- `unmap_page` drops no translation but that of `TEMP_PAGE`. -/
theorem kept_unmapPage {ctx : ℕ} (h : unmapPageCached c ctx va = .ok c') : Kept c c' := by
  obtain ⟨⟨_, c₁⟩, h₁, h⟩ := bind_eq_ok.mp h
  obtain ⟨c₂, h₂, h⟩ := bind_eq_ok.mp h
  obtain ⟨⟨_, c₃⟩, h₃, h⟩ := bind_eq_ok.mp h
  obtain ⟨c₄, h₄, h⟩ := bind_eq_ok.mp h
  obtain ⟨⟨_, c₅⟩, h₅, h⟩ := bind_eq_ok.mp h
  obtain ⟨c₆, h₆, h⟩ := bind_eq_ok.mp h
  obtain ⟨⟨_, c₇⟩, h₇, h⟩ := bind_eq_ok.mp h
  obtain ⟨c₈, h₈, h⟩ := bind_eq_ok.mp h
  obtain ⟨c₉, h₉, h⟩ := bind_eq_ok.mp h
  obtain ⟨c₁₀, h₁₀, h⟩ := bind_eq_ok.mp h
  have down := (((kept_load64 h₁).trans (kept_tempMap h₂)).trans (kept_load64 h₃)).trans (kept_tempMap h₄)
  have leaf := (((kept_load64 h₅).trans (kept_tempMap h₆)).trans (kept_load64 h₇)).trans (kept_store64 h₈)
  have k₉ := kept_freeIfEmpty h₉
  have scans : Kept c₈ c₉ := fun x hx hne => k₉ x hx hne
  exact (((down.trans leaf).trans scans).trans (kept_freeIfEmpty h₁₀)).trans (kept_freeIfEmpty h)

end kept

/-- The calls of a kernel that takes no notice of the cache. -/
def Unaware (s : CachedSession) : CachedOp → Prop
  | .map c => Allowed s.plain (.map c)
  | .unmap ctx va => Allowed s.plain (.unmap ctx va)
  | _ => True

/-- On the 64 MiB machine, a page is mapped, read and unmapped: its translation is still cached, to a
    frame that is free. -/
theorem unmapped_page_stays_cached : ∃ s₀ c s e, boot (fun _ => 0) (fun _ => 0) smallMap = some s₀ ∧
    Run Unaware CachedOp.run ⟨⟨s₀, []⟩, []⟩ [.alloc, .map c, .read c.va, .unmap c.ctx c.va] s ∧
    (c.va / 4096, e) ∈ s.cpu.tlb ∧ walk s.cpu.machine.phys s.cpu.machine.root c.va = none ∧
    s.cpu.machine.pmm.used (frame e) = false := by
  obtain ⟨s₀, hboot, _⟩ := boot_smallMap (fun _ => 0) (fun _ => 0)
  obtain ⟨k, s₁, s₂, cpu, h₁', A, h₂', hno, hu, hwalk, hm, h₁, h₂⟩ := cachedSession_boot hboot
  have S₂ := map_sound (alloc_sound (boot_sound hboot) h₁') A h₂'
  obtain ⟨f, g, pdpt, pd, pt, U⟩ := S₂.unmapping hu hwalk
  have hmem : (0x400000 / 4096, k * 4096 ||| 0x3) ∈ (cpu.fill 0x400000).tlb :=
    fill_mem A.1.canonical (by rw [hm]; exact hwalk)
  have hfill : (cpu.fill 0x400000).machine = s₂ := (fill_machine _ _).trans hm
  obtain ⟨c', hc', hm'⟩ := (erased_unmapPage (cpu.fill 0x400000) s₁.pml4t 0x400000).of_ok
    (by rw [hfill]; exact U.run)
  have hrun : Run Unaware CachedOp.run ⟨⟨s₀, []⟩, []⟩ [.alloc, .map ⟨s₁.pml4t, 0x400000, k * 4096, 0x3⟩,
      .read 0x400000, .unmap s₁.pml4t 0x400000] ⟨c', []⟩ := by
    refine .cons trivial h₁ (.cons ⟨A, walk_none_of_table hno⟩ h₂ (.cons trivial rfl (.cons ?_ ?_ (.nil _))))
    · show Allowed ⟨(cpu.fill 0x400000).machine, []⟩ (.unmap _ _)
      rw [hfill]
      exact ⟨hu, by rw [hwalk]; rfl⟩
    · simp only [CachedOp.run, hc', ok_bind]
  obtain ⟨⟨_, hlt⟩, _, hne⟩ := S₂.high_freed U
  have hgone : walk c'.machine.phys c'.machine.root 0x400000 = none := by
    rw [hm']
    exact U.entry_self
  have hfree : c'.machine.pmm.used (frame (k * 4096 ||| 0x3)) = false := by
    rw [hm']
    exact released_self U.entry hlt hne
  have hkept := kept_unmapPage hc' _ hmem (show (0x400000 : ℕ) / 4096 ≠ TEMP_PAGE / 4096 by decide)
  exact ⟨s₀, _, _, _, hboot, hrun, hkept, hgone, hfree⟩

end TerraOS.Vmm
