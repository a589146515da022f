import TerraOS.Vmm.Boot

/-! `map_page` over whole runs: from boot, after any calls, one more call changes one translation.

    The calls are those a kernel may make: the pointer passed reaches the active PML4 (under its name
    `pml4t` or any other the tables give it), and the page mapped is canonical, outside the window and
    not the page the pointer itself lies in. -/

namespace TerraOS.Vmm
open Lib Lib.Word Pmm

/-! ### Addresses and paths -/

theorem path_add {va o : ℕ} (h : va % 4096 = 0) (ho : o < 4096) : path (va + o) = path va := by
  simp only [path, List.cons.injEq, and_true]
  refine ⟨index_eq ?_, index_eq ?_, index_eq ?_⟩ <;> rw [index_val] <;> omega

theorem index_add {va o : ℕ} (h : va % 4096 = 0) (ho : o < 4096) : index 12 (va + o) = index 12 va :=
  index_eq (by rw [index_val]; omega)

theorem canonical_add {va o : ℕ} (h : va % 4096 = 0) (ho : o < 4096) :
    Canonical (va + o) ↔ Canonical va := by
  unfold Canonical
  omega

theorem walk_add {m : Mem} {root va o : ℕ} (h : va % 4096 = 0) (ho : o < 4096) :
    walk m root (va + o) = walk m root va := by
  rw [walk, walk, path_add h ho, index_add h ho]

/-- Canonical addresses in different pages are kept apart by their indices. -/
theorem page_ne {va va' : ℕ} (hc : Canonical va) (hc' : Canonical va') (h : va' / 4096 ≠ va / 4096) :
    (path va', index 12 va') ≠ (path va, index 12 va) := by
  intro he
  obtain ⟨hp, h1⟩ := Prod.mk.inj he
  simp only [path, List.cons.injEq, and_true] at hp
  obtain ⟨h4, h3, h2⟩ := hp
  have e4 := congrArg Fin.val h4
  have e3 := congrArg Fin.val h3
  have e2 := congrArg Fin.val h2
  have e1 := congrArg Fin.val h1
  rw [index_val, index_val] at e1 e2 e3 e4
  unfold Canonical at hc hc'
  omega

/-- Only window addresses have the window's path. -/
theorem path_ne_window {va : ℕ} (hc : Canonical va) (h : ¬ (KERNEL_BASE ≤ va ∧ va < KERNEL_END)) :
    path va ≠ windowPath := by
  intro he
  simp only [path, List.cons.injEq, and_true] at he
  obtain ⟨h4, h3, h2⟩ := he
  have e4 := congrArg Fin.val h4
  have e3 := congrArg Fin.val h3
  have e2 := congrArg Fin.val h2
  rw [index_val] at e2 e3 e4
  have v4 : ((511 : Fin 512) : ℕ) = 511 := rfl
  have v3 : ((510 : Fin 512) : ℕ) = 510 := rfl
  have v2 : ((0 : Fin 512) : ℕ) = 0 := rfl
  rw [v4] at e4
  rw [v3] at e3
  rw [v2] at e2
  unfold Canonical at hc
  simp only [KERNEL_BASE, KERNEL_END] at h
  omega

theorem canonical_temp : Canonical TEMP_PAGE := by decide

theorem path_temp : (path TEMP_PAGE, index 12 TEMP_PAGE) = (windowPath, (511 : Fin 512)) := by
  have hva : TEMP_PAGE = KERNEL_BASE + 511 * 4096 := by decide
  refine Prod.ext ?_ (Fin.ext ?_)
  · rw [hva]
    exact path_window (by omega)
  · rw [hva]
    exact index_window (by omega)

/-- Translation of a page's first byte gives that of every byte. -/
theorem translate_add {s : Machine} {va x o : ℕ} (h : va % 4096 = 0) (ho : o < 4096)
    (ht : s.translate va = some x) : s.translate (va + o) = some (x + o) := by
  unfold Machine.translate at ht ⊢
  split at ht
  · rename_i hc
    rw [if_pos ((canonical_add h ho).mpr hc), walk_add h ho]
    obtain ⟨e, he, rfl⟩ := Option.map_eq_some_iff.mp ht
    rw [he, Option.map_some]
    congr 1
    omega
  · cases ht

theorem canonical_of_translate {s : Machine} {va x : ℕ} (h : s.translate va = some x) : Canonical va := by
  unfold Machine.translate at h
  split at h
  · assumption
  · cases h

/-- A pointer to a page's first byte reaches the page as a table. -/
theorem points_of_translate {s : Machine} {table n : ℕ} (ha : table % 4096 = 0)
    (ht : s.translate table = some (n * 4096)) : Points s table n := fun i => by
  have hc := canonical_of_translate ht
  have hlt : table + 4096 ≤ 2 ^ 64 := by unfold Canonical at hc; omega
  rw [slot_eq hlt, translate_add ha (by omega) ht]

/-- A page-aligned pointer that translates to `CR3`. -/
theorem cr3_of_active {s : Machine} {ctx : ℕ} (ha : ctx % 4096 = 0) (ht : s.translate ctx = some s.cr3) :
    s.cr3 = s.root * 4096 := by
  unfold Machine.translate at ht
  split at ht
  · obtain ⟨e, _, he⟩ := Option.map_eq_some_iff.mp ht
    rw [and_pageMask, ha, Nat.add_zero] at he
    rw [Machine.root, ← he, frame_page (frame_lt e)]
  · cases ht

theorem reaches_of_active {s : Machine} {ctx : ℕ} (ha : ctx % 4096 = 0) (ht : s.translate ctx = some s.cr3)
    (i : Fin 512) : Reaches s ctx [] i :=
  ⟨s.root, points_of_translate ha (by rw [ht, ← cr3_of_active ha ht]), .inl rfl⟩

/-! ### The calls -/

structure MapCall where
  ctx : ℕ
  va : ℕ
  pa : ℕ
  flags : ℕ

def MapCall.run (s : Machine) (c : MapCall) : Except Stop Machine := mapPage s c.ctx c.va c.pa c.flags

/-- The calls a kernel may make. -/
structure Admitted (s : Machine) (c : MapCall) : Prop where
  canonical : Canonical c.va
  aligned : c.va % 4096 = 0
  outside : ¬ (KERNEL_BASE ≤ c.va ∧ c.va < KERNEL_END)
  ctx_aligned : c.ctx % 4096 = 0
  ctx_active : s.translate c.ctx = some s.cr3
  ctx_ne_temp : c.ctx ≠ TEMP_PAGE
  ctx_ne : c.va ≠ c.ctx
  pa_aligned : c.pa % 4096 = 0
  pa_lt : c.pa < 2 ^ 52
  flags_lt : c.flags < 0x80
  flags_present : c.flags &&& 0x1 = 0x1

theorem flagBits_of_lt {flags : ℕ} (h : flags < 4096) : FlagBits flags :=
  ⟨by omega, by rw [and_pageMask, frame_eq]; omega⟩

theorem Admitted.reaches {s : Machine} {c : MapCall} (A : Admitted s c) {i : Fin 512} :
    Reaches s c.ctx [] i := reaches_of_active A.ctx_aligned A.ctx_active i

/-- The bits of an entry that are not its page number. -/
def leafFlags (e : ℕ) : ℕ := e - (e &&& PAGE_MASK)

theorem leaf_parts {pa flags : ℕ} (ha : pa % 4096 = 0) (hlt : pa < 2 ^ 52) (hf : flags < 4096) :
    (pa ||| flags) &&& PAGE_MASK = pa ∧ leafFlags (pa ||| flags) = flags := by
  have hor : pa ||| flags = pa + flags := or_eq_add (k := 12) ha hf
  have hmask : (pa ||| flags) &&& PAGE_MASK = pa := by
    rw [and_pageMask, hor, frame_eq]
    omega
  exact ⟨hmask, by rw [leafFlags, hmask, hor]; omega⟩

theorem or_present {pa flags : ℕ} (h : flags &&& 0x1 = 0x1) : (pa ||| flags) &&& 0x1 ≠ 0 := by
  rw [Nat.and_or_distrib_right, h]
  intro h0
  have := Nat.or_eq_zero_iff.mp h0
  omega

/-! ### The invariant over runs -/

/-- The machine between calls, the kernel's table being the active one. -/
def Running (s : Machine) : Prop := ∃ pdpt pd pt, Paged s pdpt pd pt ∧ s.kroot = s.root

theorem boot_running {m bm : Mem} {mmap : List MmapEntry} {s : Machine} (h : boot m bm mmap = some s) :
    Running s := by
  obtain ⟨n, P, hr, hk, _⟩ := boot_spec h
  exact ⟨_, _, _, P, by rw [hr, hk]⟩

/-- What an admitted call that returns does. -/
theorem Admitted.mapped {s s' : Machine} {c : MapCall} {pdpt pd pt : ℕ} (P : Paged s pdpt pd pt)
    (A : Admitted s c) (h : MapCall.run s c = .ok s') :
    Mapped c.flags c.va (c.pa ||| c.flags) s s' pdpt pd pt := by
  have hfl := A.flags_lt
  have hpa := A.pa_lt
  rcases mapPage_spec P A.reaches (path_ne_window A.canonical A.outside)
    (flagBits_of_lt (show c.flags < 4096 by omega)) (show c.pa < 2 ^ 64 by omega) with ⟨t, ht, M, _⟩ | ⟨g, hg, _⟩
  · rw [MapCall.run, ht] at h
    exact Except.ok.inj h ▸ M
  · rw [MapCall.run, hg] at h
    cases h

theorem Admitted.leaf_lt {s : Machine} {c : MapCall} (A : Admitted s c) : c.pa ||| c.flags < 2 ^ 64 :=
  entry_lt (by have := A.pa_lt; omega) (by have := A.flags_lt; omega)

/-- One call keeps the invariant. -/
theorem run_running {s s' : Machine} {c : MapCall} (R : Running s) (A : Admitted s c)
    (h : MapCall.run s c = .ok s') : Running s' := by
  obtain ⟨pdpt, pd, pt, P, hk⟩ := R
  have M := A.mapped P h
  refine ⟨pdpt, pd, pt, M.paged, ?_⟩
  rw [Machine.kroot, M.pml4t, Machine.root, M.cr3]
  exact hk

/-- Every page but the one mapped and `TEMP_PAGE` keeps its leaf. -/
theorem Mapped.walk_eq {s s' : Machine} {flags va leaf pdpt pd pt : ℕ}
    (M : Mapped flags va leaf s s' pdpt pd pt) (hleaf : leaf < 2 ^ 64) (hc : Canonical va) {va' : ℕ}
    (hc' : Canonical va') (hne : va' / 4096 ≠ va / 4096) (ht : va' / 4096 ≠ TEMP_PAGE / 4096) :
    walk s'.phys s'.root va' = walk s.phys s.root va' :=
  M.entry_ne hleaf (p := path va') rfl (page_ne hc hc' hne)
    (by rw [← path_temp]; exact page_ne canonical_temp hc' ht)

/-- The pointer still reaches the table: its page is neither the one mapped nor `TEMP_PAGE`. -/
theorem Admitted.ctx_kept {s s' : Machine} {c : MapCall} {pdpt pd pt : ℕ} (A : Admitted s c)
    (M : Mapped c.flags c.va (c.pa ||| c.flags) s s' pdpt pd pt) : s'.translate c.ctx = some s'.cr3 := by
  have hact := A.ctx_active
  unfold Machine.translate at hact ⊢
  split at hact
  · rename_i hcc
    have hne := A.ctx_ne
    have hnt := A.ctx_ne_temp
    have hca := A.ctx_aligned
    have hal := A.aligned
    rw [if_pos hcc, M.walk_eq A.leaf_lt A.canonical hcc (by omega) (by simp only [TEMP_PAGE] at hnt ⊢; omega), M.cr3]
    exact hact
  · cases hact

/-- CORRECT: after boot and any admitted calls of `map_page`, one more that returns maps its page to the
    frame and with the flags it was asked for, as the hardware walk and `get_physical_address` both see
    it, and leaves the walk of every other page but `TEMP_PAGE` as it was. -/
theorem mapPage_point_update {m bm : Mem} {mmap : List MmapEntry} {s₀ s s' : Machine}
    {calls : List MapCall} {c : MapCall} (hboot : boot m bm mmap = some s₀)
    (hrun : Run Admitted MapCall.run s₀ calls s) (hc : Admitted s c) (h : MapCall.run s c = .ok s') :
    (∀ o < 4096, (∃ e, walk s'.phys s'.root (c.va + o) = some e ∧ leafFlags e = c.flags) ∧
      s'.translate (c.va + o) = some (c.pa + o) ∧
      ∃ t, getPhysicalAddress s' c.ctx (c.va + o) = .ok (c.pa + o, t)) ∧
    ∀ va', Canonical va' → va' / 4096 ≠ c.va / 4096 → va' / 4096 ≠ TEMP_PAGE / 4096 →
      walk s'.phys s'.root va' = walk s.phys s.root va' := by
  obtain ⟨pdpt, pd, pt, P, _⟩ := hrun.invariant (I := Running) (boot_running hboot)
    fun t a u R A hst => run_running R A hst
  have M := hc.mapped P h
  have hlt := hc.leaf_lt
  have hfl := hc.flags_lt
  have hal := hc.aligned
  have other := fun va' (hva' : Canonical va') => M.walk_eq hlt hc.canonical hva'
  obtain ⟨hmask, hflags⟩ := leaf_parts hc.pa_aligned hc.pa_lt (show c.flags < 4096 by omega)
  have hwalk : walk s'.phys s'.root c.va = some (c.pa ||| c.flags) :=
    M.entry_self hlt (or_present hc.flags_present)
  have A' : Admitted s' c := { hc with ctx_active := hc.ctx_kept M }
  refine ⟨fun o ho => ⟨⟨_, by rw [walk_add hal ho, hwalk], hflags⟩, ?_, ?_⟩, other⟩
  · refine translate_add hal ho ?_
    rw [translate_of_walk hc.canonical hwalk, ← and_pageMask, hmask, hal]
    rfl
  · have hpath := path_add hal ho
    have hidx := index_add hal ho
    have he : s'.entry (path (c.va + o)) (index 12 (c.va + o)) = some (c.pa ||| c.flags) := by
      rw [hpath, hidx]
      exact hwalk
    obtain ⟨n, _, hg⟩ := getPhysicalAddress_spec M.paged
      (by rw [hpath]; exact path_ne_window hc.canonical hc.outside) A'.reaches he
    refine ⟨withTemp s' pt n, ?_⟩
    rw [hg, ← and_pageMask, hmask, show (c.va + o) % 4096 = o by omega]

theorem Admitted.first {m bm : Mem} {mmap : List MmapEntry} {s : Machine} (h : boot m bm mmap = some s)
    {va pa flags : ℕ} (hva : va < 2 ^ 47 ∧ va % 4096 = 0) (hpa : pa < 2 ^ 52 ∧ pa % 4096 = 0)
    (hf : flags < 0x80 ∧ flags &&& 0x1 = 0x1) : Admitted s ⟨s.pml4t, va, pa, flags⟩ := by
  obtain ⟨n, P, hr, hk, hcr3, hn, _⟩ := boot_spec h
  have hptr : s.pml4t = KERNEL_BASE + n * 4096 := by rw [P.ptr, hk]
  refine ⟨.inl hva.1, hva.2, ?_, ?_, ?_, ?_, ?_, hpa.2, hpa.1, hf.1, hf.2⟩
  · simp only [KERNEL_BASE]; omega
  · simp only [hptr, KERNEL_BASE]; omega
  · show s.translate s.pml4t = _
    rw [hptr, P.toWindow.translate (by omega), hcr3]
  · simp only [hptr, KERNEL_BASE, TEMP_PAGE]; omega
  · simp only [hptr, KERNEL_BASE]; omega

/-- On the 64 MiB machine, the first user page mapped after boot. -/
theorem mapPage_point_update_after_boot : ∃ s₀ s', boot (fun _ => 0) (fun _ => 0) smallMap = some s₀ ∧
    MapCall.run s₀ ⟨s₀.pml4t, 0x400000, 0x300000, 0x5⟩ = .ok s' ∧
    s'.translate 0x400123 = some 0x300123 := by
  obtain ⟨s₀, hboot, hfree⟩ := boot_smallMap (fun _ => 0) (fun _ => 0)
  have A : Admitted s₀ ⟨s₀.pml4t, 0x400000, 0x300000, 0x5⟩ :=
    .first hboot (by decide) (by decide) (by decide)
  obtain ⟨pdpt, pd, pt, P, _⟩ := boot_running hboot
  have hcount : 3 ≤ s₀.pmm.freeCount := le_freeCount (a := 512) fun i h1 h2 => hfree i h1 (by omega)
  rcases mapPage_spec P A.reaches (path_ne_window A.canonical A.outside)
    (flagBits_of_lt (show 0x5 < 4096 by decide)) (show 0x300000 < 2 ^ 64 by decide) with
    ⟨s', hs', _⟩ | ⟨_, _, _, _, hc⟩
  · exact ⟨s₀, s', hboot, hs', ((mapPage_point_update hboot (.nil s₀) A hs').1 0x123 (by decide)).2.1⟩
  · omega

end TerraOS.Vmm
