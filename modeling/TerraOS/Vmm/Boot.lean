import TerraOS.Vmm.MapPage

/-! The machine `kernel_main` has after `paging_init` and `pmm_init`.

    Four pool pages hold the tables, one after another; every entry of theirs but the three links and
    the 512 leaves is zero. -/

namespace TerraOS.Vmm
open Lib Lib.Word Pmm

/-! ### The pool -/

/-- What `next_free` always is: a page of the pool. -/
def InPool (nextFree : ℕ) : Prop :=
  POOL_START ≤ nextFree ∧ nextFree < POOL_END ∧ nextFree % 4096 = 0

theorem allocPage_cases {nf : ℕ} (h : InPool nf) :
    allocPage nf = (0, nf) ∨ nf + 4096 < POOL_END ∧ allocPage nf = (nf, nf + 4096) := by
  unfold InPool POOL_START POOL_END at h
  unfold allocPage
  rw [add64_of_lt (by simp only [PAGE_SIZE]; omega)]
  simp only [PAGE_SIZE, POOL_END]
  split
  · exact .inl rfl
  · exact .inr ⟨by omega, rfl⟩

theorem allocPage_inPool {nf : ℕ} (h : InPool nf) : InPool (allocPage nf).2 := by
  rcases allocPage_cases h with he | ⟨hlt, he⟩
  · rw [he]
    exact h
  · rw [he]
    unfold InPool at h ⊢
    simp only at hlt ⊢
    omega

theorem allocPages_inPool : ∀ (n : ℕ) {nf : ℕ}, InPool nf → InPool (allocPages n nf)
  | 0, _, h => h
  | n + 1, _, h => allocPages_inPool n (allocPage_inPool h)

theorem bootNextFree_inPool (mmap : List MmapEntry) : InPool (bootNextFree mmap) := by
  refine allocPages_inPool _ (allocPage_inPool ?_)
  unfold InPool
  decide

/-! ### The tables -/

theorem ents_store64_at {m : Mem} {n v c : ℕ} (hv : v < 2 ^ 64) (hc : c < 512) (n' : ℕ) (j : Fin 512) :
    ents (m.store64 (n * 4096 + 8 * c) v) n' j = if n' = n ∧ (j : ℕ) = c then v else ents m n' j := by
  have h := ents_store64 (m := m) (n := n) (i := ⟨c, hc⟩) hv n' j
  simp only [Fin.ext_iff] at h
  exact h

theorem ents_identityTable (m : Mem) (k n : ℕ) (j : Fin 512) :
    ents (identityTable m (k * 4096)) n j = if n = k then (j : ℕ) * 4096 ||| 0x03 else ents m n j := by
  have loop : ∀ c ≤ 512, ents ((List.range c).foldl
      (fun m i => m.store64 (k * 4096 + 8 * i) (i * PAGE_SIZE ||| 0x03)) m) n j
        = if n = k ∧ (j : ℕ) < c then (j : ℕ) * 4096 ||| 0x03 else ents m n j := by
    intro c
    induction c with
    | zero => simp
    | succ c ih =>
      intro hc
      rw [List.range_succ, List.foldl_append, List.foldl_cons, List.foldl_nil,
        ents_store64_at (entry_lt (by simp only [PAGE_SIZE]; omega) (by decide)) (by omega), ih (by omega)]
      by_cases hj : (j : ℕ) = c
      · simp [hj]
      · have : (j : ℕ) < c + 1 ↔ (j : ℕ) < c := by omega
        simp [hj, this]
  rw [identityTable, loop 512 (le_refl _)]
  simp [j.isLt]

theorem identityTable_out {m : Mem} {k x : ℕ} (hx : x / 4096 ≠ k) : identityTable m (k * 4096) x = m x := by
  have loop : ∀ c ≤ 512, (List.range c).foldl
      (fun m i => m.store64 (k * 4096 + 8 * i) (i * PAGE_SIZE ||| 0x03)) m x = m x := by
    intro c
    induction c with
    | zero => simp
    | succ c ih =>
      intro hc
      rw [List.range_succ, List.foldl_append, List.foldl_cons, List.foldl_nil,
        Mem.store64_out (by omega), ih (by omega)]
  exact loop 512 (le_refl _)

/-- The four tables, in the pages `n .. n + 3`. -/
structure FourTables (m : Mem) (n : ℕ) : Prop where
  pml4 : ∀ i : Fin 512, ents m n i = if (i : ℕ) = 511 then (n + 1) * 4096 ||| 0x03 else 0
  pdpt : ∀ i : Fin 512, ents m (n + 1) i = if (i : ℕ) = 510 then (n + 2) * 4096 ||| 0x03 else 0
  pd : ∀ i : Fin 512, ents m (n + 2) i = if (i : ℕ) = 0 then (n + 3) * 4096 ||| 0x03 else 0
  pt : ∀ i : Fin 512, ents m (n + 3) i = (i : ℕ) * 4096 ||| 0x03

theorem pagingInit_spec {m : Mem} {nf : ℕ} {t : PagingTables} (h : InPool nf)
    (hi : pagingInit m nf = some t) : ∃ n, 32 ≤ n ∧ n + 3 < 511 ∧ t.pml4t = KERNEL_BASE + n * 4096 ∧
      InPool t.nextFree ∧ FourTables t.phys n ∧ ∀ x, x / 4096 < n → t.phys x = m x := by
  have h₁ := allocPage_inPool h
  have h₂ := allocPage_inPool h₁
  have h₃ := allocPage_inPool h₂
  have h₄ := allocPage_inPool h₃
  unfold pagingInit at hi
  simp only at hi
  split at hi
  · cases hi
  · rename_i hne
    simp only [not_or] at hne
    obtain ⟨ne₁, ne₂, ne₃, ne₄⟩ := hne
    obtain ⟨_, e₁⟩ := (allocPage_cases h).resolve_left fun he => ne₁ (by rw [he])
    rw [e₁] at h₁ h₂ h₃ h₄ ne₂ ne₃ ne₄ hi
    obtain ⟨_, e₂⟩ := (allocPage_cases h₁).resolve_left fun he => ne₂ (by rw [he])
    rw [e₂] at h₂ h₃ h₄ ne₃ ne₄ hi
    obtain ⟨_, e₃⟩ := (allocPage_cases h₂).resolve_left fun he => ne₃ (by rw [he])
    rw [e₃] at h₃ h₄ ne₄ hi
    obtain ⟨hlt, e₄⟩ := (allocPage_cases h₃).resolve_left fun he => ne₄ (by rw [he])
    rw [e₄] at h₄ hi
    obtain rfl := Option.some.inj hi
    simp only
    obtain ⟨n, hn⟩ : ∃ n, nf = KERNEL_BASE + n * 4096 := by
      unfold InPool at h
      simp only [POOL_START, POOL_END, KERNEL_BASE] at h ⊢
      exact ⟨(nf - 0xFFFFFFFF80000000) / 4096, by omega⟩
    have hb : 32 ≤ n ∧ n + 3 < 511 := by
      unfold InPool at h
      simp only [POOL_START, POOL_END, KERNEL_BASE] at h hn hlt
      omega
    have a₀ : v2p nf = n * 4096 := by
      rw [v2p, sub64_of_le] <;> simp only [KERNEL_BASE] at hn ⊢ <;> omega
    have a₁ : v2p (nf + 4096) = (n + 1) * 4096 := by
      rw [v2p, sub64_of_le] <;> simp only [KERNEL_BASE] at hn ⊢ <;> omega
    have a₂ : v2p (nf + 4096 + 4096) = (n + 2) * 4096 := by
      rw [v2p, sub64_of_le] <;> simp only [KERNEL_BASE] at hn ⊢ <;> omega
    have a₃ : v2p (nf + 4096 + 4096 + 4096) = (n + 3) * 4096 := by
      rw [v2p, sub64_of_le] <;> simp only [KERNEL_BASE] at hn ⊢ <;> omega
    have lt₁ : (n + 1) * 4096 ||| 0x03 < 2 ^ 64 := entry_lt (by omega) (by decide)
    have lt₂ : (n + 2) * 4096 ||| 0x03 < 2 ^ 64 := entry_lt (by omega) (by decide)
    have lt₃ : (n + 3) * 4096 ||| 0x03 < 2 ^ 64 := entry_lt (by omega) (by decide)
    refine ⟨n, hb.1, hb.2, hn, h₄, ?_, fun x hx => ?_⟩ <;> rw [a₀, a₁, a₂, a₃] <;> simp only [PAGE_SIZE]
    swap
    · rw [identityTable_out (by omega), Mem.store64_out (by omega), Mem.store64_out (by omega),
        Mem.store64_out (by omega)]
      simp only [fillBytes]
      rw [if_neg (by omega), if_neg (by omega), if_neg (by omega), if_neg (by omega)]
    -- the entries of any page, in the order the writes are undone
    refine ⟨fun i => ?_, fun i => ?_, fun i => ?_, fun i => ?_⟩
    all_goals
      rw [ents_identityTable, ents_store64_at lt₃ (by omega), ents_store64_at lt₂ (by omega),
        ents_store64_at lt₁ (by omega), ents_zeroed, ents_zeroed, ents_zeroed, ents_zeroed]
      simp

theorem child_three {g : ℕ} (hg : g < 2 ^ 40) : child (g * 4096 ||| 0x03) = some g := by
  have : (g * 4096 ||| 0x03) = (g * 4096 ||| 0x2 ||| 0x1) := by rw [Nat.or_assoc]; rfl
  rw [this]
  exact child_link hg (by decide)

section four
variable {s : Machine} {n : ℕ} (T : FourTables s.phys n) (hn : n < 511) (hr : s.root = n)
include T hn hr

/-- The tables the tree has after `paging_init`, and no others. -/
theorem FourTables.table_cases {p : List (Fin 512)} {x : ℕ} (hp : p.length ≤ 3)
    (h : s.table p = some x) : p = [] ∧ x = n ∨ p = [511] ∧ x = n + 1 ∨ p = [511, 510] ∧ x = n + 2 ∨
      p = windowPath ∧ x = n + 3 := by
  have step : ∀ {k c v : ℕ} {i : Fin 512} {y : ℕ}, v < 511 + 3 → ents s.phys k i
      = (if (i : ℕ) = c then v * 4096 ||| 0x03 else 0) → child (ents s.phys k i) = some y →
      (i : ℕ) = c ∧ y = v := by
    intro k c v i y hv he hc
    rw [he] at hc
    split at hc
    · rename_i hi
      rw [child_three (by omega)] at hc
      exact ⟨hi, (Option.some.inj hc).symm⟩
    · cases hc
  rcases p with _ | ⟨i, p⟩
  · rw [Machine.table_nil, hr] at h
    exact .inl ⟨rfl, (Option.some.inj h).symm⟩
  rw [Machine.table, Radix.node, hr] at h
  obtain ⟨a, ha, h₁⟩ := Option.bind_eq_some_iff.mp h
  obtain ⟨hi, rfl⟩ := step (by omega) (T.pml4 i) ha
  obtain rfl : i = 511 := Fin.ext hi
  rcases p with _ | ⟨j, p⟩
  · exact .inr (.inl ⟨rfl, (Option.some.inj h₁).symm⟩)
  rw [Radix.node] at h₁
  obtain ⟨b, hb, h₂⟩ := Option.bind_eq_some_iff.mp h₁
  obtain ⟨hj, rfl⟩ := step (by omega) (T.pdpt j) hb
  obtain rfl : j = 510 := Fin.ext hj
  rcases p with _ | ⟨k, p⟩
  · exact .inr (.inr (.inl ⟨rfl, (Option.some.inj h₂).symm⟩))
  rw [Radix.node] at h₂
  obtain ⟨c, hc, h₃⟩ := Option.bind_eq_some_iff.mp h₂
  obtain ⟨hk, rfl⟩ := step (by omega) (T.pd k) hc
  obtain rfl : k = 0 := Fin.ext hk
  rcases p with _ | ⟨l, p⟩
  · exact .inr (.inr (.inr ⟨rfl, (Option.some.inj h₃).symm⟩))
  · simp only [List.length_cons] at hp
    omega

end four

theorem pmmInit_reserved (nf : ℕ) (bm : Mem) (mmap : List MmapEntry) {i : ℕ} (hi : i < 512) :
    (pmmInit nf bm mmap).pmm.used i = true := by
  have hk : pagesUp (KERNEL_END - KERNEL_BASE) = 512 := by decide
  simp only [pmmInit, Pmm.used, hk, bit_setPages, Bool.or_eq_true, decide_eq_true_iff]
  exact .inl ⟨by omega, by omega⟩

/-- A bitmap that fits the pool has few bits. -/
theorem pmmInit_size {nf : ℕ} {bm : Mem} {mmap : List MmapEntry}
    (h : (pmmInit nf bm mmap).pmm.memBitmapSize ≤ 2 ^ 32) :
    (pmmInit nf bm mmap).pmm.memBitmapBitSize ≤ 2 ^ 40 := by
  have hlt : pagesUp (lastUsableEnd mmap) < 2 ^ 52 + 1 := by
    have := sub64_lt (add64 (lastUsableEnd mmap) PAGE_SIZE) 1
    unfold pagesUp
    simp only [PAGE_SIZE] at this ⊢
    omega
  simp only [pmmInit] at h ⊢
  rw [add64_of_lt (by omega)] at h
  omega

theorem boot_cases {m bm : Mem} {mmap : List MmapEntry} {s : Machine} (h : boot m bm mmap = some s) :
    ∃ t, pagingInit m (bootNextFree mmap) = some t ∧
      ((pmmInit t.nextFree bm mmap).memBitmapPtr ≠ 0 ∧ (pmmInit t.nextFree bm mmap).memBitmapPtr
        + (pmmInit t.nextFree bm mmap).pmm.memBitmapSize ≤ POOL_END) ∧
      s = ⟨t.phys, v2p t.pml4t, t.pml4t, (pmmInit t.nextFree bm mmap).pmm⟩ := by
  rw [boot, Option.bind_eq_bind, Option.bind_eq_some_iff] at h
  obtain ⟨t, ht, h⟩ := h
  dsimp only at h
  refine ⟨t, ht, ?_⟩
  generalize pmmInit t.nextFree bm mmap = b at h ⊢
  split_ifs at h with hfit
  exact ⟨hfit, (Option.some.inj h).symm⟩

/-- The allocator `pmm_init` leaves when its bitmap fits the pool. -/
theorem boot_frames {nf : ℕ} {bm : Mem} {mmap : List MmapEntry} (hnf : InPool nf)
    (hptr : (pmmInit nf bm mmap).memBitmapPtr ≠ 0)
    (hfit : (pmmInit nf bm mmap).memBitmapPtr + (pmmInit nf bm mmap).pmm.memBitmapSize ≤ POOL_END) :
    (pmmInit nf bm mmap).pmm.memBitmapBitSize ≤ 2 ^ 40 := by
  refine pmmInit_size ?_
  have hp : (pmmInit nf bm mmap).memBitmapPtr = (allocPage nf).1 := by rw [pmmInit]
  rw [hp] at hptr hfit
  rcases allocPage_cases hnf with he | ⟨_, he⟩
  · rw [he] at hptr
    exact absurd rfl hptr
  · rw [he] at hfit
    have := hnf.1
    simp only [POOL_START, POOL_END] at this hfit
    omega

/-- The machine after `paging_init` and `pmm_init`. -/
theorem boot_spec {m bm : Mem} {mmap : List MmapEntry} {s : Machine} (h : boot m bm mmap = some s) :
    ∃ n, Paged s (n + 1) (n + 2) (n + 3) ∧ s.root = n ∧ s.kroot = n ∧ s.cr3 = n * 4096 ∧ n + 3 < 511 ∧
      FourTables s.phys n ∧ 32 ≤ n ∧ ∀ x, x / 4096 < n → s.phys x = m x := by
  obtain ⟨t, ht, hfit, hs⟩ := boot_cases h
  obtain ⟨n, h32, h511, hptr, hpool, T, hbytes⟩ := pagingInit_spec (bootNextFree_inPool mmap) ht
  have hv : v2p t.pml4t = n * 4096 := by
    rw [hptr, v2p, sub64_of_le] <;> simp only [KERNEL_BASE] <;> omega
  have hphys : s.phys = t.phys := by rw [hs]
  have hpmm : s.pmm = (pmmInit t.nextFree bm mmap).pmm := by rw [hs]
  have hroot : s.root = n := by rw [hs, Machine.root, hv, frame_page (by omega)]
  have hkroot : s.kroot = n := by
    rw [hs, Machine.kroot, hv, PAGE_SIZE, Nat.mul_div_cancel _ (by decide)]
  have hp : s.pml4t = KERNEL_BASE + n * 4096 := by rw [hs, hptr]
  rw [← hphys] at T
  have hres : ∀ i < 512, s.pmm.used i = true := fun i hi => by rw [hpmm]; exact pmmInit_reserved _ _ _ hi
  have hsize : s.pmm.memBitmapBitSize ≤ 2 ^ 40 := by rw [hpmm]; exact boot_frames hpool hfit.1 hfit.2
  refine ⟨n, ⟨⟨by rw [hkroot, hp], ?_, ?_, ?_, ?_, fun i hi => ?_, ⟨511, ?_⟩, by rw [hkroot]; omega,
    by rw [hroot, hkroot]; omega⟩, ⟨hsize, hres, by rw [hroot]; exact hres n (by omega)⟩,
    fun p q x hp hq h₁ h₂ => ?_, fun p x hp h₁ => hres x ?_, fun p hp h₁ => ?_, .inl (by rw [hroot, hkroot])⟩,
    hroot, hkroot, by rw [hs, hv], h511, T, h32, fun x hx => by rw [hphys]; exact hbytes x hx⟩
  · rw [hroot, T.pml4, if_pos (show ((511 : Fin 512) : ℕ) = 511 from rfl), child_three (by omega)]
  · rw [hkroot, T.pml4, if_pos (show ((511 : Fin 512) : ℕ) = 511 from rfl), child_three (by omega)]
  · rw [T.pdpt, if_pos (show ((510 : Fin 512) : ℕ) = 510 from rfl), child_three (by omega)]
  · rw [T.pd, if_pos (show ((0 : Fin 512) : ℕ) = 0 from rfl), child_three (by omega)]
  · rw [T.pt, child_three (by omega)]
  · rw [T.pt]
    exact child_three (by decide)
  · have c₁ := T.table_cases (by omega) hroot hp h₁
    have c₂ := T.table_cases (by omega) hroot hq h₂
    rcases c₁ with ⟨rfl, e₁⟩ | ⟨rfl, e₁⟩ | ⟨rfl, e₁⟩ | ⟨rfl, e₁⟩ <;>
      rcases c₂ with ⟨rfl, e₂⟩ | ⟨rfl, e₂⟩ | ⟨rfl, e₂⟩ | ⟨rfl, e₂⟩ <;> first | rfl | omega
  · have := T.table_cases (by omega) hroot hp h₁
    omega
  · have := T.table_cases (by omega) hroot hp h₁
    omega

/-- After boot only the window has a page table. -/
theorem boot_unmapped {m bm : Mem} {mmap : List MmapEntry} {s : Machine} (h : boot m bm mmap = some s) {va : ℕ}
    (hw : path va ≠ windowPath) : s.table (path va) = none := by
  obtain ⟨n, _, hr, _, _, h511, T, _⟩ := boot_spec h
  refine Option.eq_none_iff_forall_ne_some.mpr fun f hf => ?_
  rcases T.table_cases (by omega) hr (by simp [path]) hf with ⟨h, _⟩ | ⟨h, _⟩ | ⟨h, _⟩ | ⟨h, _⟩
  · simp [path] at h
  · simp [path] at h
  · simp [path] at h
  · exact hw h

/-- The machine with 64 MiB boots, whatever its memory holds, with what lies above the window free. -/
theorem boot_smallMap (m bm : Mem) : ∃ s, boot m bm smallMap = some s ∧
    ∀ i, 512 ≤ i → i < 16384 → i < s.pmm.memBitmapBitSize ∧ s.pmm.used i = false := by
  have hpool : bootNextFree smallMap = POOL_START + 2 * 4096 := by decide
  obtain ⟨t, ht, hnf⟩ : ∃ t, pagingInit m (bootNextFree smallMap) = some t ∧
      t.nextFree = POOL_START + 6 * 4096 := by
    rw [hpool, pagingInit]
    exact ⟨_, rfl, rfl⟩
  have hfit : (pmmInit t.nextFree bm smallMap).memBitmapPtr ≠ 0 ∧
      (pmmInit t.nextFree bm smallMap).memBitmapPtr + (pmmInit t.nextFree bm smallMap).pmm.memBitmapSize
        ≤ POOL_END := by
    rw [hnf]
    show (allocPage (POOL_START + 6 * 4096)).1 ≠ 0 ∧ (allocPage (POOL_START + 6 * 4096)).1 +
      add64 (pagesUp (lastUsableEnd smallMap)) 7 / 8 ≤ POOL_END
    decide
  have hs : boot m bm smallMap = some ⟨t.phys, v2p t.pml4t, t.pml4t, (pmmInit t.nextFree bm smallMap).pmm⟩ := by
    rw [boot, ht, Option.bind_eq_bind, Option.bind_some]
    dsimp only
    rw [if_pos hfit]
  exact ⟨_, hs, fun i h hi => smallMap_free t.nextFree _ h hi⟩

end TerraOS.Vmm
