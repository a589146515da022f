import TerraOS.Vmm.Model

/-! The kernel window and the primitives that work through it.

    Every access of vmm.c goes through four fixed entries: slot 511 of a PML4, slot 510 of its PDPT,
    slot 0 of that PD, and a leaf of the one page table under them, which maps the first 511 pages to
    themselves and `TEMP_PAGE` to the table at work. `Window` states those entries and nothing else, so
    it survives the moments inside `map_page` when the tree as a whole is in disarray (a table linked
    and not yet zeroed). `nextTable_spec` then says what each level of `map_page` does to the tables as
    an edit of entries, with no mention of translation any more. -/

namespace TerraOS.Vmm
open Lib Lib.Word Pmm

/-! ### Entries -/

theorem and_pageMask (e : ℕ) : e &&& PAGE_MASK = frame e * 4096 := by
  have h : e &&& PAGE_MASK = e % 2 ^ 52 / 2 ^ 12 * 2 ^ 12 := and_mask e (k := 12) (n := 52) (by decide)
  rw [frame, h]
  simp [PAGE_SIZE]

theorem frame_eq (e : ℕ) : frame e = e / 4096 % 2 ^ 40 := by
  have h : e &&& PAGE_MASK = e % 2 ^ 52 / 2 ^ 12 * 2 ^ 12 := and_mask e (k := 12) (n := 52) (by decide)
  rw [frame, h]
  simp only [PAGE_SIZE]
  omega

theorem frame_lt (e : ℕ) : frame e < 2 ^ 40 := by rw [frame_eq]; omega

@[simp] theorem frame_page {g : ℕ} (h : g < 2 ^ 40) : frame (g * 4096) = g := by rw [frame_eq]; omega

/-- Joining bits outside the mask leaves the page number. -/
theorem frame_or {a b : ℕ} (h : b &&& PAGE_MASK = 0) : frame (a ||| b) = frame a := by
  rw [frame, Nat.and_or_distrib_right, h, Nat.or_zero, frame]

theorem child_eq_some {e n : ℕ} : child e = some n ↔ e &&& 0x1 ≠ 0 ∧ frame e = n := by
  unfold child
  split <;> simp_all

theorem child_eq_none {e : ℕ} : child e = none ↔ e &&& 0x1 = 0 := by
  unfold child
  split <;> simp_all

theorem child_zero : child 0 = none := rfl

theorem or_one_and (a : ℕ) : (a ||| 0x1) &&& 0x1 ≠ 0 := by
  rw [Nat.and_or_distrib_right]
  simp

/-- The entry `map_page` writes for a new table. -/
theorem child_link {g flags : ℕ} (hg : g < 2 ^ 40) (hf : flags &&& PAGE_MASK = 0) :
    child (g * 4096 ||| flags ||| 0x1) = some g :=
  child_eq_some.mpr ⟨or_one_and _, by rw [frame_or (by decide), frame_or hf, frame_page hg]⟩

/-- The leaf `temp_map` writes. -/
theorem child_temp {g : ℕ} (hg : g < 2 ^ 40) : child (g * 4096 ||| 0x13) = some g := by
  have : (g * 4096 ||| 0x13) = (g * 4096 ||| 0x12 ||| 0x1) := by rw [Nat.or_assoc]; rfl
  rw [this]
  exact child_link hg (by decide)

theorem entry_lt {a b : ℕ} (ha : a < 2 ^ 64) (hb : b < 2 ^ 64) : a ||| b < 2 ^ 64 :=
  Nat.or_lt_two_pow ha hb

theorem ents_store64 {m : Mem} {n v : ℕ} {i : Fin 512} (hv : v < 2 ^ 64) (n' : ℕ) (j : Fin 512) :
    ents (m.store64 (n * 4096 + 8 * i) v) n' j = if n' = n ∧ j = i then v else ents m n' j := by
  unfold ents
  by_cases h : n' = n ∧ j = i
  · rw [if_pos h, h.1, h.2, Mem.load64_store64 hv]
  · rw [if_neg h]
    have hne : n' ≠ n ∨ (j : ℕ) ≠ i := by
      rcases not_and_or.mp h with h | h
      · exact .inl h
      · exact .inr fun he => h (Fin.ext he)
    exact Mem.load64_store64_out (by omega)

theorem ents_congr {m m' : Mem} {n : ℕ} (h : ∀ x, x / 4096 = n → m' x = m x) (i : Fin 512) :
    ents m' n i = ents m n i :=
  Mem.load64_congr fun x h1 h2 => h x (by omega)

theorem ents_zeroed (m : Mem) (n : ℕ) (n' : ℕ) (j : Fin 512) :
    ents (fillBytes m (n * 4096) 4096 0) n' j = if n' = n then 0 else ents m n' j := by
  by_cases h : n' = n
  · rw [if_pos h, h, ents, Mem.load64, Mem.loadLE_congr (m := fun _ => 0) (a := 0)]
    · rfl
    · intro i hi
      rw [fillBytes, if_pos ⟨by omega, by omega⟩]
  · rw [if_neg h]
    refine ents_congr (fun x hx => ?_) j
    rw [fillBytes, if_neg (by omega)]

/-! ### Indices -/

theorem index_val (k va : ℕ) : (index k va : ℕ) = va / 2 ^ k % 512 := by
  change (va >>> k) &&& 0x1FF = _
  rw [Nat.shiftRight_eq_div_pow]
  exact Nat.and_two_pow_sub_one_eq_mod _ 9

theorem index_eq {k va : ℕ} {i : Fin 512} (h : va / 2 ^ k % 512 = i) : index k va = i :=
  Fin.ext (by rw [index_val, h])

theorem slot_eq {table : ℕ} {i : Fin 512} (h : table + 4096 ≤ 2 ^ 64) : slot table i = table + 8 * i :=
  add64_of_lt (by omega)

/-- The path of the kernel window. -/
abbrev windowPath : List (Fin 512) := [511, 510, 0]

theorem path_window {x : ℕ} (h : x < 0x200000) : path (KERNEL_BASE + x) = windowPath := by
  simp only [path, KERNEL_BASE, List.cons.injEq, and_true]
  refine ⟨index_eq ?_, index_eq ?_, index_eq ?_⟩
  · show _ = 511; omega
  · show _ = 510; omega
  · show _ = 0; omega

theorem index_window {x : ℕ} (h : x < 0x200000) : (index 12 (KERNEL_BASE + x) : ℕ) = x / 4096 := by
  rw [index_val]
  simp only [KERNEL_BASE]
  omega

theorem canonical_window {x : ℕ} (h : x < 0x200000) : Canonical (KERNEL_BASE + x) := by
  unfold Canonical
  simp only [KERNEL_BASE]
  omega

/-! ### Translation -/

theorem entryAt_eq_some {m : Mem} {root n : ℕ} {p : List (Fin 512)} {i : Fin 512}
    (hn : Radix.node child (ents m) root p = some n) {c : ℕ} (hc : child (ents m n i) = some c) :
    entryAt m root p i = some (ents m n i) := by
  rw [entryAt, hn, Option.bind_some, if_neg (child_eq_some.mp hc).1]

theorem translate_of_walk {s : Machine} {va e : ℕ} (hc : Canonical va)
    (hw : walk s.phys s.root va = some e) : s.translate va = some (frame e * 4096 + va % 4096) := by
  rw [Machine.translate, if_pos hc, hw, Option.map_some, and_pageMask]

/-- The pointer reaches the table in page `n`. -/
def Points (s : Machine) (table n : ℕ) : Prop :=
  ∀ i : Fin 512, s.translate (slot table i) = some (n * 4096 + 8 * i)

theorem Points.load64 {s : Machine} {table n : ℕ} (h : Points s table n) (i : Fin 512) :
    s.load64 (slot table i) = .ok (ents s.phys n i) := by
  rw [Machine.load64, h i]
  rfl

theorem Points.store64 {s : Machine} {table n : ℕ} (h : Points s table n) (i : Fin 512) (v : ℕ) :
    s.store64 (slot table i) v = .ok { s with phys := s.phys.store64 (n * 4096 + 8 * i) v } := by
  rw [Machine.store64, h i]

namespace Machine

/-- The page of the kernel's own PML4. -/
def kroot (s : Machine) : ℕ := v2p s.pml4t / PAGE_SIZE

end Machine

/-- The entries the kernel works through: `pdpt`, `pd` and `pt` are the pages of the window's tables. -/
structure Window (s : Machine) (pdpt pd pt : ℕ) : Prop where
  ptr : s.pml4t = KERNEL_BASE + s.kroot * 4096
  link4 : child (ents s.phys s.root 511) = some pdpt
  klink4 : child (ents s.phys s.kroot 511) = some pdpt
  link3 : child (ents s.phys pdpt 510) = some pd
  link2 : child (ents s.phys pd 0) = some pt
  leaf : ∀ i : Fin 512, (i : ℕ) < 511 → child (ents s.phys pt i) = some (i : ℕ)
  temp : ∃ n, child (ents s.phys pt 511) = some n
  low : s.kroot < 511 ∧ pdpt < 511 ∧ pd < 511 ∧ pt < 511
  apart : s.root ≠ pt ∧ s.kroot ≠ pt

section window
variable {s s' : Machine} {pdpt pd pt : ℕ}

theorem Window.node (W : Window s pdpt pd pt) :
    Radix.node child (ents s.phys) s.root windowPath = some pt := by
  simp [Radix.node, W.link4, W.link3, W.link2]

theorem Window.translate (W : Window s pdpt pd pt) {x : ℕ} (hx : x < 511 * 4096) :
    s.translate (KERNEL_BASE + x) = some x := by
  have hleaf := W.leaf (index 12 (KERNEL_BASE + x)) (by rw [index_window (by omega)]; omega)
  rw [translate_of_walk (canonical_window (by omega)) (e := ents s.phys pt (index 12 (KERNEL_BASE + x)))]
  · rw [(child_eq_some.mp hleaf).2, index_window (by omega)]
    simp only [KERNEL_BASE, Option.some.injEq]
    omega
  · rw [walk, path_window (by omega)]
    exact entryAt_eq_some W.node hleaf

theorem Window.translate_temp (W : Window s pdpt pd pt) {n x : ℕ}
    (hn : child (ents s.phys pt 511) = some n) (hx : x < 4096) :
    s.translate (TEMP_PAGE + x) = some (n * 4096 + x) := by
  have hva : TEMP_PAGE + x = KERNEL_BASE + (511 * 4096 + x) := by simp only [TEMP_PAGE, KERNEL_BASE]; omega
  have hi : index 12 (KERNEL_BASE + (511 * 4096 + x)) = 511 :=
    Fin.ext (by rw [index_window (by omega)]; show _ = 511; omega)
  rw [hva, translate_of_walk (canonical_window (by omega)) (e := ents s.phys pt 511)]
  · rw [(child_eq_some.mp hn).2]
    simp only [KERNEL_BASE, Option.some.injEq]
    omega
  · rw [walk, path_window (by omega), hi]
    exact entryAt_eq_some W.node hn

/-- The window reaches every page below `TEMP_PAGE`. -/
theorem Window.points (W : Window s pdpt pd pt) {n : ℕ} (hn : n < 511) :
    Points s (KERNEL_BASE + n * 4096) n := fun i => by
  rw [slot_eq (by simp only [KERNEL_BASE]; omega), Nat.add_assoc, W.translate (by omega)]

/-- `TEMP_PAGE` reaches the page its leaf names. -/
theorem Window.points_temp (W : Window s pdpt pd pt) {n : ℕ}
    (hn : child (ents s.phys pt 511) = some n) : Points s TEMP_PAGE n := fun i => by
  rw [slot_eq (by simp only [TEMP_PAGE]; omega), W.translate_temp hn (by omega)]

/-- The tables the window goes through. -/
def InWindow (s : Machine) (pdpt pd pt n : ℕ) : Prop :=
  n = s.root ∨ n = s.kroot ∨ n = pdpt ∨ n = pd ∨ n = pt

/-- Edits that leave the window's own entries alone leave the window. -/
theorem Window.of_agree (W : Window s pdpt pd pt) (hcr3 : s'.cr3 = s.cr3) (hptr : s'.pml4t = s.pml4t)
    (h : ∀ n i c, child (ents s.phys n i) = some c → InWindow s pdpt pd pt n → (n, i) ≠ (pt, 511) →
      child (ents s'.phys n i) = some c)
    (htemp : ∃ n, child (ents s'.phys pt 511) = some n) : Window s' pdpt pd pt := by
  have hroot : s'.root = s.root := by rw [Machine.root, Machine.root, hcr3]
  have hkroot : s'.kroot = s.kroot := by rw [Machine.kroot, Machine.kroot, hptr]
  refine ⟨by rw [hptr, hkroot]; exact W.ptr, ?_, ?_, ?_, ?_, fun i hi => ?_, htemp,
    by rw [hkroot]; exact W.low, by rw [hroot, hkroot]; exact W.apart⟩
  · rw [hroot]
    exact h _ _ _ W.link4 (.inl rfl) fun he => W.apart.1 (Prod.mk.inj he).1
  · rw [hkroot]
    exact h _ _ _ W.klink4 (.inr (.inl rfl)) fun he => W.apart.2 (Prod.mk.inj he).1
  · exact h _ _ _ W.link3 (.inr (.inr (.inl rfl))) fun he => absurd (Prod.mk.inj he).2 (by simp)
  · exact h _ _ _ W.link2 (.inr (.inr (.inr (.inl rfl)))) fun he => absurd (Prod.mk.inj he).2 (by simp)
  · refine h _ _ _ (W.leaf i hi) (.inr (.inr (.inr (.inr rfl)))) fun he => ?_
    rw [(Prod.mk.inj he).2] at hi
    exact absurd hi (by simp)

theorem Window.withPmm (W : Window s pdpt pd pt) (p : Pmm) : Window { s with pmm := p } pdpt pd pt :=
  ⟨W.ptr, W.link4, W.klink4, W.link3, W.link2, W.leaf, W.temp, W.low, W.apart⟩

/-! ### `temp_map` -/

/-- The machine with the leaf of `TEMP_PAGE` set to page `n`. -/
def withTemp (s : Machine) (pt n : ℕ) : Machine :=
  { s with phys := s.phys.store64 (pt * 4096 + 8 * (511 : Fin 512)) (n * 4096 ||| 0x13) }

theorem temp_entry_lt {n : ℕ} (hn : n < 2 ^ 40) : n * 4096 ||| 0x13 < 2 ^ 64 :=
  entry_lt (by omega) (by decide)

theorem ents_withTemp {n : ℕ} (hn : n < 2 ^ 40) (n' : ℕ) (j : Fin 512) :
    ents (withTemp s pt n).phys n' j
      = if n' = pt ∧ j = 511 then n * 4096 ||| 0x13 else ents s.phys n' j :=
  ents_store64 (temp_entry_lt hn) n' j

theorem child_ents_withTemp {n : ℕ} (hn : n < 2 ^ 40) :
    child (ents (withTemp s pt n).phys pt 511) = some n := by
  rw [ents_withTemp hn, if_pos ⟨rfl, rfl⟩, child_temp hn]

theorem Window.withTemp (W : Window s pdpt pd pt) {n : ℕ} (hn : n < 2 ^ 40) :
    Window (withTemp s pt n) pdpt pd pt := by
  refine W.of_agree rfl rfl (fun n' i c hc _ hne => ?_) ⟨n, child_ents_withTemp hn⟩
  rw [ents_withTemp hn, if_neg fun he => hne (Prod.ext he.1 he.2)]
  exact hc

/-- A table of the window is reached by its physical address plus `KERNEL_BASE`. -/
theorem Window.points_child (W : Window s pdpt pd pt) {e n : ℕ} (hc : child e = some n) (hn : n < 511) :
    Points s (add64 (e &&& PAGE_MASK) KERNEL_BASE) n := by
  rw [and_pageMask, (child_eq_some.mp hc).2, add64_of_lt (by simp only [KERNEL_BASE]; omega), Nat.add_comm]
  exact W.points hn

theorem tempMap_eq (W : Window s pdpt pd pt) (n : ℕ) :
    tempMap s (n * 4096) = .ok (withTemp s pt n) := by
  obtain ⟨l1, l2, l3, l4⟩ := W.low
  have i4 : index 39 TEMP_PAGE = 511 := index_eq (by norm_num [TEMP_PAGE])
  have i3 : index 30 TEMP_PAGE = 510 := index_eq (by norm_num [TEMP_PAGE])
  have i2 : index 21 TEMP_PAGE = 0 := index_eq (by norm_num [TEMP_PAGE])
  have i1 : index 12 TEMP_PAGE = 511 := index_eq (by norm_num [TEMP_PAGE])
  have hk : Points s s.pml4t s.kroot := by rw [W.ptr]; exact W.points l1
  unfold tempMap
  rw [i4, i3, i2, i1, hk.load64, ok_bind]
  dsimp only
  rw [(W.points_child W.klink4 l2).load64, ok_bind, (W.points_child W.link3 l3).load64, ok_bind,
    (W.points_child W.link2 l4).store64, withTemp]

/-! ### `memset` of a page under `TEMP_PAGE` -/

/-- Writing a page outside the window's tables leaves the window. -/
theorem Window.of_bytes (W : Window s pdpt pd pt) {g : ℕ} {m : Mem} (hg : 511 ≤ g) (hr : g ≠ s.root)
    (hm : ∀ x, x / 4096 ≠ g → m x = s.phys x) : Window { s with phys := m } pdpt pd pt := by
  have hlow := W.low
  have same : ∀ n i, InWindow s pdpt pd pt n → ents m n i = ents s.phys n i := fun n i hn =>
    ents_congr (fun x hx => hm x (by unfold InWindow at hn; omega)) i
  refine W.of_agree rfl rfl (fun n i c hc hn _ => ?_) ?_
  · rw [same n i hn]; exact hc
  · obtain ⟨n, hn⟩ := W.temp
    exact ⟨n, by rw [same pt 511 (.inr (.inr (.inr (.inr rfl))))]; exact hn⟩

theorem memsetLoop_temp {g : ℕ} (W : Window s pdpt pd pt) (hg : 511 ≤ g) (hr : g ≠ s.root)
    (ht : child (ents s.phys pt 511) = some g) : ∀ (n i : ℕ), i + n ≤ 4096 →
    memsetLoop pagedBus TEMP_PAGE 0 n i { s with phys := fillBytes s.phys (g * 4096) i 0 }
      = .ok { s with phys := fillBytes s.phys (g * 4096) (i + n) 0 }
  | 0, _, _ => rfl
  | n + 1, i, h => by
    have hm : ∀ x, x / 4096 ≠ g → fillBytes s.phys (g * 4096) i 0 x = s.phys x := fun x hx => by
      rw [fillBytes, if_neg (by omega)]
    have W' := W.of_bytes hg hr hm
    have ht' : child (ents (fillBytes s.phys (g * 4096) i 0) pt 511) = some g := by
      rw [ents_congr (fun x hx => hm x (by have := W.low; omega))]
      exact ht
    have htr := W'.translate_temp ht' (show i < 4096 by omega)
    rw [memsetLoop, add64_of_lt (by simp only [TEMP_PAGE]; omega)]
    simp only [pagedBus, Machine.store8, htr, ok_bind, store8_fillBytes]
    have := memsetLoop_temp W hg hr ht n (i + 1) (by omega)
    rwa [show i + 1 + n = i + (n + 1) by omega] at this

/-- The machine with page `g` zeroed. -/
def zeroed (s : Machine) (g : ℕ) : Machine := { s with phys := fillBytes s.phys (g * 4096) 4096 0 }

theorem memset_temp {g : ℕ} (W : Window s pdpt pd pt) (hg : 511 ≤ g) (hr : g ≠ s.root)
    (ht : child (ents s.phys pt 511) = some g) :
    memset pagedBus s TEMP_PAGE 0 0x1000 = .ok (zeroed s g) := by
  have hz : fillBytes s.phys (g * 4096) 0 0 = s.phys := by
    funext x; exact if_neg (by omega)
  have := memsetLoop_temp W hg hr ht 0x1000 0 (by omega)
  rw [hz, Nat.zero_add] at this
  rw [memset, show UInt8.ofNat 0 = 0 from rfl, this]
  rfl

/-! ### One level of `map_page` -/

/-- Bits a caller may pass as flags: none of them in the page number. -/
def FlagBits (flags : ℕ) : Prop := flags < 2 ^ 64 ∧ flags &&& PAGE_MASK = 0

/-- The machine with entry `i` of the table in page `f` linked to page `g`. -/
def withEntry (s : Machine) (f : ℕ) (i : Fin 512) (v : ℕ) : Machine :=
  { s with phys := s.phys.store64 (f * 4096 + 8 * i) v }

/-- The machine after a level that made the table in page `g`. -/
def withTable (s : Machine) (pt f : ℕ) (i : Fin 512) (g flags : ℕ) : Machine :=
  zeroed (withTemp (withEntry { s with pmm := (pmmAlloc s.pmm).2 } f i (g * 4096 ||| flags ||| 0x1)) pt g) g

/-- What makes the allocator safe to draw tables from. -/
structure Frames (s : Machine) : Prop where
  size : s.pmm.memBitmapBitSize ≤ 2 ^ 40
  reserved : ∀ i < 512, s.pmm.used i = true
  rootUsed : s.pmm.used s.root = true

theorem Frames.ok (F : Frames s) : s.pmm.Ok := ⟨F.reserved 0 (by omega), by have := F.size; omega⟩

/-- A free page may be linked: it is outside the window, is not the root and has a page number. -/
theorem Frames.free (F : Frames s) {g : ℕ} (hlt : g < s.pmm.memBitmapBitSize)
    (hu : s.pmm.used g = false) : 512 ≤ g ∧ g ≠ s.root ∧ g < 2 ^ 40 := by
  refine ⟨?_, ?_, by have := F.size; omega⟩
  · by_contra h
    rw [F.reserved g (by omega)] at hu
    cases hu
  · rintro rfl
    rw [F.rootUsed] at hu
    cases hu

theorem link_lt {g flags : ℕ} (hg : g < 2 ^ 40) (hf : FlagBits flags) :
    g * 4096 ||| flags ||| 0x1 < 2 ^ 64 :=
  entry_lt (entry_lt (by omega) hf.1) (by decide)

/-- Linking an absent entry leaves the window, all of whose entries are present. -/
theorem Window.withEntry (W : Window s pdpt pd pt) {f v : ℕ} {i : Fin 512} (hv : v < 2 ^ 64)
    (hno : child (ents s.phys f i) = none) : Window (withEntry s f i v) pdpt pd pt := by
  have keep : ∀ n j c, child (ents s.phys n j) = some c →
      child (ents (Vmm.withEntry s f i v).phys n j) = some c := fun n j c hc => by
    rw [Vmm.withEntry, ents_store64 hv, if_neg]
    · exact hc
    · rintro ⟨rfl, rfl⟩
      rw [hno] at hc
      cases hc
  refine W.of_agree rfl rfl (fun n j c hc _ _ => keep n j c hc) ?_
  obtain ⟨n, hn⟩ := W.temp
  exact ⟨n, keep pt 511 n hn⟩

/-- What one level of `map_page` does: the table is there; or there is no frame for it; or it is made
    in the least free frame, linked, and zeroed through `TEMP_PAGE`. -/
theorem nextTable_spec (W : Window s pdpt pd pt) (F : Frames s) {table f flags : ℕ} {i : Fin 512}
    (htbl : Points s table f) (hflags : FlagBits flags) :
    (∃ g, child (ents s.phys f i) = some g ∧ nextTable s table i flags = .ok (withTemp s pt g)) ∨
    (child (ents s.phys f i) = none ∧ (∀ j < s.pmm.memBitmapBitSize, s.pmm.used j = true) ∧
      nextTable s table i flags = .error ⟨.panic "Out of physical memory for page table!", s⟩) ∨
    ∃ g, child (ents s.phys f i) = none ∧ g < s.pmm.memBitmapBitSize ∧ s.pmm.used g = false ∧
      pmmAlloc s.pmm = (g * 4096, { s.pmm with memBitmap := Bits.set s.pmm.memBitmap g }) ∧
      nextTable s table i flags = .ok (withTable s pt f i g flags) := by
  unfold nextTable
  rw [htbl.load64, ok_bind]
  cases hc : child (ents s.phys f i) with
  | some g =>
    refine .inl ⟨g, rfl, ?_⟩
    rw [if_neg (child_eq_some.mp hc).1, and_pageMask, (child_eq_some.mp hc).2, tempMap_eq W]
  | none =>
    right
    rw [if_pos (child_eq_none.mp hc)]
    rcases F.ok.alloc with ⟨hall, ha⟩ | ⟨g, hg0, hlt, hu, _, ha⟩
    · exact .inl ⟨rfl, hall, by rw [ha]; rfl⟩
    · right
      obtain ⟨h512, hr, h40⟩ := F.free hlt hu
      refine ⟨g, rfl, hlt, hu, ha, ?_⟩
      -- the same machine before and after the allocation, as far as translation goes
      have htbl' : Points { s with pmm := (pmmAlloc s.pmm).2 } table f := htbl
      have W₁ := (W.withPmm (pmmAlloc s.pmm).2).withEntry (f := f) (i := i) (link_lt h40 hflags) hc
      have W₂ := W₁.withTemp h40
      have hne : ¬ g * 4096 = 0 := by omega
      dsimp only
      rw [if_neg (by rw [ha]; exact hne), show (pmmAlloc s.pmm).1 = g * 4096 by rw [ha], htbl'.store64,
        ok_bind]
      change (tempMap (Vmm.withEntry _ f i _) _ >>= _) = _
      rw [tempMap_eq W₁, ok_bind, memset_temp W₂ (by omega) hr (child_ents_withTemp h40)]
      rfl

end window

end TerraOS.Vmm
