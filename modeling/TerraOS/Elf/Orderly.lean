import TerraOS.Elf.Progress
import TerraOS.Lib.Runs

/-! The loader, with or without frames to spare.

    `load_elf` does not ask whether `pmm_alloc` found a frame: with none left it maps frame 0. What holds
    all the same, between any two of its steps, is `Orderly`: the kernel's window is in place, the file is
    where it was, and each leaf outside the kernel's slot leads to a used page that is no page table,
    frame 0 or one above the kernel's 2 MiB. -/

namespace TerraOS.Elf
open Lib Lib.Word Pmm Vmm

/-- Where the leaf leads is used, no table, and frame 0 or above the kernel. -/
structure Backed (s : Machine) (e : ℕ) : Prop where
  used : s.pmm.used (Vmm.frame e) = true
  place : Vmm.frame e = 0 ∨ 512 ≤ Vmm.frame e
  spare : ∀ p, p.length ≤ 3 → s.table p ≠ some (Vmm.frame e)

/-- The machine between two steps of `load_elf`. -/
structure Orderly (s : Machine) (task : Task) (pdpt pd pt elfData : ℕ) (img : List UInt8) : Prop
    extends Ready s task pdpt pd pt where
  ctx_top : index 39 task.pml4t = 511
  kernel_page : s.kroot ≠ 0
  carries : Carries s elfData img
  backed : ∀ v < userPages, ∀ e, s.entry (pageKey v).1 (pageKey v).2 = some e → Backed s e

/-! ### A page mapped -/

/-- What `pmm_alloc` returns: page 0 if there is no frame, and else a frame that was free. -/
structure Taken (s : Machine) (f : ℕ) (a : Pmm) : Prop where
  alloc : pmmAlloc s.pmm = (f * 4096, a)
  size : a.memBitmapBitSize = s.pmm.memBitmapBitSize
  bits : ∀ n, a.used n = (decide (n = f) || s.pmm.used n)
  lt : f < 2 ^ 40
  place : f = 0 ∨ 512 ≤ f
  spare : ∀ p, p.length ≤ 3 → s.table p ≠ some f
  none : (∀ j < s.pmm.memBitmapBitSize, s.pmm.used j = true) → f = 0

section
variable {s s' : Machine} {task : Task} {pdpt pd pt elfData v f flags : ℕ} {img : List UInt8} {a : Pmm}

theorem exists_taken (P : Paged s pdpt pd pt) : ∃ f a, Taken s f a := by
  rcases P.toFrames.ok.alloc with ⟨hall, halloc⟩ | ⟨f, _, hlt, hu, _, halloc⟩
  · refine ⟨0, s.pmm, ⟨by rw [halloc], rfl, fun n => ?_, by decide, .inl rfl, P.nonzero, fun _ => rfl⟩⟩
    by_cases h : n = 0
    · rw [h, P.reserved 0 (by omega)]
      rfl
    · simp [h]
  · obtain ⟨h512, _, h40⟩ := P.free hlt hu
    refine ⟨f, _, ⟨halloc, rfl, fun n => Bits.bit_set _ _ _, h40, .inr h512, fun p hp => P.table_ne_free hu hp,
      fun hall => ?_⟩⟩
    rw [hall f hlt] at hu
    cases hu

theorem Taken.ready (T : Taken s f a) (R : Ready s task pdpt pd pt) : Ready { s with pmm := a } task pdpt pd pt :=
  R.of_paged (R.toPaged.withPmm T.size fun n hn => by rw [T.bits, hn, Bool.or_true]) rfl rfl rfl

theorem Taken.used (T : Taken s f a) {n : ℕ} (h : s.pmm.used n = true) : a.used n = true := by
  rw [T.bits, h, Bool.or_true]

theorem Taken.frame (T : Taken s f a) (hfl : flags = 0x5 ∨ flags = 0x7) :
    Vmm.frame (f * 4096 ||| flags) = f := by
  rw [frame_or (leaf_flagBits hfl).2, frame_page T.lt]

/-- `map_page` of a page of the program comes back with the page mapped, or panics with tables added. -/
theorem mapFrame_outcome (R : Ready s task pdpt pd pt) (hv : v < userPages) (hfl : flags = 0x5 ∨ flags = 0x7) :
    ∃ f a, Taken s f a ∧ Ends
      (fun s' => Mapped flags (v * 4096) (f * 4096 ||| flags) { s with pmm := a } s' pdpt pd pt)
      (fun stop => Paged stop.machine pdpt pd pt ∧
        Grown flags (path (v * 4096)) { s with pmm := a } stop.machine ∧
        stop.machine.table (path (v * 4096)) = none)
      (mapFrame task s (v * 4096) flags) := by
  obtain ⟨f, a, T⟩ := exists_taken R.toPaged
  have R₁ := T.ready R
  refine ⟨f, a, T, ?_⟩
  have hmap : mapFrame task s (v * 4096) flags
      = mapPage { s with pmm := a } task.pml4t (v * 4096) (f * 4096) flags := by rw [mapFrame, T.alloc]
  have hpa : f * 4096 < 2 ^ 64 := by have := T.lt; omega
  rw [hmap]
  rcases mapPage_outcome R₁.toPaged (R₁.reaches (index 39 (v * 4096))) (pageKey_ne_window hv)
    (leaf_flagBits hfl) hpa with ⟨s', hs', M, _⟩ | ⟨g, hg, P, G, _, _, hno⟩
  · rw [hs']
    exact .ok M
  · rw [hg]
    exact .error ⟨P, G, hno⟩

/-- With the page's table there it does not panic. -/
theorem mapFrame_again (R : Ready s task pdpt pd pt) (hv : v < userPages) (hfl : flags = 0x5 ∨ flags = 0x7) {n : ℕ}
    (ht : s.table (path (v * 4096)) = some n) : ∃ s', mapFrame task s (v * 4096) flags = .ok s' := by
  obtain ⟨f, a, T, h⟩ := mapFrame_outcome R hv hfl
  cases hs : mapFrame task s (v * 4096) flags with
  | ok s' => exact ⟨s', rfl⟩
  | error stop =>
    obtain ⟨_, G, hno⟩ := h.of_error hs
    rw [G.table (s := { s with pmm := a }) (by simp [path]) ht] at hno
    cases hno

section
variable (O : Orderly s task pdpt pd pt elfData img) (T : Taken s f a) (hv : v < userPages)
  (hfl : flags = 0x5 ∨ flags = 0x7)
  (M : Mapped flags (v * 4096) (f * 4096 ||| flags) { s with pmm := a } s' pdpt pd pt)
include T hfl M

theorem Mapped.leaf_new : s'.entry (pageKey v).1 (pageKey v).2 = some (f * 4096 ||| flags) :=
  M.entry_self (leaf_lt T.lt hfl) (leaf_present hfl)

/-- A used page that is no table does not become one. -/
theorem Mapped.spares (R : Ready s task pdpt pd pt) {n : ℕ} (hn : a.used n = true)
    (hspare : ∀ p, p.length ≤ 3 → s.table p ≠ some n) : ∀ p, p.length ≤ 3 → s'.table p ≠ some n := by
  obtain ⟨g, G, _, htab, _⟩ := M.upper (leaf_lt T.lt hfl)
  intro p hp h
  rw [htab p hp] at h
  rcases G.table_or_free (T.size ▸ R.size) (leaf_flagBits hfl) hp h with h | ⟨_, h⟩
  · exact hspare p hp h
  · rw [hn] at h
    cases h

theorem Mapped.used_kept {n : ℕ} (h : s.pmm.used n = true) : s'.pmm.used n = true := by
  obtain ⟨g, G, _, _, hpmm⟩ := M.upper (leaf_lt T.lt hfl)
  rw [hpmm]
  exact G.used (T.used h)

theorem Mapped.size_kept : s'.pmm.memBitmapBitSize = s.pmm.memBitmapBitSize := by
  obtain ⟨g, G, _, _, hpmm⟩ := M.upper (leaf_lt T.lt hfl)
  rw [hpmm, G.size]
  exact T.size

include hv

theorem Mapped.leaf_old {w : ℕ} (hw : w < userPages) (hne : w ≠ v) :
    s'.entry (pageKey w).1 (pageKey w).2 = s.entry (pageKey w).1 (pageKey w).2 :=
  M.entry_ne (leaf_lt T.lt hfl) rfl (fun he => hne (pageKey_inj hw hv he))
    fun he => pageKey_ne_window hw (Prod.mk.inj he).1

include O

theorem Orderly.mapped : Orderly s' task pdpt pd pt elfData img := by
  have hleaf := leaf_lt T.lt hfl
  have habove := O.carries.above
  have hbelow := O.carries.below
  simp only [KERNEL_BASE, TEMP_PAGE] at habove hbelow
  have himage : ∀ k < img.length, ∀ p, p.length ≤ 3 → s'.table p ≠ some ((elfData - KERNEL_BASE + k) / 4096) :=
    fun k hk => Mapped.spares T hfl M O.toReady
      (T.used (O.reserved _ (by simp only [KERNEL_BASE]; omega))) (O.carries.apart k hk)
  refine ⟨ready_mapped (T.ready O.toReady) O.ctx_top hv hleaf M, O.ctx_top, ?_, ⟨O.carries.above,
    O.carries.below, fun k hk => ?_, himage⟩, fun w hw e he => ?_⟩
  · rw [Machine.kroot, M.pml4t]
    exact O.kernel_page
  · rw [M.bytes hleaf (himage k hk)]
    exact O.carries.byte k hk
  · by_cases hwv : w = v
    · rw [hwv, Mapped.leaf_new T hfl M] at he
      obtain rfl := Option.some.inj he
      have hu : a.used f = true := by rw [T.bits]; simp
      refine ⟨?_, by rw [T.frame hfl]; exact T.place, ?_⟩
      · obtain ⟨g, G, _, _, hpmm⟩ := M.upper hleaf
        rw [T.frame hfl, hpmm]
        exact G.used hu
      · rw [T.frame hfl]
        exact Mapped.spares T hfl M O.toReady hu T.spare
    · rw [Mapped.leaf_old T hv hfl M hw hwv] at he
      have b := O.backed w hw e he
      exact ⟨Mapped.used_kept T hfl M b.used, b.place, Mapped.spares T hfl M O.toReady (T.used b.used) b.spare⟩

end

end

/-! ### Bytes written -/

/-- Other bytes in pages that leaves outside the kernel's slot lead to, and nothing else changed. -/
structure Written (s s' : Machine) : Prop where
  same : s' = { s with phys := s'.phys }
  entry : ∀ p i, p.length ≤ 3 → s'.entry p i = s.entry p i

theorem written_refl (s : Machine) : Written s s := ⟨rfl, fun _ _ _ => rfl⟩

theorem Written.trans {s s' s'' : Machine} (h : Written s s') (h' : Written s' s'') : Written s s'' := by
  refine ⟨?_, fun p i hp => (h'.entry p i hp).trans (h.entry p i hp)⟩
  rw [h'.same, h.same]

section
variable {s s' : Machine} {task : Task} {pdpt pd pt elfData : ℕ} {img : List UInt8}

theorem Orderly.write (O : Orderly s task pdpt pd pt elfData img) {m : Mem}
    (hm : ∀ x, (∀ v < userPages, ∀ e, s.entry (pageKey v).1 (pageKey v).2 = some e → Vmm.frame e ≠ x / 4096) →
      m x = s.phys x) :
    Orderly { s with phys := m } task pdpt pd pt elfData img ∧ Written s { s with phys := m } := by
  have htbl : ∀ q n, q.length ≤ 3 → s.table q = some n → ∀ x, x / 4096 = n → m x = s.phys x :=
    fun q n hq hn x hx => hm x fun v hv e he hf => (O.backed v hv e he).spare q hq (by rw [hn, ← hx, hf])
  -- the kernel's pages lie between frame 0 and its 2 MiB
  have hlow : ∀ x, x / 4096 ≠ 0 → x / 4096 < 512 → m x = s.phys x := fun x h0 h512 =>
    hm x fun v hv e he hf => by have := (O.backed v hv e he).place; omega
  have htab : ∀ p, p.length ≤ 3 → Machine.table { s with phys := m } p = s.table p := fun p hp =>
    table_of_bytes hp fun q n hq hn => htbl q n (by omega) hn
  have hent : ∀ p i, p.length ≤ 3 → Machine.entry { s with phys := m } p i = s.entry p i := fun p i hp =>
    entry_of_bytes hp htbl
  have hk := O.low.1
  have hk0 := O.kernel_page
  have habove := O.carries.above
  have hbelow := O.carries.below
  simp only [KERNEL_BASE, TEMP_PAGE] at habove hbelow
  refine ⟨⟨?_, O.ctx_top, O.kernel_page, ⟨O.carries.above, O.carries.below, fun k hk => ?_, fun k hk p hp => ?_⟩,
    fun v hv e he => ?_⟩, rfl, hent⟩
  · exact O.toReady.of_paged (O.toPaged.of_bytes htbl fun x hx => hlow x (by omega) (by omega)) rfl rfl
      (hent (path task.pml4t) (index 12 task.pml4t) (by simp [path]))
  · rw [show Machine.phys { s with phys := m } = m from rfl, hlow _ (by simp only [KERNEL_BASE]; omega)
      (by simp only [KERNEL_BASE]; omega)]
    exact O.carries.byte k hk
  · rw [htab p hp]
    exact O.carries.apart k hk p hp
  · rw [hent _ _ (show (pageKey v).1.length ≤ 3 by simp [pageKey, path])] at he
    have b := O.backed v hv e he
    exact ⟨b.used, b.place, fun p hp => by rw [htab p hp]; exact b.spare p hp⟩

/-- From `s₀` a copy has written bytes of the program's pages. -/
def Copied (s₀ : Machine) (task : Task) (pdpt pd pt elfData : ℕ) (img : List UInt8) (s : Machine) : Prop :=
  Orderly s task pdpt pd pt elfData img ∧ Written s₀ s

variable {s₀ : Machine}

/-- A store to an address below the kernel's half writes a page of the program, or faults. -/
theorem Copied.store8 (h : Copied s₀ task pdpt pd pt elfData img s) {va : ℕ} (hva : va < 2 ^ 64 - 2 ^ 47)
    (b : UInt8) :
    Ends (Copied s₀ task pdpt pd pt elfData img) (fun stop => Copied s₀ task pdpt pd pt elfData img stop.machine)
      (s.store8 va b) := by
  unfold Machine.store8
  cases hx : s.translate va with
  | none => exact .error h
  | some x =>
    obtain ⟨O, w⟩ := h
    have hlow : va < 2 ^ 47 := by
      have := canonical_of_translate hx
      unfold Canonical at this
      omega
    rw [Machine.translate, if_pos (.inl hlow), Option.map_eq_some_iff] at hx
    obtain ⟨e, he, rfl⟩ := hx
    have hframe : ((e &&& PAGE_MASK) + va % 4096) / 4096 = Vmm.frame e := by
      rw [and_pageMask]
      omega
    have hmem : ∀ x, (∀ v < userPages, ∀ e, s.entry (pageKey v).1 (pageKey v).2 = some e → Vmm.frame e ≠ x / 4096) →
        s.phys.store8 ((e &&& PAGE_MASK) + va % 4096) b x = s.phys x := fun y hy => Mem.store8_out (by
      rintro rfl
      exact hy (va / 4096) (by simp only [userPages]; omega) e (by rw [pageKey_div]; exact he) hframe.symm)
    obtain ⟨O', w'⟩ := O.write hmem
    exact .ok ⟨O', w.trans w'⟩

/-- A copy to the lower half, whatever it reads and wherever it faults. -/
theorem Copied.copyLoop {dest source count : ℕ} (hd : dest ≤ 2 ^ 47) (hc : count ≤ 2 ^ 64 - 2 ^ 31) :
    ∀ {fuel i : ℕ} {s : Machine}, Copied s₀ task pdpt pd pt elfData img s → i ≤ 2 ^ 31 →
    Ends (Copied s₀ task pdpt pd pt elfData img) (fun stop => Copied s₀ task pdpt pd pt elfData img stop.machine)
      (memcpyLoop pagedBus dest source count fuel i s)
  | 0, _, s, h, _ => .ok h
  | fuel + 1, i, s, h, hi => by
    rw [memcpyLoop]
    by_cases hlt : sext32 i < count
    · have hi31 : i < 2 ^ 31 := by
        by_contra hge
        rw [sext32, if_neg hge] at hlt
        omega
      rw [if_pos hlt, sext32_of_lt hi31, Nat.mod_eq_of_lt (show i + 1 < 2 ^ 32 by omega),
        show add64 dest i = dest + i from add64_of_lt (by omega)]
      have hload : Ends (fun _ => True) (fun stop => Copied s₀ task pdpt pd pt elfData img stop.machine)
          (pagedBus.rd s (add64 source i)) := by
        unfold pagedBus Machine.load8
        dsimp only
        split
        · exact .ok trivial
        · exact .error h
      exact hload.bind fun b _ => (h.store8 (by omega) b).bind fun s' h' => Copied.copyLoop hd hc h' (by omega)
    · rw [if_neg hlt]
      exact .ok h

end

end TerraOS.Elf
