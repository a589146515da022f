import TerraOS.Elf.Supply
import TerraOS.Vmm.Spaces

/-! What a program file can do to the kernel.

    `load_elf` maps whatever addresses a header names, so that a file can have pages mapped in the
    kernel's half (`kernel_half_mapped`). A file whose segments end below `2^47` cannot: whether the call
    comes to `sysret`, panics or faults, no translation of the kernel's half has changed in the task's
    table or in the kernel's, `TEMP_PAGE`'s apart, and `memcpy` writes nowhere in it
    (`loadElf_spares_kernel`). -/

namespace TerraOS.Elf
open Lib Lib.Word Pmm Vmm

/-- The addresses of the kernel's half, less those of `TEMP_PAGE`. -/
def KernelHalf (va : ℕ) : Prop := Canonical va ∧ 2 ^ 47 ≤ va ∧ va / 4096 ≠ TEMP_PAGE / 4096

/-- The kernel's half is mapped as before, in the active table, which is the task's, and in the kernel's. -/
def KernelSame (s s' : Machine) : Prop := ∀ va, KernelHalf va →
  walk s'.phys s'.root va = walk s.phys s.root va ∧ walk s'.phys s'.kroot va = walk s.phys s.kroot va

theorem kernelSame_refl (s : Machine) : KernelSame s s := fun _ _ => ⟨rfl, rfl⟩

theorem KernelSame.trans {s s' s'' : Machine} (h : KernelSame s s') (h' : KernelSame s' s'') : KernelSame s s'' :=
  fun va hva => ⟨(h' va hva).1.trans (h va hva).1, (h' va hva).2.trans (h va hva).2⟩

section
variable {s s' : Machine} {task : Task} {pdpt pd pt elfData v f flags : ℕ} {img : List UInt8} {a : Pmm}

/-- The kernel's table has slot 511, which is that of the active table, and no other. -/
theorem kernel_walk (P : Paged s pdpt pd pt) (hsep : s.kroot ≠ s.root) (va : ℕ) :
    walk s.phys s.kroot va = if index 39 va = 511 then walk s.phys s.root va else none := by
  by_cases h : index 39 va = 511
  · rw [if_pos h, P.walk_shared h]
  · rw [if_neg h]
    obtain ⟨-, hnone⟩ := P.kernel.resolve_left hsep
    unfold walk entryAt path
    rw [Radix.node, hnone _ h]
    rfl

/-- It follows the active one. -/
theorem kernelSame_of_root (P : Paged s pdpt pd pt) (P' : Paged s' pdpt pd pt) (hsep : s.kroot ≠ s.root)
    (hroot : s'.root = s.root) (hkroot : s'.kroot = s.kroot)
    (h : ∀ va, KernelHalf va → walk s'.phys s'.root va = walk s.phys s.root va) : KernelSame s s' := fun va hva => by
  refine ⟨h va hva, ?_⟩
  rw [kernel_walk P hsep, kernel_walk P' (by rw [hroot, hkroot]; exact hsep), h va hva]

theorem KernelHalf.ne_page {va : ℕ} (h : KernelHalf va) (hv : v < 2 ^ 35) : va / 4096 ≠ v * 4096 / 4096 := by
  obtain ⟨-, h, -⟩ := h
  omega

/-- A page of the lower half mapped, or not for want of a table. -/
theorem Orderly.kernel_mapFrame (O : Orderly s task pdpt pd pt elfData img) (hv : v < 2 ^ 35)
    (hfl : flags = 0x5 ∨ flags = 0x7) :
    Ends (fun s' => Orderly s' task pdpt pd pt elfData img ∧ KernelSame s s') (fun stop => KernelSame s stop.machine)
      (mapFrame task s (v * 4096) flags) := by
  have hv' : v < userPages := by simp only [userPages]; omega
  obtain ⟨f, a, T, hends⟩ := mapFrame_outcome O.toReady hv' hfl
  have P₁ := (T.ready O.toReady).toPaged
  refine hends.imp (fun t M => ?_) fun stop ⟨P, G, _⟩ => ?_
  · refine ⟨O.mapped T hv' hfl M, kernelSame_of_root (s := { s with pmm := a }) P₁ M.paged O.separate ?_ ?_
      fun va hva => ?_⟩
    · rw [Machine.root, M.cr3]
      rfl
    · rw [Machine.kroot, M.pml4t]
      rfl
    · exact M.walk_eq (leaf_lt T.lt hfl) (.inl (by omega)) hva.1 (hva.ne_page hv) hva.2.2
  · refine kernelSame_of_root (s := { s with pmm := a }) P₁ P O.separate G.root G.kroot fun va hva => ?_
    refine G.leaf (path va) (index 12 va) rfl fun he => ?_
    rw [← path_temp] at he
    exact page_ne canonical_temp hva.1 hva.2.2 he

theorem Copied.kernelSame (O : Orderly s task pdpt pd pt elfData img)
    (h : Copied s task pdpt pd pt elfData img s') : KernelSame s s' := by
  obtain ⟨O', w⟩ := h
  refine kernelSame_of_root O.toPaged O'.toPaged O.separate ?_ ?_ fun va _ => w.entry (path va) _ (by simp [path])
  · rw [w.same]
    rfl
  · rw [w.same]
    rfl

/-- From `s₀` on, the kernel's half has been kept. -/
def Guarded (s₀ : Machine) (task : Task) (pdpt pd pt elfData : ℕ) (img : List UInt8) (s : Machine) : Prop :=
  Orderly s task pdpt pd pt elfData img ∧ KernelSame s₀ s

variable {s₀ : Machine}

theorem Guarded.mapFrame (G : Guarded s₀ task pdpt pd pt elfData img s) (hv : v < 2 ^ 35)
    (hfl : flags = 0x5 ∨ flags = 0x7) :
    Ends (Guarded s₀ task pdpt pd pt elfData img) (fun stop => KernelSame s₀ stop.machine)
      (mapFrame task s (v * 4096) flags) :=
  (G.1.kernel_mapFrame hv hfl).imp (fun _ h => ⟨h.1, G.2.trans h.2⟩) fun _ h => G.2.trans h

theorem Guarded.copy (G : Guarded s₀ task pdpt pd pt elfData img s) {dest source count : ℕ} (hd : dest ≤ 2 ^ 47)
    (hc : count ≤ 2 ^ 64 - 2 ^ 31) :
    Ends (Guarded s₀ task pdpt pd pt elfData img) (fun stop => KernelSame s₀ stop.machine)
      (memcpy pagedBus s dest source count) := by
  have hstart : Copied s task pdpt pd pt elfData img s := ⟨G.1, written_refl s⟩
  exact (hstart.copyLoop hd hc (by omega)).imp (fun _ h => ⟨h.1, G.2.trans (Copied.kernelSame G.1 h)⟩)
    fun _ h => G.2.trans (Copied.kernelSame G.1 h)

/-- A header whose pages lie in the lower half. -/
structure Phdr.Below (p : Phdr) : Prop where
  mem : p.pVaddr + p.pMemsz < 2 ^ 47
  file : p.pFilesz ≤ 2 ^ 64 - 2 ^ 31

theorem Guarded.segment {p : Phdr} (G : Guarded s₀ task pdpt pd pt elfData img s) (hp : p.pType = PT_LOAD → p.Below) :
    Ends (Guarded s₀ task pdpt pd pt elfData img) (fun stop => KernelSame s₀ stop.machine)
      (segment task elfData s p) := by
  unfold Elf.segment
  by_cases ht : p.pType = PT_LOAD
  · have hmem := (hp ht).mem
    rw [if_pos ht, loadSegment_pages (by omega)]
    refine (foldlM_ends (I := fun _ => Guarded s₀ task pdpt pd pt elfData img) (fun j hj s Gs => ?_) G).bind
      fun t Gt => Gt.copy (by omega) (hp ht).file
    have hpage := Phdr.mem_pages.mp (List.getElem_mem hj)
    exact Gs.mapFrame (by omega) (pageFlags_cases p)
  · rw [if_neg ht]
    exact .ok G

section
variable (S : Started s₀ task pdpt pd pt) (C : Carries s₀ elfData img) (A : Accepted img)
  (hbelow : ∀ p ∈ loads img, p.Below)
include S C A hbelow

theorem segmentLoop_guarded : Ends (Guarded s₀ task pdpt pd pt elfData img)
    (fun stop => KernelSame s₀ stop.machine)
    (segmentLoop task elfData (add64 elfData (ePhoff img)) (2 ^ 16) 0 s₀) := by
  have hstart : Guarded s₀ task pdpt pd pt elfData img s₀ := ⟨Started.orderly S C, kernelSame_refl s₀⟩
  have hstep : ∀ i (hi : i < (phdrs img).length) s, Guarded s₀ task pdpt pd pt elfData img s →
      Ends (Guarded s₀ task pdpt pd pt elfData img) (fun stop => KernelSame s₀ stop.machine)
        (Elf.segment task elfData s (phdrs img)[i]) := fun i hi s G =>
    G.segment fun ht => hbelow _ (List.mem_filter.mpr ⟨List.getElem_mem hi, by simpa using ht⟩)
  rw [segmentLoop_eq A (I := fun _ => Guarded s₀ task pdpt pd pt elfData img)
    (fun _ s G => ⟨G.1.carries, G.1.toWindow⟩) (fun i hi s s' G h => (hstep i hi s G).of_ok h) (2 ^ 16) 0 s₀ hstart
    (by have := ePhnum_lt img; omega), List.drop_zero]
  exact foldlM_ends hstep hstart

theorem loadElf_guarded : Ends (fun r => KernelSame s₀ r.1) (fun stop => KernelSame s₀ stop.machine)
    (loadElf task elfData s₀) := by
  have hhead := A.header
  rw [loadElf_accepted A C S.toWindow, loadProgram, field_eq C S.toWindow (by omega), ok_bind]
  refine (segmentLoop_guarded S C A hbelow).bind fun s G => ?_
  rw [field_eq G.1.carries G.1.toWindow (by omega), ok_bind]
  obtain ⟨v, hv, hpage⟩ : ∃ v < 2 ^ 35, v * 4096 = userStack := ⟨userStack / 4096, by decide, by decide⟩
  have hfl : (0x7 : ℕ) = 0x5 ∨ (0x7 : ℕ) = 0x7 := .inr rfl
  have hstack := G.mapFrame hv hfl
  rw [hpage] at hstack
  exact hstack.bind fun t Gt => .ok Gt.2

end

end

/-! ### The copy -/

/-- Memory on which stores to the kernel's half fault. -/
def lowerBus : Bus Machine Stop where
  rd := Machine.load8
  wr s va b := if 2 ^ 64 - 2 ^ 47 ≤ va then .error ⟨.access va, s⟩ else s.store8 va b

theorem memcpyLoop_lowerBus {dest source count : ℕ} (hd : dest ≤ 2 ^ 47) (hc : count ≤ 2 ^ 64 - 2 ^ 31) :
    ∀ {fuel i : ℕ} {s : Machine}, i ≤ 2 ^ 31 →
      memcpyLoop lowerBus dest source count fuel i s = memcpyLoop pagedBus dest source count fuel i s
  | 0, _, _, _ => rfl
  | fuel + 1, i, s, hi => by
    rw [memcpyLoop, memcpyLoop]
    by_cases hlt : sext32 i < count
    · have hi31 : i < 2 ^ 31 := by
        by_contra hge
        rw [sext32, if_neg hge] at hlt
        omega
      have haddr : ¬ 2 ^ 64 - 2 ^ 47 ≤ dest + i := by omega
      have hstore : ∀ b, lowerBus.wr s (dest + i) b = pagedBus.wr s (dest + i) b := fun b => if_neg haddr
      rw [if_pos hlt, if_pos hlt, sext32_of_lt hi31, Nat.mod_eq_of_lt (show i + 1 < 2 ^ 32 by omega),
        show add64 dest i = dest + i from add64_of_lt (by omega)]
      have hload : lowerBus.rd s (add64 source i) = pagedBus.rd s (add64 source i) := rfl
      rw [hload]
      congr 1
      funext b
      rw [hstore]
      congr 1
      funext s'
      exact memcpyLoop_lowerBus hd hc (by omega)
    · rw [if_neg hlt, if_neg hlt]

/-- CORRECT: a file whose `PT_LOAD` segments end below `2^47`, each of at most `2^64 - 2^31` bytes of the
    file, leaves the kernel's half mapped as it was in both tables, however the call ends, and its copies
    go as they would if no address of the kernel's half could be written. -/
theorem loadElf_spares_kernel {s₀ : Machine} {task : Task} {pdpt pd pt elfData : ℕ} {img : List UInt8}
    (S : Started s₀ task pdpt pd pt) (C : Carries s₀ elfData img) (A : Accepted img)
    (hbelow : ∀ p ∈ loads img, p.Below) :
    Ends (fun r => KernelSame s₀ r.1) (fun stop => KernelSame s₀ stop.machine) (loadElf task elfData s₀) ∧
    ∀ p ∈ loads img, ∀ s, memcpy lowerBus s p.pVaddr (add64 elfData p.pOffset) p.pFilesz
      = memcpy pagedBus s p.pVaddr (add64 elfData p.pOffset) p.pFilesz := by
  refine ⟨loadElf_guarded S C A hbelow, fun p hp s => ?_⟩
  have hmem := (hbelow p hp).mem
  exact memcpyLoop_lowerBus (by omega) (hbelow p hp).file (by omega)

theorem loadElf_spares_kernel_userProgram : ∃ s₀ task pdpt pd pt, Started s₀ task pdpt pd pt ∧
    Carries s₀ (KERNEL_BASE + 0x10000) userProgramElf ∧
    Ends (fun r => KernelSame s₀ r.1) (fun stop => KernelSame s₀ stop.machine)
      (loadElf task (KERNEL_BASE + 0x10000) s₀) := by
  obtain ⟨s₀, task, pdpt, pd, pt, S, C, _⟩ := started_userProgram
  refine ⟨s₀, task, pdpt, pd, pt, S, C, (loadElf_spares_kernel S C accepted_userProgramElf ?_).1⟩
  rw [loads_userProgramElf, List.forall_mem_singleton]
  exact ⟨by decide, by decide⟩

/-! ### A file that reaches the kernel's half -/

/-- `map_page` looks at the indices of an address and no more. -/
theorem mapFrame_congr {task : Task} {s : Machine} {va va' flags : ℕ} (hpath : path va = path va')
    (hidx : index 12 va = index 12 va') : mapFrame task s va flags = mapFrame task s va' flags := by
  simp only [path, List.cons.injEq, and_true] at hpath
  obtain ⟨h4, h3, h2⟩ := hpath
  unfold mapFrame mapPage
  rw [h4, h3, h2, hidx]

/-- `user_program_elf` with an empty segment at the bottom of the kernel's half. -/
def kernelHalfElf : List UInt8 :=
  ((((((userProgramElf.set 0x52 0x00).set 0x55 0x80).set 0x56 0xFF).set 0x57 0xFF).set 0x60 0x00).set 0x68 0x00)

theorem phdrs_kernelHalfElf : phdrs kernelHalfElf = [⟨1, 5, 0, 0xFFFF800000000000, 0, 0⟩] := by decide

theorem length_kernelHalfElf : kernelHalfElf.length = 0xC0 := by
  simp only [kernelHalfElf, List.length_set, length_userProgramElf]

/-- The one page that its segment takes has the key of page 2^35. -/
theorem segment_kernelHalfElf (task : Task) (elfData : ℕ) (s : Machine) :
    segment task elfData s ⟨1, 5, 0, 0xFFFF800000000000, 0, 0⟩ = mapFrame task s (2 ^ 35 * 4096) 0x5 := by
  have hcongr : mapFrame task s 0xFFFF800000000000 0x5 = mapFrame task s (2 ^ 35 * 4096) 0x5 :=
    mapFrame_congr (by decide) (by decide)
  rw [← hcongr]
  show (do
    let s ← mapPages task 0xFFFF800000000000 0x5 1 0 s
    memcpy pagedBus s 0xFFFF800000000000 (add64 elfData 0) 0) = _
  have hpages : mapPages task 0xFFFF800000000000 0x5 1 0 s = mapFrame task s 0xFFFF800000000000 0x5 := by
    rw [mapPages, show add64 0xFFFF800000000000 (mul64 0x1000 0) = 0xFFFF800000000000 by decide]
    cases mapFrame task s 0xFFFF800000000000 0x5 with
    | ok t => rfl
    | error e => rfl
  have hcopy : ∀ t, memcpy pagedBus t 0xFFFF800000000000 (add64 elfData 0) 0 = .ok t := fun t => by
    rw [memcpy, show (2 ^ 32 : ℕ) = 4294967295 + 1 from rfl, memcpyLoop, if_neg (by omega)]
  rw [hpages]
  cases mapFrame task s 0xFFFF800000000000 0x5 with
  | ok t => exact hcopy t
  | error e => rfl

/-- Its page is mapped in the kernel's half when the program starts. -/
theorem kernel_half_mapped : ∃ s₀ task pdpt pd pt s u, Started s₀ task pdpt pd pt ∧
    Carries s₀ (KERNEL_BASE + 0x10000) kernelHalfElf ∧ Accepted kernelHalfElf ∧
    loadElf task (KERNEL_BASE + 0x10000) s₀ = .ok (s, .sysret u) ∧
    s₀.translate 0xFFFF800000000000 = none ∧ (s.translate 0xFFFF800000000000).isSome ∧ ¬ KernelSame s₀ s := by
  have hlen : kernelHalfElf.length ≤ 0x10000 := by rw [length_kernelHalfElf]; decide
  obtain ⟨s₀, task, pdpt, pd, pt, S, C, hfree⟩ := started_carries hlen
  have A : Accepted kernelHalfElf :=
    ⟨by rw [length_kernelHalfElf]; decide, by rw [length_kernelHalfElf]; decide, by decide, by decide, by decide,
      by decide⟩
  have hkey : pageKey (2 ^ 35) = (path 0xFFFF800000000000, index 12 0xFFFF800000000000) := by decide
  have hv : 2 ^ 35 < userPages := by decide
  have hstack : userStack / 4096 < userPages := by decide
  have hne : userStack / 4096 ≠ 2 ^ 35 := by decide
  have hd : demand [userStack / 4096, 2 ^ 35] ≤ s₀.pmm.freeCount := (demand_le _).trans (le_trans (by decide) hfree)
  have hd' : demand [2 ^ 35] ≤ s₀.pmm.freeCount := by rw [demand_single]; omega
  -- the page of the segment
  have Q₀ : Progress s₀ task pdpt pd pt [] (fun _ => none) s₀ := .start S _
  rcases Q₀.map S hv (.inl rfl) with ⟨f, s₁, h₁, Q₁⟩ | ⟨_, hlt⟩ | ⟨_, hlt⟩
  rotate_left
  · exact absurd hlt (not_lt.mpr hd')
  · exact absurd hlt (not_lt.mpr hd')
  have hlist : phdrs kernelHalfElf = [⟨1, 5, 0, 0xFFFF800000000000, 0, 0⟩] := phdrs_kernelHalfElf
  have hloop : segmentLoop task (KERNEL_BASE + 0x10000) (add64 (KERNEL_BASE + 0x10000) (ePhoff kernelHalfElf))
      (2 ^ 16) 0 s₀ = .ok s₁ := by
    have hI : ∀ i s, (i = 0 ∧ s = s₀ ∨ i = 1 ∧ s = s₁) →
        Carries s (KERNEL_BASE + 0x10000) kernelHalfElf ∧ Window s pdpt pd pt := by
      rintro _ _ (⟨-, rfl⟩ | ⟨-, rfl⟩)
      · exact ⟨C, S.toWindow⟩
      · exact ⟨Q₁.carries S C, Q₁.ready.toWindow⟩
    have hstep : ∀ i (hi : i < (phdrs kernelHalfElf).length) s s', (i = 0 ∧ s = s₀ ∨ i = 1 ∧ s = s₁) →
        Elf.segment task (KERNEL_BASE + 0x10000) s (phdrs kernelHalfElf)[i] = .ok s' →
        (i + 1 = 0 ∧ s' = s₀ ∨ i + 1 = 1 ∧ s' = s₁) := by
      rintro i hi s s' (⟨rfl, rfl⟩ | ⟨rfl, rfl⟩) hs
      · simp only [hlist, List.getElem_cons_zero, segment_kernelHalfElf, h₁] at hs
        exact .inr ⟨rfl, (Except.ok.inj hs).symm⟩
      · rw [hlist] at hi
        exact absurd hi (by decide)
    rw [segmentLoop_eq A hI hstep (2 ^ 16) 0 s₀ (.inl ⟨rfl, rfl⟩) (by decide), List.drop_zero, hlist,
      List.foldlM_cons, segment_kernelHalfElf, h₁]
    rfl
  -- the stack
  rcases Q₁.map S hstack (.inr rfl) with ⟨g, s, h, Q⟩ | ⟨_, hlt⟩ | ⟨_, hlt⟩
  rotate_left
  · exact absurd hlt (not_lt.mpr hd)
  · exact absurd hlt (not_lt.mpr hd)
  rw [show userStack / 4096 * 4096 = userStack by decide] at h
  have hrun : loadElf task (KERNEL_BASE + 0x10000) s₀
      = .ok (s, .sysret ⟨userStack, userStack, eEntry kernelHalfElf, 0⟩) := by
    rw [loadElf_of_loop A C S.toWindow hloop (Q₁.carries S C) Q₁.ready.toWindow, h]
    rfl
  have hbefore := Q₀.leaf (2 ^ 35) hv
  have hafter := Q.leaf (2 ^ 35) hv
  rw [leafOf_cons_ne hne, leafOf_cons_self] at hafter
  rw [hkey] at hbefore hafter
  have hnone : walk s₀.phys s₀.root 0xFFFF800000000000 = none := hbefore
  have hsome : walk s.phys s.root 0xFFFF800000000000 = some (f * 4096 ||| 0x5) := hafter
  have hcanon : Canonical 0xFFFF800000000000 := by decide
  refine ⟨s₀, task, pdpt, pd, pt, s, _, S, C, A, hrun, ?_, ?_, fun hsame => ?_⟩
  · rw [Machine.translate, if_pos hcanon, hnone]
    rfl
  · rw [Machine.translate, if_pos hcanon, hsome]
    rfl
  · have h := (hsame 0xFFFF800000000000 ⟨hcanon, by decide, by decide⟩).1
    rw [hnone, hsome] at h
    exact absurd h (by simp)

end TerraOS.Elf
