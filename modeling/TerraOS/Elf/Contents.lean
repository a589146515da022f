import TerraOS.Elf.Exact

/-! What a program finds in its pages.

    A byte of a page is what `load_elf` copied there last, or what the frame held when it was free.
    `SameButFree` relates machines that differ in nothing else. With frames for every page the file's bytes
    are in place whatever the free frames held if and only if every header is clear of the earlier ones
    (`loadElf_places_iff`). -/

namespace TerraOS.Elf
open Lib Lib.Word Pmm Vmm

/-- The machines differ at most in the bytes of free frames. -/
def SameButFree (s₀ s₁ : Machine) : Prop :=
  ∃ m : Mem, s₁ = { s₀ with phys := m } ∧
    ∀ x, ¬ (x / 4096 < s₀.pmm.memBitmapBitSize ∧ s₀.pmm.used (x / 4096) = false) → m x = s₀.phys x

/-- Every byte of a free frame overwritten. -/
def fillFree (s : Machine) (c : UInt8) : Machine :=
  { s with phys := fun x =>
      if x / 4096 < s.pmm.memBitmapBitSize ∧ s.pmm.used (x / 4096) = false then c else s.phys x }

theorem sameButFree_fillFree (s : Machine) (c : UInt8) : SameButFree s (fillFree s c) :=
  ⟨_, rfl, fun _ hx => if_neg hx⟩

theorem fillFree_free {s : Machine} {c : UInt8} {x : ℕ} (h : x / 4096 < s.pmm.memBitmapBitSize)
    (hu : s.pmm.used (x / 4096) = false) : (fillFree s c).phys x = c := if_pos ⟨h, hu⟩

/-- Any byte but the one that is there. -/
theorem byte_succ_ne (b : UInt8) : b + 1 ≠ b := fun h => by
  have h' := congrArg (· - b) h
  simp at h'

/-! ### The start does not depend on free frames -/

section
variable {s₀ s₁ : Machine} {task : Task} {elfData pdpt pd pt : ℕ} {img : List UInt8}

/-- Bytes of used frames are the same. -/
theorem SameButFree.used (h : SameButFree s₀ s₁) {x : ℕ} (hx : s₀.pmm.used (x / 4096) = true) :
    s₁.phys x = s₀.phys x := by
  obtain ⟨m, rfl, hm⟩ := h
  refine hm x fun ⟨_, hu⟩ => ?_
  rw [hx] at hu
  cases hu

theorem SameButFree.started (h : SameButFree s₀ s₁) (S : Started s₀ task pdpt pd pt) :
    Started s₁ task pdpt pd pt := by
  have hused := fun x hx => h.used (x := x) hx
  obtain ⟨m, rfl, -⟩ := h
  have hm : ∀ q n, q.length ≤ 3 → s₀.table q = some n → ∀ x, x / 4096 = n → m x = s₀.phys x :=
    fun q n hq hn x hx => hused x (by rw [hx]; exact S.used q n hq hn)
  have hk : ∀ x, x / 4096 = s₀.kroot → m x = s₀.phys x := fun x hx =>
    hused x (by rw [hx]; exact S.reserved _ (by have := S.low.1; omega))
  have hent : ∀ p i, p.length ≤ 3 → Machine.entry { s₀ with phys := m } p i = s₀.entry p i := fun p i hp =>
    entry_of_bytes hp hm
  refine ⟨S.toReady.of_paged (S.toPaged.of_bytes hm hk) rfl rfl (hent (path task.pml4t) _ (le_refl _)),
    fun i hi => ?_, S.ctx_top, S.kernel_page⟩
  rw [hent [] i (by simp)]
  exact S.slots i hi

theorem SameButFree.carries (h : SameButFree s₀ s₁) (S : Started s₀ task pdpt pd pt) (C : Carries s₀ elfData img) :
    Carries s₁ elfData img := by
  have hused := fun x hx => h.used (x := x) hx
  obtain ⟨m, rfl, -⟩ := h
  have habove := C.above
  have hbelow := C.below
  simp only [KERNEL_BASE, TEMP_PAGE] at habove hbelow
  refine ⟨C.above, C.below, fun k hk => ?_, fun k hk p hp => ?_⟩
  · rw [hused _ (S.reserved _ (by simp only [KERNEL_BASE]; omega))]
    exact C.byte k hk
  · rw [table_of_bytes hp fun q n hq hn x hx => hused x (by rw [hx]; exact S.used q n (by omega) hn)]
    exact C.apart k hk p hp

theorem SameButFree.freeCount (h : SameButFree s₀ s₁) : s₁.pmm.freeCount = s₀.pmm.freeCount := by
  obtain ⟨m, rfl, -⟩ := h
  rfl

end

/-! ### Bytes of a loaded program -/

section
variable {s₀ s : Machine} {task : Task} {elfData pdpt pd pt : ℕ} {img : List UInt8} {log : List Leaf}
  {B : ℕ → Option UInt8}

/-- A byte of a mapped page is the last one copied there, or what its frame held before. -/
theorem Progress.load8 (S : Started s₀ task pdpt pd pt) (Q : Progress s₀ task pdpt pd pt log B s) {va : ℕ}
    (hva : va < 2 ^ 47) (hmem : va / 4096 ∈ pagesOf log) : ∃ x, x / 4096 < s₀.pmm.memBitmapBitSize ∧
      s₀.pmm.used (x / 4096) = false ∧ s.load8 va = .ok ((B va).getD (s₀.phys x)) := by
  obtain ⟨l, hl⟩ := leafOf_isSome.mpr hmem
  obtain ⟨hlog, -⟩ := leafOf_eq_some hl
  have hframe := Q.frame l hlog
  have hdiv : (l.frame * 4096 + va % 4096) / 4096 = l.frame := by omega
  refine ⟨l.frame * 4096 + va % 4096, by rw [hdiv]; exact hframe.1, by rw [hdiv]; exact hframe.2, ?_⟩
  rw [Machine.load8, Q.translate S hva, hl]
  exact congrArg Except.ok (Q.content va l hl)

/-- The bytes of a program that `load_elf` starts. -/
theorem loadElf_bytes (S : Started s₀ task pdpt pd pt) (C : Carries s₀ elfData img)
    (hwf : ∀ p ∈ loads img, p.WellFormed img) (A : Accepted img)
    (hframes : demand (programPages img) ≤ s₀.pmm.freeCount) :
    ∃ s u, loadElf task elfData s₀ = .ok (s, .sysret u) ∧ ∀ va < 2 ^ 47, va / 4096 ∈ programPages img →
      va / 4096 ∈ mappedPages s ∧ ∃ x, x / 4096 < s₀.pmm.memBitmapBitSize ∧ s₀.pmm.used (x / 4096) = false ∧
        s.load8 va = .ok ((forget (placed img (phdrs img)) (userStack / 4096) va).getD (s₀.phys x)) := by
  obtain ⟨log, s, hs, Q, hp⟩ := loadElf_total S C hwf A hframes
  refine ⟨s, _, hs, fun va hva hmem => ?_⟩
  have hlog : va / 4096 ∈ pagesOf log := by
    rw [hp, List.mem_reverse]
    exact hmem
  exact ⟨(Q.mem_mappedPages S).mpr ⟨by omega, hlog⟩, Q.load8 S hva hlog⟩

end

/-! ### The bytes of the file -/

/-- `va` is an address of the segment. -/
def Phdr.Covers (p : Phdr) (va : ℕ) : Prop := p.pVaddr ≤ va ∧ va < p.pVaddr + p.pMemsz

/-- Every byte of the file that a header names is at the address the header names. -/
def Places (img : List UInt8) (s : Machine) : Prop :=
  ∀ p ∈ loads img, ∀ k < p.pFilesz, s.load8 (p.pVaddr + k) = .ok (bytes img (p.pOffset + k))

/-- The pages that the call maps show nothing of what the free frames held, and the bytes of a segment
    beyond those in the file are zero. -/
def Private (task : Task) (elfData : ℕ) (img : List UInt8) (s₀ : Machine) : Prop :=
  ∀ s₁ s s' u u', SameButFree s₀ s₁ → loadElf task elfData s₀ = .ok (s, .sysret u) →
    loadElf task elfData s₁ = .ok (s', .sysret u') →
    (∀ va, va / 4096 ∈ (mappedPages s ∪ mappedPages s') \ mappedPages s₀ → s.load8 va = s'.load8 va) ∧
    ∀ p ∈ loads img, ∀ va, p.pVaddr + p.pFilesz ≤ va → va < p.pVaddr + p.pMemsz → s.load8 va = .ok 0

section
variable {s₀ s : Machine} {task : Task} {elfData pdpt pd pt : ℕ} {img : List UInt8}

theorem Phdr.WellFormed.fills {p : Phdr} (W : p.WellFormed img) {va : ℕ} (h : p.Fills va) :
    va < userStack ∧ va / 4096 ∈ p.pages ∧ p.Covers va := by
  obtain ⟨h1, h2⟩ := h
  have h3 := W.sizes
  have h4 := W.below
  refine ⟨by omega, ?_, h1, by omega⟩
  rw [Phdr.mem_pages]
  omega

/-- The page of a file byte is one of the program's, and not that of the stack. -/
theorem fills_page (hwf : ∀ p ∈ loads img, p.WellFormed img) {p : Phdr} (hp : p ∈ loads img) {va : ℕ}
    (h : p.Fills va) : va < 2 ^ 47 ∧ va / 4096 ∈ programPages img ∧ va / 4096 ≠ userStack / 4096 := by
  obtain ⟨h1, h2, _⟩ := (hwf p hp).fills h
  simp only [userStack] at h1 ⊢
  refine ⟨by omega, List.mem_append_left _ (List.mem_flatMap.mpr ⟨p, hp, h2⟩), by omega⟩

variable (S : Started s₀ task pdpt pd pt) (C : Carries s₀ elfData img) (A : Accepted img)
  (hwf : ∀ p ∈ loads img, p.WellFormed img) (hframes : demand (programPages img) ≤ s₀.pmm.freeCount)
include S C A hwf hframes

/-- Headers clear of the earlier ones: the bytes are in place. -/
theorem loadElf_places (hclear : (loads img).Pairwise Phdr.Clear) :
    ∃ s u, loadElf task elfData s₀ = .ok (s, .sysret u) ∧ Places img s := by
  obtain ⟨s, u, hs, hbytes⟩ := loadElf_bytes S C hwf A hframes
  refine ⟨s, u, hs, fun p hp k hk => ?_⟩
  have hfills : p.Fills (p.pVaddr + k) := ⟨by omega, by omega⟩
  obtain ⟨hva, hpage, hne⟩ := fills_page hwf hp hfills
  obtain ⟨_, x, _, _, hload⟩ := hbytes _ hva hpage
  have hkept := @foldl_kept img _ _ (fun _ => none) (fun q hq => (hwf q hq).sizes) hclear p hp hfills
  rw [hload, forget, if_neg hne, placed, show (phdrs img).filter _ = loads img from rfl, hkept, Option.getD_some,
    show p.pOffset + (p.pVaddr + k - p.pVaddr) = p.pOffset + k by omega]

/-- A header that is not: with the free frames filled, some byte is not in place. -/
theorem loadElf_loses (hdis : (loads img).Pairwise fun p q => ∀ va, p.Covers va → ¬ q.Covers va)
    (hnot : ¬ (loads img).Pairwise Phdr.Clear) :
    ∃ s₁ s u, SameButFree s₀ s₁ ∧ loadElf task elfData s₁ = .ok (s, .sysret u) ∧ ¬ Places img s := by
  have hfills : (loads img).Pairwise fun p q => ∀ va, p.Fills va → ¬ q.Fills va :=
    hdis.imp_of_mem fun {p q} hp hq h va hf hf' =>
      h va ((hwf p hp).fills hf).2.2 ((hwf q hq).fills hf').2.2
  obtain ⟨p, hp, va, hva, hlost⟩ := @foldl_lost img (loads img) hfills hnot
  obtain ⟨hlow, hpage, hne⟩ := fills_page hwf hp hva
  have hbyte := byte_succ_ne (bytes img (p.pOffset + (va - p.pVaddr)))
  generalize hc : bytes img (p.pOffset + (va - p.pVaddr)) + 1 = c at hbyte
  have F := sameButFree_fillFree s₀ c
  obtain ⟨s, u, hs, hbytes⟩ := loadElf_bytes (F.started S) (F.carries S C) hwf A (F.freeCount ▸ hframes)
  refine ⟨_, s, u, F, hs, fun hplaces => ?_⟩
  obtain ⟨_, x, hx, hu, hload⟩ := hbytes va hlow hpage
  rw [forget, if_neg hne, placed, show (phdrs img).filter _ = loads img from rfl, hlost, Option.getD_none,
    @fillFree_free s₀ c x hx hu] at hload
  have hright := hplaces p hp (va - p.pVaddr) (by obtain ⟨h1, h2⟩ := hva; omega)
  rw [show p.pVaddr + (va - p.pVaddr) = va by obtain ⟨h1, _⟩ := hva; omega, hload] at hright
  exact hbyte (Except.ok.inj hright)

/-- CORRECT: with frames enough, every well-formed program is started, and every byte of its file is in
    its place whatever the free frames held, if and only if no header's pages hold a file byte of an
    earlier header. -/
theorem loadElf_places_iff (hdis : (loads img).Pairwise fun p q => ∀ va, p.Covers va → ¬ q.Covers va) :
    (∀ s₁, SameButFree s₀ s₁ → ∃ s u, loadElf task elfData s₁ = .ok (s, .sysret u) ∧ Places img s) ↔
      (loads img).Pairwise Phdr.Clear := by
  constructor
  · intro h
    by_contra hnot
    obtain ⟨s₁, s, u, F, hs, hno⟩ := loadElf_loses S C A hwf hframes hdis hnot
    obtain ⟨s', u', hs', hplaces⟩ := h s₁ F
    obtain ⟨rfl, -⟩ := Prod.mk.inj (Except.ok.inj (hs.symm.trans hs'))
    exact hno hplaces
  · intro hclear s₁ F
    exact loadElf_places (F.started S) (F.carries S C) A hwf (F.freeCount.symm ▸ hframes) hclear

end

/-! ### The kernel's program -/

theorem demand_programPages : demand (programPages userProgramElf) ≤ 15000 := by
  have hpages : programPages userProgramElf = [0x400, 0x700000000] := by
    rw [programPages, allPages_phdrs, loads_userProgramElf]
    decide
  rw [hpages]
  exact (demand_le _).trans (by decide)

theorem loadElf_places_iff_userProgram : ∃ s₀ task pdpt pd pt, Started s₀ task pdpt pd pt ∧
    Carries s₀ (KERNEL_BASE + 0x10000) userProgramElf ∧
    ((∀ s₁, SameButFree s₀ s₁ → ∃ s u, loadElf task (KERNEL_BASE + 0x10000) s₁ = .ok (s, .sysret u) ∧
      Places userProgramElf s) ↔ (loads userProgramElf).Pairwise Phdr.Clear) := by
  obtain ⟨s₀, task, pdpt, pd, pt, S, C, hfree⟩ := started_userProgram
  refine ⟨s₀, task, pdpt, pd, pt, S, C, loadElf_places_iff S C accepted_userProgramElf wellFormed_userProgramElf
    (demand_programPages.trans hfree) ?_⟩
  rw [loads_userProgramElf]
  exact List.pairwise_singleton _ _

/-- Two segments on one page: the file header of `user_program_elf`, its program header twice, the second
    2 KiB further on, and the code. -/
def splitPageElf : List UInt8 :=
  ((userProgramElf.take 0x78 ++ userProgramElf.drop 0x40).set 0x38 0x02).set 0x89 0x08

theorem loads_splitPageElf : loads splitPageElf =
    [⟨1, 5, 0, 0x400000, 0xC0, 0xC0⟩, ⟨1, 5, 0, 0x400800, 0xC0, 0xC0⟩] := by decide

theorem length_splitPageElf : splitPageElf.length = 0xF8 := by
  simp only [splitPageElf, List.length_set, List.length_append, List.length_take, List.length_drop,
    length_userProgramElf]
  rfl

/-- The first segment is lost when the second is mapped. -/
theorem split_page_lost : ∃ s₀ task pdpt pd pt s u, Started s₀ task pdpt pd pt ∧
    Carries s₀ (KERNEL_BASE + 0x10000) splitPageElf ∧ Accepted splitPageElf ∧
    (∀ p ∈ loads splitPageElf, p.WellFormed splitPageElf) ∧
    ((loads splitPageElf).Pairwise fun p q => ∀ va, p.Covers va → ¬ q.Covers va) ∧
    demand (programPages splitPageElf) ≤ s₀.pmm.freeCount ∧
    loadElf task (KERNEL_BASE + 0x10000) s₀ = .ok (s, .sysret u) ∧ ¬ Places splitPageElf s := by
  have hlen : splitPageElf.length ≤ 0x10000 := by rw [length_splitPageElf]; decide
  obtain ⟨s₀, task, pdpt, pd, pt, S, C, hfree⟩ := started_carries hlen
  have A : Accepted splitPageElf :=
    ⟨by rw [length_splitPageElf]; decide, by rw [length_splitPageElf]; decide, by decide, by decide, by decide,
      by decide⟩
  have hwf : ∀ p ∈ loads splitPageElf, p.WellFormed splitPageElf := by
    rw [loads_splitPageElf, List.forall_mem_cons, List.forall_mem_singleton]
    exact ⟨⟨by decide, by decide, by decide, by rw [length_splitPageElf]; decide⟩,
      ⟨by decide, by decide, by decide, by rw [length_splitPageElf]; decide⟩⟩
  have hdis : (loads splitPageElf).Pairwise fun p q => ∀ va, p.Covers va → ¬ q.Covers va := by
    rw [loads_splitPageElf, List.pairwise_pair]
    rintro va ⟨h1, h2⟩ ⟨h3, h4⟩
    simp only at h1 h2 h3 h4
    omega
  have hnot : ¬ (loads splitPageElf).Pairwise Phdr.Clear := by
    rw [loads_splitPageElf, List.pairwise_pair]
    intro h
    exact h 0x400000 ⟨by decide, by decide⟩ (by decide)
  have hframes : demand (programPages splitPageElf) ≤ s₀.pmm.freeCount := by
    have hpages : programPages splitPageElf = [0x400, 0x400, 0x700000000] := by
      rw [programPages, allPages_phdrs, loads_splitPageElf]
      decide
    rw [hpages]
    exact (demand_le _).trans (le_trans (by decide) hfree)
  obtain ⟨s₁, s, u, F, hs, hno⟩ := loadElf_loses S C A hwf hframes hdis hnot
  exact ⟨s₁, task, pdpt, pd, pt, s, u, F.started S, F.carries S C, A, hwf, hdis, F.freeCount.symm ▸ hframes, hs, hno⟩

end TerraOS.Elf
