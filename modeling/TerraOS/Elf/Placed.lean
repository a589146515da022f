import TerraOS.Elf.Load

/-! Where the bytes of the file end up.

    Of a well-formed file nothing faults: with the frames it takes, `load_elf` comes to `sysret`
    (`loadElf_total`), and the bytes of the program are those of `placed`. Mapping a page forgets what
    earlier headers put there: a file byte stays in its place if and only if no later header's page range
    has its page (`foldl_kept`, `foldl_lost`). -/

namespace TerraOS.Elf
open Lib Lib.Word Pmm Vmm

/-- A header of a well-formed file of this size: it is loaded below the stack, from bytes of the file. -/
structure Phdr.WellFormed (img : List UInt8) (p : Phdr) : Prop where
  below : p.pVaddr + p.pMemsz ≤ userStack
  sizes : p.pFilesz ≤ p.pMemsz
  small : p.pMemsz < 2 ^ 31
  inFile : p.pOffset + p.pFilesz ≤ img.length

theorem Phdr.WellFormed.lower {img : List UInt8} {p : Phdr} (W : p.WellFormed img) : p.Lower := by
  have h1 := W.below
  have h2 := W.sizes
  have h3 := W.small
  simp only [userStack] at h1
  exact ⟨by omega, by omega⟩

/-! ### The bytes of the program -/

/-- A segment's pages mapped and its bytes copied. -/
def placeSegment (img : List UInt8) (B : ℕ → Option UInt8) (p : Phdr) : ℕ → Option UInt8 :=
  fill img (forgetAll B p.pages) p

/-- The bytes that `PT_LOAD` headers leave. -/
def placed (img : List UInt8) (ps : List Phdr) : ℕ → Option UInt8 :=
  (ps.filter (·.pType = PT_LOAD)).foldl (placeSegment img) fun _ => none

theorem placed_take {img : List UInt8} {ps : List Phdr} {i : ℕ} (h : i < ps.length) :
    placed img (ps.take (i + 1)) = if ps[i].pType = PT_LOAD then placeSegment img (placed img (ps.take i)) ps[i]
      else placed img (ps.take i) := by
  unfold placed
  rw [List.take_succ_eq_append_getElem h, List.filter_append, List.foldl_append]
  by_cases ht : ps[i].pType = PT_LOAD
  · rw [List.filter_singleton, if_pos ht]
    simp only [ht, decide_true, cond_true, List.foldl_cons, List.foldl_nil]
  · rw [List.filter_singleton, if_neg ht]
    simp only [ht, decide_false, cond_false, List.foldl_nil]

/-- `va` is one of the addresses that the header's file bytes go to. -/
def Phdr.Fills (p : Phdr) (va : ℕ) : Prop := p.pVaddr ≤ va ∧ va < p.pVaddr + p.pFilesz

theorem placeSegment_fills {img : List UInt8} {B : ℕ → Option UInt8} {p : Phdr} {va : ℕ} (h : p.Fills va) :
    placeSegment img B p va = some (bytes img (p.pOffset + (va - p.pVaddr))) := if_pos h

theorem placeSegment_ne {img : List UInt8} {B : ℕ → Option UInt8} {p : Phdr} {va : ℕ} (h : ¬ p.Fills va) :
    placeSegment img B p va = if va / 4096 ∈ p.pages then none else B va := if_neg h

/-- Headers that stay off a page leave its bytes. -/
theorem foldl_keep {img : List UInt8} {va : ℕ} : ∀ {ps : List Phdr} {B : ℕ → Option UInt8},
    (∀ p ∈ ps, ¬ p.Fills va ∧ va / 4096 ∉ p.pages) → ps.foldl (placeSegment img) B va = B va
  | [], _, _ => rfl
  | p :: ps, B, h => by
    obtain ⟨h1, h2⟩ := h p (by simp)
    rw [List.foldl_cons, foldl_keep fun q hq => h q (List.mem_cons_of_mem _ hq), placeSegment_ne h1, if_neg h2]

/-- A byte that nothing is copied to stays unknown. -/
theorem foldl_none {img : List UInt8} {va : ℕ} : ∀ {ps : List Phdr} {B : ℕ → Option UInt8}, B va = none →
    (∀ p ∈ ps, ¬ p.Fills va) → ps.foldl (placeSegment img) B va = none
  | [], _, hB, _ => hB
  | p :: ps, B, hB, h => by
    rw [List.foldl_cons]
    refine foldl_none ?_ fun q hq => h q (List.mem_cons_of_mem _ hq)
    rw [placeSegment_ne (h p (by simp)), hB, ite_self]

/-- A page mapped again takes the bytes that nothing is copied to. -/
theorem foldl_remapped {img : List UInt8} {va : ℕ} {q : Phdr} (hva : va / 4096 ∈ q.pages) :
    ∀ {ps : List Phdr} {B : ℕ → Option UInt8}, q ∈ ps → (∀ p ∈ ps, ¬ p.Fills va) →
      ps.foldl (placeSegment img) B va = none
  | p :: ps, B, hq, h => by
    rw [List.foldl_cons]
    have hrest : ∀ r ∈ ps, ¬ r.Fills va := fun r hr => h r (List.mem_cons_of_mem _ hr)
    rcases List.mem_cons.mp hq with rfl | hq
    · refine foldl_none ?_ hrest
      rw [placeSegment_ne (h q (by simp)), if_pos hva]
    · exact foldl_remapped hva hq hrest

/-- The pages of the later header hold no file byte of the earlier. -/
def Phdr.Clear (p q : Phdr) : Prop := ∀ va, p.Fills va → va / 4096 ∉ q.pages

/-- Where every header is clear of the earlier ones, every file byte is in its place. -/
theorem foldl_kept {img : List UInt8} {va : ℕ} : ∀ {ps : List Phdr} {B : ℕ → Option UInt8},
    (∀ p ∈ ps, p.pFilesz ≤ p.pMemsz) → ps.Pairwise Phdr.Clear → ∀ p ∈ ps, p.Fills va →
      ps.foldl (placeSegment img) B va = some (bytes img (p.pOffset + (va - p.pVaddr)))
  | q :: ps, B, hsizes, h, p, hp, hva => by
    obtain ⟨hq, hps⟩ := List.pairwise_cons.mp h
    rw [List.foldl_cons]
    rcases List.mem_cons.mp hp with rfl | hp
    · have hkeep : ∀ r ∈ ps, ¬ r.Fills va ∧ va / 4096 ∉ r.pages := fun r hr => by
        have hpage := hq r hr va hva
        refine ⟨fun hf => hpage ?_, hpage⟩
        have := hsizes r (List.mem_cons_of_mem _ hr)
        obtain ⟨h1, h2⟩ := hf
        rw [Phdr.mem_pages]
        omega
      rw [foldl_keep hkeep, placeSegment_fills hva]
    · exact foldl_kept (fun r hr => hsizes r (List.mem_cons_of_mem _ hr)) hps p hp hva

/-- Where some header is not, a file byte is lost. -/
theorem foldl_lost {img : List UInt8} : ∀ {ps : List Phdr},
    ps.Pairwise (fun p q => ∀ va, p.Fills va → ¬ q.Fills va) → ¬ ps.Pairwise Phdr.Clear →
      ∃ p ∈ ps, ∃ va, p.Fills va ∧ ∀ B, ps.foldl (placeSegment img) B va = none
  | [], _, h => absurd List.Pairwise.nil h
  | p :: ps, hdis, h => by
    obtain ⟨hp, hps⟩ := List.pairwise_cons.mp hdis
    by_cases hclear : ∀ q ∈ ps, p.Clear q
    · obtain ⟨q, hq, va, hva, hnone⟩ := @foldl_lost img ps hps fun h' => h (List.pairwise_cons.mpr ⟨hclear, h'⟩)
      exact ⟨q, List.mem_cons_of_mem _ hq, va, hva, fun B => hnone _⟩
    · simp only [Phdr.Clear] at hclear
      push Not at hclear
      obtain ⟨q, hq, va, hva, hpage⟩ := hclear
      refine ⟨p, by simp, va, hva, fun B => ?_⟩
      rw [List.foldl_cons]
      exact foldl_remapped hpage hq fun r hr => hp r hr va hva

/-! ### A well-formed file is loaded -/

section
variable {s₀ s : Machine} {task : Task} {elfData pdpt pd pt : ℕ} {img : List UInt8} {log : List Leaf}
  {B : ℕ → Option UInt8} (S : Started s₀ task pdpt pd pt) (C : Carries s₀ elfData img)
include S C

theorem Progress.segment {p : Phdr} (Q : Progress s₀ task pdpt pd pt log B s)
    (hp : p.pType = PT_LOAD → p.WellFormed img)
    (hd : demand ((if p.pType = PT_LOAD then p.pages else []).reverse ++ pagesOf log) ≤ s₀.pmm.freeCount) :
    ∃ log' s', segment task elfData s p = .ok s' ∧
      Progress s₀ task pdpt pd pt log' (if p.pType = PT_LOAD then placeSegment img B p else B) s' ∧
      pagesOf log' = (if p.pType = PT_LOAD then p.pages else []).reverse ++ pagesOf log := by
  unfold Elf.segment
  by_cases ht : p.pType = PT_LOAD
  · have W := hp ht
    have hl := W.lower
    simp only [if_pos ht] at hd ⊢
    obtain ⟨log', s₁, h₁, Q₁, hpages⟩ := Q.mapPages S (pageFlags_cases p) (Phdr.Lower.pages hl.mem) hd
    have h1 := W.sizes
    have h2 := W.small
    have h3 := hl.mem
    have hmapped : ∀ k < p.pFilesz, (p.pVaddr + k) / 4096 ∈ pagesOf log' := fun k hk => by
      rw [hpages, List.mem_append, List.mem_reverse, Phdr.mem_pages]
      exact .inl ⟨by omega, by omega⟩
    obtain ⟨s', hs', _, Q'⟩ := Q₁.copy S C hmapped (by omega) W.inFile (by omega)
    exact ⟨log', s', by rw [loadSegment_pages hl.mem, h₁, ok_bind, hs'], Q', hpages⟩
  · simp only [if_neg ht] at hd ⊢
    exact ⟨log, s, rfl, Q, rfl⟩

variable (hwf : ∀ p ∈ loads img, p.WellFormed img) (A : Accepted img)
include hwf A

/-- The segment loop ends, with the file's bytes copied. -/
theorem segmentLoop_total (hframes : demand (allPages (phdrs img)) ≤ s₀.pmm.freeCount) :
    ∃ log s, segmentLoop task elfData (add64 elfData (ePhoff img)) (2 ^ 16) 0 s₀ = .ok s ∧
      Progress s₀ task pdpt pd pt log (placed img (phdrs img)) s ∧
      pagesOf log = (allPages (phdrs img)).reverse := by
  have hmem : ∀ i (hi : i < (phdrs img).length), (phdrs img)[i].pType = PT_LOAD →
      (phdrs img)[i].WellFormed img := fun i hi ht =>
    hwf _ (List.mem_filter.mpr ⟨List.getElem_mem hi, by simpa using ht⟩)
  have hstart : Loaded s₀ task pdpt pd pt (phdrs img) 0 s₀ := ⟨[], fun _ => none, .start S _, rfl⟩
  rw [segmentLoop_eq A (I := Loaded s₀ task pdpt pd pt (phdrs img))
    (fun i s ⟨log, B, Q, _⟩ => ⟨Q.carries S C, Q.ready.toWindow⟩)
    (fun i hi s s' => Loaded.step S (fun p hp => (hwf p hp).lower) hframes hi) (2 ^ 16) 0 s₀ hstart
    (by have := ePhnum_lt img; omega), List.drop_zero]
  obtain ⟨s, hs, log, Q, hp⟩ := foldlM_total (l := phdrs img) (f := Elf.segment task elfData)
    (I := fun i s => ∃ log, Progress s₀ task pdpt pd pt log (placed img ((phdrs img).take i)) s ∧
      pagesOf log = (allPages ((phdrs img).take i)).reverse) (s := s₀) (fun i hi s ⟨log, Q, hp⟩ => by
      have hd := demand_take (phdrs img) (i + 1)
      rw [← demand_reverse, allPages_take hi, List.reverse_append, ← hp] at hd
      obtain ⟨log', s', hs', Q', hp'⟩ := Q.segment S C (hmem i hi) (le_trans hd hframes)
      refine ⟨s', hs', log', ?_, by rw [hp', hp, allPages_take hi, List.reverse_append]⟩
      rw [placed_take hi]
      exact Q') ⟨[], .start S _, rfl⟩
  rw [List.take_length] at Q hp
  exact ⟨log, s, hs, Q, hp⟩

end

/-- The pages that `load_elf` maps, in order: those of the headers, and the stack. -/
def programPages (img : List UInt8) : List ℕ := allPages (phdrs img) ++ [userStack / 4096]

/-- With frames for all of its pages a well-formed program is started, with what it finds in them. -/
theorem loadElf_total {s₀ : Machine} {task : Task} {elfData pdpt pd pt : ℕ} {img : List UInt8}
    (S : Started s₀ task pdpt pd pt) (C : Carries s₀ elfData img) (hwf : ∀ p ∈ loads img, p.WellFormed img)
    (A : Accepted img) (hframes : demand (programPages img) ≤ s₀.pmm.freeCount) :
    ∃ log s, loadElf task elfData s₀ = .ok (s, .sysret ⟨userStack, userStack, eEntry img, 0⟩) ∧
      Progress s₀ task pdpt pd pt log (forget (placed img (phdrs img)) (userStack / 4096)) s ∧
      pagesOf log = (programPages img).reverse := by
  obtain ⟨log, s, hs, Q, hp⟩ := segmentLoop_total S C hwf A (le_trans (demand_append _ _) hframes)
  have hd : demand (userStack / 4096 :: pagesOf log) ≤ s₀.pmm.freeCount := by
    have hr := demand_reverse (programPages img)
    rw [programPages, List.reverse_append, List.reverse_singleton, List.singleton_append, ← hp] at hr
    exact hr.le.trans hframes
  rw [loadElf_of_loop A C S.toWindow hs (Q.carries S C) Q.ready.toWindow]
  have hstack : userStack / 4096 * 4096 = userStack := rfl
  have hv : userStack / 4096 < userPages := by decide
  have hfl : (0x7 : ℕ) = 0x5 ∨ (0x7 : ℕ) = 0x7 := .inr rfl
  rcases Q.map S hv hfl with ⟨f, s', h', Q'⟩ | ⟨_, hlt⟩ | ⟨_, hlt⟩
  · rw [hstack] at h'
    refine ⟨_, s', by rw [h']; rfl, Q', ?_⟩
    rw [programPages, List.reverse_append, List.reverse_singleton, List.singleton_append, ← hp]
    rfl
  · omega
  · omega

end TerraOS.Elf
