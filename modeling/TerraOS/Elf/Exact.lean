import TerraOS.Elf.Placed
import Mathlib.Data.Set.Card

/-! Which pages a program gets, and what they cost.

    A header's segment has bytes on the pages it touches. The loop maps those, and always the page of
    the first address after the segment: one page too many where the segment ends at a page boundary or
    is empty. A page of two headers is mapped twice, and the frame it had first stays taken. So the loop
    maps the pages that the segments touch, for a frame each and one for each new table, exactly if the
    headers are `Separate`. -/

namespace TerraOS.Elf
open Lib Lib.Word Pmm Vmm

/-- The pages of the lower half that are mapped. -/
def mappedPages (s : Machine) : Set ℕ := {v | v < 2 ^ 35 ∧ (s.translate (v * 4096)).isSome}

/-- The paths at which there is a page table. -/
def treePaths (s : Machine) : Set (List (Fin 512)) := {p | p.length ≤ 3 ∧ (s.table p).isSome}

/-- The page has an address of the segment. -/
def Phdr.Touches (p : Phdr) (v : ℕ) : Prop := ∃ a, p.pVaddr ≤ a ∧ a < p.pVaddr + p.pMemsz ∧ a / 4096 = v

/-- From `s₀` to `s` the pages that the segments touch were mapped and no others, and the frames taken
    are one for each page and one for each table made. -/
structure Exact (s₀ s : Machine) (ps : List Phdr) : Prop where
  pages : mappedPages s \ mappedPages s₀ = {v | ∃ p ∈ ps, p.Touches v}
  frames : s.pmm.freeCount + ((mappedPages s \ mappedPages s₀).ncard + (treePaths s \ treePaths s₀).ncard)
    = s₀.pmm.freeCount

/-- No segment is empty or ends at a page boundary, and no two touch one page. -/
structure Separate (ps : List Phdr) : Prop where
  ends : ∀ p ∈ ps, 0 < p.pMemsz ∧ (p.pVaddr + p.pMemsz) % 4096 ≠ 0
  apart : ps.Pairwise fun p q => ∀ v, p.Touches v → ¬ q.Touches v

/-! ### Pages touched and pages mapped -/

theorem Phdr.Touches.mem {p : Phdr} {v : ℕ} (h : p.Touches v) : v ∈ p.pages := by
  obtain ⟨a, h1, h2, rfl⟩ := h
  rw [Phdr.mem_pages]
  omega

theorem Phdr.touches_iff {p : Phdr} (h0 : 0 < p.pMemsz) (hend : (p.pVaddr + p.pMemsz) % 4096 ≠ 0) {v : ℕ} :
    p.Touches v ↔ v ∈ p.pages := by
  refine ⟨Touches.mem, fun h => ?_⟩
  rw [Phdr.mem_pages] at h
  rcases eq_or_ne v (p.pVaddr / 4096) with rfl | hne
  · exact ⟨p.pVaddr, by omega, by omega, rfl⟩
  · exact ⟨v * 4096, by omega, by omega, by omega⟩

/-- The last page mapped is touched only if the segment ends inside it. -/
theorem Phdr.touches_last {p : Phdr} (h : p.Touches ((p.pVaddr + p.pMemsz) / 4096)) :
    0 < p.pMemsz ∧ (p.pVaddr + p.pMemsz) % 4096 ≠ 0 := by
  obtain ⟨a, h1, h2, h3⟩ := h
  omega

theorem Separate.disjoint {ps : List Phdr} (h : Separate ps) :
    ps.Pairwise fun p q => p.pages.Disjoint q.pages := by
  refine h.apart.imp_of_mem fun {p q} hp hq hne => ?_
  obtain ⟨h0, hend⟩ := h.ends p hp
  obtain ⟨h0', hend'⟩ := h.ends q hq
  intro v hv hv'
  exact hne v ((Phdr.touches_iff h0 hend).mpr hv) ((Phdr.touches_iff h0' hend').mpr hv')

/-- The pages that are mapped, each once, are those touched exactly if the headers are separate. -/
theorem separate_iff {ps : List Phdr} :
    Separate ps ↔ (ps.flatMap Phdr.pages).Nodup ∧ ∀ v, v ∈ ps.flatMap Phdr.pages ↔ ∃ p ∈ ps, p.Touches v := by
  simp only [List.nodup_flatMap, List.mem_flatMap]
  constructor
  · intro h
    refine ⟨⟨fun p _ => p.pages_nodup, h.disjoint⟩, fun v => ?_⟩
    refine exists_congr fun p => and_congr_right fun hp => ?_
    rw [Phdr.touches_iff (h.ends p hp).1 (h.ends p hp).2]
  · rintro ⟨⟨_, hdis⟩, htouch⟩
    have hsymm : Std.Symm (Function.onFun List.Disjoint Phdr.pages) := ⟨fun _ _ h => List.Disjoint.symm h⟩
    have hends : ∀ p ∈ ps, 0 < p.pMemsz ∧ (p.pVaddr + p.pMemsz) % 4096 ≠ 0 := fun p hp => by
      have hlast : (p.pVaddr + p.pMemsz) / 4096 ∈ p.pages := by
        rw [Phdr.mem_pages]
        omega
      -- it is touched by some segment, and that can only be its own
      obtain ⟨q, hq, ht⟩ := (htouch _).mp ⟨p, hp, hlast⟩
      by_cases hqp : p = q
      · exact Phdr.touches_last (hqp ▸ ht)
      · exact absurd ht.mem (hdis.forall hp hq hqp hlast)
    refine ⟨hends, hdis.imp_of_mem fun {p q} hp hq hd v hv hv' => hd hv.mem hv'.mem⟩

/-! ### The loop -/

section
variable {s₀ s : Machine} {task : Task} {elfData pdpt pd pt : ℕ} {img : List UInt8} {log : List Leaf}
  {B : ℕ → Option UInt8} (S : Started s₀ task pdpt pd pt) (Q : Progress s₀ task pdpt pd pt log B s)
include S Q

theorem Progress.mem_mappedPages {v : ℕ} : v ∈ mappedPages s ↔ v < 2 ^ 35 ∧ v ∈ pagesOf log := by
  refine and_congr_right fun hv => ?_
  rw [Q.translate S (by omega), Option.isSome_map, Nat.mul_div_cancel _ (by decide), Option.isSome_iff_exists,
    leafOf_isSome]

/-- The new tables are those that the pages need. -/
theorem Progress.treePaths_diff : treePaths s \ treePaths s₀ = (tablesFor (pagesOf log) : Set (List (Fin 512))) := by
  ext p
  constructor
  · rintro ⟨⟨hp, hs⟩, hno⟩
    obtain ⟨n, hn⟩ := Option.isSome_iff_exists.mp hs
    rcases Q.tables p n hp hn with h | ⟨_, _, _, h⟩
    · exact absurd ⟨hp, by rw [h]; rfl⟩ hno
    · exact h
  · intro hp
    obtain ⟨hlen, hno⟩ := Q.toAccount.fresh S hp
    have hmade := Q.made_eq ▸ hp
    refine ⟨⟨hlen, (Finset.mem_filter.mp hmade).2⟩, fun h => ?_⟩
    have hs : (s₀.table p).isSome := h.2
    rw [hno] at hs
    cases hs

omit Q in
theorem mappedPages_started : mappedPages s₀ = ∅ := by
  ext v
  rw [(Progress.start S fun _ => none).mem_mappedPages S]
  simp [pagesOf]

end

section
variable {s₀ s : Machine} {task : Task} {elfData pdpt pd pt : ℕ} {img : List UInt8}

/-- What the loop maps and takes, exactly. -/
theorem loop_pages (S : Started s₀ task pdpt pd pt) (C : Carries s₀ elfData img) (A : Accepted img)
    (hbelow : ∀ p ∈ loads img, p.pVaddr + p.pMemsz < userStack)
    (hfile : ∀ p ∈ loads img, p.pFilesz ≤ 2 ^ 64 - 2 ^ 31)
    (hframes : demand (allPages (phdrs img)) ≤ s₀.pmm.freeCount)
    (hloop : segmentLoop task elfData (add64 elfData (ePhoff img)) (2 ^ 16) 0 s₀ = .ok s) :
    mappedPages s \ mappedPages s₀ = {v | v ∈ (loads img).flatMap Phdr.pages} ∧
      s.pmm.freeCount + (((loads img).flatMap Phdr.pages).length + (treePaths s \ treePaths s₀).ncard)
        = s₀.pmm.freeCount := by
  have hlower : ∀ p ∈ loads img, p.Lower := fun p hp => by
    have h := hbelow p hp
    simp only [userStack] at h
    exact ⟨by omega, hfile p hp⟩
  obtain ⟨log, B, Q, hp⟩ := segmentLoop_loaded S C hlower hframes A hloop
  have hpages : allPages (phdrs img) = (loads img).flatMap Phdr.pages := rfl
  rw [hpages] at hp
  constructor
  · ext v
    rw [mappedPages_started S, Set.sdiff_empty, Q.mem_mappedPages S, hp, List.mem_reverse]
    refine and_iff_right_of_imp fun hv => ?_
    obtain ⟨p, hp, hv⟩ := List.mem_flatMap.mp hv
    have h := hbelow p hp
    rw [Phdr.mem_pages] at hv
    simp only [userStack] at h
    omega
  · have hcount := Q.count S
    rw [demand, hp, List.length_reverse, ← hp] at hcount
    rw [Q.treePaths_diff S, Set.ncard_coe_finset]
    exact hcount

/-- CORRECT: with frames enough, the segment loop maps exactly the pages its segments touch, and loses
    no frame, if and only if no segment is empty or ends at a page boundary and no two touch one page. -/
theorem loop_exact_iff (S : Started s₀ task pdpt pd pt) (C : Carries s₀ elfData img) (A : Accepted img)
    (hbelow : ∀ p ∈ loads img, p.pVaddr + p.pMemsz < userStack)
    (hfile : ∀ p ∈ loads img, p.pFilesz ≤ 2 ^ 64 - 2 ^ 31)
    (hframes : demand (allPages (phdrs img)) ≤ s₀.pmm.freeCount)
    (hloop : segmentLoop task elfData (add64 elfData (ePhoff img)) (2 ^ 16) 0 s₀ = .ok s) :
    Exact s₀ s (loads img) ↔ Separate (loads img) := by
  obtain ⟨hpages, hcount⟩ := loop_pages S C A hbelow hfile hframes hloop
  have hcard : {v | v ∈ (loads img).flatMap Phdr.pages}.ncard = ((loads img).flatMap Phdr.pages).length ↔
      ((loads img).flatMap Phdr.pages).Nodup := by
    rw [← List.coe_toFinset, Set.ncard_coe_finset]
    exact Multiset.toFinset_card_eq_card_iff_nodup
  rw [separate_iff, ← hcard]
  constructor
  · rintro ⟨h1, h2⟩
    rw [hpages] at h1 h2
    exact ⟨by omega, fun v => Set.ext_iff.mp h1 v⟩
  · rintro ⟨h1, h2⟩
    refine ⟨hpages.trans (Set.ext h2), ?_⟩
    rw [hpages, h1]
    exact hcount

end

theorem wellFormed_userProgramElf : ∀ p ∈ loads userProgramElf, p.WellFormed userProgramElf := by
  rw [loads_userProgramElf, List.forall_mem_singleton]
  exact ⟨by decide, by decide, by decide, by rw [length_userProgramElf]; decide⟩

theorem demand_userProgramElf : demand (allPages (phdrs userProgramElf)) ≤ 15000 := by
  refine (demand_le _).trans ?_
  rw [allPages_phdrs, loads_userProgramElf]
  decide

theorem loop_exact_iff_userProgram : ∃ s₀ task pdpt pd pt s, Started s₀ task pdpt pd pt ∧
    segmentLoop task (KERNEL_BASE + 0x10000) (add64 (KERNEL_BASE + 0x10000) (ePhoff userProgramElf)) (2 ^ 16) 0 s₀
      = .ok s ∧ (Exact s₀ s (loads userProgramElf) ↔ Separate (loads userProgramElf)) := by
  obtain ⟨s₀, task, pdpt, pd, pt, S, C, hfree⟩ := started_userProgram
  have hframes := demand_userProgramElf.trans hfree
  obtain ⟨_, s, hs, _⟩ := segmentLoop_total S C wellFormed_userProgramElf accepted_userProgramElf hframes
  refine ⟨s₀, task, pdpt, pd, pt, s, S, hs, loop_exact_iff S C accepted_userProgramElf ?_ ?_ hframes hs⟩
  · rw [loads_userProgramElf]
    decide
  · rw [loads_userProgramElf]
    decide

/-- `user_program_elf` with a segment of one whole page. -/
def wholePageElf : List UInt8 := (userProgramElf.set 0x68 0x00).set 0x69 0x10

theorem loads_wholePageElf : loads wholePageElf = [⟨1, 5, 0, 0x400000, 0xC0, 0x1000⟩] := by decide

theorem length_wholePageElf : wholePageElf.length = 0xC0 := by
  simp only [wholePageElf, List.length_set, length_userProgramElf]

/-- Its loop ends with a second page mapped, that no segment touches. -/
theorem whole_page_extra : ∃ s₀ task pdpt pd pt s, Started s₀ task pdpt pd pt ∧
    Carries s₀ (KERNEL_BASE + 0x10000) wholePageElf ∧ Accepted wholePageElf ∧
    (∀ p ∈ loads wholePageElf, p.pVaddr + p.pMemsz < userStack ∧ p.WellFormed wholePageElf) ∧
    demand (allPages (phdrs wholePageElf)) ≤ s₀.pmm.freeCount ∧
    segmentLoop task (KERNEL_BASE + 0x10000) (add64 (KERNEL_BASE + 0x10000) (ePhoff wholePageElf)) (2 ^ 16) 0 s₀
      = .ok s ∧
    0x401 ∈ mappedPages s \ mappedPages s₀ ∧ (∀ p ∈ loads wholePageElf, ¬ p.Touches 0x401) ∧
    ¬ Exact s₀ s (loads wholePageElf) := by
  have hlen : wholePageElf.length ≤ 0x10000 := by rw [length_wholePageElf]; decide
  obtain ⟨s₀, task, pdpt, pd, pt, S, C, hfree⟩ := started_carries hlen
  have A : Accepted wholePageElf :=
    ⟨by rw [length_wholePageElf]; decide, by rw [length_wholePageElf]; decide, by decide, by decide, by decide,
      by decide⟩
  have hwf : ∀ p ∈ loads wholePageElf, p.WellFormed wholePageElf := by
    rw [loads_wholePageElf, List.forall_mem_singleton]
    exact ⟨by decide, by decide, by decide, by rw [length_wholePageElf]; decide⟩
  have hbelow : ∀ p ∈ loads wholePageElf, p.pVaddr + p.pMemsz < userStack := by
    rw [loads_wholePageElf]
    decide
  have hpages : allPages (phdrs wholePageElf) = [0x400, 0x401] := by
    rw [allPages_phdrs, loads_wholePageElf]
    decide
  have hframes : demand (allPages (phdrs wholePageElf)) ≤ s₀.pmm.freeCount := by
    have := demand_le (allPages (phdrs wholePageElf))
    rw [hpages] at this ⊢
    exact this.trans (le_trans (by decide) hfree)
  obtain ⟨log, s, hs, Q, hp⟩ := segmentLoop_total S C hwf A hframes
  have hmapped : 0x401 ∈ mappedPages s \ mappedPages s₀ := by
    rw [mappedPages_started S, Set.sdiff_empty, Q.mem_mappedPages S, hp, hpages]
    decide
  have htouch : ∀ p ∈ loads wholePageElf, ¬ p.Touches 0x401 := by
    rw [loads_wholePageElf, List.forall_mem_singleton]
    rintro ⟨a, h1, h2, h3⟩
    simp only at h1 h2
    omega
  refine ⟨s₀, task, pdpt, pd, pt, s, S, C, A, fun p hp => ⟨hbelow p hp, hwf p hp⟩, hframes, hs, hmapped, htouch,
    fun E => ?_⟩
  obtain ⟨p, hp, ht⟩ := E.pages ▸ hmapped
  exact htouch p hp ht

end TerraOS.Elf
