import TerraOS.Elf.Progress
import TerraOS.Lib.Runs

/-! The segment loop, with frames to spare.

    `allPages` lists the pages that the loop maps, in order and as often as it maps them. With as many
    frames free as they demand, the loop keeps `Progress`: every page of every header done so far is
    mapped, and each time to a frame of its own. -/

namespace TerraOS.Elf
open Lib Lib.Word Pmm Vmm

/-- The pages mapped for program headers. -/
def allPages (ps : List Phdr) : List ℕ := (ps.filter (·.pType = PT_LOAD)).flatMap Phdr.pages

theorem allPages_phdrs (img : List UInt8) : allPages (phdrs img) = (loads img).flatMap Phdr.pages := rfl

theorem allPages_append (ps qs : List Phdr) : allPages (ps ++ qs) = allPages ps ++ allPages qs := by
  rw [allPages, List.filter_append, List.flatMap_append]
  rfl

theorem allPages_single (p : Phdr) : allPages [p] = if p.pType = PT_LOAD then p.pages else [] := by
  by_cases h : p.pType = PT_LOAD <;> simp [allPages, h]

theorem allPages_take {ps : List Phdr} {i : ℕ} (h : i < ps.length) :
    allPages (ps.take (i + 1)) = allPages (ps.take i) ++ if ps[i].pType = PT_LOAD then ps[i].pages else [] := by
  rw [List.take_succ_eq_append_getElem h, allPages_append, allPages_single]

theorem demand_take (ps : List Phdr) (i : ℕ) : demand (allPages (ps.take i)) ≤ demand (allPages ps) := by
  conv_rhs => rw [← List.take_append_drop i ps, allPages_append]
  exact demand_append _ _

theorem demand_reverse (l : List ℕ) : demand l.reverse = demand l := demand_perm l.reverse_perm

/-- A header whose segment ends at or below `2^47`, with a file size that `memcpy` can count to. -/
structure Phdr.Lower (p : Phdr) : Prop where
  mem : p.pVaddr + p.pMemsz ≤ 2 ^ 47
  file : p.pFilesz ≤ 2 ^ 64 - 2 ^ 31

theorem Phdr.Lower.pages {p : Phdr} (h : p.pVaddr + p.pMemsz ≤ 2 ^ 47) : ∀ v ∈ p.pages, v < userPages :=
  fun v hv => by
    have := Phdr.mem_pages.mp hv
    simp only [userPages]
    omega

/-- What is known of the bytes of pages once they are mapped again. -/
def forgetAll (B : ℕ → Option UInt8) (vs : List ℕ) : ℕ → Option UInt8 := fun va =>
  if va / 4096 ∈ vs then none else B va

theorem forgetAll_nil (B : ℕ → Option UInt8) : forgetAll B [] = B := by
  funext va
  simp [forgetAll]

theorem forgetAll_cons (B : ℕ → Option UInt8) (v : ℕ) (vs : List ℕ) :
    forgetAll (forget B v) vs = forgetAll B (v :: vs) := by
  funext va
  simp only [forgetAll, forget, List.mem_cons]
  by_cases h : va / 4096 = v <;> simp [h]

section
variable {s₀ s s' : Machine} {task : Task} {elfData pdpt pd pt : ℕ} {log : List Leaf}
  {B : ℕ → Option UInt8} (S : Started s₀ task pdpt pd pt)
include S

/-- The page loop, with frames for its pages. -/
theorem Progress.mapPages {flags : ℕ} (hfl : flags = 0x5 ∨ flags = 0x7) :
    ∀ {vs : List ℕ} {log : List Leaf} {B : ℕ → Option UInt8} {s : Machine},
      Progress s₀ task pdpt pd pt log B s → (∀ v ∈ vs, v < userPages) →
      demand (vs.reverse ++ pagesOf log) ≤ s₀.pmm.freeCount →
      ∃ log' s', vs.foldlM (fun s v => mapFrame task s (v * 4096) flags) s = .ok s' ∧
        Progress s₀ task pdpt pd pt log' (forgetAll B vs) s' ∧ pagesOf log' = vs.reverse ++ pagesOf log
  | [], log, B, s, Q, _, _ => ⟨log, s, rfl, by rw [forgetAll_nil]; exact Q, by simp⟩
  | v :: vs, log, B, s, Q, hvs, hd => by
    rw [List.reverse_cons, List.append_assoc, List.singleton_append] at hd
    have hv : demand (v :: pagesOf log) ≤ s₀.pmm.freeCount := by
      have := demand_append (v :: pagesOf log) vs.reverse
      rw [demand_perm List.perm_append_comm] at this
      omega
    rcases Q.map S (hvs v (by simp)) hfl with ⟨f, s₁, h₁, Q₁⟩ | ⟨_, hlt⟩ | ⟨_, hlt⟩
    · obtain ⟨log', s', h', Q', hp⟩ := Progress.mapPages hfl Q₁ (fun w hw => hvs w (List.mem_cons_of_mem _ hw)) hd
      refine ⟨log', s', by rw [List.foldlM_cons, h₁, ok_bind, h'], ?_, ?_⟩
      · rw [← forgetAll_cons]
        exact Q'
      · rw [hp, List.reverse_cons, List.append_assoc]
        rfl
    · omega
    · omega

/-- A segment, whatever it copies, if it does not fault. -/
theorem Progress.segment_any {p : Phdr} (Q : Progress s₀ task pdpt pd pt log B s) (hp : p.pType = PT_LOAD → p.Lower)
    (hd : demand ((if p.pType = PT_LOAD then p.pages else []).reverse ++ pagesOf log) ≤ s₀.pmm.freeCount)
    (h : segment task elfData s p = .ok s') :
    ∃ log' B', Progress s₀ task pdpt pd pt log' B' s' ∧
      pagesOf log' = (if p.pType = PT_LOAD then p.pages else []).reverse ++ pagesOf log := by
  unfold segment at h
  by_cases ht : p.pType = PT_LOAD
  · have hl := hp ht
    rw [if_pos ht] at hd ⊢
    rw [if_pos ht, loadSegment_pages hl.mem] at h
    obtain ⟨log', s₁, h₁, Q₁, hpages⟩ := Q.mapPages S (pageFlags_cases p) (Phdr.Lower.pages hl.mem) hd
    rw [h₁, ok_bind] at h
    obtain ⟨B', Q'⟩ := Progress.copyLoop_any S (by have := hl.mem; omega) hl.file Q₁ (Nat.zero_le _) h
    exact ⟨log', B', Q', hpages⟩
  · rw [if_neg ht] at h ⊢
    exact ⟨log, B, Except.ok.inj h ▸ Q, by simp⟩

end

/-- What the segment loop has done after `i` headers of the list. -/
def Loaded (s₀ : Machine) (task : Task) (pdpt pd pt : ℕ) (ps : List Phdr) (i : ℕ) (s : Machine) : Prop :=
  ∃ log B, Progress s₀ task pdpt pd pt log B s ∧ pagesOf log = (allPages (ps.take i)).reverse

section
variable {s₀ s s' : Machine} {task : Task} {elfData pdpt pd pt : ℕ} {img : List UInt8}
  (S : Started s₀ task pdpt pd pt) (C : Carries s₀ elfData img)
  (hlower : ∀ p ∈ loads img, p.Lower) (hframes : demand (allPages (phdrs img)) ≤ s₀.pmm.freeCount)
include S hlower hframes

theorem Loaded.step {i : ℕ} (hi : i < (phdrs img).length) (L : Loaded s₀ task pdpt pd pt (phdrs img) i s)
    (h : segment task elfData s (phdrs img)[i] = .ok s') :
    Loaded s₀ task pdpt pd pt (phdrs img) (i + 1) s' := by
  obtain ⟨log, B, Q, hp⟩ := L
  have hd := demand_take (phdrs img) (i + 1)
  rw [← demand_reverse, allPages_take hi, List.reverse_append, ← hp] at hd
  obtain ⟨log', B', Q', hp'⟩ := Q.segment_any S
    (fun ht => hlower _ (List.mem_filter.mpr ⟨List.getElem_mem hi, by simpa using ht⟩)) (le_trans hd hframes) h
  exact ⟨log', B', Q', by rw [hp', hp, allPages_take hi, List.reverse_append]⟩

include C

/-- The segment loop that ends has mapped the pages of all headers. -/
theorem segmentLoop_loaded (A : Accepted img)
    (h : segmentLoop task elfData (add64 elfData (ePhoff img)) (2 ^ 16) 0 s₀ = .ok s) :
    ∃ log B, Progress s₀ task pdpt pd pt log B s ∧ pagesOf log = (allPages (phdrs img)).reverse := by
  have hstart : Loaded s₀ task pdpt pd pt (phdrs img) 0 s₀ := ⟨[], fun _ => none, .start S _, rfl⟩
  have hstep := fun i hi s s' => @Loaded.step s₀ s s' task elfData pdpt pd pt img S hlower hframes i hi
  rw [segmentLoop_eq A (I := Loaded s₀ task pdpt pd pt (phdrs img))
    (fun i s ⟨log, B, Q, _⟩ => ⟨Q.carries S C, Q.ready.toWindow⟩) hstep (2 ^ 16) 0 s₀ hstart
    (by have := ePhnum_lt img; omega), List.drop_zero] at h
  have hend := foldlM_invariant hstep hstart h
  rw [Loaded, List.take_length] at hend
  exact hend

end

end TerraOS.Elf
