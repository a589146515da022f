import TerraOS.Elf.Supply
import TerraOS.Vmm.Rights

/-! The stack that a program is started with.

    `load_elf` maps one page for the stack and starts the program with `rsp` at the bottom of it. A stack
    grows downwards: the first push goes to the page below, which nothing has mapped
    (`loadElf_below_stack`), so that no program has a stack it can use (`stack_unusable`). -/

namespace TerraOS.Elf
open Lib Lib.Word Pmm Vmm

/-- The 4096 bytes below `rsp` are those of one frame, and the program may read and write them. -/
def UsableStack (s : Machine) (rsp : ℕ) : Prop :=
  ∃ f, ∀ va, rsp - 4096 ≤ va → va < rsp →
    s.translate va = some (f * 4096 + va % 4096) ∧ ∀ bit ∈ [0, 1, 2], effective s va bit = true

/-- A header in the lower half, 64 KiB away from the stack. -/
structure Phdr.OffStack (p : Phdr) : Prop extends p.Lower where
  away : p.pVaddr + p.pMemsz + 0x10000 ≤ userStack ∨ userStack + 0x10000 ≤ p.pVaddr

section
variable {s₀ s : Machine} {task : Task} {pdpt pd pt elfData : ℕ} {img : List UInt8} {u : UserStart}
  (S : Started s₀ task pdpt pd pt) (C : Carries s₀ elfData img) (A : Accepted img)
include S C A

/-- With frames for all of them, the pages of the program are mapped when it starts, and no others. -/
theorem loadElf_progress (hlower : ∀ p ∈ loads img, p.Lower) (hframes : demand (programPages img) ≤ s₀.pmm.freeCount)
    (h : loadElf task elfData s₀ = .ok (s, .sysret u)) :
    u = ⟨userStack, userStack, eEntry img, 0⟩ ∧
      ∃ log B, Progress s₀ task pdpt pd pt log B s ∧ pagesOf log = (programPages img).reverse := by
  obtain ⟨s₁, H, hmap, hu⟩ := loadElf_supplied S C A hlower h
  have hv : userStack / 4096 < userPages := by decide
  have hpage : userStack / 4096 * 4096 = userStack := by decide
  have H' := H.map S hv (.inr rfl) (by rw [hpage]; exact hmap)
  refine ⟨hu, H'.supply.resolve_right ?_⟩
  rintro ⟨_, hlt⟩
  exact absurd hframes (not_le.mpr hlt)

variable (hoff : ∀ p ∈ loads img, p.OffStack) (hframes : demand (programPages img) ≤ s₀.pmm.freeCount)
include hoff hframes

theorem loadElf_below_stack (h : loadElf task elfData s₀ = .ok (s, .sysret u)) :
    u.rsp = userStack ∧ ∀ va, u.rsp - 4096 ≤ va → va < u.rsp → s.translate va = none := by
  obtain ⟨rfl, log, B, Q, hpages⟩ := loadElf_progress S C A (fun p hp => (hoff p hp).toLower) hframes h
  refine ⟨rfl, fun va h1 h2 => ?_⟩
  simp only [userStack] at h1 h2
  have hnot : va / 4096 ∉ pagesOf log := by
    rw [hpages, List.mem_reverse, programPages, List.mem_append, allPages_phdrs, List.mem_flatMap,
      List.mem_singleton]
    rintro (⟨p, hp, hmem⟩ | hstack)
    · have haway := (hoff p hp).away
      rw [Phdr.mem_pages] at hmem
      simp only [userStack] at haway
      omega
    · simp only [userStack] at hstack
      omega
  rw [Q.translate S (by omega), Option.map_eq_none_iff]
  by_contra hsome
  exact hnot (leafOf_isSome.mp (Option.ne_none_iff_exists'.mp hsome))

/-- BUG: `rsp` is where the page of the stack begins; the 4096 bytes below it are not mapped. -/
theorem stack_unusable (h : loadElf task elfData s₀ = .ok (s, .sysret u)) : ¬ UsableStack s u.rsp := by
  obtain ⟨hrsp, hnone⟩ := loadElf_below_stack S C A hoff hframes h
  rintro ⟨f, hf⟩
  have hlast := (hf (u.rsp - 1) (by omega) (by rw [hrsp]; decide)).1
  rw [hnone (u.rsp - 1) (by omega) (by rw [hrsp]; decide)] at hlast
  exact absurd hlast (by simp)

end

theorem offStack_userProgramElf : ∀ p ∈ loads userProgramElf, p.OffStack := by
  rw [loads_userProgramElf, List.forall_mem_singleton]
  exact ⟨⟨by decide, by decide⟩, by decide⟩

theorem stack_unusable_userProgram : ∃ s₀ task pdpt pd pt s u, Started s₀ task pdpt pd pt ∧
    loadElf task (KERNEL_BASE + 0x10000) s₀ = .ok (s, .sysret u) ∧ ¬ UsableStack s u.rsp := by
  obtain ⟨s₀, task, pdpt, pd, pt, S, C, hfree⟩ := started_userProgram
  have hframes := demand_programPages.trans hfree
  obtain ⟨_, s, hs, _⟩ := loadElf_total S C wellFormed_userProgramElf accepted_userProgramElf hframes
  exact ⟨s₀, task, pdpt, pd, pt, s, _, S, hs,
    stack_unusable S C accepted_userProgramElf offStack_userProgramElf hframes hs⟩

/-- The first push of the kernel's own program faults. -/
theorem first_push_faults : ∃ s₀ task pdpt pd pt s u, Started s₀ task pdpt pd pt ∧
    Carries s₀ (KERNEL_BASE + 0x10000) userProgramElf ∧ demand (programPages userProgramElf) ≤ s₀.pmm.freeCount ∧
    loadElf task (KERNEL_BASE + 0x10000) s₀ = .ok (s, .sysret u) ∧ u.rsp = userStack ∧
    (∀ b, s.store8 (u.rsp - 8) b = .error ⟨.access (u.rsp - 8), s⟩) ∧ ¬ UsableStack s u.rsp := by
  obtain ⟨s₀, task, pdpt, pd, pt, S, C, hfree⟩ := started_userProgram
  have hframes := demand_programPages.trans hfree
  obtain ⟨_, s, hs, _⟩ := loadElf_total S C wellFormed_userProgramElf accepted_userProgramElf hframes
  obtain ⟨hrsp, hnone⟩ := loadElf_below_stack S C accepted_userProgramElf offStack_userProgramElf hframes hs
  have hpush := hnone (userStack - 8) (by decide) (by decide)
  refine ⟨s₀, task, pdpt, pd, pt, s, _, S, C, hframes, hs, hrsp, fun b => ?_, ?_⟩
  · rw [Machine.store8, hpush]
  · rintro ⟨f, hf⟩
    rw [(hf (userStack - 8) (by decide) (by decide)).1] at hpush
    exact absurd hpush (by simp)

end TerraOS.Elf
