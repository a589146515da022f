import TerraOS.Elf.Contents
import TerraOS.Elf.Orderly

/-! When the frames run out.

    The pages that `load_elf` has mapped so far are mapped each to a frame of its own, or no frame is
    left and there were too few (`Supplied`). In the second case it goes on: a page whose tables are
    there is mapped to frame 0, and the last page mapped is the stack. So the pages of a started program
    are backed by frames of their own if and only if the frames sufficed (`loadElf_own_frames_iff`). -/

namespace TerraOS.Elf
open Lib Lib.Word Pmm Vmm

/-- No frame is left. -/
def Full (s : Machine) : Prop := ∀ j < s.pmm.memBitmapBitSize, s.pmm.used j = true

/-- The pages of the list were mapped, in this order. -/
structure Supplied (s₀ : Machine) (task : Task) (pdpt pd pt elfData : ℕ) (img : List UInt8) (l : List ℕ)
    (s : Machine) : Prop where
  orderly : Orderly s task pdpt pd pt elfData img
  supply : (∃ log B, Progress s₀ task pdpt pd pt log B s ∧ pagesOf log = l.reverse) ∨
    Full s ∧ s₀.pmm.freeCount < demand l

section
variable {s₀ s s' : Machine} {task : Task} {pdpt pd pt elfData v f flags : ℕ} {img : List UInt8} {l : List ℕ}
  {a : Pmm}

theorem Started.orderly (S : Started s₀ task pdpt pd pt) (C : Carries s₀ elfData img) :
    Orderly s₀ task pdpt pd pt elfData img := by
  refine ⟨S.toReady, S.ctx_top, S.kernel_page, C, fun v hv e he => ?_⟩
  rw [(Progress.start S fun _ => none).leaf v hv] at he
  cases he

theorem Full.mapped (F : Full s) (T : Taken s f a) (hfl : flags = 0x5 ∨ flags = 0x7)
    (M : Mapped flags (v * 4096) (f * 4096 ||| flags) { s with pmm := a } s' pdpt pd pt) : Full s' := fun j hj => by
  rw [Mapped.size_kept T hfl M] at hj
  exact Mapped.used_kept T hfl M (F j hj)

/-- With no frame left a page is mapped to frame 0. -/
theorem Full.leaf (F : Full s) (R : Ready s task pdpt pd pt) (hv : v < userPages) (hfl : flags = 0x5 ∨ flags = 0x7)
    (h : mapFrame task s (v * 4096) flags = .ok s') : s'.entry (pageKey v).1 (pageKey v).2 = some flags := by
  obtain ⟨f, a, T, hends⟩ := mapFrame_outcome R hv hfl
  rw [Mapped.leaf_new T hfl (hends.of_ok h), T.none F, Nat.zero_mul, Nat.zero_or]

section
variable (S : Started s₀ task pdpt pd pt)
include S

theorem Supplied.map (H : Supplied s₀ task pdpt pd pt elfData img l s) (hv : v < userPages)
    (hfl : flags = 0x5 ∨ flags = 0x7) (h : mapFrame task s (v * 4096) flags = .ok s') :
    Supplied s₀ task pdpt pd pt elfData img (l ++ [v]) s' := by
  obtain ⟨f, a, T, hends⟩ := mapFrame_outcome H.orderly.toReady hv hfl
  have M := hends.of_ok h
  have hrev : v :: l.reverse = (l ++ [v]).reverse := by simp
  refine ⟨H.orderly.mapped T hv hfl M, ?_⟩
  rcases H.supply with ⟨log, B, Q, hp⟩ | ⟨F, hlt⟩
  · rcases Q.map S hv hfl with ⟨f', s'', h', Q'⟩ | ⟨⟨stop, h'⟩, _⟩ | ⟨F, hlt⟩
    · obtain rfl := Except.ok.inj (h'.symm.trans h)
      refine .inl ⟨_, _, Q', ?_⟩
      rw [← hrev, ← hp]
      rfl
    · rw [h] at h'
      cases h'
    · rw [hp, hrev, demand_reverse] at hlt
      exact .inr ⟨Full.mapped F T hfl M, hlt⟩
  · exact .inr ⟨Full.mapped F T hfl M, hlt.trans_le (demand_append l [v])⟩

theorem Supplied.copy (H : Supplied s₀ task pdpt pd pt elfData img l s) {dest source count : ℕ} (hd : dest ≤ 2 ^ 47)
    (hc : count ≤ 2 ^ 64 - 2 ^ 31) (h : memcpy pagedBus s dest source count = .ok s') :
    Supplied s₀ task pdpt pd pt elfData img l s' := by
  have hcopied : Copied s task pdpt pd pt elfData img s := ⟨H.orderly, written_refl s⟩
  obtain ⟨O, w⟩ := (hcopied.copyLoop hd hc (by omega)).of_ok h
  refine ⟨O, ?_⟩
  rcases H.supply with ⟨log, B, Q, hp⟩ | ⟨F, hlt⟩
  · obtain ⟨B', Q'⟩ := Progress.copyLoop_any S hd hc Q (Nat.zero_le _) h
    exact .inl ⟨log, B', Q', hp⟩
  · refine .inr ⟨?_, hlt⟩
    rw [w.same]
    exact F

/-- A segment's pages are mapped after those before. -/
theorem Supplied.segment {p : Phdr} (H : Supplied s₀ task pdpt pd pt elfData img l s)
    (hp : p.pType = PT_LOAD → p.Lower) (h : segment task elfData s p = .ok s') :
    Supplied s₀ task pdpt pd pt elfData img (l ++ if p.pType = PT_LOAD then p.pages else []) s' := by
  unfold Elf.segment at h
  by_cases ht : p.pType = PT_LOAD
  · have hl := hp ht
    rw [if_pos ht] at h ⊢
    rw [loadSegment_pages hl.mem, bind_eq_ok] at h
    obtain ⟨t, hmap, hcopy⟩ := h
    have hmem := hl.mem
    have Ht := foldlM_invariant (I := fun j s => Supplied s₀ task pdpt pd pt elfData img (l ++ p.pages.take j) s)
      (fun j hj s s' Hs hs => by
        rw [List.take_succ_eq_append_getElem hj, ← List.append_assoc]
        exact Hs.map S (Phdr.Lower.pages hl.mem _ (List.getElem_mem hj)) (pageFlags_cases p) hs)
      (by simpa using H) hmap
    rw [List.take_length] at Ht
    exact Ht.copy S (by omega) hl.file hcopy
  · rw [if_neg ht] at h ⊢
    rw [List.append_nil, ← Except.ok.inj h]
    exact H

variable (C : Carries s₀ elfData img) (A : Accepted img) (hlower : ∀ p ∈ loads img, p.Lower)
include C A hlower

/-- The machine before the stack is mapped. -/
theorem loadElf_supplied {u : UserStart} (h : loadElf task elfData s₀ = .ok (s, .sysret u)) :
    ∃ s₁, Supplied s₀ task pdpt pd pt elfData img (allPages (phdrs img)) s₁ ∧
      mapFrame task s₁ userStack 0x7 = .ok s ∧ u = ⟨userStack, userStack, eEntry img, 0⟩ := by
  have hhead := A.header
  have hstart : Supplied s₀ task pdpt pd pt elfData img (allPages ((phdrs img).take 0)) s₀ :=
    ⟨Started.orderly S C, .inl ⟨[], fun _ => none, .start S _, rfl⟩⟩
  have hstep : ∀ i (hi : i < (phdrs img).length) s s',
      Supplied s₀ task pdpt pd pt elfData img (allPages ((phdrs img).take i)) s →
      Elf.segment task elfData s (phdrs img)[i] = .ok s' →
      Supplied s₀ task pdpt pd pt elfData img (allPages ((phdrs img).take (i + 1))) s' := fun i hi s s' H h => by
    rw [allPages_take hi]
    exact H.segment S (fun ht => hlower _ (List.mem_filter.mpr ⟨List.getElem_mem hi, by simpa using ht⟩)) h
  rw [loadElf_accepted A C S.toWindow, loadProgram, field_eq C S.toWindow (by omega), ok_bind,
    show (bytes img).loadLE 32 8 = ePhoff img from rfl, bind_eq_ok] at h
  obtain ⟨s₁, hloop, h⟩ := h
  rw [segmentLoop_eq A (I := fun i s => Supplied s₀ task pdpt pd pt elfData img (allPages ((phdrs img).take i)) s)
    (fun i s H => ⟨H.orderly.carries, H.orderly.toWindow⟩) hstep (2 ^ 16) 0 s₀ hstart
    (by have := ePhnum_lt img; omega), List.drop_zero] at hloop
  have H := foldlM_invariant hstep hstart hloop
  rw [List.take_length] at H
  rw [field_eq H.orderly.carries H.orderly.toWindow (by omega), ok_bind, bind_eq_ok] at h
  obtain ⟨s₂, hmap, h⟩ := h
  obtain ⟨rfl, hu⟩ := Prod.mk.inj (Except.ok.inj h)
  exact ⟨s₁, H, hmap, (Outcome.sysret.inj hu).symm⟩

end

end

/-! ### Frames of their own -/

/-- The pages mapped since `s₀` have frames of their own, each of which was free, is used now, lies above
    the kernel's 2 MiB and holds no page table. -/
structure OwnFrames (s₀ s : Machine) : Prop where
  distinct : ∀ v ∈ mappedPages s \ mappedPages s₀, ∀ w ∈ mappedPages s \ mappedPages s₀,
    s.translate (v * 4096) = s.translate (w * 4096) → v = w
  own : ∀ v ∈ mappedPages s \ mappedPages s₀, ∃ n, s.translate (v * 4096) = some (n * 4096) ∧ 512 ≤ n ∧
    n < s₀.pmm.memBitmapBitSize ∧ s₀.pmm.used n = false ∧ s.pmm.used n = true ∧
    ∀ p, p.length ≤ 3 → s.table p ≠ some n

section
variable {s₀ s s₁ : Machine} {task : Task} {pdpt pd pt elfData : ℕ} {img : List UInt8} {log : List Leaf}
  {B : ℕ → Option UInt8} (S : Started s₀ task pdpt pd pt)
include S

theorem Progress.ownFrames (Q : Progress s₀ task pdpt pd pt log B s) : OwnFrames s₀ s := by
  have hleaf : ∀ v ∈ mappedPages s,
      ∃ l ∈ log, leafOf log v = some l ∧ s.translate (v * 4096) = some (l.frame * 4096) := by
    intro v hv
    obtain ⟨hlt, hmem⟩ := (Q.mem_mappedPages S).mp hv
    obtain ⟨l, hl⟩ := leafOf_isSome.mpr hmem
    refine ⟨l, (leafOf_eq_some hl).1, hl, ?_⟩
    rw [Q.translate S (by omega), Nat.mul_div_cancel _ (by decide), hl, Option.map_some, Nat.mul_mod_left,
      Nat.add_zero]
  refine ⟨fun v hv w hw he => ?_, fun v hv => ?_⟩
  · obtain ⟨l, hl, hlv, ht⟩ := hleaf v hv.1
    obtain ⟨l', hl', hlw, ht'⟩ := hleaf w hw.1
    rw [ht, ht', Option.some.injEq] at he
    have hll : l = l' := List.inj_on_of_nodup_map Q.nodup hl hl' (by omega)
    rw [← (leafOf_eq_some hlv).2, ← (leafOf_eq_some hlw).2, hll]
  · obtain ⟨l, hl, _, ht⟩ := hleaf v hv.1
    exact ⟨l.frame, ht, (Q.frame_bounds S hl).1, (Q.frame l hl).1, (Q.frame l hl).2, Q.used hl,
      fun p hp => Q.spare S.toPaged hl hp⟩

/-- A stack mapped with no frame left is in frame 0. -/
theorem Full.stack (F : Full s₁) (R : Ready s₁ task pdpt pd pt) (h : mapFrame task s₁ userStack 0x7 = .ok s) :
    s.translate userStack = some 0 ∧ ¬ OwnFrames s₀ s := by
  have hv : userStack / 4096 < userPages := by decide
  have hpage : userStack / 4096 * 4096 = userStack := by decide
  have hleaf := Full.leaf F R hv (.inr rfl) (by rw [hpage]; exact h)
  rw [pageKey_div] at hleaf
  have htrans : s.translate userStack = some 0 := by
    rw [translate_of_walk (.inl (by decide)) hleaf, frame_eq]
    exact congrArg some (by decide)
  refine ⟨htrans, fun O => ?_⟩
  have hmem : userStack / 4096 ∈ mappedPages s \ mappedPages s₀ := by
    rw [mappedPages_started S, Set.sdiff_empty]
    exact ⟨by decide, by rw [hpage, htrans]; rfl⟩
  obtain ⟨n, hn, h512, _⟩ := O.own _ hmem
  rw [hpage, htrans, Option.some.injEq] at hn
  omega

/-- CORRECT: when `load_elf` starts a program, the pages it mapped have frames of their own if and only
    if there were as many frames free as the pages and their tables take. -/
theorem loadElf_own_frames_iff (C : Carries s₀ elfData img) (A : Accepted img)
    (hlower : ∀ p ∈ loads img, p.pVaddr + p.pMemsz ≤ 2 ^ 47 ∧ p.pFilesz ≤ 2 ^ 64 - 2 ^ 31) {u : UserStart}
    (h : loadElf task elfData s₀ = .ok (s, .sysret u)) :
    OwnFrames s₀ s ↔ demand (programPages img) ≤ s₀.pmm.freeCount := by
  obtain ⟨s₁, H, hmap, -⟩ := loadElf_supplied S C A (fun p hp => ⟨(hlower p hp).1, (hlower p hp).2⟩) h
  have R := H.orderly.toReady
  have hv : userStack / 4096 < userPages := by decide
  have hrev : ∀ l : List ℕ, demand (userStack / 4096 :: l.reverse) = demand (l ++ [userStack / 4096]) := fun l => by
    rw [← demand_reverse (l ++ _), List.reverse_append]
    rfl
  rcases H.supply with ⟨log, B, Q, hp⟩ | ⟨F, hlt⟩
  · rcases Q.map S hv (.inr rfl) with ⟨f, s', h', Q'⟩ | ⟨⟨stop, h'⟩, _⟩ | ⟨F, hlt⟩
    · obtain rfl := Except.ok.inj (h'.symm.trans hmap)
      have hcount := Q'.count S
      rw [pagesOf, List.map_cons, ← pagesOf, hp, hrev] at hcount
      exact ⟨fun _ => by rw [programPages]; omega, fun _ => Q'.ownFrames S⟩
    · exact absurd (h'.symm.trans hmap) (by simp)
    · rw [hp, hrev] at hlt
      exact ⟨fun O => absurd O (Full.stack S F R hmap).2, fun hle => absurd hlt (by rw [programPages] at hle; omega)⟩
  · have hle := demand_append (allPages (phdrs img)) [userStack / 4096]
    exact ⟨fun O => absurd O (Full.stack S F R hmap).2, fun hle' => absurd hlt (by rw [programPages] at hle'; omega)⟩

end

theorem loadElf_own_frames_iff_userProgram : ∃ s₀ task pdpt pd pt s u, Started s₀ task pdpt pd pt ∧
    loadElf task (KERNEL_BASE + 0x10000) s₀ = .ok (s, .sysret u) ∧
    (OwnFrames s₀ s ↔ demand (programPages userProgramElf) ≤ s₀.pmm.freeCount) := by
  obtain ⟨s₀, task, pdpt, pd, pt, S, C, hfree⟩ := started_userProgram
  obtain ⟨_, s, hs, _⟩ := loadElf_total S C wellFormed_userProgramElf accepted_userProgramElf
    (demand_programPages.trans hfree)
  refine ⟨s₀, task, pdpt, pd, pt, s, _, S, hs, loadElf_own_frames_iff S C accepted_userProgramElf ?_ hs⟩
  rw [loads_userProgramElf]
  decide

/-! ### Too few frames -/

/-- Fewer frames may be free. -/
theorem started_frames {task : Task} {pdpt pd pt elfData k : ℕ} {img : List UInt8} : ∀ {n : ℕ} {s : Machine},
    Started s task pdpt pd pt → Carries s elfData img → s.pmm.freeCount = k + n →
    ∃ s₁, Started s₁ task pdpt pd pt ∧ Carries s₁ elfData img ∧ s₁.pmm.freeCount = k
  | 0, s, S, C, h => ⟨s, S, C, h⟩
  | n + 1, s, S, C, h => by
    rcases S.toFrames.ok.alloc with ⟨hall, _⟩ | ⟨i, _, hlt, hu, _, _⟩
    · rw [freeCount_eq_zero hall] at h
      omega
    · have hcount := freeCount_set hlt hu
      generalize ha : ({ s.pmm with memBitmap := Bits.set s.pmm.memBitmap i } : Pmm) = a at hcount
      have hsize : a.memBitmapBitSize = s.pmm.memBitmapBitSize := by rw [← ha]
      have hmono : ∀ j, s.pmm.used j = true → a.used j = true := fun j hj => by
        have hset : a.used j = (decide (j = i) || s.pmm.used j) := by rw [← ha]; exact Bits.bit_set _ _ _
        rw [hset, hj, Bool.or_true]
      have S₁ : Started { s with pmm := a } task pdpt pd pt :=
        ⟨S.toReady.of_paged (S.toPaged.withPmm hsize hmono) rfl rfl rfl, S.slots, S.ctx_top, S.kernel_page⟩
      exact started_frames S₁ ⟨C.above, C.below, C.byte, C.apart⟩ (show a.freeCount = k + n by omega)

theorem full_of_freeCount {s : Machine} (h : s.pmm.freeCount = 0) : Full s := fun j hj => by
  by_contra hu
  have := freeCount_set hj (by simpa using hu)
  omega

/-- A page alone takes four frames. -/
theorem demand_single (v : ℕ) : demand [v] = 4 := by
  have hcard : (tablePaths v).card = 3 := by simp [tablePaths, path]
  rw [demand, tablesFor, List.toFinset_cons, List.toFinset_nil, insert_empty_eq, Finset.singleton_biUnion, hcard]
  rfl

/-- `user_program_elf` with an empty segment where the stack goes. -/
def stackPageElf : List UInt8 :=
  (((userProgramElf.set 0x52 0x00).set 0x55 0x70).set 0x60 0x00).set 0x68 0x00

theorem loads_stackPageElf : loads stackPageElf = [⟨1, 5, 0, userStack, 0, 0⟩] := by decide

theorem length_stackPageElf : stackPageElf.length = 0xC0 := by
  simp only [stackPageElf, List.length_set, length_userProgramElf]

theorem accepted_stackPageElf : Accepted stackPageElf :=
  ⟨by rw [length_stackPageElf]; decide, by rw [length_stackPageElf]; decide, by decide, by decide, by decide,
    by decide⟩

theorem wellFormed_stackPageElf : ∀ p ∈ loads stackPageElf, p.WellFormed stackPageElf := by
  rw [loads_stackPageElf, List.forall_mem_singleton]
  exact ⟨by decide, by decide, by decide, by rw [length_stackPageElf]; decide⟩

theorem allPages_stackPageElf : allPages (phdrs stackPageElf) = [userStack / 4096] := by
  rw [allPages_phdrs, loads_stackPageElf]
  decide

/-- It may be that just four frames are free. -/
theorem started_stackPage : ∃ s₀ task pdpt pd pt, Started s₀ task pdpt pd pt ∧
    Carries s₀ (KERNEL_BASE + 0x10000) stackPageElf ∧ s₀.pmm.freeCount = 4 := by
  obtain ⟨s, task, pdpt, pd, pt, S, C, hfree⟩ :=
    started_carries (show stackPageElf.length ≤ 0x10000 by rw [length_stackPageElf]; decide)
  obtain ⟨s₀, S, C, hfour⟩ := started_frames (k := 4) (n := s.pmm.freeCount - 4) S C (by omega)
  exact ⟨s₀, task, pdpt, pd, pt, S, C, hfour⟩

/-- With four frames free its segment's page takes them all, and the stack gets frame 0. -/
theorem stack_in_frame_zero : ∃ s₀ task pdpt pd pt s u, Started s₀ task pdpt pd pt ∧
    Carries s₀ (KERNEL_BASE + 0x10000) stackPageElf ∧ Accepted stackPageElf ∧
    (∀ p ∈ loads stackPageElf, p.pVaddr + p.pMemsz ≤ 2 ^ 47) ∧
    loadElf task (KERNEL_BASE + 0x10000) s₀ = .ok (s, .sysret u) ∧ s.translate userStack = some 0 ∧
    ¬ OwnFrames s₀ s := by
  obtain ⟨s₀, task, pdpt, pd, pt, S, C, hfour⟩ := started_stackPage
  have A := accepted_stackPageElf
  have hlow : ∀ p ∈ loads stackPageElf, p.pVaddr + p.pMemsz ≤ 2 ^ 47 := by
    rw [loads_stackPageElf]
    decide
  have hpages := allPages_stackPageElf
  have hd : demand (allPages (phdrs stackPageElf)) = 4 := by rw [hpages, demand_single]
  obtain ⟨log, s₁, hs₁, Q, hp⟩ := segmentLoop_total S C wellFormed_stackPageElf A (by omega)
  have hcount := Q.count S
  rw [hp, demand_reverse] at hcount
  have F : Full s₁ := full_of_freeCount (by omega)
  have hmem : userStack / 4096 ∈ pagesOf log := by
    rw [hp, hpages]
    simp
  obtain ⟨l, hl, hpage⟩ := List.mem_map.mp hmem
  obtain ⟨n, hn⟩ := Q.reached l hl
  have hv : userStack / 4096 < userPages := by decide
  rw [hpage] at hn
  obtain ⟨t, ht⟩ := mapFrame_again Q.ready hv (.inr rfl) hn
  rw [show userStack / 4096 * 4096 = userStack by decide] at ht
  have hrun : loadElf task (KERNEL_BASE + 0x10000) s₀
      = .ok (t, .sysret ⟨userStack, userStack, eEntry stackPageElf, 0⟩) := by
    rw [loadElf_of_loop A C S.toWindow hs₁ (Q.carries S C) Q.ready.toWindow, ht]
    rfl
  obtain ⟨htrans, hno⟩ := Full.stack S F Q.ready ht
  exact ⟨s₀, task, pdpt, pd, pt, t, _, S, C, A, hlow, hrun, htrans, hno⟩

end TerraOS.Elf
