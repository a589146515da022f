import TerraOS.Elf.Guard
import TerraOS.Elf.Stack

/-! What a program can reach.

    The processor lets user mode through to an address if every entry of its walk does. `kernel_main` and
    `paging_init` link slot 511 without the user bit, `load_elf` links everything below `2^47` with it; so
    what a started program reaches is its own pages, each in a frame that nobody used when the loader
    was called (`user_reaches_own_pages`). -/

namespace TerraOS.Elf
open Lib Lib.Word Pmm Vmm

/-- The upper tables of the lower half let the user through; the entry of slot 511 does not. -/
structure Split (s : Machine) : Prop where
  lower : UserTree s
  kernel : ∃ e, s.entry [] 511 = some e ∧ e.testBit 2 = false

/-! ### What every step of the loader keeps -/

section
variable {s s' s₀ : Machine} {task : Task} {pdpt pd pt elfData v flags : ℕ} {img : List UInt8}

/-- The rule for `load_elf`: a property that mapping a page of the program and copying to its pages keep
    holds at its end. -/
theorem loadElf_keeps {I : Machine → Prop} (S : Started s₀ task pdpt pd pt) (C : Carries s₀ elfData img)
    (A : Accepted img) (hbelow : ∀ p ∈ loads img, p.Below) (h0 : I s₀)
    (hmap : ∀ s s' v flags, Orderly s task pdpt pd pt elfData img → I s → v < 2 ^ 35 → flags = 0x5 ∨ flags = 0x7 →
      mapFrame task s (v * 4096) flags = .ok s' → I s')
    (hcopy : ∀ s s', I s → Written s s' → I s') :
    Ends (fun r => I r.1) (fun _ => True) (loadElf task elfData s₀) := by
  let J : Machine → Prop := fun s => Orderly s task pdpt pd pt elfData img ∧ I s
  have hpage : ∀ s v flags, J s → v < 2 ^ 35 → flags = 0x5 ∨ flags = 0x7 →
      Ends J (fun _ => True) (mapFrame task s (v * 4096) flags) := fun s v flags hJ hv hfl => by
    have hends := hJ.1.kernel_mapFrame hv hfl
    cases hs : mapFrame task s (v * 4096) flags with
    | ok t => exact .ok ⟨(hends.of_ok hs).1, hmap s t v flags hJ.1 hJ.2 hv hfl hs⟩
    | error stop => exact .error trivial
  have hsegment : ∀ i (hi : i < (phdrs img).length) s, J s →
      Ends J (fun _ => True) (segment task elfData s (phdrs img)[i]) := fun i hi s hJ => by
    unfold segment
    by_cases ht : (phdrs img)[i].pType = PT_LOAD
    · have hB := hbelow _ (List.mem_filter.mpr ⟨List.getElem_mem hi, by simpa using ht⟩)
      have hmem := hB.mem
      rw [if_pos ht, loadSegment_pages (by omega)]
      refine (foldlM_ends (I := fun _ => J) (fun j hj t hJ => ?_) hJ).bind fun t hJ => ?_
      · have hp := Phdr.mem_pages.mp (List.getElem_mem hj)
        exact hpage t _ _ hJ (by omega) (pageFlags_cases _)
      · have hstart : Copied t task pdpt pd pt elfData img t := ⟨hJ.1, written_refl t⟩
        exact (hstart.copyLoop (by omega) hB.file (by omega)).imp (fun t' h => ⟨h.1, hcopy t t' hJ.2 h.2⟩)
          fun _ _ => trivial
    · rw [if_neg ht]
      exact .ok hJ
  have hstart : J s₀ := ⟨Started.orderly S C, h0⟩
  have hloop : Ends J (fun _ => True) (segmentLoop task elfData (add64 elfData (ePhoff img)) (2 ^ 16) 0 s₀) := by
    rw [segmentLoop_eq A (I := fun _ => J) (fun _ s hJ => ⟨hJ.1.carries, hJ.1.toWindow⟩)
      (fun i hi s s' hJ h => (hsegment i hi s hJ).of_ok h) (2 ^ 16) 0 s₀ hstart
      (by have := ePhnum_lt img; omega), List.drop_zero]
    exact foldlM_ends hsegment hstart
  have hhead := A.header
  rw [loadElf_accepted A C S.toWindow, loadProgram, field_eq C S.toWindow (by omega), ok_bind]
  refine hloop.bind fun s hJ => ?_
  rw [field_eq hJ.1.carries hJ.1.toWindow (by omega), ok_bind]
  have hstack : userStack / 4096 * 4096 = userStack := by decide
  have h := hpage s (userStack / 4096) 0x7 hJ (by decide) (.inr rfl)
  rw [hstack] at h
  exact h.bind fun t hJ => .ok hJ.2

/-- A page of the program mapped links its tables for the user, and leaves slot 511. -/
theorem Split.mapFrame (D : Split s) (O : Orderly s task pdpt pd pt elfData img) (hv : v < 2 ^ 35)
    (hfl : flags = 0x5 ∨ flags = 0x7) (h : mapFrame task s (v * 4096) flags = .ok s') : Split s' := by
  obtain ⟨f, a, T, hends⟩ := mapFrame_outcome O.toReady (by simp only [userPages]; omega : v < userPages) hfl
  have M := hends.of_ok h
  have hleaf := leaf_lt T.lt hfl
  have huser : flags.testBit 2 = true := by rcases hfl with rfl | rfl <;> rfl
  refine ⟨fun va hva l hl e he => ?_, ?_⟩
  · rcases M.upper_bit hleaf (show 0 < 2 by omega) (by omega) (upperLevels_above hl).1 he with h' | ⟨_, h'⟩
    · exact D.lower va hva l hl e h'
    · rw [h', huser]
  · obtain ⟨e, he, hbit⟩ := D.kernel
    obtain ⟨g, G, hent, _, _⟩ := M.upper hleaf
    exact ⟨e, (hent [] 511 (Nat.zero_le _)).trans (G.keep [] 511 e (Nat.zero_le _) he), hbit⟩

theorem Split.written (D : Split s) (w : Written s s') : Split s' := by
  refine ⟨fun va hva l hl e he => ?_, ?_⟩
  · have hlen := (upperLevels_above hl).1
    rw [w.entry _ _ (by omega)] at he
    exact D.lower va hva l hl e he
  · obtain ⟨e, he, hbit⟩ := D.kernel
    exact ⟨e, (w.entry _ _ (Nat.zero_le _)).trans he, hbit⟩

theorem loadElf_split {u : UserStart} (D : Split s₀) (S : Started s₀ task pdpt pd pt) (C : Carries s₀ elfData img)
    (A : Accepted img) (hbelow : ∀ p ∈ loads img, p.Below) (h : loadElf task elfData s₀ = .ok (s, .sysret u)) :
    Split s :=
  (loadElf_keeps S C A hbelow D (fun _ _ _ _ O D hv hfl h => D.mapFrame O hv hfl h)
    fun _ _ D w => D.written w).of_ok h

/-! ### The kernel's slot -/

/-- The rest of `kernel_main`'s setup leaves slot 511 of the table it copies. -/
theorem HoldsTask.slot {i : ℕ} (H : HoldsTask s i pdpt pd pt) (h512 : 512 ≤ i) (hlt : i < 2 ^ 19)
    (h : (do
      let s ← memcpy pagedBus s (KERNEL_BASE + i * 4096) s.pml4t 0x1000
      let a ← getPhysicalAddress s s.pml4t (KERNEL_BASE + i * 4096)
      Except.ok ({ a.2 with cr3 := a.1 }, (⟨KERNEL_BASE + i * 4096⟩ : Task))) = .ok (s', task)) :
    s'.entry [] 511 = s.entry [] 511 := by
  have hk := H.low.1
  have h40 : i < 2 ^ 40 := by omega
  have P := H.copied_paged h512
  have hctx : Points { s with phys := taskCopy s i } s.pml4t s.kroot := by
    have h := P.toWindow.points hk
    rwa [← H.ptr] at h
  obtain ⟨c, hc, hget⟩ := getPhysicalAddress_spec P (taskPage_path h512 hlt)
    ⟨s.kroot, hctx, .inl (congrArg some H.active.symm)⟩ (by rw [H.copied_entry (by simp [path]), H.mapped])
  rw [(child_eq_some.mp (child_three h40)).2,
    show (KERNEL_BASE + i * 4096) % 4096 = 0 by simp only [KERNEL_BASE]; omega, Nat.add_zero] at hget
  rw [H.copy h512 hlt, ok_bind] at h
  change (getPhysicalAddress { s with phys := taskCopy s i } s.pml4t _ >>= _) = _ at h
  rw [hget, ok_bind] at h
  obtain rfl := (Prod.mk.inj (Except.ok.inj h)).1
  have R := H.copied_ready h512 hlt
  have hroot := withRoot_entry (s := { s with phys := taskCopy s i }) h40 H.copied_ents [] 511
  rw [H.copied_entry (by simp)] at hroot
  exact (withTemp_entry R.toPaged hc (by simp) (by simp)).trans hroot

/-- `kernel_main` links slot 511 without the user bit. -/
theorem startTask_slot {m bm : Mem} {mmap : List MmapEntry} (hboot : boot m bm mmap = some s₀) {i : ℕ}
    (hi : (pmmAlloc s₀.pmm).1 = i * 4096) (h0 : 0 < i) (hlt : i < 2 ^ 19) (h : startTask s₀ = .ok (s, task)) :
    ∃ e, s.entry [] 511 = some e ∧ e.testBit 2 = false := by
  obtain ⟨n, P, hr, hk, hcr3, h511, T, _⟩ := boot_spec hboot
  have hslot : s₀.entry [] 511 = some ((n + 1) * 4096 ||| 0x3) := by
    have hents := T.pml4 511
    rw [if_pos (by simp)] at hents
    rw [entry_of_table (Machine.table_nil s₀), hr, hents, if_neg (child_eq_some.mp (child_three (by omega))).1]
  rcases P.toFrames.ok.alloc with ⟨_, ha⟩ | ⟨i', _, hsz, hu, _, ha⟩
  · rw [ha] at hi
    simp only at hi
    omega
  obtain rfl : i' = i := by rw [ha] at hi; simp only at hi; omega
  obtain ⟨h512, _, h40⟩ := P.free hsz hu
  unfold startTask at h
  dsimp only at h
  rw [hi, taskPage_eq hlt, ha] at h
  generalize hp : ({ s₀.pmm with memBitmap := Bits.set s₀.pmm.memBitmap i' } : Pmm) = p at h
  have hset : ∀ c, p.used c = (decide (c = i') || s₀.pmm.used c) := fun c => by
    rw [← hp]
    exact Bits.bit_set _ _ _
  have P₁ : Paged { s₀ with pmm := p } (n + 1) (n + 2) (n + 3) :=
    P.withPmm (by rw [← hp]) fun c hc => by rw [hset, hc, Bool.or_true]
  have hctx : Points { s₀ with pmm := p } s₀.pml4t s₀.kroot := by
    have h := P₁.toWindow.points P.low.1
    rwa [← P.ptr] at h
  obtain ⟨s₂, hs₂, h⟩ := bind_eq_ok.mp h
  rcases mapPage_spec P₁ ⟨s₀.kroot, hctx, .inl (congrArg some (hr.trans hk.symm))⟩ (taskPage_path h512 hlt)
    (flagBits_of_lt (show 0x3 < 4096 by decide)) (show i' * 4096 < 2 ^ 64 by omega) with
    ⟨t, ht, M, _⟩ | ⟨g, hg, _⟩
  · rw [hs₂] at ht
    obtain rfl := Except.ok.inj ht
    obtain ⟨g, G, hent, _, _⟩ := M.upper (entry_lt (by omega) (by decide))
    have H := boot_holdsTask P hr hk hcr3 T (by rw [← hp]) hu (by rw [hset]; simp) h512 hlt M
    refine ⟨_, (HoldsTask.slot H h512 hlt h).trans ((hent [] 511 (Nat.zero_le _)).trans
      (G.keep [] 511 _ (Nat.zero_le _) hslot)), ?_⟩
    rw [testBit_leaf (by omega) (by omega)]
    rfl
  · rw [hs₂] at hg
    cases hg

theorem startTask_split {m bm : Mem} {mmap : List MmapEntry} (hboot : boot m bm mmap = some s₀) {i : ℕ}
    (hi : (pmmAlloc s₀.pmm).1 = i * 4096) (h0 : 0 < i) (hlt : i < 2 ^ 19) (h : startTask s₀ = .ok (s, task))
    (S : Started s task pdpt pd pt) : Split s :=
  ⟨S.lowerEmpty.userTree, startTask_slot hboot hi h0 hlt h⟩

/-! ### What the program reaches -/

/-- No translation in slot 511 is a user's. -/
theorem Split.kernel_denied (D : Split s) {va : ℕ} (h : index 39 va = 511) : effective s va 2 = false := by
  obtain ⟨e, he, hbit⟩ := D.kernel
  refine Bool.eq_false_iff.mpr fun hall => ?_
  rw [effective, List.all_eq_true] at hall
  have htop := hall ([], 511) (List.mem_append_left _ (by simp [upperLevels, h]))
  rw [he, Option.any_some, hbit] at htop
  cases htop

/-- The pages that user mode reaches are the pages of the program. -/
theorem Progress.reaches {log : List Leaf} {B : ℕ → Option UInt8} (S : Started s₀ task pdpt pd pt)
    (Q : Progress s₀ task pdpt pd pt log B s) (D : Split s) (hlow : ∀ v ∈ pagesOf log, v < 2 ^ 35) {va : ℕ}
    (hc : Canonical va) : effective s va 2 = true ↔ va / 4096 ∈ pagesOf log := by
  have hleaf : ∀ e, s.entry (path va) (index 12 va) = some e →
      ∀ l ∈ upperLevels va, ∃ e', s.entry l.1 l.2 = some e' := fun e he => by
    obtain ⟨f, hf⟩ := table_of_present he
    exact upper_present hf
  constructor
  · intro hall
    obtain ⟨e, hpage⟩ : ∃ e, s.entry (path va) (index 12 va) = some e := by
      have hend := List.all_eq_true.mp hall (path va, index 12 va) (List.mem_append_right _ List.mem_cons_self)
      cases he : s.entry (path va) (index 12 va) with
      | none =>
        rw [he] at hend
        cases hend
      | some e => exact ⟨e, rfl⟩
    rcases hc with hva | hva
    · have h := Q.leaf (va / 4096) (by simp only [userPages]; omega)
      rw [pageKey_div] at h
      rw [hpage] at h
      obtain ⟨l, hl, _⟩ := Option.map_eq_some_iff.mp h.symm
      exact leafOf_isSome.mp ⟨l, hl⟩
    · -- the upper half has slot 511 alone
      have htop : index 39 va = 511 := by
        by_contra hne
        obtain ⟨e', he'⟩ := hleaf e hpage ([], index 39 va) (by simp [upperLevels])
        rcases Q.tables [index 39 va] _ (by simp) (table_of_entry (p := []) he') with h | ⟨_, _, _, h⟩
        · obtain ⟨x, hx, _⟩ := Option.map_eq_some_iff.mp ((table_snoc (p := []) ..).symm.trans h)
          rw [S.slots _ hne] at hx
          cases hx
        · obtain ⟨w, hw, _, t, ht⟩ := mem_tablesFor.mp h
          have hw := hlow w hw
          have h39 := (List.cons.inj ht).1
          have hval := congrArg Fin.val h39
          rw [index_val, index_val] at hval
          omega
      rw [D.kernel_denied htop] at hall
      cases hall
  · intro hmem
    have hva : va < 2 ^ 47 := by
      have := hlow _ hmem
      omega
    obtain ⟨l, hl⟩ := leafOf_isSome.mpr hmem
    have h := Q.leaf (va / 4096) (by simp only [userPages]; omega)
    rw [pageKey_div, hl, Option.map_some] at h
    have hbit : l.entry.testBit 2 = true := by
      rw [Leaf.entry, testBit_leaf (by omega) (by omega)]
      rcases Q.flags l (leafOf_eq_some hl).1 with h | h <;> rw [h] <;> rfl
    rw [effective, List.all_append, Bool.and_eq_true, List.all_eq_true, List.all_cons, List.all_nil, Bool.and_true]
    refine ⟨fun l hl => ?_, ?_⟩
    · obtain ⟨e, he⟩ := hleaf _ h l hl
      rw [he, Option.any_some, D.lower va hva l hl e he]
    · rw [show s.entry (path va) (index 12 va) = _ from h, Option.any_some, hbit]

/-- The file lies in the kernel's first 32 pages, below the pool that `alloc_page` hands out. -/
structure InKernel (m : Mem) (elfData : ℕ) (img : List UInt8) : Prop where
  above : KERNEL_BASE + 0x1000 ≤ elfData
  below : elfData + img.length ≤ KERNEL_BASE + 0x20000
  byte : ∀ k < img.length, m (elfData - KERNEL_BASE + k) = bytes img k

theorem InKernel.carries {m : Mem} (K : InKernel m elfData img)
    (hlow : ∀ x, x / 4096 < 32 → s.phys x = m x ∧ ∀ p, p.length ≤ 3 → s.table p ≠ some (x / 4096)) :
    Carries s elfData img := by
  have habove := K.above
  have hbelow := K.below
  have hpage : ∀ k < img.length, (elfData - KERNEL_BASE + k) / 4096 < 32 := fun k hk => by omega
  refine ⟨habove, ?_, fun k hk => ?_, fun k hk => (hlow _ (hpage k hk)).2⟩
  · simp only [KERNEL_BASE, TEMP_PAGE] at hbelow ⊢
    omega
  · rw [(hlow _ (hpage k hk)).1]
    exact K.byte k hk

/-- A file that is started has its pages in reach, each in a frame of its own. -/
theorem Split.loaded {u : UserStart} (D : Split s₀) (S : Started s₀ task pdpt pd pt) (C : Carries s₀ elfData img)
    (A : Accepted img) (hbelow : ∀ p ∈ loads img, p.Below) (hframes : demand (programPages img) ≤ s₀.pmm.freeCount)
    (h : loadElf task elfData s₀ = .ok (s, .sysret u)) :
    (∀ va, Canonical va → (effective s va 2 = true ↔ va / 4096 ∈ programPages img)) ∧
    (∀ v ∈ programPages img, ∃ n, s.translate (v * 4096) = some (n * 4096) ∧ 512 ≤ n ∧
      s₀.pmm.used n = false ∧ ∀ p, p.length ≤ 3 → s.table p ≠ some n) ∧
    ∀ v ∈ programPages img, ∀ w ∈ programPages img, s.translate (v * 4096) = s.translate (w * 4096) → v = w := by
  obtain ⟨-, log, B, Q, hpages⟩ := loadElf_progress S C A
    (fun p hp => ⟨(hbelow p hp).mem.le, (hbelow p hp).file⟩) hframes h
  have D := loadElf_split D S C A hbelow h
  have hmem : ∀ v, v ∈ pagesOf log ↔ v ∈ programPages img := fun v => by rw [hpages, List.mem_reverse]
  have hlow : ∀ v ∈ programPages img, v < 2 ^ 35 := fun v hv => by
    rcases List.mem_append.mp hv with hv | hv
    · obtain ⟨p, hp, hv⟩ := List.mem_flatMap.mp hv
      have hB := (hbelow p hp).mem
      have hv := Phdr.mem_pages.mp hv
      omega
    · rw [List.mem_singleton.mp hv]
      decide
  have O := Q.ownFrames S
  have hmapped : ∀ v ∈ programPages img, v ∈ mappedPages s \ mappedPages s₀ := fun v hv => by
    refine ⟨(Q.mem_mappedPages S).mpr ⟨hlow v hv, (hmem v).mpr hv⟩, ?_⟩
    rw [mappedPages_started S]
    exact Set.notMem_empty v
  refine ⟨fun va hc => ?_, fun v hv => ?_, fun v hv w hw => O.distinct v (hmapped v hv) w (hmapped w hw)⟩
  · rw [← hmem]
    exact Q.reaches S D (fun v hv => hlow v ((hmem v).mp hv)) hc
  · obtain ⟨n, hn, h512, _, hfree, _, hspare⟩ := O.own v (hmapped v hv)
    exact ⟨n, hn, h512, hfree, hspare⟩

end

/-- CORRECT: from boot, whatever accepted file with segments below `2^47` lies in the kernel: if `load_elf` has
    frames for the pages of the program and gets to its `sysret`, user mode reaches the addresses of those
    pages and no others, and each page is a frame of its own that was free before the call and holds no
    page table. -/
theorem user_reaches_own_pages {m bm : Mem} {mmap : List MmapEntry} {s₀ s₁ s : Machine} {task : Task}
    {i elfData : ℕ} {img : List UInt8} {u : UserStart} (hboot : boot m bm mmap = some s₀)
    (hi : (pmmAlloc s₀.pmm).1 = i * 4096) (h0 : 0 < i) (hlt : i < 2 ^ 19) (hstart : startTask s₀ = .ok (s₁, task))
    (K : InKernel m elfData img) (A : Accepted img) (hbelow : ∀ p ∈ loads img, p.Below)
    (hframes : demand (programPages img) ≤ s₁.pmm.freeCount) (h : loadElf task elfData s₁ = .ok (s, .sysret u)) :
    (∀ va, Canonical va → (effective s va 2 = true ↔ va / 4096 ∈ programPages img)) ∧
    (∀ v ∈ programPages img, ∃ n, s.translate (v * 4096) = some (n * 4096) ∧ 512 ≤ n ∧
      s₁.pmm.used n = false ∧ ∀ p, p.length ≤ 3 → s.table p ≠ some n) ∧
    ∀ v ∈ programPages img, ∀ w ∈ programPages img, s.translate (v * 4096) = s.translate (w * 4096) → v = w := by
  rcases startTask_started hboot hi h0 hlt with ⟨t, task', pdpt, pd, pt, ht, S, _, hlow⟩ | ⟨⟨stop, hstop⟩, _⟩
  · rw [hstart] at ht
    obtain ⟨rfl, rfl⟩ := Prod.mk.inj (Except.ok.inj ht)
    exact (startTask_split hboot hi h0 hlt hstart S).loaded S (K.carries hlow) A hbelow hframes h
  · rw [hstart] at hstop
    cases hstop

/-- Memory with a file at `0x10000`. -/
def withFile (img : List UInt8) : Mem := fun x => bytes img (x - 0x10000)

theorem inKernel_withFile {img : List UInt8} (h : img.length ≤ 0x10000) :
    InKernel (withFile img) (KERNEL_BASE + 0x10000) img := by
  refine ⟨by omega, by omega, fun k hk => ?_⟩
  rw [withFile, show KERNEL_BASE + 0x10000 - KERNEL_BASE + k - 0x10000 = k by omega]

/-- The kernel's own program, on the machine with 64 MiB. -/
theorem user_reaches_own_pages_userProgram : ∃ s₀ s₁ task s u,
    boot (withFile userProgramElf) (fun _ => 0) smallMap = some s₀ ∧ startTask s₀ = .ok (s₁, task) ∧
    loadElf task (KERNEL_BASE + 0x10000) s₁ = .ok (s, .sysret u) ∧
    ∀ va, Canonical va → (effective s va 2 = true ↔ va / 4096 ∈ programPages userProgramElf) := by
  have K := inKernel_withFile (show userProgramElf.length ≤ 0x10000 by rw [length_userProgramElf]; omega)
  obtain ⟨s₀, i, s₁, task, pdpt, pd, pt, hboot, hi, h0, hlt, hs, S, hfree, hlow⟩ :=
    started_smallMap (withFile userProgramElf) fun _ => 0
  have hframes := demand_programPages.trans hfree
  obtain ⟨log, s, hl, _⟩ :=
    loadElf_total S (K.carries hlow) wellFormed_userProgramElf accepted_userProgramElf hframes
  refine ⟨s₀, s₁, task, s, _, hboot, hs, hl, (user_reaches_own_pages hboot hi h0 hlt hs K accepted_userProgramElf
    ?_ hframes hl).1⟩
  rw [loads_userProgramElf, List.forall_mem_singleton]
  exact ⟨by decide, by decide⟩

/-! ### `kernel_main` -/

/-- `kernel_main` from the task's setup on, with `user_program_elf` at `userProgram`. -/
def kernelMain (userProgram : ℕ) (s : Machine) : Except Stop (Machine × Outcome) := do
  let t ← startTask s
  loadElf t.2 userProgram t.1

theorem Phdr.WellFormed.toBelow {img : List UInt8} {p : Phdr} (W : p.WellFormed img) : p.Below := by
  have h1 := W.sizes
  have h2 := W.below
  simp only [userStack] at h2
  exact ⟨by omega, by omega⟩

/-- From boot on any memory map with frames for the task and for the pages of the program, a
    well-formed file whose segments are clear of each other is started at its entry point, with every
    byte of its segments in place and nothing but its pages in reach. -/
theorem kernelMain_starts {m bm : Mem} {mmap : List MmapEntry} {s₀ : Machine} {i elfData : ℕ} {img : List UInt8}
    (hboot : boot m bm mmap = some s₀) (hi : (pmmAlloc s₀.pmm).1 = i * 4096) (h0 : 0 < i) (hlt : i < 2 ^ 19)
    (K : InKernel m elfData img) (A : Accepted img) (hwf : ∀ p ∈ loads img, p.WellFormed img)
    (hclear : (loads img).Pairwise Phdr.Clear) (hframes : demand (programPages img) + 4 ≤ s₀.pmm.freeCount) :
    ∃ s, kernelMain elfData s₀ = .ok (s, .sysret ⟨userStack, userStack, eEntry img, 0⟩) ∧ Places img s ∧
      ∀ va, Canonical va → (effective s va 2 = true ↔ va / 4096 ∈ programPages img) := by
  rcases startTask_started hboot hi h0 hlt with ⟨s₁, task, pdpt, pd, pt, hs, S, hc, hlow⟩ | ⟨_, hc⟩
  · have C := K.carries hlow
    have hfree : demand (programPages img) ≤ s₁.pmm.freeCount := by omega
    obtain ⟨log, s, hl, _⟩ := loadElf_total S C hwf A hfree
    obtain ⟨s', u, hl', hplaces⟩ := loadElf_places S C A hwf hfree hclear
    rw [hl] at hl'
    obtain ⟨rfl, _⟩ := Prod.mk.inj (Except.ok.inj hl')
    refine ⟨s, ?_, hplaces, ?_⟩
    · rw [kernelMain, hs]
      exact hl
    · exact ((startTask_split hboot hi h0 hlt hs S).loaded S C A (fun p hp => (hwf p hp).toBelow) hfree hl).1
  · omega

end TerraOS.Elf
