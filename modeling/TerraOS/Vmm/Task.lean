import TerraOS.Vmm.Copy

/-! The task's address space.

    `kernel_main` copies the kernel's PML4 into a frame of its own and makes the copy the active one.
    From then on two roots share what lies under slot 511: the kernel's PML4 is outside the active tree,
    and the task's PML4 is reached through a page of slot 511. `Ready` is that state;
    `startTask_spec` says that `kernel_main` reaches it. -/

namespace TerraOS.Vmm
open Lib Lib.Word Pmm

section
variable {s s' : Machine} {pdpt pd pt : ℕ}

theorem Paged.not_kroot (P : Paged s pdpt pd pt) {n : ℕ} (hn : ∀ p, p.length ≤ 3 → s.table p ≠ some n)
    (hk : n ≠ s.kroot) : ¬ InWindow s pdpt pd pt n := by
  intro hin
  rcases P.inWindow_cases hin with h | ht | ⟨q, hq, ht⟩
  · exact hk h
  · exact hn _ (by simp) ht
  · exact hn q (by omega) ht

/-- Bytes written outside the tables. -/
theorem Paged.of_bytes (P : Paged s pdpt pd pt) {m : Mem}
    (hm : ∀ q n, q.length ≤ 3 → s.table q = some n → ∀ x, x / 4096 = n → m x = s.phys x)
    (hk : ∀ x, x / 4096 = s.kroot → m x = s.phys x) : Paged { s with phys := m } pdpt pd pt := by
  have htab := fun (q : List (Fin 512)) (hq : q.length ≤ 3) =>
    table_of_bytes hq fun r n hr => hm r n (show r.length ≤ 3 by omega)
  have same : ∀ n i, InWindow s pdpt pd pt n → ents m n i = ents s.phys n i := by
    intro n i hin
    by_cases h : n = s.kroot
    · exact ents_congr (fun x hx => hk x (h ▸ hx)) i
    · obtain ⟨q, hq, hn⟩ : ∃ q, q.length ≤ 3 ∧ s.table q = some n := by
        by_contra hno
        exact P.not_kroot (fun q hq hn => hno ⟨q, hq, hn⟩) h hin
      exact ents_congr (hm q n hq hn) i
  refine ⟨P.toWindow.of_agree rfl rfl (fun n i c hc hin _ => ?_) ?_, ⟨P.size, P.reserved, P.rootUsed⟩,
    fun q r n hq hr => ?_, fun q n hq => ?_, fun q hq => ?_, ?_⟩
  · rw [same n i hin]
    exact hc
  · obtain ⟨n, hn⟩ := P.temp
    exact ⟨n, by rw [same pt 511 (.inr (.inr (.inr (.inr rfl))))]; exact hn⟩
  · rw [htab q hq, htab r hr]
    exact P.inj q r n hq hr
  · rw [htab q hq]
    exact P.used q n hq
  · rw [htab q hq]
    exact P.nonzero q hq
  · refine P.kernel.imp id fun ⟨h1, h2⟩ => ⟨fun q hq => ?_, fun j hj => ?_⟩
    · rw [htab q hq]
      exact h1 q hq
    · show child (ents m s.kroot j) = none
      rw [same s.kroot j (.inr (.inl rfl))]
      exact h2 j hj

end

/-- The machine when `load_elf` is called, and between the calls of `map_page` it makes. -/
structure Ready (s : Machine) (task : Task) (pdpt pd pt : ℕ) : Prop extends Paged s pdpt pd pt where
  ctx_aligned : task.pml4t % 4096 = 0
  ctx_active : s.translate task.pml4t = some s.cr3
  ctx_high : 2 ^ 47 ≤ task.pml4t
  ctx_ne_temp : task.pml4t ≠ TEMP_PAGE
  separate : s.kroot ≠ s.root

section ready
variable {s : Machine} {task : Task} {pdpt pd pt : ℕ} (R : Ready s task pdpt pd pt)
include R

theorem Ready.ctx_canonical : Canonical task.pml4t := canonical_of_translate R.ctx_active

/-- The task's pointer reaches the active PML4. -/
theorem Ready.reaches (i : Fin 512) : Reaches s task.pml4t [] i := reaches_of_active R.ctx_aligned R.ctx_active i

/-- Edits that keep the invariant, the registers and the pointer's own leaf keep the task ready. -/
theorem Ready.of_paged {s' : Machine} (P : Paged s' pdpt pd pt) (hcr3 : s'.cr3 = s.cr3)
    (hptr : s'.pml4t = s.pml4t) (hwalk : walk s'.phys s'.root task.pml4t = walk s.phys s.root task.pml4t) :
    Ready s' task pdpt pd pt := by
  refine ⟨P, R.ctx_aligned, ?_, R.ctx_high, R.ctx_ne_temp, ?_⟩
  · have h := R.ctx_active
    unfold Machine.translate at h ⊢
    rw [hwalk, hcr3]
    exact h
  · rw [Machine.kroot, hptr, Machine.root, hcr3]
    exact R.separate

theorem Ready.ctx_page_ne_temp : task.pml4t / 4096 ≠ TEMP_PAGE / 4096 := by
  have h := R.ctx_ne_temp
  have ha := R.ctx_aligned
  simp only [TEMP_PAGE] at h ⊢
  omega

theorem Ready.withTemp {n : ℕ} (hn : n < 2 ^ 40) : Ready (withTemp s pt n) task pdpt pd pt :=
  R.of_paged (withTemp_paged R.toPaged hn) rfl rfl
    (withTemp_entry R.toPaged hn (p := path task.pml4t) (le_refl _)
      (by rw [← path_temp]; exact page_ne canonical_temp R.ctx_canonical R.ctx_page_ne_temp))

/-- A page of the lower half mapped keeps the task ready. -/
theorem Ready.mapped {s' : Machine} {flags va leaf : ℕ} (M : Mapped flags va leaf s s' pdpt pd pt)
    (hleaf : leaf < 2 ^ 64) (hc : Canonical va) (hne : task.pml4t / 4096 ≠ va / 4096) :
    Ready s' task pdpt pd pt :=
  R.of_paged M.paged M.cr3 M.pml4t (M.walk_eq hleaf hc R.ctx_canonical hne R.ctx_page_ne_temp)

end ready

/-- Nothing is mapped below `2^47` yet. -/
def LowerEmpty (s : Machine) : Prop := ∀ i : Fin 512, (i : ℕ) < 256 → s.entry [] i = none

/-- The machine when `load_elf` is called: nothing but slot 511 is mapped, the task's own page is
    reached through it, and the kernel's PML4 is not in page 0. -/
structure Started (s : Machine) (task : Task) (pdpt pd pt : ℕ) : Prop extends Ready s task pdpt pd pt where
  slots : ∀ i : Fin 512, i ≠ 511 → s.entry [] i = none
  ctx_top : index 39 task.pml4t = 511
  kernel_page : s.kroot ≠ 0

theorem Started.lowerEmpty {s : Machine} {task : Task} {pdpt pd pt : ℕ} (S : Started s task pdpt pd pt) :
    LowerEmpty s := fun i hi => S.slots i fun h => by
  rw [h] at hi
  exact absurd hi (by simp)

/-! ### Changing roots -/

section root
variable {s : Machine} {pdpt pd pt n : ℕ} (P : Paged s pdpt pd pt) (hkr : s.kroot = s.root)
  (hlt : n < 2 ^ 40) (h511 : 511 ≤ n) (hn : ∀ p, p.length ≤ 3 → s.table p ≠ some n)
  (hu : s.pmm.used n = true) (hcopy : ∀ i, ents s.phys n i = ents s.phys s.root i)
  (honly : ∀ i, i ≠ 511 → child (ents s.phys s.root i) = none)

include hlt hcopy

/-- Below the root the copy's tree is the old one. -/
theorem withRoot_table {p : List (Fin 512)} (hp : p ≠ []) :
    Machine.table { s with cr3 := n * 4096 } p = s.table p := by
  obtain ⟨i, p, rfl⟩ := List.exists_cons_of_ne_nil hp
  have hroot : Machine.root { s with cr3 := n * 4096 } = n := frame_page hlt
  rw [Machine.table, Machine.table, hroot, Radix.node, Radix.node]
  show (child (ents s.phys n i)).bind _ = _
  rw [hcopy]

theorem withRoot_entry (p : List (Fin 512)) (i : Fin 512) :
    Machine.entry { s with cr3 := n * 4096 } p i = s.entry p i := by
  have hroot : Machine.root { s with cr3 := n * 4096 } = n := frame_page hlt
  rcases eq_or_ne p [] with rfl | hp
  · rw [entry_of_table (Machine.table_nil s), entry_of_table (Machine.table_nil _), hroot]
    show (if ents s.phys n i &&& 0x1 = 0 then none else some (ents s.phys n i)) = _
    rw [hcopy]
  · exact entry_congr (withRoot_table hlt hcopy hp) fun _ _ => rfl

include P hkr h511 hn hu honly

theorem withRoot_paged : Paged { s with cr3 := n * 4096 } pdpt pd pt := by
  have hroot : Machine.root { s with cr3 := n * 4096 } = n := frame_page hlt
  have hk : s.kroot < 511 := P.low.1
  -- a path of the new tree leads to the copy, or where it led before
  have htab : ∀ p x, p.length ≤ 3 → Machine.table { s with cr3 := n * 4096 } p = some x →
      p = [] ∧ x = n ∨ p ≠ [] ∧ s.table p = some x := by
    intro p x hp h
    rcases eq_or_ne p [] with rfl | hne
    · rw [Machine.table_nil, hroot] at h
      exact .inl ⟨rfl, (Option.some.inj h).symm⟩
    · exact .inr ⟨hne, by rw [← withRoot_table hlt hcopy hne, h]⟩
  refine ⟨⟨P.ptr, ?_, P.klink4, P.link3, P.link2, P.leaf, P.temp, P.low, ?_, P.apart.2⟩,
    ⟨P.size, P.reserved, ?_⟩, fun p q x hp hq h₁ h₂ => ?_, fun p x hp h => ?_, fun p hp h => ?_, .inr ⟨?_, ?_⟩⟩
  · rw [hroot]
    show child (ents s.phys n 511) = _
    rw [hcopy, P.link4]
  · rw [hroot]
    have := P.low.2.2.2
    omega
  · rw [hroot]
    exact hu
  · rcases htab p x hp h₁ with ⟨rfl, rfl⟩ | ⟨_, k₁⟩
    · rcases htab q x hq h₂ with ⟨rfl, _⟩ | ⟨_, k₂⟩
      · rfl
      · exact absurd k₂ (hn q hq)
    · rcases htab q x hq h₂ with ⟨rfl, rfl⟩ | ⟨_, k₂⟩
      · exact absurd k₁ (hn p hp)
      · exact P.inj p q x hp hq k₁ k₂
  · rcases htab p x hp h with ⟨_, rfl⟩ | ⟨_, h⟩
    · exact hu
    · exact P.used p x hp h
  · rcases htab p 0 hp h with ⟨_, h0⟩ | ⟨_, h⟩
    · omega
    · exact P.nonzero p hp h
  · intro p hp h
    rcases htab p _ hp h with ⟨_, h0⟩ | ⟨hne, h⟩
    · have : s.kroot = n := h0
      omega
    · refine hne (P.inj p [] s.root hp (by simp) ?_ rfl)
      rw [h]
      exact congrArg some hkr
  · intro i hi
    show child (ents s.phys s.kroot i) = none
    rw [hkr]
    exact honly i hi

end root

/-! ### `kernel_main` up to `load_elf` -/

/-- A page copied onto another. -/
theorem copied_page (m : Mem) (i r x : ℕ) : copied m (i * 4096 + ·) (r * 4096 + ·) 0x1000 x
    = if x / 4096 = i then m (r * 4096 + x % 4096) else m x := by
  split
  · rename_i hx
    have hx' : x = i * 4096 + x % 4096 := by omega
    have h := @copied_at m (i * 4096 + ·) (r * 4096 + ·) 0x1000 (x % 4096) (by omega) fun j hj hne => by
      show i * 4096 + j ≠ i * 4096 + x % 4096
      omega
    rw [← hx'] at h
    exact h
  · exact copied_out fun k hk => by
      show i * 4096 + k ≠ x
      omega

/-- After boot only slot 511 of the PML4 is present. -/
theorem boot_slots {s : Machine} {n : ℕ} (T : FourTables s.phys n) (hr : s.root = n) {i : Fin 512}
    (hi : i ≠ 511) : s.entry [] i = none := by
  have hne : ¬ (i : ℕ) = 511 := fun h => hi (Fin.ext h)
  rw [entry_of_table (Machine.table_nil s), hr, T.pml4, if_neg hne]
  rfl

/-- The page that is to hold the task's PML4, mapped at its window address. -/
structure HoldsTask (s : Machine) (i pdpt pd pt : ℕ) : Prop extends Paged s pdpt pd pt where
  active : s.kroot = s.root
  cr3 : s.cr3 = s.root * 4096
  mapped : s.entry (path (KERNEL_BASE + i * 4096)) (index 12 (KERNEL_BASE + i * 4096))
    = some (i * 4096 ||| 0x3)
  spare : ∀ p, p.length ≤ 3 → s.table p ≠ some i
  held : s.pmm.used i = true
  slots : ∀ j, j ≠ 511 → s.entry [] j = none

section start
variable {s : Machine} {i pdpt pd pt : ℕ} (H : HoldsTask s i pdpt pd pt) (h512 : 512 ≤ i)
  (hlt : i < 2 ^ 19)

include h512 hlt in
theorem taskPage_canonical : Canonical (KERNEL_BASE + i * 4096) := by
  unfold Canonical
  simp only [KERNEL_BASE]
  omega

include h512 hlt in
theorem taskPage_path : path (KERNEL_BASE + i * 4096) ≠ windowPath :=
  path_ne_window (taskPage_canonical h512 hlt) (by simp only [KERNEL_BASE, KERNEL_END]; omega)

include h512 hlt in
theorem taskPage_top : index 39 (KERNEL_BASE + i * 4096) = 511 :=
  index_eq (show _ = 511 by simp only [KERNEL_BASE]; omega)

include H h512 hlt

theorem HoldsTask.translate (k : ℕ) (hk : k < 4096) :
    s.translate (KERNEL_BASE + i * 4096 + k) = some (i * 4096 + k) := by
  refine translate_add (by simp only [KERNEL_BASE]; omega) hk ?_
  rw [translate_of_walk (taskPage_canonical h512 hlt) H.mapped, (child_eq_some.mp (child_three (by omega))).2]
  simp only [KERNEL_BASE, Option.some.injEq]
  omega

theorem HoldsTask.copy : memcpy pagedBus s (KERNEL_BASE + i * 4096) s.pml4t 0x1000
    = .ok { s with phys := copied s.phys (i * 4096 + ·) (s.root * 4096 + ·) 0x1000 } := by
  have hk := H.low.1
  have hpage : ∀ k < 0x1000, (i * 4096 + k) / 4096 = i := fun k hk => by omega
  have hspare : ∀ k < 0x1000, ∀ q : List (Fin 512), q.length ≤ 3 → s.table q ≠ some ((i * 4096 + k) / 4096) :=
    fun k hk q hq => by rw [hpage k hk]; exact H.spare q hq
  have hwin : ∀ k < 0x1000, s.translate (KERNEL_BASE + s.kroot * 4096 + k) = some (s.root * 4096 + k) :=
    fun k hk' => by rw [Nat.add_assoc, H.toWindow.translate (by omega), ← H.active]
  have h := @memcpy_paged s (KERNEL_BASE + i * 4096) (KERNEL_BASE + s.kroot * 4096) 0x1000 (i * 4096 + ·)
    (s.root * 4096 + ·) (by simp only [KERNEL_BASE]; omega) (by simp only [KERNEL_BASE]; omega) (by omega)
    (steady_of_spared (H.translate h512 hlt) hspare) (steady_of_spared hwin hspare)
    fun k hk' j hj => by
      show i * 4096 + j ≠ s.root * 4096 + k
      rw [← H.active]
      omega
  rwa [← H.ptr] at h

/-- The page that holds the copy, byte by byte. -/
def taskCopy (s : Machine) (i : ℕ) : Mem := copied s.phys (i * 4096 + ·) (s.root * 4096 + ·) 0x1000

omit H h512 hlt in
theorem taskCopy_bytes (s : Machine) (i x : ℕ) : taskCopy s i x
    = if x / 4096 = i then s.phys (s.root * 4096 + x % 4096) else s.phys x := copied_page s.phys i s.root x

omit H h512 hlt in
theorem taskCopy_out {x : ℕ} (hx : x / 4096 ≠ i) : taskCopy s i x = s.phys x := by
  rw [taskCopy_bytes, if_neg hx]

omit h512 hlt in
/-- The copy writes one page, which is no table. -/
theorem HoldsTask.spared : ∀ q n, q.length ≤ 3 → s.table q = some n → ∀ x, x / 4096 = n →
    taskCopy s i x = s.phys x :=
  fun q n hq hn x hx => taskCopy_out fun he => H.spare q hq (by rw [hn, ← hx, he])

omit hlt in
theorem HoldsTask.copied_paged : Paged { s with phys := taskCopy s i } pdpt pd pt := by
  have hk := H.low.1
  exact H.toPaged.of_bytes H.spared fun x hx => taskCopy_out (by omega)

omit h512 hlt in
theorem HoldsTask.copied_table {q : List (Fin 512)} (hq : q.length ≤ 3) :
    Machine.table { s with phys := taskCopy s i } q = s.table q :=
  table_of_bytes hq fun r n hr => H.spared r n (by omega)

omit h512 hlt in
theorem HoldsTask.copied_entry {q : List (Fin 512)} {j : Fin 512} (hq : q.length ≤ 3) :
    Machine.entry { s with phys := taskCopy s i } q j = s.entry q j := entry_of_bytes hq H.spared

omit h512 hlt in
/-- The copy has the kernel's entries. -/
theorem HoldsTask.copied_ents (j : Fin 512) :
    ents (taskCopy s i) i j = ents (taskCopy s i) s.root j := by
  have hri : s.root ≠ i := fun h => H.spare [] (by simp) (congrArg some h)
  have hbyte : ∀ b < 8, taskCopy s i (i * 4096 + 8 * j + b) = s.phys (s.root * 4096 + 8 * j + b) := fun b hb => by
    rw [taskCopy_bytes, if_pos (by omega), show (i * 4096 + 8 * (j : ℕ) + b) % 4096 = 8 * j + b by omega,
      Nat.add_assoc]
  have hroot : ents (taskCopy s i) s.root j = ents s.phys s.root j :=
    ents_congr (fun x hx => taskCopy_out (by omega)) j
  rw [hroot]
  unfold ents Mem.load64
  exact Mem.loadLE_congr hbyte

/-- The copy made, the machine is ready for the task under the task's root. -/
theorem HoldsTask.copied_ready :
    Ready { s with phys := taskCopy s i, cr3 := i * 4096 } ⟨KERNEL_BASE + i * 4096⟩ pdpt pd pt := by
  have hk := H.low.1
  have h40 : i < 2 ^ 40 := by omega
  have honly : ∀ j, j ≠ 511 → child (ents (taskCopy s i) s.root j) = none := fun j hj => by
    have h := H.copied_entry (q := []) (j := j) (by simp)
    rw [H.slots j hj] at h
    exact child_none_of_entry (s := { s with phys := taskCopy s i }) rfl h
  have hmapped : Machine.entry { s with phys := taskCopy s i, cr3 := i * 4096 }
      (path (KERNEL_BASE + i * 4096)) (index 12 (KERNEL_BASE + i * 4096)) = some (i * 4096 ||| 0x3) := by
    have h := withRoot_entry (s := { s with phys := taskCopy s i }) h40 H.copied_ents
      (path (KERNEL_BASE + i * 4096)) (index 12 (KERNEL_BASE + i * 4096))
    rw [H.copied_entry (by simp [path]), H.mapped] at h
    exact h
  have P := withRoot_paged (H.copied_paged h512) H.active h40 (by omega)
    (fun p hp => by rw [H.copied_table hp]; exact H.spare p hp) H.held H.copied_ents honly
  refine ⟨P, ?_, ?_, ?_, ?_, ?_⟩
  · simp only [KERNEL_BASE]
    omega
  · rw [translate_of_walk (taskPage_canonical h512 hlt) hmapped, (child_eq_some.mp (child_three h40)).2]
    simp only [KERNEL_BASE, Option.some.injEq]
    omega
  · simp only [KERNEL_BASE]
    omega
  · simp only [KERNEL_BASE, TEMP_PAGE]
    omega
  · show s.kroot ≠ frame (i * 4096)
    rw [frame_page h40]
    omega

omit h512 in
theorem HoldsTask.copied_slots {j : Fin 512} (hj : j ≠ 511) :
    Machine.entry { s with phys := taskCopy s i, cr3 := i * 4096 } [] j = none := by
  have h := withRoot_entry (s := { s with phys := taskCopy s i }) (show i < 2 ^ 40 by omega) H.copied_ents [] j
  rw [H.copied_entry (by simp)] at h
  exact h.trans (H.slots j hj)

/-- The machine `kernel_main` hands to `load_elf`. -/
theorem HoldsTask.start (hk0 : s.kroot ≠ 0) : ∃ s', (do
      let s ← memcpy pagedBus s (KERNEL_BASE + i * 4096) s.pml4t 0x1000
      let a ← getPhysicalAddress s s.pml4t (KERNEL_BASE + i * 4096)
      Except.ok ({ a.2 with cr3 := a.1 }, (⟨KERNEL_BASE + i * 4096⟩ : Task))) =
        .ok (s', ⟨KERNEL_BASE + i * 4096⟩) ∧
    Started s' ⟨KERNEL_BASE + i * 4096⟩ pdpt pd pt ∧ s'.pmm = s.pmm ∧
    (∀ x, x / 4096 ≠ i → x / 4096 ≠ pt → s'.phys x = s.phys x) ∧
    ∀ p n, p.length ≤ 3 → s'.table p = some n → n = i ∨ s.table p = some n := by
  have hk := H.low.1
  have h40 : i < 2 ^ 40 := by omega
  have P₃ := H.copied_paged h512
  rw [H.copy h512 hlt, ok_bind]
  change ∃ s', (getPhysicalAddress { s with phys := taskCopy s i } s.pml4t _ >>= _) = _ ∧ _
  have hctx : Points { s with phys := taskCopy s i } s.pml4t s.kroot := by
    have h := P₃.toWindow.points hk
    rwa [← H.ptr] at h
  obtain ⟨c, hc, hget⟩ := getPhysicalAddress_spec P₃ (taskPage_path h512 hlt)
    ⟨s.kroot, hctx, .inl (congrArg some H.active.symm)⟩ (by rw [H.copied_entry (by simp [path]), H.mapped])
  rw [(child_eq_some.mp (child_three h40)).2,
    show (KERNEL_BASE + i * 4096) % 4096 = 0 by simp only [KERNEL_BASE]; omega, Nat.add_zero] at hget
  have R := H.copied_ready h512 hlt
  have hroot : Machine.root { s with phys := taskCopy s i, cr3 := i * 4096 } = i := frame_page h40
  refine ⟨withTemp { s with phys := taskCopy s i, cr3 := i * 4096 } pt c, by rw [hget]; rfl,
    ⟨R.withTemp hc, fun j hj => ?_, taskPage_top h512 hlt, hk0⟩, rfl, fun x hx hx' => ?_, fun p n hp hn => ?_⟩
  · rw [withTemp_entry R.toPaged hc (by simp) (by simp)]
    exact H.copied_slots hlt hj
  · rw [withTemp_bytes _ _ _ hx']
    exact taskCopy_out hx
  · rw [withTemp_table R.toPaged hc hp] at hn
    rcases eq_or_ne p [] with rfl | hne
    · rw [Machine.table_nil, hroot] at hn
      exact .inl (Option.some.inj hn).symm
    · have h := withRoot_table (s := { s with phys := taskCopy s i }) h40 H.copied_ents hne
      rw [H.copied_table hp] at h
      exact .inr (h.symm.trans hn)

end start

/-- After the task's page is mapped. -/
theorem boot_holdsTask {s₀ s : Machine} {n i : ℕ} {p : Pmm} (P : Paged s₀ (n + 1) (n + 2) (n + 3))
    (hr : s₀.root = n) (hk : s₀.kroot = n) (hcr3 : s₀.cr3 = n * 4096) (T : FourTables s₀.phys n)
    (hsize : p.memBitmapBitSize = s₀.pmm.memBitmapBitSize) (hold : s₀.pmm.used i = false)
    (hused : p.used i = true) (h512 : 512 ≤ i) (hlt : i < 2 ^ 19)
    (M : Mapped 0x3 (KERNEL_BASE + i * 4096) (i * 4096 ||| 0x3) { s₀ with pmm := p } s (n + 1) (n + 2) (n + 3)) :
    HoldsTask s i (n + 1) (n + 2) (n + 3) := by
  have hleaf : i * 4096 ||| 0x3 < 2 ^ 64 := entry_lt (by omega) (by decide)
  obtain ⟨g, G, hent, htab, hpmm⟩ := M.upper hleaf
  have hroot : s.root = n := by rw [Machine.root, M.cr3]; exact hr
  refine ⟨M.paged, ?_, ?_, M.entry_self hleaf ?_, fun q hq hq' => ?_, ?_, fun j hj => ?_⟩
  · rw [hroot, Machine.kroot, M.pml4t]
    exact hk
  · rw [hroot, M.cr3]
    exact hcr3
  · exact (child_eq_some.mp (child_three (show i < 2 ^ 40 by omega))).1
  · rw [htab q hq] at hq'
    rcases G.table_or_free (by rw [hsize]; exact P.size) (flagBits_of_lt (by decide)) hq hq' with h | ⟨_, h⟩
    · exact P.table_ne_free hold hq h
    · rw [hused] at h
      cases h
  · rw [hpmm]
    exact G.used hused
  · rw [hent [] j (by simp)]
    cases h : g.entry [] j with
    | none => rfl
    | some e =>
      rcases G.made [] j e (by simp) h with h' | ⟨_, hπ, _⟩
      · rw [show Machine.entry { s₀ with pmm := p } [] j = s₀.entry [] j from rfl, boot_slots T hr hj] at h'
        cases h'
      · obtain ⟨t, ht⟩ := hπ
        rw [List.nil_append, List.singleton_append, path, taskPage_top h512 hlt] at ht
        exact absurd (List.cons.inj ht).1 hj

theorem taskPage_eq {i : ℕ} (hlt : i < 2 ^ 19) : add64 (i * 4096) KERNEL_BASE = KERNEL_BASE + i * 4096 := by
  rw [add64_of_lt (by simp only [KERNEL_BASE]; omega), Nat.add_comm]

/-- From boot, with the first free frame below 2 GiB, the frame is mapped at its window address, or
    there is no frame for the tables that takes. -/
theorem boot_mapsTask {m bm : Mem} {mmap : List MmapEntry} {s₀ : Machine} (hboot : boot m bm mmap = some s₀)
    {i : ℕ} (hi : (pmmAlloc s₀.pmm).1 = i * 4096) (h0 : 0 < i) (hlt : i < 2 ^ 19) :
    512 ≤ i ∧ ((∃ s pdpt pd pt, mapPage { s₀ with pmm := (pmmAlloc s₀.pmm).2 } s₀.pml4t (KERNEL_BASE + i * 4096)
        (i * 4096) 0x3 = .ok s ∧ HoldsTask s i pdpt pd pt ∧ s.kroot ≠ 0 ∧
      s₀.pmm.freeCount ≤ s.pmm.freeCount + 4 ∧
      ∀ x, x / 4096 < 32 → s.phys x = m x ∧ ∀ p, p.length ≤ 3 → s.table p ≠ some (x / 4096)) ∨
    (∃ stop, mapPage { s₀ with pmm := (pmmAlloc s₀.pmm).2 } s₀.pml4t (KERNEL_BASE + i * 4096)
        (i * 4096) 0x3 = .error stop) ∧ s₀.pmm.freeCount ≤ 3) := by
  obtain ⟨n, P, hr, hk, hcr3, h511, T, h32, hbytes⟩ := boot_spec hboot
  rcases P.toFrames.ok.alloc with ⟨_, ha⟩ | ⟨i', _, hsz, hu, _, ha⟩
  · rw [ha] at hi
    simp only at hi
    omega
  obtain rfl : i' = i := by rw [ha] at hi; simp only at hi; omega
  obtain ⟨h512, _, h40⟩ := P.free hsz hu
  rw [ha]
  dsimp only
  -- the allocator with the task's frame taken
  generalize hp : ({ s₀.pmm with memBitmap := Bits.set s₀.pmm.memBitmap i' } : Pmm) = p at ha
  have hsize : p.memBitmapBitSize = s₀.pmm.memBitmapBitSize := by rw [← hp]
  have hset : ∀ c, p.used c = (decide (c = i') || s₀.pmm.used c) := fun c => by
    rw [← hp]
    exact Bits.bit_set _ _ _
  have hcount : p.freeCount + 1 = s₀.pmm.freeCount := by rw [← hp]; exact freeCount_set hsz hu
  have P₁ : Paged { s₀ with pmm := p } (n + 1) (n + 2) (n + 3) :=
    P.withPmm hsize fun c hc => by rw [hset, hc, Bool.or_true]
  have hctx : Points { s₀ with pmm := p } s₀.pml4t s₀.kroot := by
    have h := P₁.toWindow.points P.low.1
    rwa [← P.ptr] at h
  have hreach : Reaches { s₀ with pmm := p } s₀.pml4t [] (index 39 (KERNEL_BASE + i' * 4096)) :=
    ⟨s₀.kroot, hctx, .inl (congrArg some (hr.trans hk.symm))⟩
  refine ⟨h512, ?_⟩
  rcases mapPage_spec P₁ hreach (taskPage_path h512 hlt)
    (flagBits_of_lt (show 0x3 < 4096 by decide)) (show i' * 4096 < 2 ^ 64 by omega) with
    ⟨s₂, hs₂, M, hc₂⟩ | ⟨g, hg, _, _, hc⟩
  · left
    have hleaf : i' * 4096 ||| 0x3 < 2 ^ 64 := entry_lt (by omega) (by decide)
    -- a table is one of boot's four, or in a frame the allocator had
    have hhigh : ∀ q x, q.length ≤ 3 → s₂.table q = some x → 32 ≤ x := fun q x hq hx => by
      obtain ⟨g, G, _, htab, _⟩ := M.upper hleaf
      rw [htab q hq] at hx
      rcases G.table_or_free P₁.size (flagBits_of_lt (by decide)) hq hx with h | ⟨_, h⟩
      · have := T.table_cases (by omega) hr hq h
        omega
      · by_contra hlow
        rw [P₁.reserved x (by omega)] at h
        cases h
    refine ⟨s₂, _, _, _, hs₂, boot_holdsTask P hr hk hcr3 T hsize hu (by rw [hset]; simp) h512 hlt M, ?_, ?_,
      fun x hx => ⟨?_, fun q hq h => ?_⟩⟩
    · have hkroot : s₂.kroot = n := by
        rw [Machine.kroot, M.pml4t]
        exact hk
      omega
    · simp only at hc₂
      omega
    · rw [M.bytes hleaf fun q hq h => ?_]
      · exact hbytes x (by omega)
      · have := hhigh q _ hq h
        omega
    · have := hhigh q _ hq h
      omega
  · exact .inr ⟨⟨_, hg⟩, by simp only at hc; omega⟩

/-- CORRECT: from boot, with the first free frame below 2 GiB, `kernel_main` comes to `load_elf` with
    the task's address space in place and nothing in its lower half, or panics for want of frames. -/
theorem startTask_started {m bm : Mem} {mmap : List MmapEntry} {s₀ : Machine} (hboot : boot m bm mmap = some s₀)
    {i : ℕ} (hi : (pmmAlloc s₀.pmm).1 = i * 4096) (h0 : 0 < i) (hlt : i < 2 ^ 19) :
    (∃ s task pdpt pd pt, startTask s₀ = .ok (s, task) ∧ Started s task pdpt pd pt ∧
      s₀.pmm.freeCount ≤ s.pmm.freeCount + 4 ∧
      ∀ x, x / 4096 < 32 → s.phys x = m x ∧ ∀ p, p.length ≤ 3 → s.table p ≠ some (x / 4096)) ∨
    (∃ stop, startTask s₀ = .error stop) ∧ s₀.pmm.freeCount ≤ 3 := by
  obtain ⟨h512, hcase⟩ := boot_mapsTask hboot hi h0 hlt
  unfold startTask
  dsimp only
  rw [hi, taskPage_eq hlt]
  rcases hcase with ⟨s₂, pdpt, pd, pt, hs₂, H, hk0, hc₂, hlow⟩ | ⟨⟨stop, hs⟩, hc⟩
  · left
    obtain ⟨s', hs', S, hpmm, hb, ht⟩ := H.start h512 hlt hk0
    have hpt : 32 ≤ pt := by
      by_contra h
      exact (hlow (pt * 4096) (by omega)).2 windowPath (by simp)
        (by rw [H.table_window, Nat.mul_div_cancel _ (by decide)])
    refine ⟨s', _, _, _, _, by rw [hs₂]; exact hs', S, by rw [hpmm]; exact hc₂,
      fun x hx => ⟨?_, fun q hq h => ?_⟩⟩
    · rw [hb x (by omega) (by omega)]
      exact (hlow x hx).1
    · rcases ht q _ hq h with h | h
      · omega
      · exact (hlow x hx).2 q hq h
  · exact .inr ⟨⟨stop, by rw [hs]; rfl⟩, hc⟩

theorem startTask_spec {m bm : Mem} {mmap : List MmapEntry} {s₀ : Machine} (hboot : boot m bm mmap = some s₀)
    {i : ℕ} (hi : (pmmAlloc s₀.pmm).1 = i * 4096) (h0 : 0 < i) (hlt : i < 2 ^ 19) :
    (∃ s task pdpt pd pt, startTask s₀ = .ok (s, task) ∧ Ready s task pdpt pd pt ∧ LowerEmpty s ∧
      s₀.pmm.freeCount ≤ s.pmm.freeCount + 4 ∧
      ∀ x, x / 4096 < 32 → s.phys x = m x ∧ ∀ p, p.length ≤ 3 → s.table p ≠ some (x / 4096)) ∨
    (∃ stop, startTask s₀ = .error stop) ∧ s₀.pmm.freeCount ≤ 3 :=
  (startTask_started hboot hi h0 hlt).imp_left fun ⟨s, task, pdpt, pd, pt, hs, S, hc, hb⟩ =>
    ⟨s, task, pdpt, pd, pt, hs, S.toReady, S.lowerEmpty, hc, hb⟩

/-- The machine with 64 MiB comes to `load_elf`, with most of its memory free. -/
theorem started_smallMap (m bm : Mem) : ∃ s₀ i s task pdpt pd pt, boot m bm smallMap = some s₀ ∧
    (pmmAlloc s₀.pmm).1 = i * 4096 ∧ 0 < i ∧ i < 2 ^ 19 ∧ startTask s₀ = .ok (s, task) ∧
    Started s task pdpt pd pt ∧ 15000 ≤ s.pmm.freeCount ∧
    ∀ x, x / 4096 < 32 → s.phys x = m x ∧ ∀ p, p.length ≤ 3 → s.table p ≠ some (x / 4096) := by
  obtain ⟨s₀, hboot, hfree⟩ := boot_smallMap m bm
  obtain ⟨n, P, _⟩ := boot_spec hboot
  have hcount : 15872 ≤ s₀.pmm.freeCount := le_freeCount (a := 512) fun i h1 h2 => hfree i h1 (by omega)
  obtain ⟨h512, hu⟩ := hfree 512 (by omega) (by omega)
  rcases P.toFrames.ok.alloc with ⟨hall, _⟩ | ⟨i, h0, _, _, hleast, ha⟩
  · rw [hall 512 h512] at hu
    cases hu
  have hi : i ≤ 512 := by
    by_contra hlt
    rw [hleast 512 (by omega)] at hu
    cases hu
  rcases startTask_started hboot (i := i) (by rw [ha]) h0 (by omega) with
    ⟨s, task, pdpt, pd, pt, hs, S, hc, hb⟩ | ⟨_, hc⟩
  · exact ⟨s₀, i, s, task, pdpt, pd, pt, hboot, by rw [ha], h0, by omega, hs, S, by omega, hb⟩
  · omega

theorem task_smallMap (m bm : Mem) : ∃ s₀ i s task pdpt pd pt, boot m bm smallMap = some s₀ ∧
    (pmmAlloc s₀.pmm).1 = i * 4096 ∧ 0 < i ∧ i < 2 ^ 19 ∧ startTask s₀ = .ok (s, task) ∧
    Ready s task pdpt pd pt ∧ LowerEmpty s ∧ 15000 ≤ s.pmm.freeCount ∧
    ∀ x, x / 4096 < 32 → s.phys x = m x ∧ ∀ p, p.length ≤ 3 → s.table p ≠ some (x / 4096) := by
  obtain ⟨s₀, i, s, task, pdpt, pd, pt, hboot, hi, h0, hlt, hs, S, h⟩ := started_smallMap m bm
  exact ⟨s₀, i, s, task, pdpt, pd, pt, hboot, hi, h0, hlt, hs, S.toReady, S.lowerEmpty, h⟩

end TerraOS.Vmm
