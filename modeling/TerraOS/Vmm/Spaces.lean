import TerraOS.Vmm.Task

/-! The kernel's and the task's address spaces.

    Each has a PML4 of its own; what lies under slot 511 they share, and the kernel's PML4 has nothing
    else. Every address the kernel edits tables through is in slot 511, so an edit is the same whichever
    PML4 `CR3` holds (`mapPage_under`), and `Ready`, stated of the machine with the task's PML4
    loaded, says all there is to say of both spaces (`spaces_agree`). -/

namespace TerraOS.Vmm
open Lib Lib.Word Pmm

/-- The machine with another `CR3`. -/
def under (c : ℕ) (s : Machine) : Machine := { s with cr3 := c }

theorem under_under (c d : ℕ) (s : Machine) : under c (under d s) = under c s := rfl

theorem under_kroot (c : ℕ) (s : Machine) : (under c s).kroot = s.kroot := rfl

theorem under_withTemp (c : ℕ) (s : Machine) (pt n : ℕ) :
    under c (withTemp s pt n) = withTemp (under c s) pt n := rfl

theorem under_withTable (c : ℕ) (s : Machine) (pt f : ℕ) (i : Fin 512) (g flags : ℕ) :
    under c (withTable s pt f i g flags) = withTable (under c s) pt f i g flags := rfl

theorem v2p_kernel {n : ℕ} (hn : n < 511) : v2p (KERNEL_BASE + n * 4096) = n * 4096 := by
  rw [v2p, sub64_of_le] <;> simp only [KERNEL_BASE] <;> omega

section
variable {s s' : Machine} {pdpt pd pt va f flags c : ℕ} {p : List (Fin 512)} {i : Fin 512}

/-- Under slot 511 the two trees are one. -/
theorem Window.node_shared (W : Window s pdpt pd pt) (p : List (Fin 512)) :
    Radix.node child (ents s.phys) s.kroot (511 :: p) = Radix.node child (ents s.phys) s.root (511 :: p) := by
  rw [Radix.node, Radix.node, W.link4, W.klink4]

theorem Window.walk_shared (W : Window s pdpt pd pt) (hva : index 39 va = 511) :
    walk s.phys s.kroot va = walk s.phys s.root va := by
  unfold walk entryAt path
  rw [hva, W.node_shared]

section kernel
variable (hc : frame c = s.kroot)
include hc

theorem Window.translate_under (W : Window s pdpt pd pt) (hva : index 39 va = 511) :
    (under c s).translate va = s.translate va := by
  have hroot : (under c s).root = s.kroot := hc
  unfold Machine.translate
  rw [hroot, ← W.walk_shared hva]
  rfl

theorem Window.under (W : Window s pdpt pd pt) : Window (under c s) pdpt pd pt := by
  have hroot : (Vmm.under c s).root = s.kroot := hc
  refine ⟨W.ptr, ?_, W.klink4, W.link3, W.link2, W.leaf, W.temp, W.low, ?_, W.apart.2⟩
  · rw [hroot]
    exact W.klink4
  · rw [hroot]
    exact W.apart.2

theorem Paged.frames_under (P : Paged s pdpt pd pt) : Frames (under c s) := by
  have hroot : (under c s).root = s.kroot := hc
  refine ⟨P.size, P.reserved, ?_⟩
  rw [hroot]
  exact P.reserved _ (lt_trans P.low.1 (by decide))

/-- One level of `map_page` does the same under both. -/
theorem nextTable_under (P : Paged s pdpt pd pt) {table : ℕ} (hp : Points s table f)
    (hp' : Points (under c s) table f) (hflags : FlagBits flags) :
    (∃ t, nextTable s table i flags = .ok t ∧ nextTable (under c s) table i flags = .ok (under c t)) ∨
    (∃ e, nextTable s table i flags = .error e) ∧ ∃ e, nextTable (under c s) table i flags = .error e := by
  have hk := nextTable_spec (P.toWindow.under hc) (P.frames_under hc) (i := i) hp' hflags
  rcases nextTable_spec P.toWindow P.toFrames (i := i) hp hflags with
    ⟨g, hc, h⟩ | ⟨hc, hall, h⟩ | ⟨g, hc, hlt, hu, hpmm, h⟩
  · rcases hk with ⟨g', hc', h'⟩ | ⟨hc', _⟩ | ⟨_, hc', _⟩
    · have hg : g' = g := Option.some.inj (hc'.symm.trans hc)
      exact .inl ⟨_, h, by rw [h', hg, under_withTemp]⟩
    · exact absurd (hc'.symm.trans hc) (by simp)
    · exact absurd (hc'.symm.trans hc) (by simp)
  · rcases hk with ⟨_, hc', _⟩ | ⟨_, _, h'⟩ | ⟨g', _, hlt', hu', _⟩
    · exact absurd (hc'.symm.trans hc) (by simp)
    · exact .inr ⟨⟨_, h⟩, _, h'⟩
    · have hu' : s.pmm.used g' = false := hu'
      rw [hall g' hlt'] at hu'
      cases hu'
  · rcases hk with ⟨_, hc', _⟩ | ⟨_, hall', _⟩ | ⟨g', _, _, _, hpmm', h'⟩
    · exact absurd (hc'.symm.trans hc) (by simp)
    · rw [show s.pmm.used g = true from hall' g hlt] at hu
      cases hu
    · have hg : g' = g := by
        have := congrArg Prod.fst (hpmm'.symm.trans hpmm)
        simp only at this
        omega
      exact .inl ⟨_, h, by rw [h', hg, under_withTable]⟩

/-- A level that returns under the one returns under the other, with the table it leads to under
    `TEMP_PAGE` for both. -/
theorem level_under (P : Paged s pdpt pd pt) {table : ℕ} {t' : Machine} {π : List (Fin 512)}
    (htbl : Reaches s table p i) (hboth : ∀ f, Points s table f → Points (under c s) table f) (hp : p.length ≤ 2)
    (hflags : FlagBits flags) (hπ : p ++ [i] <+: π) (h : nextTable (under c s) table i flags = .ok t') :
    ∃ t g, nextTable s table i flags = .ok t ∧ t' = under c t ∧ Paged t pdpt pd pt ∧ frame c = t.kroot ∧
      Grown flags π s t ∧ t.table (p ++ [i]) = some g ∧ child (ents t.phys pt 511) = some g := by
  obtain ⟨f, hpt, _⟩ := id htbl
  rcases nextTable_under (i := i) hc P hpt (hboth f hpt) hflags with ⟨t, ht, ht'⟩ | ⟨_, e, he⟩
  · rcases nextTable_grows P htbl hp hflags hπ with ⟨t₁, g, h₁, P₁, G, htab, hm, _⟩ | ⟨_, _, h₁⟩
    · rw [ht] at h₁
      obtain rfl := Except.ok.inj h₁
      rw [h] at ht'
      exact ⟨t, g, ht, Except.ok.inj ht', P₁, by rw [G.kroot, hc], G, htab, hm⟩
    · rw [ht] at h₁
      cases h₁
  · rw [h] at he
    cases he

theorem points_temp_under (P : Paged s pdpt pd pt) {g : ℕ} (hm : child (ents s.phys pt 511) = some g) {n : ℕ}
    (h : Points s TEMP_PAGE n) : Points (under c s) TEMP_PAGE n := by
  have hk := (P.toWindow.under hc).points_temp hm
  have hn : n = g := by
    have := (h 0).symm.trans (P.toWindow.points_temp hm 0)
    have := Option.some.inj this
    omega
  rw [hn]
  exact hk

/-- `map_page` does the same under both. -/
theorem mapPage_under (P : Paged s pdpt pd pt) {ctx pa : ℕ} {t' : Machine}
    (hctx : Reaches s ctx [] (index 39 va)) (hboth : ∀ f, Points s ctx f → Points (under c s) ctx f)
    (hflags : FlagBits flags) (h : mapPage (under c s) ctx va pa flags = .ok t') :
    ∃ t, mapPage s ctx va pa flags = .ok t ∧ t' = under c t := by
  unfold mapPage at h ⊢
  obtain ⟨u₁, h₁, h⟩ := bind_eq_ok.mp h
  obtain ⟨t₁, g₁, e₁, rfl, P₁, hc₁, G₁, tab₁, m₁⟩ := level_under hc P hctx hboth (by simp) hflags
    (π := path va) ⟨_, rfl⟩ h₁
  obtain ⟨u₂, h₂, h⟩ := bind_eq_ok.mp h
  obtain ⟨t₂, g₂, e₂, rfl, P₂, hc₂, G₂, tab₂, m₂⟩ := level_under hc₁ P₁ (reaches_temp P₁ tab₁ m₁ (index 30 va))
    (fun _ => points_temp_under hc₁ P₁ m₁) (by simp) hflags (π := path va) ⟨_, rfl⟩ h₂
  obtain ⟨u₃, h₃, h⟩ := bind_eq_ok.mp h
  obtain ⟨t₃, g₃, e₃, rfl, P₃, hc₃, G₃, tab₃, m₃⟩ := level_under hc₂ P₂ (reaches_temp P₂ tab₂ m₂ (index 21 va))
    (fun _ => points_temp_under hc₂ P₂ m₂) (by simp) hflags (π := path va) ⟨[], rfl⟩ h₃
  have hlast := P₃.toWindow.points_temp m₃
  rw [(points_temp_under hc₃ P₃ m₃ hlast).store64] at h
  rw [e₁, ok_bind, e₂, ok_bind, e₃, ok_bind, hlast.store64]
  exact ⟨_, rfl, (Except.ok.inj h).symm⟩

end kernel

end

/-! ### The calls -/

/-- Calls of `map_page` after the kernel's PML4 has been copied into the task's, and loads of `CR3`. -/
inductive SpaceOp where
  | task (va pa flags : ℕ)
  | kernel (va pa flags : ℕ)
  | loadTask
  | loadKernel

/-- `n` is the page of the task's PML4. -/
def SpaceOp.run (task : Task) (n : ℕ) (s : Machine) : SpaceOp → Except Stop Machine
  | .task va pa flags => mapPage s task.pml4t va pa flags
  | .kernel va pa flags => mapPage s s.pml4t va pa flags
  | .loadTask => .ok (under (n * 4096) s)
  | .loadKernel => .ok (under (v2p s.pml4t) s)

/-- The pages the two spaces are edited at: the lower half for the task's, slot 511 outside the window
    for the kernel's, there other than the page that holds the task's PML4. -/
def SpaceOp.Admitted (task : Task) : SpaceOp → Prop
  | .task va pa flags => va < 2 ^ 47 ∧ va % 4096 = 0 ∧ pa < 2 ^ 64 ∧ flags < 0x80
  | .kernel va pa flags => (Canonical va ∧ index 39 va = 511) ∧ va % 4096 = 0 ∧
      ¬ (KERNEL_BASE ≤ va ∧ va < KERNEL_END) ∧ va ≠ task.pml4t ∧ pa < 2 ^ 64 ∧ flags < 0x80
  | _ => True

/-- The two spaces as `CR3` holds the one or the other. -/
structure Both (s : Machine) (task : Task) (n pdpt pd pt : ℕ) : Prop where
  ready : Ready (under (n * 4096) s) task pdpt pd pt
  lt : n < 2 ^ 40
  slot : index 39 task.pml4t = 511
  cr3 : s.cr3 = n * 4096 ∨ frame s.cr3 = s.kroot

/-- The two spaces agree: slot 511 is the same in both, the kernel's lower half is empty, and the window
    is the identity in both. -/
def SpacesAgree (s : Machine) (n : ℕ) : Prop :=
  (∀ va, Canonical va → index 39 va = 511 → walk s.phys n va = walk s.phys s.kroot va) ∧
  (∀ va < 2 ^ 47, walk s.phys s.kroot va = none) ∧
  ∀ va, KERNEL_BASE ≤ va → va < TEMP_PAGE → ∀ c, frame c = n ∨ frame c = s.kroot →
    (under c s).translate va = some (va - KERNEL_BASE)

section
variable {s s' : Machine} {task : Task} {n pdpt pd pt : ℕ} (B : Both s task n pdpt pd pt)
include B

theorem Both.root : (under (n * 4096) s).root = n := frame_page B.lt

theorem Both.agree : SpacesAgree s n := by
  have W := B.ready.toWindow
  have hroot := B.root
  refine ⟨fun va _ hva => ?_, fun va hva => ?_, fun va h₁ h₂ c hc => ?_⟩
  · have h := W.walk_shared hva
    rw [hroot] at h
    exact h.symm
  · have hnone : child (ents s.phys s.kroot (index 39 va)) = none := by
      rcases B.ready.kernel with h | ⟨_, h⟩
      · exact absurd h B.ready.separate
      · refine h _ fun he => ?_
        have := congrArg Fin.val he
        rw [index_val, show ((511 : Fin 512) : ℕ) = 511 from rfl] at this
        omega
    unfold walk entryAt path
    rw [Radix.node, hnone]
    rfl
  · obtain ⟨x, rfl⟩ := Nat.exists_eq_add_of_le h₁
    have hx : x < 511 * 4096 := by
      simp only [TEMP_PAGE, KERNEL_BASE] at h₂
      omega
    rw [Nat.add_sub_cancel_left]
    rcases hc with hc | hc
    · have h := W.translate hx
      unfold Machine.translate at h ⊢
      rw [hroot] at h
      rw [show (under c s).root = n from hc]
      exact h
    · have hk : frame c = (under (n * 4096) s).kroot := hc
      exact (W.under hk).translate hx

omit B in
/-- A page of slot 511 reached under one root is reached under the other. -/
theorem points_under {c table f pdpt pd pt : ℕ} (W : Window s pdpt pd pt) (hc : frame c = s.kroot)
    (hcan : Canonical table) (ha : table % 4096 = 0) (hi : index 39 table = 511) (h : Points s table f) :
    Points (under c s) table f := by
  intro i
  have hlt : table + 4096 ≤ 2 ^ 64 := by unfold Canonical at hcan; omega
  have hidx : index 39 (slot table i) = 511 := by
    rw [slot_eq hlt, ← hi]
    exact (List.cons.inj (path_add ha (show 8 * (i : ℕ) < 4096 by omega))).1
  rw [W.translate_under hc hidx]
  exact h i

/-- A call through a pointer into slot 511 does what it does with the task's PML4 loaded. -/
theorem Both.call {ctx va pa flags : ℕ} (hcan : Canonical ctx) (ha : ctx % 4096 = 0) (hi : index 39 ctx = 511)
    (hctx : Reaches (under (n * 4096) s) ctx [] (index 39 va)) (hw : path va ≠ windowPath)
    (hflags : FlagBits flags) (hpa : pa < 2 ^ 64) (h : mapPage s ctx va pa flags = .ok s') :
    ∃ t, Mapped flags va (pa ||| flags) (under (n * 4096) s) t pdpt pd pt ∧ s' = under s.cr3 t := by
  obtain ⟨t, ht, hs'⟩ : ∃ t, mapPage (under (n * 4096) s) ctx va pa flags = .ok t ∧
      (s' = under s.cr3 t ∨ s' = t ∧ s.cr3 = n * 4096) := by
    rcases B.cr3 with hcr3 | hcr3
    · have hs : under (n * 4096) s = s := by rw [under, ← hcr3]
      exact ⟨s', by rw [hs, h], .inr ⟨rfl, hcr3⟩⟩
    · have hk : frame s.cr3 = (under (n * 4096) s).kroot := hcr3
      obtain ⟨t, ht, hs'⟩ := mapPage_under hk B.ready.toPaged hctx
        (fun _ => points_under B.ready.toWindow hk hcan ha hi) hflags h
      exact ⟨t, ht, .inl hs'⟩
  rcases mapPage_spec B.ready.toPaged hctx hw hflags hpa with ⟨t₁, h₁, M, _⟩ | ⟨_, h₁, _⟩
  · rw [ht] at h₁
    obtain rfl := Except.ok.inj h₁
    refine ⟨t, M, hs'.elim id fun ⟨he, hcr3⟩ => ?_⟩
    have hc : t.cr3 = n * 4096 := M.cr3
    rw [he, hcr3, ← hc, under]
  · rw [ht] at h₁
    cases h₁

/-- Edits that keep the task ready keep both spaces. -/
theorem Both.of_mapped {t : Machine} {flags va leaf : ℕ}
    (M : Mapped flags va leaf (under (n * 4096) s) t pdpt pd pt) (hleaf : leaf < 2 ^ 64) (hc : Canonical va)
    (hne : task.pml4t / 4096 ≠ va / 4096) : Both (under s.cr3 t) task n pdpt pd pt := by
  have hcr3 : t.cr3 = n * 4096 := M.cr3
  have ht : under (n * 4096) (under s.cr3 t) = t := by
    show under (n * 4096) t = t
    rw [under, ← hcr3]
  refine ⟨by rw [ht]; exact B.ready.mapped M hleaf hc hne, B.lt, B.slot, B.cr3.imp id fun h => ?_⟩
  have hptr : t.pml4t = s.pml4t := M.pml4t
  show frame s.cr3 = Machine.kroot t
  rw [Machine.kroot, hptr]
  exact h

omit B in
theorem kernel_pointer (W : Window s pdpt pd pt) :
    Canonical s.pml4t ∧ s.pml4t % 4096 = 0 ∧ index 39 s.pml4t = 511 := by
  have hk := W.low.1
  rw [W.ptr]
  generalize s.kroot = k at hk
  refine ⟨canonical_window (by omega), by simp only [KERNEL_BASE]; omega, ?_⟩
  exact index_eq (show _ = 511 by simp only [KERNEL_BASE]; omega)

/-- One step keeps both spaces. -/
theorem Both.step {a : SpaceOp} (ha : a.Admitted task) (h : a.run task n s = .ok s') :
    Both s' task n pdpt pd pt := by
  have R := B.ready
  cases a with
  | task va pa flags =>
    obtain ⟨hva, hal, hpa, hfl⟩ := ha
    obtain ⟨t, M, rfl⟩ := B.call R.ctx_canonical R.ctx_aligned B.slot (R.reaches _)
      (path_ne_window (.inl hva) (by simp only [KERNEL_BASE]; omega))
      (flagBits_of_lt (show flags < 4096 by omega)) hpa h
    have hhigh := R.ctx_high
    have hcal := R.ctx_aligned
    exact B.of_mapped M (entry_lt hpa (by omega)) (.inl hva) (by omega)
  | kernel va pa flags =>
    obtain ⟨⟨hcan, hslot⟩, hal, hout, hne, hpa, hfl⟩ := ha
    obtain ⟨kcan, kal, kslot⟩ := kernel_pointer R.toWindow
    have hpts : Points (under (n * 4096) s) s.pml4t s.kroot := by
      have hp := R.toWindow.points R.low.1
      rwa [← R.ptr] at hp
    obtain ⟨t, M, rfl⟩ := B.call kcan kal kslot ⟨s.kroot, hpts, .inr ⟨rfl, rfl, hslot⟩⟩
      (path_ne_window hcan hout) (flagBits_of_lt (show flags < 4096 by omega)) hpa h
    have hcal := R.ctx_aligned
    exact B.of_mapped M (entry_lt hpa (by omega)) hcan (by omega)
  | loadTask =>
    obtain rfl := Except.ok.inj h
    exact ⟨by rw [under_under]; exact R, B.lt, B.slot, .inl rfl⟩
  | loadKernel =>
    obtain rfl := Except.ok.inj h
    have hk : s.kroot < 511 := R.low.1
    have hv : v2p s.pml4t = s.kroot * 4096 := (congrArg v2p R.ptr).trans (v2p_kernel hk)
    refine ⟨by rw [under_under]; exact R, B.lt, B.slot, .inr ?_⟩
    rw [under_kroot, under, hv, frame_page (lt_trans hk (by decide))]

end

/-! ### The start -/

/-- `kernel_main` up to the copy of the kernel's PML4 into the task's. -/
def copyPml4 (s : Machine) : Except Stop (Machine × Task) := do
  let tmp := pmmAlloc s.pmm
  let s := { s with pmm := tmp.2 }
  let pml4t := add64 tmp.1 KERNEL_BASE
  let s ← mapPage s s.pml4t pml4t tmp.1 0x3
  let s ← memcpy pagedBus s pml4t s.pml4t 0x1000
  .ok (s, ⟨pml4t⟩)

theorem startTask_copyPml4 (s : Machine) : startTask s = (do
    let a ← copyPml4 s
    let b ← getPhysicalAddress a.1 a.1.pml4t a.2.pml4t
    .ok ({ b.2 with cr3 := b.1 }, a.2)) := by
  unfold startTask copyPml4
  dsimp only
  generalize mapPage _ _ _ _ _ = x
  cases x with
  | error e => rw [error_bind, error_bind, error_bind]
  | ok t =>
    rw [ok_bind, ok_bind]
    generalize memcpy _ _ _ _ _ = y
    cases y with
    | error e => rw [error_bind, error_bind, error_bind]
    | ok u => rw [ok_bind, ok_bind, ok_bind]

theorem copyPml4_both {m bm : Mem} {mmap : List MmapEntry} {s₀ s : Machine} {task : Task} {i : ℕ}
    (hboot : boot m bm mmap = some s₀) (hi : (pmmAlloc s₀.pmm).1 = i * 4096) (h0 : 0 < i) (hlt : i < 2 ^ 19)
    (h : copyPml4 s₀ = .ok (s, task)) : ∃ pdpt pd pt, Both s task i pdpt pd pt := by
  obtain ⟨h512, hcase⟩ := boot_mapsTask hboot hi h0 hlt
  unfold copyPml4 at h
  dsimp only at h
  rw [hi, taskPage_eq hlt] at h
  rcases hcase with ⟨s₁, pdpt, pd, pt, hs₁, H, _⟩ | ⟨⟨stop, hs⟩, _⟩
  · rw [hs₁, ok_bind, H.copy h512 hlt, ok_bind] at h
    obtain ⟨rfl, rfl⟩ := Prod.mk.inj (Except.ok.inj h)
    refine ⟨pdpt, pd, pt, H.copied_ready h512 hlt, by omega, taskPage_top h512 hlt, .inr ?_⟩
    have hk : s₁.kroot < 511 := H.low.1
    show frame s₁.cr3 = s₁.kroot
    rw [H.cr3, ← H.active, frame_page (lt_trans hk (by decide))]
  · rw [hs] at h
    cases h

/-- CORRECT: after the copy, in every state that calls of `map_page` on either space and loads of `CR3`
    reach, slot 511 is the same in both spaces, the kernel's lower half is empty, and the window is
    the first 2 MiB in both. -/
theorem spaces_agree {m bm : Mem} {mmap : List MmapEntry} {s₀ s₁ s : Machine} {task : Task} {i : ℕ}
    {ops : List SpaceOp} (hboot : boot m bm mmap = some s₀) (hi : (pmmAlloc s₀.pmm).1 = i * 4096) (h0 : 0 < i)
    (hlt : i < 2 ^ 19) (hcopy : copyPml4 s₀ = .ok (s₁, task))
    (hrun : Run (fun _ a => a.Admitted task) (fun s a => a.run task i s) s₁ ops s) : SpacesAgree s i := by
  obtain ⟨pdpt, pd, pt, B⟩ := copyPml4_both hboot hi h0 hlt hcopy
  exact (hrun.invariant (I := fun s => Both s task i pdpt pd pt) B fun _ _ _ B ha hst => B.step ha hst).agree

/-- On the 64 MiB machine, with the task's PML4 loaded. -/
theorem spaces_agree_loaded : ∃ s₀ i s₁ task, boot (fun _ => 0) (fun _ => 0) smallMap = some s₀ ∧
    copyPml4 s₀ = .ok (s₁, task) ∧ SpacesAgree (under (i * 4096) s₁) i := by
  obtain ⟨s₀, i, _, _, _, _, _, hboot, hi, h0, hlt, hs, _⟩ := task_smallMap (fun _ => 0) (fun _ => 0)
  rw [startTask_copyPml4] at hs
  obtain ⟨⟨s₁, task⟩, hcopy, _⟩ := bind_eq_ok.mp hs
  have hload : SpaceOp.run task i s₁ .loadTask = .ok (under (i * 4096) s₁) := by rw [SpaceOp.run]
  have hok : SpaceOp.Admitted task .loadTask := by unfold SpaceOp.Admitted; trivial
  have hrun : Run (fun _ a => SpaceOp.Admitted task a) (fun s a => SpaceOp.run task i s a) s₁ [.loadTask]
      (under (i * 4096) s₁) := .cons hok hload (.nil _)
  exact ⟨s₀, i, s₁, task, hboot, hcopy, spaces_agree hboot hi h0 hlt hcopy hrun⟩

end TerraOS.Vmm
