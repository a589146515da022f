import TerraOS.Vmm.Places

/-! `unmap_page` against `map_page`.

    Right after the call the tree is the one before it less one leaf, and the page that backed the leaf
    is free again (`unmapPage_removes_one`). That makes `unmap_page` undo `map_page` just when
    `map_page` had no table to make: a table it made is never unlinked (`unmap_undoes_map_iff`). -/

namespace TerraOS.Vmm
open Lib Lib.Word Pmm

/-- `pmm_alloc`, and `map_page` of frames it gave. -/
def MapOnly (s : Session) : Op → Prop
  | .alloc => True
  | .map c => MapsHeld s c
  | .unmap _ _ => False

theorem mapOnly_sound {m bm : Mem} {mmap : List MmapEntry} {s₀ : Machine} {s : Session} {ops : List Op}
    (hboot : boot m bm mmap = some s₀) (hrun : Run MapOnly Op.run ⟨s₀, []⟩ ops s) : Sound s := by
  refine hrun.invariant (I := Sound) (boot_sound hboot) fun t a u S ha hst => ?_
  cases a with
  | alloc => exact alloc_sound S hst
  | map c => exact map_sound S ha hst
  | unmap ctx va => exact ha.elim

section
variable {s : Session} {ctx va f g n pdpt pd pt : ℕ} (S : Sound s)
  (U : Unmapping s.machine ctx va f g n pdpt pd pt)
include S U

/-- A frame at a place other than the leaf's and its page table's is still used. -/
theorem Sound.used_kept {p : List (Fin 512)} {m : ℕ} (hp : Place p) (hl : p ≠ path va ++ [index 12 va])
    (ht : p ≠ path va) (hm : s.machine.table p = some m) :
    (released s.machine f (index 12 va)).used m = true := by
  rw [released_used_ne U.entry, S.used p m hp hm]
  · rintro rfl
    exact hl (S.inj _ _ _ hp (place_leaf rfl U.outside _) hm U.leaf)
  · rintro rfl
    exact ht (S.inj _ _ _ hp (place_of_le (by simp [path])) hm U.table)

theorem Sound.high_freed : (512 ≤ n ∧ n < s.machine.pmm.memBitmapBitSize) ∧ 512 ≤ f ∧ n ≠ f := by
  have hleaf : Place (path va ++ [index 12 va]) := place_leaf rfl U.outside _
  have htab : Place (path va) := place_of_le (by simp [path])
  refine ⟨S.high _ _ hleaf (fun h => ?_) U.leaf, (S.high _ _ htab (fun h => ?_) U.table).1, fun he => ?_⟩
  · have := h.length_le
    simp [path] at this
  · exact U.outside (h.eq_of_length (by simp [path]))
  · have := congrArg List.length (S.inj _ _ _ hleaf htab U.leaf (by rw [U.table, he]))
    simp [path] at this

/-- Every page still mapped, those of the window and `TEMP_PAGE` with them, is still used. -/
theorem Sound.leaves_used {va' e' : ℕ}
    (h : (cleared s.machine pt f g (index 12 va)).entry (path va') (index 12 va') = some e') :
    (released s.machine f (index 12 va)).used (frame e') = true := by
  obtain ⟨⟨hn, _⟩, hf, _⟩ := S.high_freed U
  have ht := table_of_entry h
  by_cases hw : path va' = windowPath
  · have hwin : (cleared s.machine pt f g (index 12 va)).table windowPath = some pt := by
      rw [cleared_table U.paged U.table rfl U.outside U.f_lt U.g_lt (by simp), U.paged.table_window]
    have hfpt := ne_pt_of_leafTable U.paged U.table rfl U.outside
    rw [hw, child_of_table hwin, cleared_ents U.f_lt U.g_lt] at ht
    by_cases hi : index 12 va' = 511
    · rw [if_pos ⟨rfl, hi⟩, child_temp U.g_lt] at ht
      rw [← Option.some.inj ht]
      refine S.used_kept U (p := [index 39 va]) (place_of_le (by simp)) (fun h => ?_) (fun h => ?_) U.upper
      · simp [path] at h
      · simp [path] at h
    · rw [if_neg fun h => hi h.2, if_neg fun h => hfpt h.1.symm] at ht
      have hlt : (index 12 va' : ℕ) < 511 := by
        have := (index 12 va').isLt
        have : (index 12 va' : ℕ) ≠ 511 := fun h => hi (Fin.ext h)
        omega
      rw [U.paged.leaf _ hlt] at ht
      rw [← Option.some.inj ht, released_used_ne U.entry (by omega) (by omega)]
      exact U.paged.reserved _ (by omega)
  · rw [U.place (place_leaf rfl hw _)] at ht
    split at ht
    · cases ht
    · rename_i hne
      refine S.used_kept U (place_leaf rfl hw _) hne (fun h => ?_) ht
      have := congrArg List.length h
      simp [path] at this

end

/-- The page is unmapped. -/
theorem Unmapping.entry_self {s : Machine} {ctx va f g n pdpt pd pt : ℕ} (U : Unmapping s ctx va f g n pdpt pd pt) :
    (cleared s pt f g (index 12 va)).entry (path va) (index 12 va) = none := by
  rw [cleared_entry U.paged U.table rfl U.outside U.f_lt U.g_lt (by simp [path]) fun h => U.outside (Prod.mk.inj h).1,
    if_pos rfl]

/-- CORRECT: after boot and any maps of frames from `pmm_alloc`, `unmap_page` of a mapped page returns
    with the page unmapped and its frame free, with every other page but `TEMP_PAGE` mapped as it was,
    and with every page still mapped used. -/
theorem unmapPage_removes_one {m bm : Mem} {mmap : List MmapEntry} {s₀ : Machine} {s : Session}
    {ops : List Op} {ctx va e : ℕ} (hboot : boot m bm mmap = some s₀)
    (hrun : Run MapOnly Op.run ⟨s₀, []⟩ ops s) (hu : Unmaps s.machine ctx va)
    (he : walk s.machine.phys s.machine.root va = some e) :
    ∃ s', unmapPage s.machine ctx va = .ok s' ∧ walk s'.phys s'.root va = none ∧
      s'.pmm.used (frame e) = false ∧
      (∀ va', Canonical va' → va' / 4096 ≠ va / 4096 → va' / 4096 ≠ TEMP_PAGE / 4096 →
        walk s'.phys s'.root va' = walk s.machine.phys s.machine.root va') ∧
      ∀ va' e', walk s'.phys s'.root va' = some e' → s'.pmm.used (frame e') = true := by
  have S := mapOnly_sound hboot hrun
  obtain ⟨f, g, pdpt, pd, pt, U⟩ := S.unmapping hu he
  obtain ⟨⟨_, hlt⟩, _, hne⟩ := S.high_freed U
  have entry := fun (q : List (Fin 512)) j hq ht => cleared_entry (i := index 12 va) (q := q) (j := j)
    U.paged U.table rfl U.outside U.f_lt U.g_lt hq ht
  refine ⟨_, U.run, U.entry_self, released_self U.entry hlt hne, fun va' hc hva ht => ?_, fun va' e' h => ?_⟩
  · refine (entry (path va') (index 12 va') (by simp [path])
      (by rw [← path_temp]; exact page_ne canonical_temp hc ht)).trans ?_
    rw [if_neg (page_ne hu.canonical hc hva)]
    rfl
  · exact S.leaves_used U h

/-- On the 64 MiB machine, the one page mapped is unmapped again. -/
theorem unmapPage_removes_one_page : ∃ s₀ c s e s', boot (fun _ => 0) (fun _ => 0) smallMap = some s₀ ∧
    Run MapOnly Op.run ⟨s₀, []⟩ [.alloc, .map c] s ∧ walk s.machine.phys s.machine.root c.va = some e ∧
    unmapPage s.machine c.ctx c.va = .ok s' ∧ walk s'.phys s'.root c.va = none ∧
    s'.pmm.used (frame e) = false := by
  obtain ⟨s₀, k, s₁, s₂, hboot, h₁, A, _, h₂, hu⟩ := session_smallMap
  have hrun : Run MapOnly Op.run ⟨s₀, []⟩ [.alloc, .map ⟨s₁.pml4t, 0x400000, k * 4096, 0x3⟩] ⟨s₂, []⟩ :=
    .cons trivial h₁ (.cons A h₂ (.nil _))
  obtain ⟨pdpt, pd, pt, P, _⟩ := (alloc_sound (boot_sound hboot) h₁).running
  have hwalk : walk s₂.phys s₂.root 0x400000 = some (k * 4096 ||| 0x3) :=
    (A.1.mapped P (map_run h₂).1).entry_self A.1.leaf_lt (or_present A.1.flags_present)
  obtain ⟨s', h, hno, hfree, _⟩ := unmapPage_removes_one hboot hrun hu hwalk
  exact ⟨s₀, _, _, _, s', hboot, hrun, hwalk, h, hno, hfree⟩

/-! ### Undoing -/

/-- The bitmap and the present entries of every level, `TEMP_PAGE`'s leaf apart, are the same. -/
def Restored (s s' : Machine) : Prop :=
  s'.pmm.memBitmap = s.pmm.memBitmap ∧
  ∀ p i, p.length ≤ 3 → (p, i) ≠ (windowPath, 511) → s'.entry p i = s.entry p i

theorem Restored.table {s s' : Machine} (R : Restored s s') (va : ℕ) : s'.table (path va) = s.table (path va) := by
  rw [show path va = [index 39 va, index 30 va] ++ [index 21 va] from rfl, table_snoc, table_snoc,
    R.2 _ _ (by simp) (by simp)]

/-- `unmap_page` leaves the page table linked. -/
theorem Unmapping.linked {s s' : Machine} {ctx va f g n pdpt pd pt : ℕ}
    (U : Unmapping s ctx va f g n pdpt pd pt) (h : unmapPage s ctx va = .ok s') : s'.table (path va) = some f := by
  rw [U.run] at h
  rw [← Except.ok.inj h]
  show (cleared s pt f g (index 12 va)).table (path va) = some f
  rw [cleared_table U.paged U.table rfl U.outside U.f_lt U.g_lt (by simp [path]), U.table]

theorem table_prefix {s : Machine} {p q : List (Fin 512)} {f : ℕ} (hq : s.table q = some f) (h : p <+: q) :
    ∃ n, s.table p = some n := by
  obtain ⟨r, rfl⟩ := h
  cases hp : s.table p with
  | some n => exact ⟨n, rfl⟩
  | none =>
    rw [Machine.table, Radix.node_append, show Radix.node child (ents s.phys) s.root p = none from hp] at hq
    cases hq

section
variable {s s' : Machine} {flags va leaf pdpt pd pt f : ℕ} (P : Paged s pdpt pd pt)
  (M : Mapped flags va leaf s s' pdpt pd pt) (hleaf : leaf < 2 ^ 64) (ht : s.table (path va) = some f)
include M hleaf ht

/-- With the page table there, `map_page` makes no entry above it. -/
theorem Mapped.upper_same {p : List (Fin 512)} {i : Fin 512} (hp : p.length ≤ 2) :
    s'.entry p i = s.entry p i := by
  obtain ⟨g, G, hent, _, _⟩ := M.upper hleaf
  rw [hent p i hp]
  cases hg : g.entry p i with
  | none =>
    cases hs : s.entry p i with
    | none => rfl
    | some e => rw [G.keep p i e hp hs] at hg; cases hg
  | some e =>
    rcases G.made p i e hp hg with h | ⟨hno, hπ, _⟩
    · exact h.symm
    · obtain ⟨n, hn⟩ := table_prefix ht hπ
      rw [table_snoc, hno] at hn
      cases hn

theorem Mapped.table_same {p : List (Fin 512)} (hp : p.length ≤ 3) : s'.table p = s.table p := by
  rcases List.eq_nil_or_concat p with rfl | ⟨q, i, rfl⟩
  · rw [Machine.table_nil, Machine.table_nil, Machine.root, Machine.root, M.cr3]
  · rw [List.concat_eq_append] at hp ⊢
    rw [List.length_append, List.length_singleton] at hp
    rw [table_snoc, table_snoc, M.upper_same hleaf ht (by omega)]

include P in
/-- And takes no frame. -/
theorem Mapped.used_same (n : ℕ) : s'.pmm.used n = s.pmm.used n := by
  obtain ⟨g, G, _, htab, hpmm⟩ := M.upper hleaf
  rw [hpmm, Bool.eq_iff_iff, G.bits]
  refine ⟨fun h => h.elim id fun ⟨hu, p, hp, hn⟩ => ?_, .inl⟩
  rw [← htab p hp, M.table_same hleaf ht hp] at hn
  exact absurd hn (P.table_ne_free hu hp)

end

theorem child_present {s : Machine} {p : List (Fin 512)} {i : Fin 512} {f n : ℕ} (hf : s.table p = some f)
    (hn : s.table (p ++ [i]) = some n) : child (ents s.phys f i) ≠ none := by
  rw [← child_of_table hf, hn]
  simp

/-- CORRECT: after boot and any maps of frames from `pmm_alloc`, taking a frame, mapping it at an
    unmapped page and unmapping the page gives back the bitmap and the entries there were if and only
    if the page table of the page was there before. -/
theorem unmap_undoes_map_iff {m bm : Mem} {mmap : List MmapEntry} {s₀ s₁ s₂ : Machine} {s : Session}
    {ops : List Op} {c : MapCall} (hboot : boot m bm mmap = some s₀)
    (hrun : Run MapOnly Op.run ⟨s₀, []⟩ ops s) (hno : walk s.machine.phys s.machine.root c.va = none)
    (hp : (pmmAlloc s.machine.pmm).1 ≠ 0) (hs₁ : s₁ = { s.machine with pmm := (pmmAlloc s.machine.pmm).2 })
    (hc : Admitted s₁ c) (hpa : c.pa = (pmmAlloc s.machine.pmm).1) (hmap : c.run s₁ = .ok s₂) :
    ∃ s₃, unmapPage s₂ c.ctx c.va = .ok s₃ ∧
      (Restored s.machine s₃ ↔ ∃ f, s.machine.table (path c.va) = some f) := by
  have S := mapOnly_sound hboot hrun
  obtain ⟨pdpt, pd, pt, P, _⟩ := S.running
  rcases P.toFrames.ok.alloc with ⟨_, ha⟩ | ⟨k, h0, hlt, hu, _, ha⟩
  · rw [ha] at hp
    exact absurd rfl hp
  have hk : c.pa = k * 4096 := by rw [hpa, ha]
  have hset : ∀ n, s₁.pmm.used n = (decide (n = k) || s.machine.pmm.used n) := fun n => by
    rw [hs₁, ha]
    exact Bits.bit_set _ _ _
  have htab₁ : ∀ p, s₁.table p = s.machine.table p := fun p => by rw [hs₁]; rfl
  have hent₁ : ∀ p i, s₁.entry p i = s.machine.entry p i := fun p i => by rw [hs₁]; rfl
  -- the three steps
  have S₁ : Sound ⟨s₁, k * 4096 :: s.held⟩ := alloc_sound S (by
    rw [hs₁]
    simp only [Op.run, ha, if_neg (show ¬ k * 4096 = 0 by omega)])
  have hheld : MapsHeld ⟨s₁, k * 4096 :: s.held⟩ c := ⟨hc, by rw [hk]; exact List.mem_cons_self⟩
  have S₂ : Sound ⟨s₂, (k * 4096 :: s.held).erase c.pa⟩ := map_sound S₁ hheld (by
    simp only [Op.run, hmap, ok_bind])
  obtain ⟨pdpt, pd, pt, P₁, _⟩ := S₁.running
  have M := hc.mapped P₁ hmap
  have hleaf := hc.leaf_lt
  have hw := path_ne_window hc.canonical hc.outside
  have hwalk : walk s₂.phys s₂.root c.va = some (c.pa ||| c.flags) :=
    M.entry_self hleaf (or_present hc.flags_present)
  obtain ⟨f, g, pdpt₂, pd₂, pt₂, U⟩ := S₂.unmapping
    ⟨hc.canonical, hc.aligned, hc.outside, hc.ctx_aligned, hc.ctx_kept M⟩ hwalk
  rw [hc.frame_leaf hk] at U
  have entry := fun (q : List (Fin 512)) j hq ht => cleared_entry (i := index 12 c.va) (q := q) (j := j)
    U.paged U.table rfl U.outside U.f_lt U.g_lt hq ht
  refine ⟨_, U.run, fun R => ⟨f, ?_⟩, ?_⟩
  · rw [← R.table, U.linked U.run]
  rintro ⟨f', ht⟩
  refine ⟨Bits.ext fun n => ?_, fun p i hp3 hpw => ?_⟩
  · -- some other page of the table is mapped, so the table stays
    have ht₁ : s₁.table (path c.va) = some f' := by rw [htab₁, ht]
    obtain ⟨j, x, hx⟩ := S.leaves (path c.va) f' rfl hw ht
    have hj : j ≠ index 12 c.va := by
      rintro rfl
      rw [table_snoc, show s.machine.entry (path c.va) (index 12 c.va) = none from hno] at hx
      cases hx
    have hx₂ : s₂.table (path c.va ++ [j]) = some x := by
      rw [table_snoc, M.entry_ne hleaf rfl (fun h => hj (Prod.mk.inj h).2) fun h => hw (Prod.mk.inj h).1,
        hent₁, ← table_snoc, hx]
    show (released s₂ f (index 12 c.va)).used n = s.machine.pmm.used n
    rw [released_of_other U.entry hj (child_present U.table hx₂),
      pmmFree_used (by rw [M.size hleaf, hs₁, ha]; exact hlt), M.used_same P₁ hleaf ht₁, hset]
    by_cases hn : n = k
    · simp [hn, hu]
    · simp [hn]
  · have ht₁ : s₁.table (path c.va) = some f' := by rw [htab₁, ht]
    refine (entry p i hp3 hpw).trans ?_
    split
    · rename_i he
      obtain ⟨rfl, rfl⟩ := Prod.mk.inj he
      exact hno.symm
    · rename_i hne
      rw [← hent₁]
      rcases Nat.lt_or_ge 2 p.length with h3 | h2
      · exact M.entry_ne hleaf (by omega) hne hpw
      · exact M.upper_same hleaf ht₁ h2

theorem alloc_run {s s₁ : Machine} {b : ℕ} (h : Op.run ⟨s, []⟩ .alloc = .ok ⟨s₁, [b]⟩) :
    (pmmAlloc s.pmm).1 ≠ 0 ∧ s₁ = { s with pmm := (pmmAlloc s.pmm).2 } ∧ b = (pmmAlloc s.pmm).1 := by
  obtain ⟨h₁, h₂⟩ := Session.mk.inj (Except.ok.inj h)
  split at h₂
  · cases h₂
  · rename_i hne
    exact ⟨hne, h₁.symm, (List.cons.inj h₂).1.symm⟩

/-- On the 64 MiB machine, the first page mapped after boot: its page table is not there. -/
theorem unmap_undoes_map_iff_first_page : ∃ s₀ c s₂ s₃, boot (fun _ => 0) (fun _ => 0) smallMap = some s₀ ∧
    MapCall.run { s₀ with pmm := (pmmAlloc s₀.pmm).2 } c = .ok s₂ ∧ unmapPage s₂ c.ctx c.va = .ok s₃ ∧
    (Restored s₀ s₃ ↔ ∃ f, s₀.table (path c.va) = some f) := by
  obtain ⟨s₀, k, s₁, s₂, hboot, h₁, A, hno, h₂, _⟩ := session_smallMap
  obtain ⟨hp, hs₁, hk⟩ := alloc_run h₁
  have hno₀ : s₀.table (path 0x400000) = none := by rw [← hno, hs₁]; rfl
  have hrun : Run MapOnly Op.run ⟨s₀, []⟩ [] ⟨s₀, []⟩ := .nil _
  have hw : walk s₀.phys s₀.root 0x400000 = none := walk_none_of_table hno₀
  have hm : MapCall.run s₁ ⟨s₁.pml4t, 0x400000, k * 4096, 0x3⟩ = .ok s₂ := (map_run h₂).1
  obtain ⟨s₃, h₃, hiff⟩ := @unmap_undoes_map_iff _ _ _ s₀ s₁ s₂ ⟨s₀, []⟩ [] ⟨s₁.pml4t, 0x400000, k * 4096, 0x3⟩
    hboot hrun hw hp hs₁ A.1 hk hm
  exact ⟨s₀, ⟨s₁.pml4t, 0x400000, k * 4096, 0x3⟩, s₂, s₃, hboot, by rw [← hs₁]; exact hm, h₃, hiff⟩

/-- There the page directory entry of the page table that `map_page` made is still present after
    `unmap_page`. -/
theorem unmap_leaves_table : ∃ s₀ c s₂ s₃, boot (fun _ => 0) (fun _ => 0) smallMap = some s₀ ∧
    (pmmAlloc s₀.pmm).1 ≠ 0 ∧ c.pa = (pmmAlloc s₀.pmm).1 ∧
    Admitted { s₀ with pmm := (pmmAlloc s₀.pmm).2 } c ∧ walk s₀.phys s₀.root c.va = none ∧
    MapCall.run { s₀ with pmm := (pmmAlloc s₀.pmm).2 } c = .ok s₂ ∧ unmapPage s₂ c.ctx c.va = .ok s₃ ∧
    ¬ Restored s₀ s₃ := by
  obtain ⟨s₀, k, s₁, s₂, hboot, h₁, A, hno, h₂, hu⟩ := session_smallMap
  obtain ⟨hp, hs₁, hk⟩ := alloc_run h₁
  have hno₀ : s₀.table (path 0x400000) = none := by rw [← hno, hs₁]; rfl
  have S₁ := alloc_sound (boot_sound hboot) h₁
  have S₂ := map_sound S₁ A h₂
  obtain ⟨pdpt, pd, pt, P₁, _⟩ := S₁.running
  have hwalk : walk s₂.phys s₂.root 0x400000 = some (k * 4096 ||| 0x3) :=
    (A.1.mapped P₁ (map_run h₂).1).entry_self A.1.leaf_lt (or_present A.1.flags_present)
  obtain ⟨s₃, f, h₃, hlinked⟩ : ∃ s₃ f, unmapPage s₂ s₁.pml4t 0x400000 = .ok s₃ ∧
      s₃.table (path 0x400000) = some f := by
    obtain ⟨f, g, pdpt', pd', pt', U⟩ := S₂.unmapping hu hwalk
    exact ⟨_, f, U.run, U.linked U.run⟩
  refine ⟨s₀, ⟨s₁.pml4t, 0x400000, k * 4096, 0x3⟩, s₂, s₃, hboot, hp, hk, by rw [← hs₁]; exact A.1,
    walk_none_of_table hno₀, by rw [← hs₁]; exact (map_run h₂).1, h₃, fun R => ?_⟩
  have ht := R.table 0x400000
  rw [hlinked, hno₀] at ht
  cases ht

end TerraOS.Vmm
