import TerraOS.Elf.Image

/-! The pages a program takes.

    A page is known by its number, `va / 4096`; `pageKey` is where its leaf is. What a list of pages takes
    from the allocator, mapped one after another where nothing was mapped, is a frame for each and a
    frame for each table that any of them needs: `demand`. -/

namespace TerraOS.Elf
open Lib Lib.Word Pmm Vmm

/-! ### Pages and leaves -/

/-- The path and the index of the leaf of a page. -/
def pageKey (v : ℕ) : List (Fin 512) × Fin 512 := (path (v * 4096), index 12 (v * 4096))

/-- The pages below the kernel's slot of the PML4, counted through the addresses in the middle that are
    not canonical. -/
abbrev userPages : ℕ := 511 * 2 ^ 27

theorem pageKey_inj {v w : ℕ} (hv : v < userPages) (hw : w < userPages) (h : pageKey v = pageKey w) : v = w := by
  obtain ⟨hp, h1⟩ := Prod.mk.inj h
  simp only [path, List.cons.injEq, and_true] at hp
  obtain ⟨h4, h3, h2⟩ := hp
  have e4 := congrArg Fin.val h4
  have e3 := congrArg Fin.val h3
  have e2 := congrArg Fin.val h2
  have e1 := congrArg Fin.val h1
  rw [index_val, index_val] at e1 e2 e3 e4
  simp only [userPages] at hv hw
  omega

theorem pageKey_top {v : ℕ} (hv : v < userPages) : index 39 (v * 4096) ≠ 511 := by
  intro h
  have h' := congrArg Fin.val h
  rw [index_val, show ((511 : Fin 512) : ℕ) = 511 from rfl] at h'
  simp only [userPages] at hv
  omega

theorem pageKey_ne_window {v : ℕ} (hv : v < userPages) : path (v * 4096) ≠ windowPath := fun h =>
  pageKey_top hv (List.cons.inj h).1

/-- The page of an address of the lower half. -/
theorem pageKey_div {va : ℕ} : pageKey (va / 4096) = (path va, index 12 va) := by
  have h := @path_add (va / 4096 * 4096) (va % 4096) (by omega) (by omega)
  have h' := @index_add (va / 4096 * 4096) (va % 4096) (by omega) (by omega)
  rw [show va / 4096 * 4096 + va % 4096 = va by omega] at h h'
  exact Prod.ext h.symm h'.symm

/-! ### What pages take -/

/-- The paths of the tables on the way to a page. -/
def tablePaths (v : ℕ) : Finset (List (Fin 512)) :=
  {[index 39 (v * 4096)], [index 39 (v * 4096), index 30 (v * 4096)], path (v * 4096)}

theorem mem_tablePaths {v : ℕ} {p : List (Fin 512)} : p ∈ tablePaths v ↔ p ≠ [] ∧ p <+: path (v * 4096) := by
  simp only [tablePaths, path, Finset.mem_insert, Finset.mem_singleton]
  constructor
  · rintro (rfl | rfl | rfl)
    · exact ⟨by simp, ⟨_, rfl⟩⟩
    · exact ⟨by simp, ⟨_, rfl⟩⟩
    · exact ⟨by simp, List.prefix_refl _⟩
  · rintro ⟨hne, hp⟩
    rcases p with _ | ⟨a, _ | ⟨b, _ | ⟨c, p⟩⟩⟩
    · exact absurd rfl hne
    · simp only [List.cons_prefix_cons] at hp
      exact .inl (by rw [hp.1])
    · simp only [List.cons_prefix_cons] at hp
      exact .inr (.inl (by rw [hp.1, hp.2.1]))
    · simp only [List.cons_prefix_cons, List.prefix_nil] at hp
      exact .inr (.inr (by rw [hp.1, hp.2.1, hp.2.2.1, hp.2.2.2]))

/-- The paths of the tables that pages need, below the PML4. -/
def tablesFor (pages : List ℕ) : Finset (List (Fin 512)) := pages.toFinset.biUnion tablePaths

theorem mem_tablesFor {pages : List ℕ} {p : List (Fin 512)} :
    p ∈ tablesFor pages ↔ ∃ v ∈ pages, p ≠ [] ∧ p <+: path (v * 4096) := by
  simp only [tablesFor, Finset.mem_biUnion, List.mem_toFinset, mem_tablePaths]

/-- The frames that pages take: one for each, and one for each table. -/
def demand (pages : List ℕ) : ℕ := pages.length + (tablesFor pages).card

theorem tablesFor_mono {l l' : List ℕ} (h : l ⊆ l') : tablesFor l ⊆ tablesFor l' := fun p hp => by
  obtain ⟨v, hv, h'⟩ := mem_tablesFor.mp hp
  exact mem_tablesFor.mpr ⟨v, h hv, h'⟩

theorem demand_cons (v : ℕ) (l : List ℕ) : demand l + 1 ≤ demand (v :: l) := by
  have := Finset.card_le_card (tablesFor_mono (List.subset_cons_self v l))
  unfold demand
  rw [List.length_cons]
  omega

theorem demand_append (l l' : List ℕ) : demand l ≤ demand (l ++ l') := by
  have := Finset.card_le_card (tablesFor_mono (List.subset_append_left l l'))
  unfold demand
  rw [List.length_append]
  omega

theorem demand_perm {l l' : List ℕ} (h : l.Perm l') : demand l = demand l' := by
  rw [demand, demand, h.length_eq, tablesFor, tablesFor, List.toFinset_eq_of_perm _ _ h]

/-- No more than four frames a page. -/
theorem demand_le (l : List ℕ) : demand l ≤ 4 * l.length := by
  have h : (tablesFor l).card ≤ l.toFinset.card * 3 :=
    Finset.card_biUnion_le_card_mul _ _ _ fun v _ => Finset.card_le_three
  have := l.toFinset_card_le
  unfold demand
  omega

/-! ### Ranges -/

/-- The pages that `load_elf` maps for a header, in order. -/
def Phdr.pages (p : Phdr) : List ℕ :=
  List.range' (p.pVaddr / 4096) ((p.pVaddr + p.pMemsz) / 4096 - p.pVaddr / 4096 + 1)

theorem Phdr.mem_pages {p : Phdr} {v : ℕ} :
    v ∈ p.pages ↔ p.pVaddr / 4096 ≤ v ∧ v ≤ (p.pVaddr + p.pMemsz) / 4096 := by
  rw [Phdr.pages, List.mem_range'_1]
  omega

theorem Phdr.pages_nodup (p : Phdr) : p.pages.Nodup := List.nodup_range'

/-- The page loop of a header whose segment ends at or below `2^47`. -/
theorem loadSegment_eq {task : Task} {elfData : ℕ} {s : Machine} {p : Phdr} (h : p.pVaddr + p.pMemsz ≤ 2 ^ 47) :
    loadSegment task elfData s p = (do
      let s ← mapPages task (p.pVaddr / 4096 * 4096) (pageFlags p)
        ((p.pVaddr + p.pMemsz) / 4096 - p.pVaddr / 4096 + 1) 0 s
      memcpy pagedBus s p.pVaddr (add64 elfData p.pOffset) p.pFilesz) := by
  have mask : ∀ x < 2 ^ 64, x &&& 0xFFFFFFFFFFFFF000 = x / 4096 * 4096 := fun x hx => by
    rw [show (0xFFFFFFFFFFFFF000 : ℕ) = 2 ^ 64 - 2 ^ 12 from rfl, and_mask x (by decide)]
    omega
  have hcount : sub64 (add64 ((p.pVaddr + p.pMemsz) / 4096 * 4096) PAGE_SIZE) (p.pVaddr / 4096 * 4096) / 4096
      = (p.pVaddr + p.pMemsz) / 4096 - p.pVaddr / 4096 + 1 := by
    rw [add64_of_lt (by simp only [PAGE_SIZE]; omega), sub64_of_le (by simp only [PAGE_SIZE]; omega)
      (by simp only [PAGE_SIZE]; omega)]
    simp only [PAGE_SIZE]
    omega
  unfold loadSegment
  rw [add64_of_lt (show p.pVaddr + p.pMemsz < 2 ^ 64 by omega), mask _ (by omega), mask _ (by omega)]
  dsimp only
  rw [hcount]

/-- It maps the pages of the range one after another. -/
theorem mapPages_eq {task : Task} {first flags : ℕ} : ∀ {n j : ℕ} {s : Machine}, first + j + n < 2 ^ 36 →
    mapPages task (first * 4096) flags n j s
      = (List.range' (first + j) n).foldlM (fun s v => mapFrame task s (v * 4096) flags) s
  | 0, _, _, _ => rfl
  | n + 1, j, s, h => by
    have haddr : add64 (first * 4096) (mul64 0x1000 j) = (first + j) * 4096 := by
      rw [mul64_of_lt (by omega), add64_of_lt (by omega)]
      omega
    rw [mapPages, List.range'_succ, List.foldlM_cons, haddr]
    congr 1
    funext s'
    exact mapPages_eq (by omega)

theorem pageFlags_cases (p : Phdr) : pageFlags p = 0x5 ∨ pageFlags p = 0x7 := by
  unfold pageFlags
  split
  · exact .inr rfl
  · exact .inl rfl

/-- A segment is its pages mapped and then its bytes copied. -/
theorem loadSegment_pages {task : Task} {elfData : ℕ} {s : Machine} {p : Phdr}
    (h : p.pVaddr + p.pMemsz ≤ 2 ^ 47) :
    loadSegment task elfData s p = (do
      let s ← p.pages.foldlM (fun s v => mapFrame task s (v * 4096) (pageFlags p)) s
      memcpy pagedBus s p.pVaddr (add64 elfData p.pOffset) p.pFilesz) := by
  rw [loadSegment_eq h, mapPages_eq (by omega)]
  rfl

end TerraOS.Elf
