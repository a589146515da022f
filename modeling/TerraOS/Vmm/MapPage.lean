import TerraOS.Vmm.Tree

/-! `map_page` as a point update of the translation.

    The three upper levels grow the tree (`Grown`); the last store sets one leaf. `mapPage_spec` puts
    the two together for any machine that satisfies the invariant and any pointer that reaches its tree;
    what is said later of translations, access rights and the loader is read off it. -/

namespace TerraOS.Vmm
open Lib Lib.Word Pmm

section
variable {s s' : Machine} {pdpt pd pt f g n v flags : ℕ} {p q : List (Fin 512)} {i j : Fin 512}

/-! ### A leaf is written -/

section leaf
variable (P : Paged s pdpt pd pt) (hp : p.length = 3) (hw : p ≠ windowPath) (hf : s.table p = some f)
  (hv : v < 2 ^ 64)

include P hp hf hv

theorem withLeaf_table (hq : q.length ≤ 3) : (withEntry s f i v).table q = s.table q := by
  refine Radix.node_congr child fun r j n hr hn => ?_
  have hlen := hr.length_le
  rw [List.length_append, List.length_singleton] at hlen
  rw [withEntry, ents_store64 hv, if_neg]
  rintro ⟨rfl, rfl⟩
  have := P.inj r p n (by omega) (by omega) hn hf
  rw [this] at hlen
  omega

theorem withLeaf_entry (hq : q.length ≤ 3) (hne : (q, j) ≠ (p, i)) :
    (withEntry s f i v).entry q j = s.entry q j := by
  refine entry_congr (withLeaf_table P hp hf hv hq) fun n hn => ?_
  rw [withEntry, ents_store64 hv, if_neg]
  rintro ⟨rfl, rfl⟩
  exact hne (Prod.ext (P.inj q p n hq (by omega) hn hf) rfl)

theorem withLeaf_entry_self (hpres : v &&& 0x1 ≠ 0) : (withEntry s f i v).entry p i = some v := by
  have ht : (withEntry s f i v).table p = some f := by rw [withLeaf_table P hp hf hv (by omega), hf]
  have he : ents (withEntry s f i v).phys f i = v := by
    rw [withEntry, ents_store64 hv, if_pos ⟨rfl, rfl⟩]
  rw [entry_of_table ht, he, if_neg hpres]

include hw

omit hv in
/-- The table whose leaf is written is none that the window goes through. -/
theorem not_inWindow : ¬ InWindow s pdpt pd pt f := by
  intro hin
  rcases P.inWindow_cases hin with hk | ht | ⟨q, hq, ht⟩
  · rcases P.kernel with hroot | ⟨hk', _⟩
    · have hnil : s.table [] = some f := by
        rw [hk, hroot]
        rfl
      rw [P.inj p [] f (by omega) (by simp) hf hnil] at hp
      cases hp
    · exact hk' p (by omega) (hk ▸ hf)
  · exact hw (P.inj p windowPath f (by omega) (by simp) hf ht)
  · rw [P.inj q p f (by omega) (by omega) ht hf] at hq
    omega

theorem withLeaf_paged : Paged (withEntry s f i v) pdpt pd pt := by
  have htab := fun (q : List (Fin 512)) (hq : q.length ≤ 3) => withLeaf_table (i := i) P hp hf hv hq
  have hout := not_inWindow P hp hw hf
  have same : ∀ n j, n ≠ f → ents (withEntry s f i v).phys n j = ents s.phys n j := fun n j hn => by
    rw [withEntry, ents_store64 hv, if_neg fun h => hn h.1]
  refine ⟨P.toWindow.of_agree rfl rfl (fun n j c hc hin _ => ?_) ?_, ⟨P.size, P.reserved, P.rootUsed⟩,
    fun q r n hq hr => ?_, fun q n hq => ?_, fun q hq => ?_, ?_⟩
  · rw [same n j fun he => hout (he ▸ hin)]
    exact hc
  · obtain ⟨n, hn⟩ := P.temp
    exact ⟨n, by rw [same pt 511 fun he => hout (he ▸ .inr (.inr (.inr (.inr rfl))))]; exact hn⟩
  · rw [htab q hq, htab r hr]
    exact P.inj q r n hq hr
  · rw [htab q hq]
    exact P.used q n hq
  · rw [htab q hq]
    exact P.nonzero q hq
  · refine P.kernel.imp id ?_
    rintro ⟨h1, h2⟩
    refine ⟨fun q hq => ?_, fun j hj => ?_⟩
    · rw [htab q hq]
      exact h1 q hq
    · show child (ents (withEntry s f i v).phys s.kroot j) = none
      rw [same s.kroot j fun he => hout (he ▸ .inr (.inl rfl))]
      exact h2 j hj

end leaf

/-! ### The call -/

/-- The tree grown, then one leaf written: what `map_page` does when it returns. -/
structure Mapped (flags va leaf : ℕ) (s s' : Machine) (pdpt pd pt : ℕ) : Prop where
  paged : Paged s' pdpt pd pt
  grown : ∃ g f, Paged g pdpt pd pt ∧ Grown flags (path va) s g ∧ g.table (path va) = some f ∧
    s' = withEntry g f (index 12 va) leaf

/-- After a level, the next one finds its table under `TEMP_PAGE`. -/
theorem reaches_temp (P : Paged s pdpt pd pt) (ht : s.table p = some g)
    (hm : child (ents s.phys pt 511) = some g) (i : Fin 512) : Reaches s TEMP_PAGE p i :=
  ⟨g, P.toWindow.points_temp hm, .inl ht⟩

/-- Below a path without a table there is none. -/
theorem table_none_below (h : s.table p = none) (hpq : p <+: q) : s.table q = none := by
  obtain ⟨r, rfl⟩ := hpq
  rw [Machine.table, Radix.node_append, show Radix.node child (ents s.phys) s.root p = none from h]
  rfl

/-- A call of `map_page` returns, or panics on the way down with no frame left and the page table still
    to be made. -/
theorem mapPage_outcome (P : Paged s pdpt pd pt) {ctx va pa : ℕ} (hctx : Reaches s ctx [] (index 39 va))
    (hw : path va ≠ windowPath) (hflags : FlagBits flags) (hpa : pa < 2 ^ 64) :
    (∃ s', mapPage s ctx va pa flags = .ok s' ∧ Mapped flags va (pa ||| flags) s s' pdpt pd pt ∧
      s.pmm.freeCount ≤ s'.pmm.freeCount + 3) ∨
    (∃ g, mapPage s ctx va pa flags = .error ⟨.panic "Out of physical memory for page table!", g⟩ ∧
      Paged g pdpt pd pt ∧ Grown flags (path va) s g ∧ s.pmm.freeCount ≤ 2 ∧
      (∀ j < g.pmm.memBitmapBitSize, g.pmm.used j = true) ∧ g.table (path va) = none) := by
  unfold mapPage
  rcases nextTable_grows P hctx (by simp) hflags (π := path va) ⟨_, rfl⟩ with
    ⟨s₁, g₁, h₁, P₁, G₁, t₁, m₁, c₁⟩ | ⟨hno, hall, h⟩
  swap
  · exact .inr ⟨s, by rw [h]; rfl, P, .refl P flags _, by rw [freeCount_eq_zero hall]; omega, hall,
      table_none_below hno ⟨_, rfl⟩⟩
  rw [h₁, ok_bind]
  rcases nextTable_grows P₁ (reaches_temp P₁ t₁ m₁ (index 30 va)) (by simp) hflags
    (π := path va) ⟨_, rfl⟩ with
    ⟨s₂, g₂, h₂, P₂, G₂, t₂, m₂, c₂⟩ | ⟨hno, hall, h⟩
  swap
  · exact .inr ⟨s₁, by rw [h]; rfl, P₁, G₁, by rw [freeCount_eq_zero hall] at c₁; omega, hall,
      table_none_below hno ⟨_, rfl⟩⟩
  rw [h₂, ok_bind]
  rcases nextTable_grows P₂ (reaches_temp P₂ t₂ m₂ (index 21 va)) (by simp) hflags
    (π := path va) ⟨[], rfl⟩ with
    ⟨s₃, g₃, h₃, P₃, G₃, t₃, m₃, c₃⟩ | ⟨hno, hall, h⟩
  swap
  · exact .inr ⟨s₂, by rw [h]; rfl, P₂, G₁.trans G₂, by rw [freeCount_eq_zero hall] at c₂; omega, hall, hno⟩
  rw [h₃, ok_bind, (P₃.toWindow.points_temp m₃).store64]
  have hleaf : pa ||| flags < 2 ^ 64 := entry_lt hpa hflags.1
  have hc : s.pmm.freeCount ≤ s₃.pmm.freeCount + 3 := by omega
  exact .inl ⟨_, rfl, ⟨withLeaf_paged (p := path va) P₃ rfl hw t₃ hleaf, s₃, g₃, P₃,
    (G₁.trans G₂).trans G₃, t₃, rfl⟩, hc⟩

/-- The two ends of a call of `map_page`. -/
theorem mapPage_spec (P : Paged s pdpt pd pt) {ctx va pa : ℕ} (hctx : Reaches s ctx [] (index 39 va))
    (hw : path va ≠ windowPath) (hflags : FlagBits flags) (hpa : pa < 2 ^ 64) :
    (∃ s', mapPage s ctx va pa flags = .ok s' ∧ Mapped flags va (pa ||| flags) s s' pdpt pd pt ∧
      s.pmm.freeCount ≤ s'.pmm.freeCount + 3) ∨
    (∃ g, mapPage s ctx va pa flags = .error ⟨.panic "Out of physical memory for page table!", g⟩ ∧
      Paged g pdpt pd pt ∧ Grown flags (path va) s g ∧ s.pmm.freeCount ≤ 2) :=
  (mapPage_outcome P hctx hw hflags hpa).imp_right fun ⟨g, h, P', G, hc, _⟩ => ⟨g, h, P', G, hc⟩

section mapped
variable {va leaf : ℕ} (M : Mapped flags va leaf s s' pdpt pd pt) (hleaf : leaf < 2 ^ 64)
include M

theorem Mapped.cr3 : s'.cr3 = s.cr3 := by
  obtain ⟨_, g, f, _, G, _, rfl⟩ := M
  exact G.cr3

theorem Mapped.pml4t : s'.pml4t = s.pml4t := by
  obtain ⟨_, g, f, _, G, _, rfl⟩ := M
  exact G.pml4t

include hleaf

/-- The leaf of the page mapped. -/
theorem Mapped.entry_self (hpres : leaf &&& 0x1 ≠ 0) : s'.entry (path va) (index 12 va) = some leaf := by
  obtain ⟨_, g, f, P, _, ht, rfl⟩ := M
  exact withLeaf_entry_self P (by simp [path]) ht hleaf hpres

/-- Every other leaf, `TEMP_PAGE`'s apart. -/
theorem Mapped.entry_ne (hp : p.length = 3) (hne : (p, i) ≠ (path va, index 12 va))
    (ht : (p, i) ≠ (windowPath, 511)) : s'.entry p i = s.entry p i := by
  obtain ⟨_, g, f, P, G, htab, rfl⟩ := M
  rw [withLeaf_entry P (by simp [path]) htab hleaf (by omega) hne, G.leaf p i hp ht]

/-- The entries above the leaves are those of the grown tree. -/
theorem Mapped.upper : ∃ g, Grown flags (path va) s g ∧ (∀ p i, p.length ≤ 2 → s'.entry p i = g.entry p i) ∧
    (∀ p, p.length ≤ 3 → s'.table p = g.table p) ∧ s'.pmm = g.pmm := by
  obtain ⟨_, g, f, P, G, htab, rfl⟩ := M
  refine ⟨g, G, fun p i hp => withLeaf_entry P (by simp [path]) htab hleaf (by omega) ?_,
    fun p hp => withLeaf_table P (by simp [path]) htab hleaf hp, rfl⟩
  intro he
  rw [(Prod.mk.inj he).1] at hp
  simp [path] at hp

/-- No byte outside the tables is written. -/
theorem Mapped.bytes {x : ℕ} (hx : ∀ p, p.length ≤ 3 → s'.table p ≠ some (x / 4096)) :
    s'.phys x = s.phys x := by
  obtain ⟨_, g, f, P, G, htab, rfl⟩ := M
  have htab' := fun (q : List (Fin 512)) (hq : q.length ≤ 3) =>
    withLeaf_table (i := index 12 va) P (by simp [path]) htab hleaf hq
  have hf : x / 4096 ≠ f := fun he => hx (path va) (by simp [path]) (by rw [htab' _ (by simp [path]), htab, he])
  show g.phys.store64 _ _ x = _
  rw [Mem.store64_out (by omega)]
  exact G.bytes x fun p hp hn => hx p hp (by rw [htab' p hp, hn])

end mapped

/-! ### Walking down through `TEMP_PAGE` -/

/-- What `unmap_page` and `get_physical_address` read at each upper level. -/
theorem load_child (P : Paged s pdpt pd pt) {table : ℕ} (hr : Reaches s table p i)
    (hg : s.table (p ++ [i]) = some g) :
    ∃ e, s.load64 (slot table i) = .ok e ∧ e &&& PAGE_MASK = g * 4096 := by
  obtain ⟨f, hpt, hf⟩ := hr
  refine ⟨_, hpt.load64 i, ?_⟩
  have hc : child (ents s.phys f i) = some g := by
    rcases hf with hf | ⟨rfl, rfl, rfl⟩
    · rw [← hg, child_of_table hf]
    · rw [← hg, child_of_table (Machine.table_nil s), P.link4, P.klink4]
  rw [and_pageMask, (child_eq_some.mp hc).2]

theorem table_lt (hp : p ≠ []) (h : s.table p = some g) : g < 2 ^ 40 := by
  obtain ⟨q, i, rfl⟩ := List.eq_nil_or_concat p |>.resolve_left hp
  rw [List.concat_eq_append, table_snoc] at h
  obtain ⟨e, _, rfl⟩ := Option.map_eq_some_iff.mp h
  exact frame_lt e

/-- The table moved under `TEMP_PAGE` is reached there. -/
theorem reaches_withTemp (P : Paged s pdpt pd pt) (hp : p.length ≤ 3) (hg : g < 2 ^ 40)
    (ht : s.table p = some g) (i : Fin 512) : Reaches (withTemp s pt g) TEMP_PAGE p i :=
  reaches_temp (withTemp_paged P hg) (by rw [withTemp_table P hg hp, ht]) (child_ents_withTemp hg) i

theorem withTemp_withTemp (s : Machine) (pt g h : ℕ) :
    withTemp (withTemp s pt g) pt h = withTemp s pt h := by
  simp only [withTemp, Mem.store64_store64]

/-- Tables passed on the way down to a table of the last level. -/
theorem tables_above {va : ℕ} (ht : s.table (path va) = some f) :
    ∃ g₁ g₂, s.table [index 39 va] = some g₁ ∧ s.table [index 39 va, index 30 va] = some g₂ := by
  cases h₁ : s.table [index 39 va] with
  | none =>
    rw [show path va = [index 39 va] ++ [index 30 va, index 21 va] from rfl, Machine.table,
      Radix.node_append, show Radix.node child (ents s.phys) s.root _ = none from h₁] at ht
    cases ht
  | some g₁ =>
    cases h₂ : s.table [index 39 va, index 30 va] with
    | none =>
      rw [show path va = [index 39 va, index 30 va] ++ [index 21 va] from rfl, table_snoc,
        entry_none_of_table h₂] at ht
      cases ht
    | some g₂ => exact ⟨g₁, g₂, rfl, rfl⟩

/-- The way down that `unmap_page` and `get_physical_address` share: each table is read through
    `TEMP_PAGE` and gives its place there to the next. -/
structure Descent (s : Machine) (ctx va pt f g₁ g₂ e₁ e₂ e₃ : ℕ) : Prop where
  load₁ : s.load64 (slot ctx (index 39 va)) = .ok e₁
  addr₁ : e₁ &&& PAGE_MASK = g₁ * 4096
  temp₁ : tempMap s (g₁ * 4096) = .ok (withTemp s pt g₁)
  load₂ : (withTemp s pt g₁).load64 (slot TEMP_PAGE (index 30 va)) = .ok e₂
  addr₂ : e₂ &&& PAGE_MASK = g₂ * 4096
  temp₂ : tempMap (withTemp s pt g₁) (g₂ * 4096) = .ok (withTemp s pt g₂)
  load₃ : (withTemp s pt g₂).load64 (slot TEMP_PAGE (index 21 va)) = .ok e₃
  addr₃ : e₃ &&& PAGE_MASK = f * 4096
  temp₃ : tempMap (withTemp s pt g₂) (f * 4096) = .ok (withTemp s pt f)
  last : Points (withTemp s pt f) TEMP_PAGE f

theorem descent (P : Paged s pdpt pd pt) {ctx va : ℕ} (hctx : Reaches s ctx [] (index 39 va))
    (hf : s.table (path va) = some f) : ∃ g₁ g₂ e₁ e₂ e₃, Descent s ctx va pt f g₁ g₂ e₁ e₂ e₃ ∧
      s.table [index 39 va] = some g₁ ∧ s.table [index 39 va, index 30 va] = some g₂ := by
  obtain ⟨g₁, g₂, h₁, h₂⟩ := tables_above hf
  have l₁ := table_lt (by simp) h₁
  have l₂ := table_lt (by simp) h₂
  have l₃ := table_lt (by simp [path]) hf
  have P₁ := withTemp_paged P l₁
  have P₂ := withTemp_paged P l₂
  have t₂ : (withTemp s pt g₁).table ([index 39 va] ++ [index 30 va]) = some g₂ := by
    rw [withTemp_table P l₁ (by simp)]
    exact h₂
  have t₃ : (withTemp s pt g₂).table ([index 39 va, index 30 va] ++ [index 21 va]) = some f := by
    rw [withTemp_table P l₂ (by simp)]
    exact hf
  obtain ⟨e₁, r₁, k₁⟩ := load_child P hctx h₁
  obtain ⟨e₂, r₂, k₂⟩ := load_child P₁ (reaches_withTemp P (by simp) l₁ h₁ (index 30 va)) t₂
  obtain ⟨e₃, r₃, k₃⟩ := load_child P₂ (reaches_withTemp P (by simp) l₂ h₂ (index 21 va)) t₃
  refine ⟨g₁, g₂, e₁, e₂, e₃, ⟨r₁, k₁, tempMap_eq P.toWindow g₁, r₂, k₂, ?_, r₃, k₃, ?_, ?_⟩, h₁, h₂⟩
  · rw [tempMap_eq P₁.toWindow, withTemp_withTemp]
  · rw [tempMap_eq P₂.toWindow, withTemp_withTemp]
  · exact (withTemp_paged P l₃).toWindow.points_temp (child_ents_withTemp l₃)

/-- `get_physical_address` of a mapped page: the address its leaf gives, and only `TEMP_PAGE` moved. -/
theorem getPhysicalAddress_spec (P : Paged s pdpt pd pt) {ctx va e : ℕ} (hva : path va ≠ windowPath)
    (hctx : Reaches s ctx [] (index 39 va)) (he : s.entry (path va) (index 12 va) = some e) :
    ∃ n < 2 ^ 40, getPhysicalAddress s ctx va = .ok (frame e * 4096 + va % 4096, withTemp s pt n) := by
  obtain ⟨f, hf⟩ := table_of_present he
  have l₃ := table_lt (by simp [path]) hf
  obtain ⟨g₁, g₂, e₁, e₂, e₃, D, _, _⟩ := descent P hctx hf
  have hleaf : ents (withTemp s pt f).phys f (index 12 va) = e := by
    have hne : f ≠ pt := fun h =>
      hva (P.inj _ _ f (by simp [path]) (by simp) hf (by rw [h]; exact P.table_window))
    rw [ents_withTemp l₃, if_neg fun h => hne h.1]
    rw [entry_of_table hf] at he
    split at he
    · cases he
    · exact Option.some.inj he
  have hlt := frame_lt e
  refine ⟨f, l₃, ?_⟩
  unfold getPhysicalAddress
  simp only [D.load₁, ok_bind, D.addr₁, D.temp₁, D.load₂, D.addr₂, D.temp₂, D.load₃, D.addr₃, D.temp₃,
    D.last.load64, hleaf]
  rw [and_pageMask, show (0xFFF : ℕ) = 2 ^ 12 - 1 from rfl, Nat.and_two_pow_sub_one_eq_mod, add64_of_lt (by omega)]

end

end TerraOS.Vmm
