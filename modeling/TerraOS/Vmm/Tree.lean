import TerraOS.Vmm.Window

/-! The tree of tables, and how `map_page` grows it.

    `Paged` is the invariant of the machine between calls: the window is in place, no page is the table
    of two paths, and every table's page is marked used. `Grown` is what any number of levels of
    `map_page` do to it: tables are added, in frames that were free; no entry that was present changes;
    no leaf other than `TEMP_PAGE`'s changes; no byte outside the tables is written. -/

namespace TerraOS.Vmm
open Lib Lib.Word Pmm

namespace Machine

/-- The page of the table at a path of the active tree. -/
def table (s : Machine) (p : List (Fin 512)) : Option ℕ := Radix.node child (ents s.phys) s.root p

/-- The present entry at index `i` of that table. -/
def entry (s : Machine) (p : List (Fin 512)) (i : Fin 512) : Option ℕ := entryAt s.phys s.root p i

@[simp] theorem table_nil (s : Machine) : s.table [] = some s.root := rfl

end Machine

section
variable {s s' s'' : Machine} {pdpt pd pt f g n flags : ℕ} {p q π : List (Fin 512)}
  {i j : Fin 512}

theorem table_snoc (s : Machine) (p : List (Fin 512)) (i : Fin 512) :
    s.table (p ++ [i]) = (s.entry p i).map frame := by
  rw [Machine.table, Radix.node_snoc, Machine.entry, entryAt, Option.map_bind]
  congr 1
  funext n
  unfold child
  simp only [Function.comp]
  split <;> rfl

theorem entry_of_table (hn : s.table p = some n) :
    s.entry p i = if ents s.phys n i &&& 0x1 = 0 then none else some (ents s.phys n i) := by
  rw [Machine.entry, entryAt, show Radix.node child (ents s.phys) s.root p = some n from hn,
    Option.bind_some]

theorem entry_none_of_table (hn : s.table p = none) : s.entry p i = none := by
  rw [Machine.entry, entryAt, show Radix.node child (ents s.phys) s.root p = none from hn]
  rfl

theorem table_of_present (h : s.entry p i = some n) : ∃ f, s.table p = some f := by
  cases hf : s.table p with
  | none => rw [entry_none_of_table hf] at h; cases h
  | some f => exact ⟨f, rfl⟩

theorem child_none_of_entry (hn : s.table p = some n) (h : s.entry p i = none) :
    child (ents s.phys n i) = none := by
  rw [entry_of_table hn] at h
  by_contra hne
  rw [if_neg (mt child_eq_none.mpr hne)] at h
  cases h

/-- A path of the tree is known by its entries. -/
theorem table_of_entry (h : s.entry p i = some n) : s.table (p ++ [i]) = some (frame n) := by
  rw [table_snoc, h, Option.map_some]

theorem child_of_table (hn : s.table p = some n) : s.table (p ++ [i]) = child (ents s.phys n i) := by
  rw [Machine.table, Radix.node_snoc, show Radix.node child (ents s.phys) s.root p = some n from hn,
    Option.bind_some]

/-- The same tables with the same entries are the same tree. -/
theorem entry_congr (ht : s'.table p = s.table p)
    (he : ∀ n, s.table p = some n → ents s'.phys n i = ents s.phys n i) : s'.entry p i = s.entry p i := by
  cases hn : s.table p with
  | none => rw [entry_none_of_table hn, entry_none_of_table (ht.trans hn)]
  | some n => rw [entry_of_table hn, entry_of_table (ht.trans hn), he n hn]

/-! ### The invariant -/

/-- The machine between calls. -/
structure Paged (s : Machine) (pdpt pd pt : ℕ) : Prop extends Window s pdpt pd pt, Frames s where
  inj : ∀ p q n, p.length ≤ 3 → q.length ≤ 3 → s.table p = some n → s.table q = some n → p = q
  used : ∀ p n, p.length ≤ 3 → s.table p = some n → s.pmm.used n = true
  nonzero : ∀ p, p.length ≤ 3 → s.table p ≠ some 0
  kernel : s.kroot = s.root ∨
    (∀ p, p.length ≤ 3 → s.table p ≠ some s.kroot) ∧
      ∀ i, i ≠ 511 → child (ents s.phys s.kroot i) = none

theorem Paged.table_window (P : Paged s pdpt pd pt) : s.table windowPath = some pt := P.node

/-- The window goes through the tables on its path, and through the kernel's root. -/
theorem Paged.inWindow_cases (P : Paged s pdpt pd pt) (h : InWindow s pdpt pd pt n) :
    n = s.kroot ∨ s.table windowPath = some n ∨ ∃ q : List (Fin 512), q.length ≤ 2 ∧ s.table q = some n := by
  have h1 : s.table [511] = some pdpt := by rw [← List.nil_append [511], child_of_table rfl, P.link4]
  have h2 : s.table [511, 510] = some pd := by
    rw [show ([511, 510] : List (Fin 512)) = [511] ++ [510] from rfl, child_of_table h1, P.link3]
  rcases h with rfl | rfl | rfl | rfl | rfl
  · exact .inr (.inr ⟨[], by simp, rfl⟩)
  · exact .inl rfl
  · exact .inr (.inr ⟨_, by simp, h1⟩)
  · exact .inr (.inr ⟨_, by simp, h2⟩)
  · exact .inr (.inl P.table_window)

/-- A table above the last level is not the window's page table. -/
theorem Paged.ne_pt (P : Paged s pdpt pd pt) (hp : p.length ≤ 2) (hn : s.table p = some n) : n ≠ pt := by
  rintro rfl
  have := P.inj p windowPath n (by omega) (by simp) hn P.table_window
  subst this
  simp at hp

/-- A free page is the table of no path. -/
theorem Paged.table_ne_free (P : Paged s pdpt pd pt) (hu : s.pmm.used g = false) (hp : p.length ≤ 3) :
    s.table p ≠ some g := by
  intro h
  rw [P.used p g hp h] at hu
  cases hu

/-- Another allocator, under which the reserved pages and those of the tables are used. -/
theorem Paged.setPmm (P : Paged s pdpt pd pt) {a : Pmm}
    (hsize : a.memBitmapBitSize = s.pmm.memBitmapBitSize) (hres : ∀ i < 512, a.used i = true)
    (hused : ∀ p n, p.length ≤ 3 → s.table p = some n → a.used n = true) :
    Paged { s with pmm := a } pdpt pd pt where
  toWindow := P.toWindow.withPmm a
  toFrames := ⟨hsize ▸ P.size, hres, hused [] s.root (by simp) rfl⟩
  inj := P.inj
  used := hused
  nonzero := P.nonzero
  kernel := P.kernel

/-- More frames used. -/
theorem Paged.withPmm (P : Paged s pdpt pd pt) {a : Pmm}
    (hsize : a.memBitmapBitSize = s.pmm.memBitmapBitSize)
    (hused : ∀ n, s.pmm.used n = true → a.used n = true) : Paged { s with pmm := a } pdpt pd pt :=
  P.setPmm hsize (fun i hi => hused i (P.reserved i hi)) fun p n hp hn => hused n (P.used p n hp hn)

/-! ### What levels of `map_page` add up to -/

/-- An entry that is not present is zero, in every table. -/
def AbsentZero (s : Machine) : Prop := ∀ p n i, p.length ≤ 3 → s.table p = some n →
  child (ents s.phys n i) = none → ents s.phys n i = 0

/-- `s'` is `s` with tables added, linked with these flags, on the way down `π`. -/
structure Grown (flags : ℕ) (π : List (Fin 512)) (s s' : Machine) : Prop where
  cr3 : s'.cr3 = s.cr3
  pml4t : s'.pml4t = s.pml4t
  size : s'.pmm.memBitmapBitSize = s.pmm.memBitmapBitSize
  keep : ∀ p i e, p.length ≤ 2 → s.entry p i = some e → s'.entry p i = some e
  made : ∀ p i e, p.length ≤ 2 → s'.entry p i = some e → s.entry p i = some e ∨
    s.entry p i = none ∧ p ++ [i] <+: π ∧ ∃ g, g < s.pmm.memBitmapBitSize ∧ s.pmm.used g = false ∧
      e = g * 4096 ||| flags ||| 0x1
  leaf : ∀ p i, p.length = 3 → (p, i) ≠ (windowPath, 511) → s'.entry p i = s.entry p i
  bits : ∀ n, s'.pmm.used n = true ↔
    s.pmm.used n = true ∨ s.pmm.used n = false ∧ ∃ p, p.length ≤ 3 ∧ s'.table p = some n
  bytes : ∀ x, (∀ p, p.length ≤ 3 → s'.table p ≠ some (x / 4096)) → s'.phys x = s.phys x
  zeros : AbsentZero s → AbsentZero s'

theorem Grown.root (G : Grown flags π s s') : s'.root = s.root := by rw [Machine.root, Machine.root, G.cr3]

theorem Grown.kroot (G : Grown flags π s s') : s'.kroot = s.kroot := by
  rw [Machine.kroot, Machine.kroot, G.pml4t]

/-- Tables stay. -/
theorem Grown.table (G : Grown flags π s s') (hp : p.length ≤ 3) (hn : s.table p = some n) :
    s'.table p = some n := by
  induction p using List.reverseRecOn generalizing n with
  | nil =>
    rw [Machine.table_nil] at hn ⊢
    rw [G.root]
    exact hn
  | append_singleton p i _ =>
    rw [List.length_append, List.length_singleton] at hp
    rw [table_snoc] at hn ⊢
    obtain ⟨e, he, rfl⟩ := Option.map_eq_some_iff.mp hn
    rw [G.keep p i e (by omega) he, Option.map_some]

theorem Grown.used (G : Grown flags π s s') (hn : s.pmm.used n = true) : s'.pmm.used n = true :=
  (G.bits n).mpr (.inl hn)

theorem Grown.free (G : Grown flags π s s') (hn : s'.pmm.used n = false) : s.pmm.used n = false := by
  cases h : s.pmm.used n with
  | false => rfl
  | true => rw [G.used h] at hn; cases hn

theorem Grown.refl (P : Paged s pdpt pd pt) (flags : ℕ) (π : List (Fin 512)) : Grown flags π s s :=
  ⟨rfl, rfl, rfl, fun _ _ _ _ h => h, fun _ _ _ _ h => .inl h, fun _ _ _ _ => rfl,
    fun _ => ⟨.inl, fun h => h.elim id fun ⟨hu, _, hp, hn⟩ => absurd hn (P.table_ne_free hu hp)⟩,
    fun _ _ => rfl, id⟩

theorem Grown.trans (G : Grown flags π s s') (H : Grown flags π s' s'') : Grown flags π s s'' where
  cr3 := H.cr3.trans G.cr3
  pml4t := H.pml4t.trans G.pml4t
  size := H.size.trans G.size
  keep p i e hp he := H.keep p i e hp (G.keep p i e hp he)
  made p i e hp he := by
    rcases H.made p i e hp he with he | ⟨hno, hπ, g, hlt, hu, rfl⟩
    · exact G.made p i e hp he
    · refine .inr ⟨?_, hπ, g, G.size ▸ hlt, G.free hu, rfl⟩
      cases h : s.entry p i with
      | none => rfl
      | some e => rw [G.keep p i e hp h] at hno; cases hno
  leaf p i hp hne := (H.leaf p i hp hne).trans (G.leaf p i hp hne)
  bits n := by
    rw [H.bits, G.bits]
    constructor
    · rintro ((h | ⟨h, p, hp, hn⟩) | ⟨h, p, hp, hn⟩)
      · exact .inl h
      · exact .inr ⟨h, p, hp, H.table hp hn⟩
      · exact .inr ⟨G.free h, p, hp, hn⟩
    · rintro (h | ⟨h, p, hp, hn⟩)
      · exact .inl (.inl h)
      · cases h' : s'.pmm.used n with
        | true => exact .inl ((G.bits n).mp h')
        | false => exact .inr ⟨rfl, p, hp, hn⟩
  bytes x hx := (H.bytes x hx).trans (G.bytes x fun p hp hn => hx p hp (H.table hp hn))
  zeros Z := H.zeros (G.zeros Z)

/-- A table of the grown tree was there, or lies in a frame that was free. -/
theorem Grown.table_or_free (G : Grown flags π s s') (hlt : s.pmm.memBitmapBitSize ≤ 2 ^ 40)
    (hflags : FlagBits flags) (hp : p.length ≤ 3) (hn : s'.table p = some n) :
    s.table p = some n ∨ n < s.pmm.memBitmapBitSize ∧ s.pmm.used n = false := by
  rcases List.eq_nil_or_concat p with rfl | ⟨q, i, rfl⟩
  · rw [Machine.table_nil, G.root] at hn
    exact .inl hn
  · rw [List.concat_eq_append] at hn hp ⊢
    rw [List.length_append, List.length_singleton] at hp
    rw [table_snoc] at hn ⊢
    obtain ⟨e, he, rfl⟩ := Option.map_eq_some_iff.mp hn
    rcases G.made q i e (by omega) he with h | ⟨_, _, g, hg, hu, rfl⟩
    · exact .inl (by rw [h, Option.map_some])
    · have hf := (child_eq_some.mp (child_link (show g < 2 ^ 40 by omega) hflags.2)).2
      exact .inr (by rw [hf]; exact ⟨hg, hu⟩)

/-! ### A level that finds its table -/

theorem withTemp_table (P : Paged s pdpt pd pt) (hn : n < 2 ^ 40) (hp : p.length ≤ 3) :
    (withTemp s pt n).table p = s.table p := by
  refine Radix.node_congr child fun q j m hq hm => ?_
  have hlen := hq.length_le
  rw [List.length_append, List.length_singleton] at hlen
  rw [ents_withTemp hn, if_neg fun he => P.ne_pt (by omega) hm he.1]

theorem withTemp_entry (P : Paged s pdpt pd pt) (hn : n < 2 ^ 40) (hp : p.length ≤ 3)
    (hne : (p, i) ≠ (windowPath, 511)) : (withTemp s pt n).entry p i = s.entry p i := by
  refine entry_congr (withTemp_table P hn hp) fun m hm => ?_
  rw [ents_withTemp hn, if_neg]
  rintro ⟨rfl, rfl⟩
  exact hne (Prod.ext (P.inj _ _ _ hp (by simp) hm P.table_window) rfl)

theorem withTemp_bytes (s : Machine) (pt n : ℕ) {x : ℕ} (hx : x / 4096 ≠ pt) :
    (withTemp s pt n).phys x = s.phys x :=
  Mem.store64_out (by have : ((511 : Fin 512) : ℕ) = 511 := rfl; omega)

theorem ne_window (hp : p.length ≤ 2) : (p, i) ≠ (windowPath, 511) := by
  intro he
  rw [(Prod.mk.inj he).1] at hp
  simp at hp

theorem withTemp_paged (P : Paged s pdpt pd pt) (hn : n < 2 ^ 40) :
    Paged (withTemp s pt n) pdpt pd pt where
  toWindow := P.toWindow.withTemp hn
  toFrames := ⟨P.size, P.reserved, P.rootUsed⟩
  inj p q m hp hq := by
    rw [withTemp_table P hn hp, withTemp_table P hn hq]
    exact P.inj p q m hp hq
  used p m hp := by
    rw [withTemp_table P hn hp]
    exact P.used p m hp
  nonzero p hp := by
    rw [withTemp_table P hn hp]
    exact P.nonzero p hp
  kernel := by
    refine P.kernel.imp id fun ⟨h1, h2⟩ => ⟨fun p hp => ?_, fun i hi => ?_⟩
    · rw [withTemp_table P hn hp]
      exact h1 p hp
    · have hne : ¬ (s.kroot = pt ∧ i = 511) := fun he => hi he.2
      show child (ents (withTemp s pt n).phys s.kroot i) = none
      rw [ents_withTemp hn, if_neg hne]
      exact h2 i hi

theorem withTemp_grown (P : Paged s pdpt pd pt) (hn : n < 2 ^ 40) (flags : ℕ) (π : List (Fin 512)) :
    Grown flags π s (withTemp s pt n) where
  cr3 := rfl
  pml4t := rfl
  size := rfl
  keep p i e hp he := by rw [withTemp_entry P hn (by omega) (ne_window hp), he]
  made p i e hp he := .inl (by rw [← he, withTemp_entry P hn (by omega) (ne_window hp)])
  leaf p i hp hne := withTemp_entry P hn (by omega) hne
  bits m := by
    refine ⟨.inl, fun h => h.elim id fun ⟨h, p, hp, hm⟩ => ?_⟩
    rw [withTemp_table P hn hp] at hm
    exact absurd hm (P.table_ne_free h hp)
  bytes x hx := withTemp_bytes s pt n fun he =>
    hx windowPath (by simp) (by rw [withTemp_table P hn (by simp), P.table_window, he])
  zeros Z p m i hp hm hc := by
    rw [withTemp_table P hn hp] at hm
    rw [ents_withTemp hn] at hc ⊢
    split at hc
    · rw [child_temp hn] at hc
      cases hc
    · rename_i hne
      rw [if_neg hne]
      exact Z p m i hp hm hc

/-! ### A level that makes its table -/

theorem ents_withTable (hg : g < 2 ^ 40) (hf : FlagBits flags) (n : ℕ) (j : Fin 512) :
    ents (withTable s pt f i g flags).phys n j
      = if n = g then 0 else if n = pt ∧ j = 511 then g * 4096 ||| 0x13
        else if n = f ∧ j = i then g * 4096 ||| flags ||| 0x1 else ents s.phys n j := by
  rw [withTable, zeroed, ents_zeroed, ents_withTemp hg, withEntry, ents_store64 (link_lt hg hf)]

theorem withTable_used (hpmm : pmmAlloc s.pmm
      = (g * 4096, { s.pmm with memBitmap := Bits.set s.pmm.memBitmap g })) (n : ℕ) :
    (withTable s pt f i g flags).pmm.used n = (decide (n = g) || s.pmm.used n) := by
  show (pmmAlloc s.pmm).2.used n = _
  rw [hpmm]
  exact Bits.bit_set _ _ _

section made
variable (P : Paged s pdpt pd pt) (hflags : FlagBits flags) (hp : p.length ≤ 2)
  (hf : s.table p = some f) (hno : child (ents s.phys f i) = none) (hlt : g < s.pmm.memBitmapBitSize)
  (hu : s.pmm.used g = false)

include P hflags hp hf hno hlt hu

/-- The one entry of the tree the level edits. -/
theorem withTable_edit :
    Radix.EditAt child (Radix.upTo (Fin 512) 3) p i (ents s.phys) (ents (withTable s pt f i g flags).phys)
      s.root := by
  obtain ⟨_, _, h40⟩ := P.free hlt hu
  intro q j n hq hne hn
  have hlen : (q ++ [j]).length ≤ 3 := hq
  rw [List.length_append, List.length_singleton] at hlen
  have hng : n ≠ g := fun he => P.table_ne_free hu (by omega) (he ▸ hn)
  have hnpt := P.ne_pt (by omega) hn
  rw [ents_withTable h40 hflags, if_neg hng, if_neg fun h => hnpt h.1, if_neg]
  rintro ⟨rfl, rfl⟩
  exact hne (by rw [P.inj q p n (by omega) (by omega) hn hf])

theorem withTable_table (hq : q.length ≤ 3) :
    (withTable s pt f i g flags).table q = if q = p ++ [i] then some g else s.table q := by
  obtain ⟨_, _, h40⟩ := P.free hlt hu
  have hfg : f ≠ g := fun he => P.table_ne_free hu (by omega) (he ▸ hf)
  have hfpt := P.ne_pt hp hf
  refine (withTable_edit P hflags hp hf hno hlt hu).node_link (Radix.upTo_prefixClosed 3)
    (show p.length ≤ 3 by omega) hf hno ?_ (fun j => ?_) hq
  · rw [ents_withTable h40 hflags, if_neg hfg, if_neg fun h => hfpt h.1, if_pos ⟨rfl, rfl⟩]
    exact child_link h40 hflags.2
  · rw [ents_withTable h40 hflags, if_pos rfl, child_zero]

theorem withTable_entry_self :
    (withTable s pt f i g flags).entry p i = some (g * 4096 ||| flags ||| 0x1) := by
  obtain ⟨_, _, h40⟩ := P.free hlt hu
  have hfg : f ≠ g := fun he => P.table_ne_free hu (by omega) (he ▸ hf)
  have hfpt := P.ne_pt hp hf
  have ht : (withTable s pt f i g flags).table p = some f := by
    rw [withTable_table P hflags hp hf hno hlt hu (by omega), if_neg (by simp), hf]
  have he : ents (withTable s pt f i g flags).phys f i = g * 4096 ||| flags ||| 0x1 := by
    rw [ents_withTable h40 hflags, if_neg hfg, if_neg fun h => hfpt h.1, if_pos ⟨rfl, rfl⟩]
  rw [entry_of_table ht, he, if_neg (or_one_and _)]

theorem withTable_entry (hq : q.length ≤ 3) (hne : (q, j) ≠ (p, i)) (hw : (q, j) ≠ (windowPath, 511)) :
    (withTable s pt f i g flags).entry q j = s.entry q j := by
  obtain ⟨_, _, h40⟩ := P.free hlt hu
  have ht := withTable_table P hflags hp hf hno hlt hu hq
  by_cases hqp : q = p ++ [i]
  · -- the new table is empty, and the path led nowhere before
    rw [if_pos hqp] at ht
    have hold : s.table q = none := by rw [hqp, child_of_table hf, hno]
    rw [entry_of_table ht, entry_none_of_table hold, ents_withTable h40 hflags, if_pos rfl]
    rfl
  · rw [if_neg hqp] at ht
    refine entry_congr ht fun n hn => ?_
    rw [ents_withTable h40 hflags, if_neg, if_neg, if_neg]
    · rintro ⟨rfl, rfl⟩
      exact hne (Prod.ext (P.inj q p n hq (by omega) hn hf) rfl)
    · rintro ⟨rfl, rfl⟩
      exact hw (Prod.ext (P.inj q windowPath n hq (by simp) hn P.table_window) rfl)
    · rintro rfl
      exact P.table_ne_free hu hq hn

theorem withTable_paged (hpmm : pmmAlloc s.pmm
      = (g * 4096, { s.pmm with memBitmap := Bits.set s.pmm.memBitmap g })) :
    Paged (withTable s pt f i g flags) pdpt pd pt := by
  obtain ⟨h512, hr, h40⟩ := P.free hlt hu
  have htab := fun (q : List (Fin 512)) (hq : q.length ≤ 3) => withTable_table P hflags hp hf hno hlt hu hq
  have hused : ∀ n, (withTable s pt f i g flags).pmm.used n = (decide (n = g) || s.pmm.used n) :=
    withTable_used hpmm
  have W₁ := P.toWindow.withEntry (f := f) (i := i) (link_lt h40 hflags) hno
  have W₂ := (W₁.withTemp h40).of_bytes (g := g)
    (m := fillBytes (withTemp (withEntry s f i (g * 4096 ||| flags ||| 0x1)) pt g).phys (g * 4096) 4096 0)
    (by omega) hr fun x hx => by rw [fillBytes, if_neg (by omega)]
  refine ⟨⟨W₂.ptr, W₂.link4, W₂.klink4, W₂.link3, W₂.link2, W₂.leaf, W₂.temp, W₂.low, W₂.apart⟩,
    ⟨?_, fun n hn => ?_, ?_⟩, ?_, fun q n hq hn => ?_, fun q hq hn => ?_, ?_⟩
  · show (pmmAlloc s.pmm).2.memBitmapBitSize ≤ _
    rw [hpmm]
    exact P.size
  · rw [hused, P.reserved n hn, Bool.or_true]
  · rw [hused]
    show (_ || s.pmm.used s.root) = true
    rw [P.rootUsed, Bool.or_true]
  · have hinj : Radix.InjOn child (Radix.upTo (Fin 512) 3) (ents s.phys) s.root :=
      fun q hq q' hq' n => P.inj q q' n hq hq'
    have := hinj.redirect htab fun n hn q hq => Option.some.inj hn ▸ P.table_ne_free hu hq
    exact fun q q' n hq hq' => this q hq q' hq' n
  · rw [htab q hq] at hn
    rw [hused]
    split at hn
    · rw [Option.some.inj hn]
      simp
    · rw [P.used q n hq hn, Bool.or_true]
  · rw [htab q hq] at hn
    split at hn
    · have := Option.some.inj hn
      omega
    · exact P.nonzero q hq hn
  · refine P.kernel.imp id ?_
    rintro ⟨h1, h2⟩
    refine ⟨fun q hq hn => ?_, fun j hj => ?_⟩
    · rw [htab q hq] at hn
      split at hn
      · have : s.kroot < 511 := P.low.1
        have : g = s.kroot := Option.some.inj hn
        omega
      · exact h1 q hq hn
    · have hk : s.kroot ≠ g := by have := P.low.1; omega
      have hkf : s.kroot ≠ f := fun he => h1 p (by omega) (he ▸ hf)
      show child (ents (withTable s pt f i g flags).phys s.kroot j) = none
      rw [ents_withTable h40 hflags, if_neg hk, if_neg fun h => hj h.2, if_neg fun h => hkf h.1]
      exact h2 j hj

theorem withTable_grown (hpmm : pmmAlloc s.pmm
      = (g * 4096, { s.pmm with memBitmap := Bits.set s.pmm.memBitmap g })) (hπ : p ++ [i] <+: π) :
    Grown flags π s (withTable s pt f i g flags) := by
  have htab := fun (q : List (Fin 512)) (hq : q.length ≤ 3) => withTable_table P hflags hp hf hno hlt hu hq
  have hself := withTable_entry_self P hflags hp hf hno hlt hu
  have hold : s.entry p i = none := by
    rw [entry_of_table hf, if_pos (child_eq_none.mp hno)]
  obtain ⟨_, _, h40⟩ := P.free hlt hu
  refine ⟨rfl, rfl, ?_, fun q j e hq he => ?_, fun q j e hq he => ?_, fun q j hq hw => ?_, fun n => ?_,
    fun x hx => ?_, fun Z q n j hq hn hc => ?_⟩
  · show (pmmAlloc s.pmm).2.memBitmapBitSize = _
    rw [hpmm]
  · by_cases hne : (q, j) = (p, i)
    · obtain ⟨rfl, rfl⟩ := Prod.mk.inj hne
      rw [hold] at he
      cases he
    · rw [withTable_entry P hflags hp hf hno hlt hu (by omega) hne (ne_window hq), he]
  · by_cases hne : (q, j) = (p, i)
    · obtain ⟨rfl, rfl⟩ := Prod.mk.inj hne
      rw [hself] at he
      exact .inr ⟨hold, hπ, g, hlt, hu, (Option.some.inj he).symm⟩
    · rw [withTable_entry P hflags hp hf hno hlt hu (by omega) hne (ne_window hq)] at he
      exact .inl he
  · refine withTable_entry P hflags hp hf hno hlt hu (by omega) ?_ hw
    intro he
    have := congrArg List.length (Prod.mk.inj he).1
    omega
  · rw [withTable_used hpmm, Bool.or_eq_true, decide_eq_true_iff]
    constructor
    · rintro (rfl | h)
      · refine .inr ⟨hu, p ++ [i], by simp; omega, ?_⟩
        rw [htab _ (by simp; omega), if_pos rfl]
      · exact .inl h
    · rintro (h | ⟨h, q, hq, hn⟩)
      · exact .inr h
      · rw [htab q hq] at hn
        split at hn
        · exact .inl (Option.some.inj hn).symm
        · exact absurd hn (P.table_ne_free h hq)
  · -- the bytes written are those of three tables: `f`, `pt` and the new one
    have hxg : x / 4096 ≠ g := fun he =>
      hx (p ++ [i]) (by simp; omega) (by rw [htab _ (by simp; omega), if_pos rfl, he])
    have hxf : x / 4096 ≠ f := fun he =>
      hx p (by omega) (by rw [htab _ (by omega), if_neg (by simp), hf, he])
    have hxpt : x / 4096 ≠ pt := fun he => by
      refine hx windowPath (by simp) ?_
      rw [htab _ (by simp), if_neg, P.table_window, he]
      rintro hw
      have hwt := P.table_window
      rw [hw, child_of_table hf, hno] at hwt
      cases hwt
    rw [withTable, zeroed]
    simp only [fillBytes]
    rw [if_neg (by omega), withTemp_bytes _ _ _ hxpt, withEntry]
    exact Mem.store64_out (by omega)
  · rw [ents_withTable h40 hflags] at hc ⊢
    split at hc
    · rename_i hng
      rw [if_pos hng]
    · rename_i hng
      rw [htab q hq] at hn
      split at hn
      · exact absurd (Option.some.inj hn).symm hng
      · rw [if_neg hng]
        split at hc
        · rw [child_temp h40] at hc
          cases hc
        · rename_i h₁
          rw [if_neg h₁]
          split at hc
          · rw [child_link h40 hflags.2] at hc
            cases hc
          · rename_i h₂
            rw [if_neg h₂]
            exact Z q n j hq hn hc

end made

/-! ### Any level -/

/-- The pointer reaches the table of path `p`, or the kernel's own PML4 for its one shared slot. -/
def Reaches (s : Machine) (table : ℕ) (p : List (Fin 512)) (i : Fin 512) : Prop :=
  ∃ f, Points s table f ∧ (s.table p = some f ∨ p = [] ∧ f = s.kroot ∧ i = 511)

/-- One level of `map_page`: it grows the tree to hold the table at `p ++ [i]` and brings that table
    under `TEMP_PAGE`, or panics when that takes a frame and there is none. -/
theorem nextTable_grows (P : Paged s pdpt pd pt) {table : ℕ} (htbl : Reaches s table p i)
    (hp : p.length ≤ 2) (hflags : FlagBits flags) (hπ : p ++ [i] <+: π) :
    (∃ s' g, nextTable s table i flags = .ok s' ∧ Paged s' pdpt pd pt ∧ Grown flags π s s' ∧
      s'.table (p ++ [i]) = some g ∧ child (ents s'.phys pt 511) = some g ∧
      s.pmm.freeCount ≤ s'.pmm.freeCount + 1) ∨
    (s.table (p ++ [i]) = none ∧ (∀ j < s.pmm.memBitmapBitSize, s.pmm.used j = true) ∧
      nextTable s table i flags = .error ⟨.panic "Out of physical memory for page table!", s⟩) := by
  obtain ⟨f, hpt, hf⟩ := htbl
  have hchild : s.table (p ++ [i]) = child (ents s.phys f i) := by
    rcases hf with hf | ⟨rfl, rfl, rfl⟩
    · exact child_of_table hf
    · rw [child_of_table (Machine.table_nil s), P.link4, P.klink4]
  rcases nextTable_spec P.toWindow P.toFrames hpt hflags with
    ⟨g, hc, h⟩ | ⟨hc, hall, h⟩ | ⟨g, hc, hlt, hu, hpmm, h⟩
  · have hg : g < 2 ^ 40 := (child_eq_some.mp hc).2 ▸ frame_lt _
    refine .inl ⟨_, g, h, withTemp_paged P hg, withTemp_grown P hg flags π, ?_, child_ents_withTemp hg,
      Nat.le_succ _⟩
    rw [withTemp_table P hg (by simp; omega), hchild, hc]
  · exact .inr ⟨hchild.trans hc, hall, h⟩
  · have hf : s.table p = some f := by
      rcases hf with hf | ⟨rfl, rfl, rfl⟩
      · exact hf
      · rw [P.klink4] at hc
        cases hc
    obtain ⟨h512, _, h40⟩ := P.free hlt hu
    have hptg : pt ≠ g := by have := P.low.2.2.2; omega
    refine .inl ⟨_, g, h, withTable_paged P hflags hp hf hc hlt hu hpmm,
      withTable_grown P hflags hp hf hc hlt hu hpmm hπ, ?_, ?_, ?_⟩
    · rw [withTable_table P hflags hp hf hc hlt hu (by simp; omega), if_pos rfl]
    · rw [ents_withTable h40 hflags, if_neg hptg, if_pos ⟨rfl, rfl⟩, child_temp h40]
    · show _ ≤ (pmmAlloc s.pmm).2.freeCount + 1
      rw [hpmm, freeCount_set hlt hu]

end

end TerraOS.Vmm
