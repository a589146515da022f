import TerraOS.Elf.Pages

/-! Where the frames go.

    A log of the pages mapped so far, the last one first, says which frames were taken for pages; every
    other frame taken is a table on the way to one of them. `Account` says so of a machine and of the
    bitmap it started with, and `Account.count` adds it up: the frames that were free are those still
    free and what the pages of the log demand, less the tables not made yet. -/

namespace TerraOS.Elf
open Lib Lib.Word Pmm Vmm

/-- A page mapped: its number, its frame, the flags of its leaf. -/
structure Leaf where
  page : ℕ
  frame : ℕ
  flags : ℕ

/-- The pages of a log. -/
def pagesOf (log : List Leaf) : List ℕ := log.map Leaf.page

/-- From `s₀` to `s` the frames of the log were taken, and frames for tables on the way to its pages. -/
structure Account (s₀ : Machine) (log : List Leaf) (s : Machine) : Prop where
  size : s.pmm.memBitmapBitSize = s₀.pmm.memBitmapBitSize
  page : ∀ l ∈ log, l.page < userPages
  frame : ∀ l ∈ log, l.frame < s₀.pmm.memBitmapBitSize ∧ s₀.pmm.used l.frame = false
  nodup : (log.map Leaf.frame).Nodup
  kept : ∀ p n, p.length ≤ 3 → s₀.table p = some n → s.table p = some n
  tables : ∀ p n, p.length ≤ 3 → s.table p = some n → s₀.table p = some n ∨
    n < s₀.pmm.memBitmapBitSize ∧ s₀.pmm.used n = false ∧ (∀ l ∈ log, l.frame ≠ n) ∧ p ∈ tablesFor (pagesOf log)
  bits : ∀ n, s.pmm.used n = true ↔ s₀.pmm.used n = true ∨ (∃ l ∈ log, l.frame = n) ∨
    ∃ p, p.length ≤ 3 ∧ s.table p = some n

section
variable {s₀ s s' : Machine} {task : Task} {pdpt pd pt v f flags : ℕ} {log : List Leaf}

theorem Account.start (P : Paged s pdpt pd pt) : Account s [] s where
  size := rfl
  page := by simp
  frame := by simp
  nodup := List.nodup_nil
  kept _ _ _ h := h
  tables _ _ _ h := .inl h
  bits n := by
    refine ⟨.inl, ?_⟩
    rintro (h | ⟨l, hl, _⟩ | ⟨p, hp, h⟩)
    · exact h
    · simp at hl
    · exact P.used p n hp h

/-- The account is about tables and the bitmap. -/
theorem Account.congr (A : Account s₀ log s) (ht : ∀ p, p.length ≤ 3 → s'.table p = s.table p)
    (hp : s'.pmm = s.pmm) : Account s₀ log s' where
  size := by rw [hp]; exact A.size
  page := A.page
  frame := A.frame
  nodup := A.nodup
  kept p n hlen h := by rw [ht p hlen]; exact A.kept p n hlen h
  tables p n hlen h := A.tables p n hlen (by rw [← ht p hlen]; exact h)
  bits n := by
    rw [hp, A.bits]
    refine or_congr_right (or_congr_right (exists_congr fun p => and_congr_right fun hlen => ?_))
    rw [ht p hlen]

/-- A frame taken for a page is no table. -/
theorem Account.spare (A : Account s₀ log s) (P : Paged s₀ pdpt pd pt) {l : Leaf} (hl : l ∈ log)
    {p : List (Fin 512)} (hp : p.length ≤ 3) : s.table p ≠ some l.frame := by
  intro h
  rcases A.tables p _ hp h with h | ⟨_, _, h, _⟩
  · exact P.table_ne_free (A.frame l hl).2 hp h
  · exact h l hl rfl

theorem Account.used (A : Account s₀ log s) {l : Leaf} (hl : l ∈ log) : s.pmm.used l.frame = true :=
  (A.bits _).mpr (.inr (.inl ⟨l, hl, rfl⟩))

/-- What is free was free. -/
theorem Account.free (A : Account s₀ log s) {n : ℕ} (h : s.pmm.used n = false) :
    s₀.pmm.used n = false ∧ (∀ l ∈ log, l.frame ≠ n) ∧ ∀ p, p.length ≤ 3 → s.table p ≠ some n := by
  refine ⟨?_, fun l hl he => ?_, fun p hp ht => ?_⟩
  · by_contra hne
    rw [(A.bits n).mpr (.inl (by simpa using hne))] at h
    cases h
  · rw [← he, A.used hl] at h
    cases h
  · rw [(A.bits n).mpr (.inr (.inr ⟨p, hp, ht⟩))] at h
    cases h

/-- One more frame, and tables on the way to its page. -/
theorem Account.grow (A : Account s₀ log s) (P : Paged s pdpt pd pt) (hv : v < userPages)
    (hflags : FlagBits flags) {a : Pmm} (hsize : a.memBitmapBitSize = s.pmm.memBitmapBitSize)
    (hset : ∀ n, a.used n = (decide (n = f) || s.pmm.used n)) (hlt : f < s.pmm.memBitmapBitSize)
    (hu : s.pmm.used f = false) (G : Grown flags (path (v * 4096)) { s with pmm := a } s') :
    Account s₀ (⟨v, f, flags⟩ :: log) s' := by
  obtain ⟨hu₀, hlog, _⟩ := A.free hu
  have hmono : tablesFor (pagesOf log) ⊆ tablesFor (pagesOf (⟨v, f, flags⟩ :: log)) :=
    tablesFor_mono (List.subset_cons_self _ _)
  have hkept : ∀ p n, p.length ≤ 3 → s.table p = some n → s'.table p = some n := fun p n hp h =>
    G.table (s := { s with pmm := a }) hp h
  refine ⟨?_, ?_, ?_, ?_, fun p n hp h => hkept p n hp (A.kept p n hp h), fun p n hp h => ?_, fun n => ?_⟩
  · rw [G.size]
    exact hsize.trans A.size
  · rw [List.forall_mem_cons]
    exact ⟨hv, A.page⟩
  · rw [List.forall_mem_cons]
    exact ⟨⟨A.size ▸ hlt, hu₀⟩, A.frame⟩
  · rw [List.map_cons, List.nodup_cons]
    refine ⟨fun hmem => ?_, A.nodup⟩
    obtain ⟨l, hl, he⟩ := List.mem_map.mp hmem
    exact hlog l hl he
  · -- a table of the new tree: an old one, or one of those the call made
    have old : s.table p = some n → s₀.table p = some n ∨ n < s₀.pmm.memBitmapBitSize ∧
        s₀.pmm.used n = false ∧ (∀ l ∈ (⟨v, f, flags⟩ :: log : List Leaf), l.frame ≠ n) ∧
        p ∈ tablesFor (pagesOf (⟨v, f, flags⟩ :: log)) := fun hold => by
      rcases A.tables p n hp hold with h | ⟨h1, h2, h3, h4⟩
      · exact .inl h
      · refine .inr ⟨h1, h2, ?_, hmono h4⟩
        rw [List.forall_mem_cons]
        refine ⟨fun he => ?_, h3⟩
        exact P.table_ne_free hu hp (by rw [hold, ← he])
    rcases List.eq_nil_or_concat p with rfl | ⟨q, i, rfl⟩
    · rw [Machine.table_nil, G.root] at h
      exact old h
    · rw [List.concat_eq_append] at h hp old ⊢
      rw [List.length_append, List.length_singleton] at hp
      rw [table_snoc] at h
      obtain ⟨e, he, rfl⟩ := Option.map_eq_some_iff.mp h
      rcases G.made q i e (by omega) he with h | ⟨_, hπ, g, hg, hgu, rfl⟩
      · exact old (table_of_entry (s := s) h)
      · have hg' : g < s.pmm.memBitmapBitSize := hsize ▸ hg
        have hf : Vmm.frame (g * 4096 ||| flags ||| 0x1) = g :=
          (child_eq_some.mp (child_link (show g < 2 ^ 40 by have := P.size; omega) hflags.2)).2
        simp only [hset, Bool.or_eq_false_iff, decide_eq_false_iff_not] at hgu
        obtain ⟨hgu₀, hglog, _⟩ := A.free hgu.2
        rw [hf]
        refine .inr ⟨A.size ▸ hg', hgu₀, ?_, ?_⟩
        · rw [List.forall_mem_cons]
          exact ⟨fun he => hgu.1 he.symm, hglog⟩
        · exact mem_tablesFor.mpr ⟨v, by simp [pagesOf], by simp, hπ⟩
  · rw [G.bits]
    simp only [hset, Bool.or_eq_true, decide_eq_true_iff, A.bits, List.mem_cons, exists_eq_or_imp]
    constructor
    · rintro ((rfl | h | h | ⟨p, hp, h⟩) | ⟨_, h⟩)
      · exact .inr (.inl (.inl rfl))
      · exact .inl h
      · exact .inr (.inl (.inr h))
      · exact .inr (.inr ⟨p, hp, hkept p n hp h⟩)
      · exact .inr (.inr h)
    · rintro (h | (rfl | h) | h)
      · exact .inl (.inr (.inl h))
      · exact .inl (.inl rfl)
      · exact .inl (.inr (.inr (.inl h)))
      · by_cases hn : n = f ∨ s₀.pmm.used n = true ∨ (∃ l ∈ log, l.frame = n) ∨ ∃ p, p.length ≤ 3 ∧ s.table p = some n
        · exact .inl hn
        · refine .inr ⟨?_, h⟩
          rw [← A.bits] at hn
          simpa using hn

/-- Of the tables that the pages of the log need, those that are there. -/
def Account.made (_ : Account s₀ log s) : Finset (List (Fin 512)) :=
  (tablesFor (pagesOf log)).filter fun p => (s.table p).isSome

/-- No table of a program is there when `load_elf` is called. -/
theorem Started.no_table (S : Started s₀ task pdpt pd pt) (hv : v < userPages) :
    s₀.table [index 39 (v * 4096)] = none := by
  rw [← List.nil_append [_], table_snoc, S.slots _ (pageKey_top hv)]
  rfl

/-- Of the tables that the pages of the log need none was there. -/
theorem Account.fresh (A : Account s₀ log s) (S : Started s₀ task pdpt pd pt) {p : List (Fin 512)}
    (hp : p ∈ tablesFor (pagesOf log)) : p.length ≤ 3 ∧ s₀.table p = none := by
  obtain ⟨v, hv, hne, hpre⟩ := mem_tablesFor.mp hp
  obtain ⟨l, hl, rfl⟩ := List.mem_map.mp hv
  obtain ⟨i, p, rfl⟩ := List.exists_cons_of_ne_nil hne
  obtain ⟨rfl, -⟩ := List.cons_prefix_cons.mp hpre
  exact ⟨by simpa [path] using hpre.length_le, table_none_below (Started.no_table S (A.page l hl)) ⟨p, rfl⟩⟩

/-- The account, added up. -/
theorem Account.count (A : Account s₀ log s) (S : Started s₀ task pdpt pd pt) (P : Paged s pdpt pd pt) :
    s.pmm.freeCount + (log.length + A.made.card) = s₀.pmm.freeCount := by
  have hnone := fun p hp => A.fresh S (p := p) hp
  have hmade : ∀ p ∈ A.made, ∃ n, s.table p = some n ∧ n < s₀.pmm.memBitmapBitSize ∧ s₀.pmm.used n = false ∧
      ∀ l ∈ log, l.frame ≠ n := fun p hp => by
    obtain ⟨hp, hsome⟩ := Finset.mem_filter.mp hp
    obtain ⟨n, hn⟩ := Option.isSome_iff_exists.mp hsome
    obtain ⟨hlen, hno⟩ := hnone p hp
    rcases A.tables p n hlen hn with h | ⟨h1, h2, h3, _⟩
    · rw [hno] at h
      cases h
    · exact ⟨n, hn, h1, h2, h3⟩
  have hframes : (log.map Leaf.frame).toFinset.card = log.length := by
    rw [List.toFinset_card_of_nodup A.nodup, List.length_map]
  have himage : (A.made.image fun p => (s.table p).getD 0).card = A.made.card := by
    refine Finset.card_image_of_injOn fun p hp q hq he => ?_
    obtain ⟨n, hn, _⟩ := hmade p hp
    obtain ⟨m, hm, _⟩ := hmade q hq
    simp only [hn, hm, Option.getD_some] at he
    exact P.inj p q n (hnone p (Finset.mem_filter.mp hp).1).1 (hnone q (Finset.mem_filter.mp hq).1).1 hn
      (by rw [hm, he])
  have hdis : Disjoint (log.map Leaf.frame).toFinset (A.made.image fun p => (s.table p).getD 0) := by
    rw [Finset.disjoint_left]
    intro n hn hn'
    obtain ⟨l, hl, rfl⟩ := List.mem_map.mp (List.mem_toFinset.mp hn)
    obtain ⟨p, hp, he⟩ := Finset.mem_image.mp hn'
    obtain ⟨n, hn, _, _, hne⟩ := hmade p hp
    rw [hn, Option.getD_some] at he
    exact hne l hl he.symm
  rw [← hframes, ← himage, ← Finset.card_union_of_disjoint hdis]
  refine freeCount_taken A.size (fun n => ?_) fun n hn => ?_
  · rw [A.bits, Finset.mem_union, List.mem_toFinset, List.mem_map, Finset.mem_image]
    constructor
    · rintro (h | h | ⟨p, hp, h⟩)
      · exact .inl h
      · exact .inr (.inl h)
      · rcases A.tables p n hp h with h₀ | ⟨_, _, _, hmem⟩
        · exact .inl (S.used p n hp h₀)
        · exact .inr (.inr ⟨p, Finset.mem_filter.mpr ⟨hmem, by rw [h]; rfl⟩, by rw [h, Option.getD_some]⟩)
    · rintro (h | h | ⟨p, hp, h⟩)
      · exact .inl h
      · exact .inr (.inl h)
      · obtain ⟨m, hm, _⟩ := hmade p hp
        rw [hm, Option.getD_some] at h
        exact .inr (.inr ⟨p, (hnone p (Finset.mem_filter.mp hp).1).1, by rw [hm, h]⟩)
  · rcases Finset.mem_union.mp hn with h | h
    · obtain ⟨l, hl, rfl⟩ := List.mem_map.mp (List.mem_toFinset.mp h)
      exact A.frame l hl
    · obtain ⟨p, hp, he⟩ := Finset.mem_image.mp h
      obtain ⟨m, hm, h1, h2, _⟩ := hmade p hp
      rw [hm, Option.getD_some] at he
      exact he ▸ ⟨h1, h2⟩

end

end TerraOS.Elf
