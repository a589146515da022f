import TerraOS.Vmm.Unmap

/-! Frames and where they stand.

    A frame taken from `pmm_alloc` is held by the caller until `map_page` puts it at a place of the
    tree: a path of three indices or fewer is a table's, one of four is a leaf's. The leaves of the
    kernel window are set aside: the window shows the kernel all of the low 2 MiB, the tables of
    `paging_init` among them. `Sound` is what the allocator and the tree agree on between calls; it
    is kept by `pmm_alloc`, by `map_page` of a held frame, and by `unmap_page` as long as the page
    table does not become empty. -/

namespace TerraOS.Vmm
open Lib Lib.Word Pmm

/-- A place of the tree: a table, or a leaf outside the kernel window. -/
def Place (p : List (Fin 512)) : Prop := p.length ≤ 4 ∧ ∀ i, p ≠ windowPath ++ [i]

theorem place_of_le {p : List (Fin 512)} (h : p.length ≤ 3) : Place p :=
  ⟨by omega, fun i he => by rw [he] at h; simp at h⟩

theorem Place.cases {p : List (Fin 512)} (h : Place p) :
    p.length ≤ 3 ∨ ∃ q i, p = q ++ [i] ∧ q.length = 3 ∧ q ≠ windowPath := by
  rcases Nat.lt_or_ge 3 p.length with hlt | hle
  · obtain ⟨q, i, rfl⟩ := List.eq_nil_or_concat p |>.resolve_left (by rintro rfl; simp at hlt)
    rw [List.concat_eq_append] at h hlt ⊢
    have hlen := h.1
    rw [List.length_append, List.length_singleton] at hlen hlt
    exact .inr ⟨q, i, rfl, by omega, fun he => h.2 i (by rw [he])⟩
  · exact .inl hle

theorem place_leaf {q : List (Fin 512)} (hq : q.length = 3) (hw : q ≠ windowPath) (i : Fin 512) :
    Place (q ++ [i]) :=
  ⟨by simp [hq], fun j he => hw (List.append_inj_left he (by simp [hq]))⟩

/-! ### Sessions -/

/-- The machine, and the blocks taken from `pmm_alloc` and not mapped yet. -/
structure Session where
  machine : Machine
  held : List ℕ

inductive Op where
  | alloc
  | map (c : MapCall)
  | unmap (ctx va : ℕ)

def Op.run (s : Session) : Op → Except Stop Session
  | .alloc =>
    let r := pmmAlloc s.machine.pmm
    .ok ⟨{ s.machine with pmm := r.2 }, if r.1 = 0 then s.held else r.1 :: s.held⟩
  | .map c => do
    let m ← c.run s.machine
    .ok ⟨m, s.held.erase c.pa⟩
  | .unmap ctx va => do
    let m ← unmapPage s.machine ctx va
    .ok ⟨m, s.held⟩

/-- What the allocator and the tree agree on. -/
structure Sound (s : Session) : Prop where
  running : Running s.machine
  inj : ∀ p q n, Place p → Place q → s.machine.table p = some n → s.machine.table q = some n → p = q
  used : ∀ p n, Place p → s.machine.table p = some n → s.machine.pmm.used n = true
  high : ∀ p n, Place p → ¬ p <+: windowPath → s.machine.table p = some n →
    512 ≤ n ∧ n < s.machine.pmm.memBitmapBitSize
  held : ∀ b ∈ s.held, ∃ k, b = k * 4096 ∧ 512 ≤ k ∧ k < s.machine.pmm.memBitmapBitSize ∧
    s.machine.pmm.used k = true ∧ ∀ p, Place p → s.machine.table p ≠ some k
  nodup : s.held.Nodup
  leaves : ∀ q f, q.length = 3 → q ≠ windowPath → s.machine.table q = some f →
    ∃ i n, s.machine.table (q ++ [i]) = some n

/-- Calls of `map_page` with a frame of the caller's. -/
def MapsHeld (s : Session) (c : MapCall) : Prop := Admitted s.machine c ∧ c.pa ∈ s.held

/-! ### The start -/

theorem boot_sound {m bm : Mem} {mmap : List MmapEntry} {s : Machine} (h : boot m bm mmap = some s) :
    Sound ⟨s, []⟩ := by
  obtain ⟨n, P, hr, hk, _, h511, T, _⟩ := boot_spec h
  -- the one table of the last level is the window's
  have hlast : ∀ q f, q.length = 3 → s.table q = some f → q = windowPath ∧ f = n + 3 := fun q f hq hf => by
    rcases T.table_cases (by omega) hr (by omega) hf with ⟨rfl, _⟩ | ⟨rfl, _⟩ | ⟨rfl, _⟩ | ⟨rfl, h⟩
    · simp at hq
    · simp at hq
    · simp at hq
    · exact ⟨rfl, h⟩
  have hshort : ∀ p f, Place p → s.table p = some f → p.length ≤ 3 := fun p f hp hf => by
    rcases hp.cases with h | ⟨q, i, rfl, hq, hw⟩
    · exact h
    · rw [table_snoc] at hf
      obtain ⟨e, he, _⟩ := Option.map_eq_some_iff.mp hf
      obtain ⟨g, hg⟩ := table_of_present he
      exact absurd (hlast q g hq hg).1 hw
  refine ⟨boot_running h, fun p q f hp hq h₁ h₂ => ?_, fun p f hp h₁ => ?_, fun p f hp hw h₁ => ?_,
    fun b hb => absurd hb List.not_mem_nil, List.nodup_nil, fun q f hq hw hf => absurd (hlast q f hq hf).1 hw⟩
  · exact P.inj p q f (hshort p f hp h₁) (hshort q f hq h₂) h₁ h₂
  · exact P.used p f (hshort p f hp h₁) h₁
  · rcases T.table_cases (by omega) hr (hshort p f hp h₁) h₁ with ⟨rfl, _⟩ | ⟨rfl, _⟩ | ⟨rfl, _⟩ | ⟨rfl, _⟩
    · exact absurd ⟨_, rfl⟩ hw
    · exact absurd ⟨_, rfl⟩ hw
    · exact absurd ⟨_, rfl⟩ hw
    · exact absurd ⟨[], rfl⟩ hw

/-! ### `pmm_alloc` -/

theorem alloc_sound {s s' : Session} (S : Sound s) (h : Op.run s .alloc = .ok s') : Sound s' := by
  obtain ⟨pdpt, pd, pt, P, hk⟩ := S.running
  obtain rfl := Except.ok.inj h
  rcases P.toFrames.ok.alloc with ⟨_, ha⟩ | ⟨k, h0, hlt, hu, _, ha⟩
  · simp only [ha]
    exact S
  obtain ⟨h512, _, _⟩ := P.free hlt hu
  have hne : ¬ k * 4096 = 0 := by omega
  simp only [ha, if_neg hne]
  -- more frames used, the tree as it was
  have hset : ∀ n, Pmm.used { s.machine.pmm with memBitmap := Bits.set s.machine.pmm.memBitmap k } n
      = (decide (n = k) || s.machine.pmm.used n) := fun n => Bits.bit_set _ _ _
  have hmono : ∀ n, s.machine.pmm.used n = true →
      Pmm.used { s.machine.pmm with memBitmap := Bits.set s.machine.pmm.memBitmap k } n = true := fun n hn => by
    rw [hset, hn, Bool.or_true]
  refine ⟨⟨pdpt, pd, pt, P.withPmm rfl hmono, hk⟩, S.inj, fun p n hp hn => hmono n (S.used p n hp hn), S.high,
    fun b hb => ?_, List.nodup_cons.mpr ⟨fun hb => ?_, S.nodup⟩, S.leaves⟩
  · rcases List.mem_cons.mp hb with rfl | hb
    · refine ⟨k, rfl, h512, hlt, by rw [hset]; simp, fun p hp hn => ?_⟩
      rw [S.used p k hp hn] at hu
      cases hu
    · obtain ⟨j, hj, h1, h2, h3, h4⟩ := S.held b hb
      exact ⟨j, hj, h1, h2, hmono j h3, h4⟩
  · obtain ⟨j, hj, _, _, h3, _⟩ := S.held _ hb
    rw [show j = k by omega, hu] at h3
    cases h3

/-! ### `map_page` -/

section map
variable {s s' : Machine} {flags va leaf pdpt pd pt k n : ℕ} {p : List (Fin 512)}

/-- What stands at a place after `map_page` stood there before, or is a table in a frame that was
    free, or is the page mapped. -/
theorem Mapped.place (M : Mapped flags va leaf s s' pdpt pd pt) (hleaf : leaf < 2 ^ 64)
    (hpres : leaf &&& 0x1 ≠ 0) (hframe : frame leaf = k) (hsize : s.pmm.memBitmapBitSize ≤ 2 ^ 40)
    (hflags : FlagBits flags) (hp : Place p) (h : s'.table p = some n) :
    (p ≠ path va ++ [index 12 va] ∧ s.table p = some n) ∨
      (p.length ≤ 3 ∧ n < s.pmm.memBitmapBitSize ∧ s.pmm.used n = false) ∨
      (p = path va ++ [index 12 va] ∧ n = k) := by
  rcases hp.cases with hp3 | ⟨q, i, rfl, hq, hw⟩
  · obtain ⟨g, G, _, htab, _⟩ := M.upper hleaf
    rw [htab p hp3] at h
    rcases G.table_or_free hsize hflags hp3 h with h | h
    · exact .inl ⟨fun he => by rw [he] at hp3; simp [path] at hp3, h⟩
    · exact .inr (.inl ⟨hp3, h⟩)
  · rw [table_snoc] at h
    by_cases he : (q, i) = (path va, index 12 va)
    · obtain ⟨rfl, rfl⟩ := Prod.mk.inj he
      rw [M.entry_self hleaf hpres, Option.map_some, hframe] at h
      exact .inr (.inr ⟨rfl, (Option.some.inj h).symm⟩)
    · rw [M.entry_ne hleaf hq he fun h => hw (Prod.mk.inj h).1] at h
      refine .inl ⟨fun heq => he ?_, by rw [table_snoc, h]⟩
      obtain ⟨h1, h2⟩ := List.append_inj heq (by simp [hq, path])
      exact Prod.ext h1 (List.cons.inj h2).1

theorem Mapped.used (M : Mapped flags va leaf s s' pdpt pd pt) (hleaf : leaf < 2 ^ 64)
    (h : s.pmm.used n = true) : s'.pmm.used n = true := by
  obtain ⟨g, G, _, _, hpmm⟩ := M.upper hleaf
  rw [hpmm]
  exact G.used h

theorem Mapped.size (M : Mapped flags va leaf s s' pdpt pd pt) (hleaf : leaf < 2 ^ 64) :
    s'.pmm.memBitmapBitSize = s.pmm.memBitmapBitSize := by
  obtain ⟨g, G, _, _, hpmm⟩ := M.upper hleaf
  rw [hpmm]
  exact G.size

/-- A table of the last level was there, or is the one on the way to the page mapped. -/
theorem Mapped.lastTable (M : Mapped flags va leaf s s' pdpt pd pt) (hleaf : leaf < 2 ^ 64)
    (hp : p.length = 3) (h : s'.table p = some n) : s.table p = some n ∨ p = path va := by
  obtain ⟨g, G, _, htab, _⟩ := M.upper hleaf
  rw [htab p (by omega)] at h
  obtain ⟨q, i, rfl⟩ := List.eq_nil_or_concat p |>.resolve_left (by rintro rfl; simp at hp)
  rw [List.concat_eq_append] at h hp ⊢
  rw [List.length_append, List.length_singleton] at hp
  rw [table_snoc] at h
  obtain ⟨e, he, rfl⟩ := Option.map_eq_some_iff.mp h
  rcases G.made q i e (by omega) he with h' | ⟨_, hπ, _⟩
  · exact .inl (table_of_entry h')
  · exact .inr (hπ.eq_of_length (by simp [path]; omega))

end map

theorem Admitted.frame_leaf {s : Machine} {c : MapCall} (A : Admitted s c) {k : ℕ} (hk : c.pa = k * 4096) :
    frame (c.pa ||| c.flags) = k := by
  have hfl := A.flags_lt
  have h := (leaf_parts A.pa_aligned A.pa_lt (show c.flags < 4096 by omega)).1
  rw [and_pageMask, hk] at h
  rw [hk]
  omega

theorem map_run {s s' : Session} {c : MapCall} (h : Op.run s (.map c) = .ok s') :
    c.run s.machine = .ok s'.machine ∧ s'.held = s.held.erase c.pa := by
  simp only [Op.run] at h
  cases hm : c.run s.machine with
  | error e => rw [hm] at h; cases h
  | ok m =>
    rw [hm, ok_bind] at h
    rw [← Except.ok.inj h]
    exact ⟨rfl, rfl⟩

theorem map_sound {s s' : Session} {c : MapCall} (S : Sound s) (A : MapsHeld s c)
    (h : Op.run s (.map c) = .ok s') : Sound s' := by
  obtain ⟨pdpt, pd, pt, P, hkr⟩ := S.running
  obtain ⟨A, hheld⟩ := A
  obtain ⟨m, held'⟩ := s'
  obtain ⟨hm, rfl⟩ := map_run h
  obtain ⟨k, hk, h512, hks, hku, hkp⟩ := S.held _ hheld
  have M := A.mapped P hm
  have hleaf := A.leaf_lt
  have hpres : (c.pa ||| c.flags) &&& 0x1 ≠ 0 := or_present A.flags_present
  have hfr := A.frame_leaf hk
  have hfl : FlagBits c.flags := flagBits_of_lt (by have := A.flags_lt; omega)
  have hw := path_ne_window A.canonical A.outside
  have place := fun p n (hp : Place p) (hn : m.table p = some n) =>
    M.place hleaf hpres hfr P.size hfl hp hn
  have hself : m.table (path c.va ++ [index 12 c.va]) = some k := by
    rw [table_snoc, M.entry_self hleaf hpres, Option.map_some, hfr]
  have clash : ∀ {p n}, Place p → s.machine.table p = some n → s.machine.pmm.used n = false → False :=
    fun hp h1 h2 => by rw [S.used _ _ hp h1] at h2; cases h2
  refine ⟨run_running S.running A hm, fun p q n hp hq h₁ h₂ => ?_, fun p n hp h₁ => ?_,
    fun p n hp hnw h₁ => ?_, fun b hb => ?_, S.nodup.erase _, fun q f hq hqw hf => ?_⟩
  · rcases place p n hp h₁ with ⟨_, k₁⟩ | ⟨l₁, _, k₁⟩ | ⟨e₁, rfl⟩
    · rcases place q n hq h₂ with ⟨_, k₂⟩ | ⟨_, _, k₂⟩ | ⟨_, rfl⟩
      · exact S.inj p q n hp hq k₁ k₂
      · exact (clash hp k₁ k₂).elim
      · exact absurd k₁ (hkp p hp)
    · rcases place q n hq h₂ with ⟨_, k₂⟩ | ⟨l₂, _⟩ | ⟨_, rfl⟩
      · exact (clash hq k₂ k₁).elim
      · exact M.paged.inj p q n l₁ l₂ h₁ h₂
      · rw [hku] at k₁
        cases k₁
    · rcases place q n hq h₂ with ⟨_, k₂⟩ | ⟨_, _, k₂⟩ | ⟨e₂, _⟩
      · exact absurd k₂ (hkp q hq)
      · rw [hku] at k₂
        cases k₂
      · rw [e₁, e₂]
  · rcases place p n hp h₁ with ⟨_, k₁⟩ | ⟨l₁, _⟩ | ⟨_, rfl⟩
    · exact M.used hleaf (S.used p n hp k₁)
    · exact M.paged.used p n l₁ h₁
    · exact M.used hleaf hku
  · show 512 ≤ n ∧ n < m.pmm.memBitmapBitSize
    rw [M.size hleaf]
    rcases place p n hp h₁ with ⟨_, k₁⟩ | ⟨_, hlt, hu⟩ | ⟨_, rfl⟩
    · exact S.high p n hp hnw k₁
    · exact ⟨(P.free hlt hu).1, hlt⟩
    · exact ⟨h512, hks⟩
  · obtain ⟨j, hj, j512, jlt, ju, jp⟩ := S.held b (List.mem_of_mem_erase hb)
    refine ⟨j, hj, j512, by show _ < m.pmm.memBitmapBitSize; rw [M.size hleaf]; exact jlt, M.used hleaf ju,
      fun p hp hn => ?_⟩
    rcases place p j hp hn with ⟨_, k₁⟩ | ⟨_, _, k₁⟩ | ⟨_, rfl⟩
    · exact jp p hp k₁
    · rw [ju] at k₁
      cases k₁
    · rw [hj, ← hk] at hb
      exact S.nodup.not_mem_erase hb
  · rcases M.lastTable hleaf hq hf with h' | rfl
    · obtain ⟨i, n, hn⟩ := S.leaves q f hq hqw h'
      by_cases he : (q, i) = (path c.va, index 12 c.va)
      · obtain ⟨rfl, rfl⟩ := Prod.mk.inj he
        exact ⟨_, k, hself⟩
      · refine ⟨i, n, ?_⟩
        rw [table_snoc, M.entry_ne hleaf hq he fun h => hqw (Prod.mk.inj h).1, ← table_snoc]
        exact hn
    · exact ⟨_, k, hself⟩

/-! ### `unmap_page` -/

/-- The pages a kernel may unmap: outside the window, through a pointer to the active PML4. -/
structure Unmaps (s : Machine) (ctx va : ℕ) : Prop where
  canonical : Canonical va
  aligned : va % 4096 = 0
  outside : ¬ (KERNEL_BASE ≤ va ∧ va < KERNEL_END)
  ctx_aligned : ctx % 4096 = 0
  ctx_active : s.translate ctx = some s.cr3

theorem pmmFree_size (p : Pmm) (b : ℕ) : (pmmFree p b).memBitmapBitSize = p.memBitmapBitSize := by
  rw [pmmFree]
  split <;> rfl

theorem pmmFree_used_ne {p : Pmm} {i j : ℕ} (h : j ≠ i) : (pmmFree p (i * 4096)).used j = p.used j := by
  have hpi : i * 4096 / PAGE_SIZE = i := by simp [PAGE_SIZE]
  rw [pmmFree, hpi]
  split
  · rfl
  · exact Bits.bit_clear_ne h

section released
variable {s : Machine} {f n j : ℕ} {i : Fin 512} (hn : ents s.phys f i &&& PAGE_MASK = n * 4096)
include hn

theorem released_used_ne (hj : j ≠ n) (hf : j ≠ f) : (released s f i).used j = s.pmm.used j := by
  rw [released, hn]
  split
  · rw [pmmFree_used_ne hf, pmmFree_used_ne hj]
  · exact pmmFree_used_ne hj

theorem released_self (hlt : n < s.pmm.memBitmapBitSize) (hf : n ≠ f) : (released s f i).used n = false := by
  rw [released, hn]
  split
  · rw [pmmFree_used_ne hf, pmmFree_used hlt]
    simp
  · rw [pmmFree_used hlt]
    simp

/-- With no other entry present the table goes too. -/
theorem released_empty (hall : ∀ j, j ≠ i → child (ents s.phys f j) = none)
    (hlt : f < s.pmm.memBitmapBitSize) : (released s f i).used f = false := by
  rw [released, hn, if_pos hall, pmmFree_used (by rw [pmmFree_size]; exact hlt)]
  simp

/-- With another entry of the table present the table stays. -/
theorem released_of_other {j : Fin 512} (hj : j ≠ i) (hc : child (ents s.phys f j) ≠ none) :
    released s f i = pmmFree s.pmm (n * 4096) := by
  rw [released, hn, if_neg fun hall => hc (hall j hj)]

end released

/-- What is known when a mapped page is unmapped: the page table is in `f`, the PDPT in `g`, and the
    page frame is `n`. -/
structure Unmapping (s : Machine) (ctx va f g n pdpt pd pt : ℕ) : Prop where
  paged : Paged s pdpt pd pt
  outside : path va ≠ windowPath
  table : s.table (path va) = some f
  upper : s.table [index 39 va] = some g
  leaf : s.table (path va ++ [index 12 va]) = some n
  entry : ents s.phys f (index 12 va) &&& PAGE_MASK = n * 4096
  f_lt : f < 2 ^ 40
  g_lt : g < 2 ^ 40
  run : unmapPage s ctx va = .ok { cleared s pt f g (index 12 va) with pmm := released s f (index 12 va) }

theorem Sound.unmapping {s : Session} {ctx va e : ℕ} (S : Sound s) (U : Unmaps s.machine ctx va)
    (he : walk s.machine.phys s.machine.root va = some e) :
    ∃ f g pdpt pd pt, Unmapping s.machine ctx va f g (frame e) pdpt pd pt := by
  obtain ⟨pdpt, pd, pt, P, _⟩ := S.running
  have hw := path_ne_window U.canonical U.outside
  have he : s.machine.entry (path va) (index 12 va) = some e := he
  obtain ⟨f, hf⟩ := table_of_present he
  obtain ⟨g, hg, hup, hrun⟩ := unmapPage_spec P (reaches_of_active U.ctx_aligned U.ctx_active _) hw hf
  refine ⟨f, g, pdpt, pd, pt, P, hw, hf, hup, table_of_entry he, ?_, table_lt (by simp [path]) hf, hg, hrun⟩
  rw [entry_of_table hf] at he
  split at he
  · cases he
  · rw [Option.some.inj he, and_pageMask]

section unmapping
variable {s : Machine} {ctx va f g n pdpt pd pt : ℕ} (U : Unmapping s ctx va f g n pdpt pd pt)
include U

/-- The places after the call are those before, less the leaf. -/
theorem Unmapping.place {p : List (Fin 512)} (hp : Place p) :
    (cleared s pt f g (index 12 va)).table p
      = if p = path va ++ [index 12 va] then none else s.table p := by
  rcases hp.cases with hp3 | ⟨q, i, rfl, hq, hw⟩
  · rw [cleared_table U.paged U.table rfl U.outside U.f_lt U.g_lt hp3, if_neg]
    rintro rfl
    simp [path] at hp3
  · have hiff : q ++ [i] = path va ++ [index 12 va] ↔ (q, i) = (path va, index 12 va) := by
      refine ⟨fun heq => ?_, fun heq => by obtain ⟨rfl, rfl⟩ := Prod.mk.inj heq; rfl⟩
      obtain ⟨h1, h2⟩ := List.append_inj heq (by simp [hq, path])
      exact Prod.ext h1 (List.cons.inj h2).1
    rw [table_snoc, table_snoc, cleared_entry U.paged U.table rfl U.outside U.f_lt U.g_lt (by omega)
      fun h => hw (Prod.mk.inj h).1, if_congr hiff rfl rfl]
    split <;> rfl

end unmapping

/-- `unmap_page` of a page whose table has another. -/
theorem unmap_sound {s s' : Session} {ctx va e : ℕ} (S : Sound s) (hu : Unmaps s.machine ctx va)
    (he : walk s.machine.phys s.machine.root va = some e)
    (hother : ∃ j, j ≠ index 12 va ∧ (s.machine.entry (path va) j).isSome)
    (h : Op.run s (.unmap ctx va) = .ok s') : Sound s' := by
  obtain ⟨f, g, pdpt, pd, pt, U⟩ := S.unmapping hu he
  obtain ⟨j, hj, hsome⟩ := hother
  have hrel : released s.machine f (index 12 va) = pmmFree s.machine.pmm (frame e * 4096) := by
    refine released_of_other U.entry hj fun hc => ?_
    rw [entry_of_table U.table, if_pos (child_eq_none.mp hc)] at hsome
    cases hsome
  simp only [Op.run, U.run, ok_bind, hrel] at h
  obtain rfl := Except.ok.inj h
  have hleafPlace : Place (path va ++ [index 12 va]) := place_leaf rfl U.outside _
  have hhigh := S.high _ _ hleafPlace (fun hp => by have := hp.length_le; simp [path] at this) U.leaf
  -- a frame at another place is not the one freed
  have hkeep : ∀ p m, Place p → p ≠ path va ++ [index 12 va] → s.machine.table p = some m →
      (pmmFree s.machine.pmm (frame e * 4096)).used m = true := fun p m hp hne hm => by
    rw [pmmFree_used_ne, S.used p m hp hm]
    rintro rfl
    exact hne (S.inj _ _ _ hp hleafPlace hm U.leaf)
  have place : ∀ p m, Place p →
      Machine.table { cleared s.machine pt f g (index 12 va) with
        pmm := pmmFree s.machine.pmm (frame e * 4096) } p = some m →
      p ≠ path va ++ [index 12 va] ∧ s.machine.table p = some m := fun p m hp hm => by
    have hm : (cleared s.machine pt f g (index 12 va)).table p = some m := hm
    rw [U.place hp] at hm
    split at hm
    · cases hm
    · rename_i hne
      exact ⟨hne, hm⟩
  refine ⟨?_, fun p q m hp hq h₁ h₂ => ?_, fun p m hp h₁ => ?_, fun p m hp hnw h₁ => ?_, fun b hb => ?_,
    S.nodup, fun q f' hq hqw hf => ?_⟩
  · obtain ⟨_, _, _, P, hk⟩ := S.running
    have Q := withTemp_paged (cleared_paged (i := index 12 va) U.paged U.table rfl U.outside U.f_lt) U.g_lt
    refine ⟨pdpt, pd, pt, Q.setPmm (pmmFree_size _ _) (fun i hi => ?_) fun p m hp hm => ?_, hk⟩
    · rw [pmmFree_used_ne (by omega), P.reserved i hi]
    · obtain ⟨hne, hm⟩ := place p m (place_of_le hp) hm
      exact hkeep p m (place_of_le hp) hne hm
  · exact S.inj p q m hp hq (place p m hp h₁).2 (place q m hq h₂).2
  · obtain ⟨hne, hm⟩ := place p m hp h₁
    exact hkeep p m hp hne hm
  · show 512 ≤ m ∧ m < (pmmFree s.machine.pmm _).memBitmapBitSize
    rw [pmmFree_size]
    exact S.high p m hp hnw (place p m hp h₁).2
  · obtain ⟨k, hk, h1, h2, h3, h4⟩ := S.held b hb
    refine ⟨k, hk, h1, by show _ < (pmmFree s.machine.pmm _).memBitmapBitSize; rw [pmmFree_size]; exact h2, ?_,
      fun p hp hm => h4 p hp (place p k hp hm).2⟩
    show (pmmFree s.machine.pmm _).used k = true
    rw [pmmFree_used_ne fun he => h4 _ hleafPlace (by rw [he]; exact U.leaf)]
    exact h3
  · have hf' := (place q f' (place_of_le (by omega)) hf).2
    -- another entry of the table, should it be the one just scanned
    obtain ⟨i, m, hne, hm⟩ : ∃ i m, q ++ [i] ≠ path va ++ [index 12 va] ∧ s.machine.table (q ++ [i]) = some m := by
      by_cases hq' : q = path va
      · obtain ⟨x, hx⟩ := Option.isSome_iff_exists.mp hsome
        exact ⟨j, frame x, fun he => hj (List.cons.inj (List.append_inj he (by rw [hq'])).2).1,
          by rw [hq']; exact table_of_entry hx⟩
      · obtain ⟨i, m, hm⟩ := S.leaves q f' hq hqw hf'
        exact ⟨i, m, fun he => hq' (List.append_inj he (by simp [hq, path])).1, hm⟩
    refine ⟨i, m, ?_⟩
    show (cleared s.machine pt f g (index 12 va)).table _ = _
    rw [U.place (place_leaf hq hqw i), if_neg hne, hm]

/-! ### Runs -/

/-- `map_page` of held frames at unmapped pages, `unmap_page` of mapped ones, and `pmm_alloc`. -/
def Allowed (s : Session) : Op → Prop
  | .alloc => True
  | .map c => MapsHeld s c ∧ walk s.machine.phys s.machine.root c.va = none
  | .unmap ctx va => Unmaps s.machine ctx va ∧ (walk s.machine.phys s.machine.root va).isSome

/-- The page unmapped is not the last one of its page table. -/
def LeavesOther (s : Session) : Op → Prop
  | .unmap _ va => ∃ j, j ≠ index 12 va ∧ (s.machine.entry (path va) j).isSome
  | _ => True

theorem Sound.step {s s' : Session} {a : Op} (S : Sound s) (ha : Allowed s a) (hl : LeavesOther s a)
    (h : a.run s = .ok s') : Sound s' := by
  cases a with
  | alloc => exact alloc_sound S h
  | map c => exact map_sound S ha.1 h
  | unmap ctx va =>
    obtain ⟨hu, hm⟩ := ha
    obtain ⟨e, he⟩ := Option.isSome_iff_exists.mp hm
    exact unmap_sound S hu he hl h

/-- CORRECT: after boot and any such run in which no page table is emptied, the frame at every place of the
    tree is marked used, and no frame stands at two places. -/
theorem frames_placed_once {m bm : Mem} {mmap : List MmapEntry} {s₀ : Machine} {s : Session} {ops : List Op}
    (hboot : boot m bm mmap = some s₀) (hrun : Run (fun s a => Allowed s a ∧ LeavesOther s a) Op.run ⟨s₀, []⟩ ops s) :
    (∀ p n, Place p → s.machine.table p = some n → s.machine.pmm.used n = true) ∧
    ∀ p q n, Place p → Place q → s.machine.table p = some n → s.machine.table q = some n → p = q := by
  have S := hrun.invariant (I := Sound) (boot_sound hboot) fun _ _ _ S ha hst => S.step ha.1 ha.2 hst
  exact ⟨S.used, S.inj⟩

/-- On the 64 MiB machine, one page mapped at 4 MiB. -/
theorem session_boot {m bm : Mem} {s₀ : Machine} (hboot : boot m bm smallMap = some s₀) : ∃ k s₁ s₂,
    Op.run ⟨s₀, []⟩ .alloc = .ok ⟨s₁, [k * 4096]⟩ ∧
    MapsHeld ⟨s₁, [k * 4096]⟩ ⟨s₁.pml4t, 0x400000, k * 4096, 0x3⟩ ∧ s₁.table (path 0x400000) = none ∧
    Op.run ⟨s₁, [k * 4096]⟩ (.map ⟨s₁.pml4t, 0x400000, k * 4096, 0x3⟩) = .ok ⟨s₂, []⟩ ∧
    Unmaps s₂ s₁.pml4t 0x400000 := by
  obtain ⟨s, hs, hfree⟩ := boot_smallMap m bm
  obtain rfl := Option.some.inj (hs.symm.trans hboot)
  obtain ⟨n, P, hr, hk, hcr3, h511, T, _⟩ := boot_spec hboot
  have hcount : 4 ≤ s.pmm.freeCount := le_freeCount (a := 512) fun i h1 h2 => hfree i h1 (by omega)
  rcases P.toFrames.ok.alloc with ⟨hall, _⟩ | ⟨k, h0, hlt, hu, _, ha⟩
  · rw [freeCount_eq_zero hall] at hcount
    omega
  obtain ⟨_, _, h40⟩ := P.free hlt hu
  generalize hp : ({ s.pmm with memBitmap := Bits.set s.pmm.memBitmap k } : Pmm) = p at ha
  have hone : p.freeCount + 1 = s.pmm.freeCount := by rw [← hp]; exact freeCount_set hlt hu
  have A₀ : Admitted s ⟨s.pml4t, 0x400000, k * 4096, 0x3⟩ :=
    .first hboot (by decide) ⟨by omega, by omega⟩ (by decide)
  have A : Admitted { s with pmm := p } ⟨s.pml4t, 0x400000, k * 4096, 0x3⟩ :=
    ⟨A₀.canonical, A₀.aligned, A₀.outside, A₀.ctx_aligned, A₀.ctx_active, A₀.ctx_ne_temp, A₀.ctx_ne,
      A₀.pa_aligned, A₀.pa_lt, A₀.flags_lt, A₀.flags_present⟩
  have P₁ : Paged { s with pmm := p } (n + 1) (n + 2) (n + 3) := P.withPmm (by rw [← hp]) fun c hc => by
    rw [← hp]
    exact (Bits.bit_set _ _ _).trans (by rw [show Bits.bit s.pmm.memBitmap c = true from hc, Bool.or_true])
  have hne : ¬ k * 4096 = 0 := by omega
  rcases mapPage_spec P₁ A.reaches (path_ne_window A.canonical A.outside)
    (flagBits_of_lt (show 0x3 < 4096 by decide)) (show k * 4096 < 2 ^ 64 by omega) with
    ⟨s₂, hs₂, M, _⟩ | ⟨_, _, _, _, hc⟩
  swap
  · simp only at hc
    omega
  refine ⟨k, { s with pmm := p }, s₂, by simp only [Op.run, ha, if_neg hne], ⟨A, by simp⟩, ?_, ?_,
    ⟨A.canonical, A.aligned, A.outside, A.ctx_aligned, A.ctx_kept M⟩⟩
  · exact boot_unmapped hboot (path_ne_window A.canonical A.outside)
  · simp only [Op.run, MapCall.run, hs₂, ok_bind, List.erase_cons_head]

/-- The same from cleared memory. -/
theorem session_smallMap : ∃ s₀ k s₁ s₂, boot (fun _ => 0) (fun _ => 0) smallMap = some s₀ ∧
    Op.run ⟨s₀, []⟩ .alloc = .ok ⟨s₁, [k * 4096]⟩ ∧
    MapsHeld ⟨s₁, [k * 4096]⟩ ⟨s₁.pml4t, 0x400000, k * 4096, 0x3⟩ ∧ s₁.table (path 0x400000) = none ∧
    Op.run ⟨s₁, [k * 4096]⟩ (.map ⟨s₁.pml4t, 0x400000, k * 4096, 0x3⟩) = .ok ⟨s₂, []⟩ ∧
    Unmaps s₂ s₁.pml4t 0x400000 := by
  obtain ⟨s₀, hboot, _⟩ := boot_smallMap (fun _ => 0) (fun _ => 0)
  obtain ⟨k, s₁, s₂, h⟩ := session_boot hboot
  exact ⟨s₀, k, s₁, s₂, hboot, h⟩

theorem walk_none_of_table {s : Machine} {va : ℕ} (h : s.table (path va) = none) :
    walk s.phys s.root va = none := entry_none_of_table h

/-- There the run of `pmm_alloc` and `map_page` places every frame once. -/
theorem frames_placed_once_one_page : ∃ s₀ c s, boot (fun _ => 0) (fun _ => 0) smallMap = some s₀ ∧
    Run (fun s a => Allowed s a ∧ LeavesOther s a) Op.run ⟨s₀, []⟩ [.alloc, .map c] s ∧
    (∀ p n, Place p → s.machine.table p = some n → s.machine.pmm.used n = true) ∧
    ∀ p q n, Place p → Place q → s.machine.table p = some n → s.machine.table q = some n → p = q := by
  obtain ⟨s₀, k, s₁, s₂, hboot, h₁, A, hno, h₂, _⟩ := session_smallMap
  have hrun : Run (fun s a => Allowed s a ∧ LeavesOther s a) Op.run ⟨s₀, []⟩
      [.alloc, .map ⟨s₁.pml4t, 0x400000, k * 4096, 0x3⟩] ⟨s₂, []⟩ :=
    .cons ⟨trivial, trivial⟩ h₁ (.cons ⟨⟨A, walk_none_of_table hno⟩, trivial⟩ h₂ (.nil _))
  exact ⟨s₀, _, _, hboot, hrun, frames_placed_once hboot hrun⟩

/-- The same with the window's leaves counted, `TEMP_PAGE`'s apart: every frame in the tree is marked
    used and stands at one place. -/
def NoDangling (s : Machine) : Prop :=
  (∀ p n, p.length ≤ 4 → p ≠ windowPath ++ [511] → s.table p = some n → s.pmm.used n = true) ∧
  ∀ p q n, p.length ≤ 4 → q.length ≤ 4 → p ≠ windowPath ++ [511] → q ≠ windowPath ++ [511] →
    s.table p = some n → s.table q = some n → p = q

/-- A page alone in its page table: the table is freed, and stays linked. -/
theorem unmap_dangles {s : Session} {ctx va e : ℕ} (S : Sound s) (hu : Unmaps s.machine ctx va)
    (he : walk s.machine.phys s.machine.root va = some e)
    (halone : ∀ j, j ≠ index 12 va → s.machine.entry (path va) j = none) :
    ∃ s', Op.run s (.unmap ctx va) = .ok s' ∧
      ∃ f, s'.machine.table (path va) = some f ∧ s'.machine.pmm.used f = false := by
  obtain ⟨f, g, pdpt, pd, pt, U⟩ := S.unmapping hu he
  have hempty : ∀ j, j ≠ index 12 va → child (ents s.machine.phys f j) = none := fun j hj =>
    child_none_of_entry U.table (halone j hj)
  have hhigh := S.high _ _ (place_of_le (by simp [path]))
    (fun h => U.outside (h.eq_of_length (by simp [path]))) U.table
  have htab : (cleared s.machine pt f g (index 12 va)).table (path va) = some f := by
    rw [cleared_table U.paged U.table rfl U.outside U.f_lt U.g_lt (by simp [path]), U.table]
  simp only [Op.run, U.run, ok_bind]
  exact ⟨_, rfl, f, htab, released_empty U.entry hempty hhigh.2⟩

/-- The window shows the kernel its own PML4, so a frame stands at two places as soon as there are
    tables; and a page mapped alone in its page table and unmapped leaves a page directory entry that
    links a free frame. -/
theorem window_aliases_tables : ∃ s₀ c s₃, boot (fun _ => 0) (fun _ => 0) smallMap = some s₀ ∧
    ¬ NoDangling s₀ ∧ Run Allowed Op.run ⟨s₀, []⟩ [.alloc, .map c, .unmap c.ctx c.va] s₃ ∧
    ∃ f, s₃.machine.table (path c.va) = some f ∧ s₃.machine.pmm.used f = false := by
  obtain ⟨s₀, k, s₁, s₂, hboot, h₁, A, hno, h₂, hu⟩ := session_smallMap
  obtain ⟨n, P, hr, hk, _, h511, _⟩ := boot_spec hboot
  have S₁ := alloc_sound (boot_sound hboot) h₁
  have S₂ := map_sound S₁ A h₂
  obtain ⟨pdpt, pd, pt, P₁, _⟩ := S₁.running
  have M := A.1.mapped P₁ (map_run h₂).1
  have hw := path_ne_window A.1.canonical A.1.outside
  have hwalk : walk s₂.phys s₂.root 0x400000 = some (k * 4096 ||| 0x3) :=
    M.entry_self A.1.leaf_lt (or_present A.1.flags_present)
  obtain ⟨s₃, h₃, hdangle⟩ := unmap_dangles S₂ hu hwalk fun j hj => by
    rw [M.entry_ne A.1.leaf_lt rfl (fun h => hj (Prod.mk.inj h).2) fun h => hw (Prod.mk.inj h).1]
    exact entry_none_of_table hno
  refine ⟨s₀, ⟨s₁.pml4t, 0x400000, k * 4096, 0x3⟩, s₃, hboot, fun hnd => ?_,
    .cons trivial h₁ (.cons ⟨A, walk_none_of_table hno⟩ h₂
      (.cons ⟨hu, by rw [hwalk]; rfl⟩ h₃ (.nil _))), hdangle⟩
  have hwin : s₀.table (windowPath ++ [⟨n, by omega⟩]) = some n := by
    rw [child_of_table P.table_window]
    exact P.leaf ⟨n, by omega⟩ (show n < 511 by omega)
  have h := hnd.2 [] (windowPath ++ [⟨n, by omega⟩]) n (by simp) (by simp) (by simp) (fun he => ?_)
    (congrArg some hr) hwin
  · simp at h
  · have := congrArg Fin.val (List.cons.inj (List.append_inj he rfl).2).1
    rw [show ((511 : Fin 512) : ℕ) = 511 from rfl] at this
    simp only at this
    omega

end TerraOS.Vmm
