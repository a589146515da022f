import TerraOS.Vmm.Task

/-! Access rights of user pages.

    The hardware grants a right only if every entry on the walk grants it. `map_page` gives the leaf the
    flags it is asked for and gives a table it makes the same flags, but an upper entry that is already
    there keeps the flags of whoever made it. So a page is as writable as it was asked to be exactly
    when no read-only entry stood in its way (`rights_iff`). -/

namespace TerraOS.Vmm
open Lib Lib.Word Pmm

/-- The upper entries of the walk of `va`. -/
def upperLevels (va : ℕ) : List (List (Fin 512) × Fin 512) :=
  [([], index 39 va), ([index 39 va], index 30 va), ([index 39 va, index 30 va], index 21 va)]

/-- The right `bit` as the hardware sees it: granted by all four entries of the walk. -/
def effective (s : Machine) (va bit : ℕ) : Bool :=
  (upperLevels va ++ [(path va, index 12 va)]).all fun l => (s.entry l.1 l.2).any (·.testBit bit)

/-- A page of the task, mapped as `load_elf` maps pages. -/
structure TaskCall where
  va : ℕ
  pa : ℕ
  flags : ℕ

def TaskCall.run (task : Task) (s : Machine) (c : TaskCall) : Except Stop Machine :=
  mapPage s task.pml4t c.va c.pa c.flags

/-- The calls `load_elf` makes: lower-half pages, present and user, writable or not. -/
structure LoaderCall (c : TaskCall) : Prop where
  lower : c.va < 2 ^ 47
  aligned : c.va % 4096 = 0
  pa_aligned : c.pa % 4096 = 0
  pa_lt : c.pa < 2 ^ 52
  flags : c.flags = 0x5 ∨ c.flags = 0x7

section
variable {s s' : Machine} {task : Task} {pdpt pd pt flags va leaf : ℕ} {c : TaskCall}

theorem upperLevels_above {l : List (Fin 512) × Fin 512} (hl : l ∈ upperLevels va) :
    l.1.length ≤ 2 ∧ l.1 ++ [l.2] <+: path va := by
  simp only [upperLevels, List.mem_cons, List.not_mem_nil, or_false] at hl
  rcases hl with rfl | rfl | rfl
  · exact ⟨by simp, ⟨_, rfl⟩⟩
  · exact ⟨by simp, ⟨_, rfl⟩⟩
  · exact ⟨by simp, ⟨[], rfl⟩⟩

/-- On the way to a table of the last level every entry is present. -/
theorem upper_present {f : ℕ} (ht : s.table (path va) = some f) :
    ∀ l ∈ upperLevels va, ∃ e, s.entry l.1 l.2 = some e := by
  obtain ⟨g₁, g₂, h₁, h₂⟩ := tables_above ht
  intro l hl
  simp only [upperLevels, List.mem_cons, List.not_mem_nil, or_false] at hl
  rcases hl with rfl | rfl | rfl
  · rw [← List.nil_append [index 39 va], table_snoc] at h₁
    obtain ⟨e, he, _⟩ := Option.map_eq_some_iff.mp h₁
    exact ⟨e, he⟩
  · rw [show [index 39 va, index 30 va] = [index 39 va] ++ [index 30 va] from rfl, table_snoc] at h₂
    obtain ⟨e, he, _⟩ := Option.map_eq_some_iff.mp h₂
    exact ⟨e, he⟩
  · rw [show path va = [index 39 va, index 30 va] ++ [index 21 va] from rfl, table_snoc] at ht
    obtain ⟨e, he, _⟩ := Option.map_eq_some_iff.mp ht
    exact ⟨e, he⟩

theorem testBit_link {g bit : ℕ} (h0 : 0 < bit) (hlt : bit < 12) :
    (g * 4096 ||| flags ||| 0x1).testBit bit = flags.testBit bit := by
  have hg : (g * 4096).testBit bit = false := by
    rw [show g * 4096 = g * 2 ^ 12 from rfl, Nat.testBit_mul_two_pow]
    simp
    omega
  have h1 : Nat.testBit 0x1 bit = false := by
    rw [show (0x1 : ℕ) = 2 ^ 0 from rfl, Nat.testBit_two_pow]
    simp
    omega
  rw [Nat.testBit_or, Nat.testBit_or, hg, h1, Bool.or_false, Bool.false_or]

theorem testBit_leaf {pa bit : ℕ} (ha : pa % 4096 = 0) (hlt : bit < 12) :
    (pa ||| flags).testBit bit = flags.testBit bit := by
  have hpa : pa.testBit bit = false := by
    rw [show pa = pa / 4096 * 2 ^ 12 by omega, Nat.testBit_mul_two_pow]
    simp
    omega
  rw [Nat.testBit_or, hpa, Bool.false_or]

/-- An upper entry after a call is an old one, or has the flags of the call. -/
theorem Mapped.upper_bit {bit e : ℕ} {l : List (Fin 512) × Fin 512}
    (M : Mapped flags va leaf s s' pdpt pd pt) (hleaf : leaf < 2 ^ 64) (h0 : 0 < bit) (h12 : bit < 12)
    (hl : l.1.length ≤ 2) (he : s'.entry l.1 l.2 = some e) :
    s.entry l.1 l.2 = some e ∨ s.entry l.1 l.2 = none ∧ e.testBit bit = flags.testBit bit := by
  obtain ⟨g, G, hent, _, _⟩ := M.upper hleaf
  rw [hent l.1 l.2 hl] at he
  rcases G.made l.1 l.2 e hl he with h | ⟨hno, _, n, _, _, rfl⟩
  · exact .inl h
  · exact .inr ⟨hno, testBit_link h0 h12⟩

/-- What a call grants: what it is asked for, less what the entries already there withhold. -/
theorem Mapped.effective_iff {pa bit : ℕ} (M : Mapped flags va (pa ||| flags) s s' pdpt pd pt)
    (ha : pa % 4096 = 0) (hpa : pa < 2 ^ 52) (hfl : flags < 4096) (hpres : flags &&& 0x1 = 0x1)
    (h0 : 0 < bit) (h12 : bit < 12) :
    effective s' va bit = true ↔ flags.testBit bit = true ∧
      ∀ l ∈ upperLevels va, ∀ e, s.entry l.1 l.2 = some e → e.testBit bit = true := by
  have hleaf : pa ||| flags < 2 ^ 64 := entry_lt (by omega) (by omega)
  have hself : s'.entry (path va) (index 12 va) = some (pa ||| flags) :=
    M.entry_self hleaf (or_present hpres)
  obtain ⟨f, hf⟩ := table_of_present hself
  have hkeep : ∀ l ∈ upperLevels va, ∀ e, s.entry l.1 l.2 = some e → s'.entry l.1 l.2 = some e := by
    obtain ⟨g, G, hent, _, _⟩ := M.upper hleaf
    intro l hl e he
    have hlen := (upperLevels_above hl).1
    rw [hent l.1 l.2 hlen, G.keep l.1 l.2 e hlen he]
  rw [effective, List.all_append, Bool.and_eq_true, List.all_eq_true, List.all_cons, List.all_nil,
    Bool.and_true, hself, Option.any_some, testBit_leaf ha h12, and_comm]
  refine and_congr_right fun hbit => ⟨fun h l hl e he => ?_, fun h l hl => ?_⟩
  · have := h l hl
    rwa [hkeep l hl e he, Option.any_some] at this
  · obtain ⟨e, he⟩ := upper_present hf l hl
    rw [he, Option.any_some]
    rcases M.upper_bit hleaf h0 h12 (upperLevels_above hl).1 he with h' | ⟨_, h'⟩
    · exact h l hl e h'
    · rw [h', hbit]

/-! ### The loader's calls -/

theorem LoaderCall.leaf_lt (C : LoaderCall c) : c.pa ||| c.flags < 2 ^ 64 := by
  have := C.pa_lt
  rcases C.flags with h | h <;> rw [h] <;> exact entry_lt (by omega) (by decide)

theorem LoaderCall.user (C : LoaderCall c) : c.flags.testBit 2 = true := by
  rcases C.flags with h | h <;> rw [h] <;> rfl

theorem LoaderCall.present (C : LoaderCall c) : c.flags &&& 0x1 = 0x1 := by
  rcases C.flags with h | h <;> rw [h] <;> rfl

theorem LoaderCall.flags_lt (C : LoaderCall c) : c.flags < 4096 := by
  rcases C.flags with h | h <;> rw [h] <;> decide

theorem path_lower {va : ℕ} (h : va < 2 ^ 47) : path va ≠ windowPath :=
  path_ne_window (.inl h) (by simp only [KERNEL_BASE]; omega)

/-- The two ends of a call of the loader. -/
theorem LoaderCall.spec (C : LoaderCall c) (R : Ready s task pdpt pd pt) :
    (∃ s', c.run task s = .ok s' ∧ Mapped c.flags c.va (c.pa ||| c.flags) s s' pdpt pd pt ∧
      s.pmm.freeCount ≤ s'.pmm.freeCount + 3) ∨
    (∃ stop, c.run task s = .error stop) ∧ s.pmm.freeCount ≤ 2 := by
  have := C.pa_lt
  rcases mapPage_spec R.toPaged (R.reaches (index 39 c.va)) (path_lower C.lower)
    (flagBits_of_lt C.flags_lt) (show c.pa < 2 ^ 64 by omega) with h | ⟨g, hg, _, _, hc⟩
  · exact .inl h
  · exact .inr ⟨⟨_, hg⟩, hc⟩

theorem LoaderCall.mapped (C : LoaderCall c) (R : Ready s task pdpt pd pt) (h : c.run task s = .ok s') :
    Mapped c.flags c.va (c.pa ||| c.flags) s s' pdpt pd pt := by
  rcases C.spec R with ⟨t, ht, M, _⟩ | ⟨⟨stop, hstop⟩, _⟩
  · rw [ht] at h
    exact Except.ok.inj h ▸ M
  · rw [hstop] at h
    cases h

theorem LoaderCall.ready (C : LoaderCall c) (R : Ready s task pdpt pd pt) (h : c.run task s = .ok s') :
    Ready s' task pdpt pd pt :=
  R.mapped (C.mapped R h) C.leaf_lt (.inl C.lower)
    (by have := R.ctx_high; have := C.lower; have := R.ctx_aligned; omega)

/-! ### The tables of the task are user tables -/

/-- Every upper entry of the lower half lets the user through. -/
def UserTree (s : Machine) : Prop :=
  ∀ va < 2 ^ 47, ∀ l ∈ upperLevels va, ∀ e, s.entry l.1 l.2 = some e → e.testBit 2 = true

theorem LowerEmpty.upper (L : LowerEmpty s) (hva : va < 2 ^ 47) :
    ∀ l ∈ upperLevels va, s.entry l.1 l.2 = none := by
  have h₁ : s.entry [] (index 39 va) = none := L _ (by rw [index_val]; omega)
  have t₁ : s.table [index 39 va] = none := by
    rw [← List.nil_append [index 39 va], table_snoc, h₁]
    rfl
  have h₂ := entry_none_of_table (i := index 30 va) t₁
  have t₂ : s.table [index 39 va, index 30 va] = none := by
    rw [show [index 39 va, index 30 va] = [index 39 va] ++ [index 30 va] from rfl, table_snoc, h₂]
    rfl
  intro l hl
  simp only [upperLevels, List.mem_cons, List.not_mem_nil, or_false] at hl
  rcases hl with rfl | rfl | rfl
  · exact h₁
  · exact h₂
  · exact entry_none_of_table t₂

theorem LowerEmpty.userTree (L : LowerEmpty s) : UserTree s := fun va hva l hl e he => by
  rw [L.upper hva l hl] at he
  cases he

/-- One call keeps the tables user tables. -/
theorem UserTree.run (U : UserTree s) (R : Ready s task pdpt pd pt) (C : LoaderCall c)
    (h : c.run task s = .ok s') : UserTree s' := fun va hva l hl e he => by
  rcases (C.mapped R h).upper_bit C.leaf_lt (show 0 < 2 by decide) (by decide) (upperLevels_above hl).1 he with
    h' | ⟨_, h'⟩
  · exact U va hva l hl e h'
  · rw [h', C.user]

/-- What holds between the calls of the loader. -/
def Loading (task : Task) (s : Machine) : Prop := (∃ pdpt pd pt, Ready s task pdpt pd pt) ∧ UserTree s

theorem Loading.run (L : Loading task s) (C : LoaderCall c) (h : c.run task s = .ok s') : Loading task s' := by
  obtain ⟨⟨pdpt, pd, pt, R⟩, U⟩ := L
  exact ⟨⟨pdpt, pd, pt, C.ready R h⟩, U.run R C h⟩

theorem startTask_loading {m bm : Mem} {mmap : List MmapEntry} {s₀ : Machine} (hboot : boot m bm mmap = some s₀)
    {i : ℕ} (hi : (pmmAlloc s₀.pmm).1 = i * 4096) (h0 : 0 < i) (hlt : i < 2 ^ 19)
    (hstart : startTask s₀ = .ok (s, task)) : Loading task s := by
  rcases startTask_spec hboot hi h0 hlt with ⟨t, task', pdpt, pd, pt, ht, R, L, _⟩ | ⟨⟨stop, hstop⟩, _⟩
  · rw [hstart] at ht
    obtain ⟨rfl, rfl⟩ := Prod.mk.inj (Except.ok.inj ht)
    exact ⟨⟨pdpt, pd, pt, R⟩, L.userTree⟩
  · rw [hstart] at hstop
    cases hstop

/-- Whether the page just mapped has the rights it was asked for. -/
def Granted (s' : Machine) (c : TaskCall) : Prop :=
  effective s' c.va 1 = c.flags.testBit 1 ∧ effective s' c.va 2 = c.flags.testBit 2

/-- One call: the user right is always granted, the right to write if no entry withholds it. -/
theorem Loading.granted_iff (L : Loading task s) (C : LoaderCall c) (h : c.run task s = .ok s') :
    Granted s' c ↔ (c.flags.testBit 1 = true →
      ∀ l ∈ upperLevels c.va, ∀ e, s.entry l.1 l.2 = some e → e.testBit 1 = true) := by
  obtain ⟨⟨pdpt, pd, pt, R⟩, U⟩ := L
  have M := C.mapped R h
  have hw := M.effective_iff C.pa_aligned C.pa_lt C.flags_lt C.present (show 0 < 1 by decide) (by decide)
  have hu := M.effective_iff C.pa_aligned C.pa_lt C.flags_lt C.present (show 0 < 2 by decide) (by decide)
  have huser : effective s' c.va 2 = c.flags.testBit 2 := by
    rw [C.user]
    exact hu.mpr ⟨C.user, U c.va C.lower⟩
  rw [Granted, and_iff_left huser]
  cases hb : c.flags.testBit 1 with
  | false =>
    refine iff_of_true ?_ (fun h => by cases h)
    rw [hb] at hw
    exact Bool.eq_false_iff.mpr fun he => by cases (hw.mp he).1
  | true =>
    rw [hw, hb]
    simp

end

/-- CORRECT: after any calls of the loader, one more grants exactly the rights asked for if and only if
    it asks for a read-only page or every table already on the way to the page is linked writable. -/
theorem rights_iff {m bm : Mem} {mmap : List MmapEntry} {s₀ s₁ s s' : Machine} {task : Task} {i : ℕ}
    {calls : List TaskCall} {c : TaskCall} (hboot : boot m bm mmap = some s₀)
    (hi : (pmmAlloc s₀.pmm).1 = i * 4096) (h0 : 0 < i) (hlt : i < 2 ^ 19)
    (hstart : startTask s₀ = .ok (s₁, task))
    (hrun : Run (fun _ => LoaderCall) (fun s c => c.run task s) s₁ calls s) (hc : LoaderCall c)
    (h : c.run task s = .ok s') :
    Granted s' c ↔ (c.flags.testBit 1 = true →
      ∀ l ∈ upperLevels c.va, ∀ e, s.entry l.1 l.2 = some e → e.testBit 1 = true) :=
  (hrun.invariant (startTask_loading hboot hi h0 hlt hstart) fun _ _ _ L C hst => L.run C hst).granted_iff hc h

/-- With frames left, a call of the loader returns. -/
theorem LoaderCall.returns {s : Machine} {task : Task} {pdpt pd pt : ℕ} {c : TaskCall} (C : LoaderCall c)
    (R : Ready s task pdpt pd pt) (hc : 3 ≤ s.pmm.freeCount) :
    ∃ s', c.run task s = .ok s' ∧ s.pmm.freeCount ≤ s'.pmm.freeCount + 3 := by
  rcases C.spec R with ⟨s', h, _, hc'⟩ | ⟨_, hc'⟩
  · exact ⟨s', h, hc'⟩
  · omega

theorem loaderCall_two {va pa flags : ℕ} (h : va < 2 ^ 47 ∧ va % 4096 = 0 ∧ pa % 4096 = 0 ∧ pa < 2 ^ 52 ∧
    (flags = 0x5 ∨ flags = 0x7)) : LoaderCall ⟨va, pa, flags⟩ :=
  ⟨h.1, h.2.1, h.2.2.1, h.2.2.2.1, h.2.2.2.2⟩

/-- On the 64 MiB machine, the first page of a program asked for as writable is writable. -/
theorem rights_iff_first_page : ∃ s₀ s₁ task s', boot (fun _ => 0) (fun _ => 0) smallMap = some s₀ ∧
    startTask s₀ = .ok (s₁, task) ∧ TaskCall.run task s₁ ⟨0x400000, 0x300000, 0x7⟩ = .ok s' ∧
    Granted s' ⟨0x400000, 0x300000, 0x7⟩ := by
  obtain ⟨s₀, i, s₁, task, pdpt, pd, pt, hboot, hi, h0, hlt, hs, R, L, hc, _⟩ :=
    task_smallMap (fun _ => 0) (fun _ => 0)
  have C : LoaderCall ⟨0x400000, 0x300000, 0x7⟩ := loaderCall_two (by decide)
  obtain ⟨s', h, _⟩ := C.returns R (by omega)
  refine ⟨s₀, s₁, task, s', hboot, hs, h,
    (rights_iff hboot hi h0 hlt hs (.nil s₁) C h).mpr fun _ l hl e he => ?_⟩
  rw [L.upper C.lower l hl] at he
  cases he

/-- A read-only page, then a writable one beside it: the tables made for the first withhold the right
    from the second. -/
theorem second_page_read_only : ∃ s₀ s₁ task s₂ s₃, boot (fun _ => 0) (fun _ => 0) smallMap = some s₀ ∧
    startTask s₀ = .ok (s₁, task) ∧ TaskCall.run task s₁ ⟨0x400000, 0x300000, 0x5⟩ = .ok s₂ ∧
    TaskCall.run task s₂ ⟨0x401000, 0x301000, 0x7⟩ = .ok s₃ ∧
    ¬ Granted s₃ ⟨0x401000, 0x301000, 0x7⟩ := by
  obtain ⟨s₀, i, s₁, task, pdpt, pd, pt, hboot, hi, h0, hlt, hs, R, L, hc, _⟩ :=
    task_smallMap (fun _ => 0) (fun _ => 0)
  have C : LoaderCall ⟨0x400000, 0x300000, 0x5⟩ := loaderCall_two (by decide)
  have D : LoaderCall ⟨0x401000, 0x301000, 0x7⟩ := loaderCall_two (by decide)
  obtain ⟨s₂, h, hc₂⟩ := C.returns R (by omega)
  have R₂ := C.ready R h
  obtain ⟨s₃, h', _⟩ := D.returns R₂ (by omega)
  refine ⟨s₀, s₁, task, s₂, s₃, hboot, hs, h, h', fun hg => ?_⟩
  -- the PML4 entry was made by the first call
  have hw := ((D.mapped R₂ h').effective_iff D.pa_aligned D.pa_lt D.flags_lt D.present
    (show 0 < 1 by decide) (by decide)).mp hg.1
  have M := C.mapped R h
  have hself : s₂.entry (path 0x400000) (index 12 0x400000) = some (0x300000 ||| 0x5) :=
    M.entry_self C.leaf_lt (by decide)
  obtain ⟨f, hf⟩ := table_of_present hself
  have hl : (([], index 39 0x400000) : List (Fin 512) × Fin 512) ∈ upperLevels 0x401000 := by decide
  obtain ⟨e, he⟩ := upper_present hf ([], index 39 0x400000) (by decide)
  have hbit := hw.2 _ hl e he
  rcases M.upper_bit C.leaf_lt (show 0 < 1 by decide) (by decide) (by simp) he with h₁ | ⟨_, h₁⟩
  · rw [L.upper C.lower _ (by decide)] at h₁
    cases h₁
  · rw [h₁] at hbit
    exact absurd hbit (by decide)

end TerraOS.Vmm
