import TerraOS.Vmm.Boot

/-! What boot takes from the pool.

    `kernel_main` takes everything it needs before `heap_init` from one bump allocator: the page of the
    stack, the pages of the memory map, four tables, the bitmap, four pages of heap. It looks at none of
    the results. The regions come out right exactly when the pool holds them all and there is a bitmap
    at all (`regions_sound_iff`). -/

namespace TerraOS.Vmm
open Lib Lib.Word Pmm

/-! ### The pool, with what it gave -/

/-- `next_free`, and the pages that `alloc_page` has returned. -/
structure Pool where
  nextFree : ℕ
  given : List ℕ

namespace Pool

def alloc (p : Pool) : ℕ × Pool :=
  let page := allocPage p.nextFree
  (page.1, ⟨page.2, if page.1 = 0 then p.given else page.1 :: p.given⟩)

/-- `n` calls whose results are dropped. -/
def allocs : ℕ → Pool → Pool
  | 0, p => p
  | n + 1, p => allocs n p.alloc.2

end Pool

/-! ### `kernel_main` up to `heap_init` -/

/-- Where the bootloader puts the stack: the page that `rsp` starts in. -/
abbrev STACK_PAGE : ℕ := 0xFFFFFFFF80020000

/-- Where the bootloader puts the memory map. -/
abbrev MMAP_ARRAY : ℕ := 0xFFFFFFFF80021000

/-- `mem_bitmap_size`. -/
def bitmapSize (mmap : List MmapEntry) : ℕ := add64 (pagesUp (lastUsableEnd mmap)) 7 / 8

/-- The pages of `paging_init`. It writes to all four, and the bootloader does not map `NULL`. -/
structure Tables where
  pml4t : ℕ
  pdpt : ℕ
  pdt : ℕ
  pt : ℕ

def Pool.pagingInit (p : Pool) : Option (Tables × Pool) :=
  let pml4t := p.alloc
  let pdpt := pml4t.2.alloc
  let pdt := pdpt.2.alloc
  let pt := pdt.2.alloc
  if pml4t.1 = 0 ∨ pdpt.1 = 0 ∨ pdt.1 = 0 ∨ pt.1 = 0 then none
  else some (⟨pml4t.1, pdpt.1, pdt.1, pt.1⟩, pt.2)

/-- The bitmap of `pmm_init`. It writes to the bytes for the kernel's own 2 MiB, whatever the size, and
    the new tables map nothing beyond `KERNEL_END`. -/
def Pool.pmmInit (p : Pool) (mmap : List MmapEntry) : Option (ℕ × Pool) :=
  let memBitmap := p.alloc
  if memBitmap.1 = 0 ∨ KERNEL_END < memBitmap.1 + max (bitmapSize mmap) 64 then none
  else some (memBitmap.1, memBitmap.2.allocs (sub64 (pagesUp (bitmapSize mmap)) 1))

/-- The pages of the heap: `heap_start`, and `heap_end` from the last of four. -/
def Pool.heap (p : Pool) : (ℕ × ℕ) × Pool :=
  let heapStart := p.alloc
  let fourth := heapStart.2.alloc.2.alloc.2.alloc
  ((heapStart.1, add64 fourth.1 PAGE_SIZE), fourth.2)

/-- The pointers and sizes that `kernel_main` has when it comes to `heap_init`. -/
structure Regions where
  mmapCount : ℕ
  tables : Tables
  memBitmap : ℕ
  memBitmapSize : ℕ
  heapStart : ℕ
  heapEnd : ℕ
  pool : Pool

/-- `kernel_main` up to `heap_init`; `none` when it faults on the way. -/
def kernelMain (mmap : List MmapEntry) : Option Regions := do
  let stack := Pool.alloc ⟨POOL_START, []⟩
  let pool := stack.2.allocs (pagesUp (24 * mmap.length))
  let tables ← pool.pagingInit
  let memBitmap ← tables.2.pmmInit mmap
  let heap := memBitmap.2.heap
  some ⟨mmap.length, tables.1, memBitmap.1, bitmapSize mmap, heap.1.1, heap.1.2, heap.2⟩

/-- The regions, each from its first byte to the one after its last. -/
def Regions.all (r : Regions) : List (ℕ × ℕ) :=
  [(STACK_PAGE, STACK_PAGE + PAGE_SIZE), (MMAP_ARRAY, MMAP_ARRAY + 24 * r.mmapCount),
    (r.tables.pml4t, r.tables.pml4t + PAGE_SIZE), (r.tables.pdpt, r.tables.pdpt + PAGE_SIZE),
    (r.tables.pdt, r.tables.pdt + PAGE_SIZE), (r.tables.pt, r.tables.pt + PAGE_SIZE),
    (r.memBitmap, r.memBitmap + r.memBitmapSize), (r.heapStart, r.heapEnd)]

/-- No two regions meet, each is made of pages that `alloc_page` returned, the heap has four pages, and
    all lie in the pool, below `TEMP_PAGE`. -/
structure Regions.Sound (r : Regions) : Prop where
  disjoint : r.all.Pairwise fun a b => ∀ x, ¬ ((a.1 ≤ x ∧ x < a.2) ∧ b.1 ≤ x ∧ x < b.2)
  returned : ∀ a ∈ r.all, ∀ x, a.1 ≤ x → x < a.2 → ∃ p ∈ r.pool.given, p ≠ 0 ∧ p ≤ x ∧ x < p + PAGE_SIZE
  heap : r.heapEnd = r.heapStart + 4 * PAGE_SIZE
  inside : ∀ a ∈ r.all, POOL_START ≤ a.1 ∧ a.2 ≤ POOL_END ∧ a.2 ≤ TEMP_PAGE

/-! ### The pool after `k` pages -/

/-- Page `k` of the pool. -/
def poolPage (k : ℕ) : ℕ := POOL_START + k * 4096

theorem poolPage_ne (k : ℕ) : poolPage k ≠ 0 := by
  simp only [poolPage, POOL_START]
  omega

/-- Where a page of the pool ends the next one starts. -/
theorem poolPage_end {k : ℕ} (h : k < 478) : add64 (poolPage k) PAGE_SIZE = poolPage (k + 1) := by
  simp only [poolPage]
  rw [add64_of_lt (by simp only [POOL_START, PAGE_SIZE]; omega)]
  simp only [PAGE_SIZE]
  omega

/-- `alloc_page` gives the next page of 478, or finds the pool used up. -/
theorem allocPage_poolPage {k : ℕ} (h : k ≤ 478) :
    allocPage (poolPage k) = if k < 478 then (poolPage k, poolPage (k + 1)) else (0, poolPage k) := by
  by_cases hk : k < 478
  · have hlt : ¬ poolPage (k + 1) ≥ POOL_END := by
      simp only [poolPage, POOL_START, POOL_END]
      omega
    rw [if_pos hk, allocPage, poolPage_end hk, if_neg hlt]
  · obtain rfl : k = 478 := by omega
    rw [if_neg hk]
    decide

theorem poolPage_eq (k : ℕ) : poolPage k = 0xFFFFFFFF80020000 + k * 4096 := rfl

theorem poolPage_zero : poolPage 0 = POOL_START := rfl

attribute [irreducible] poolPage

/-- The first `k` pages of the pool are given. -/
structure Pool.At (k : ℕ) (p : Pool) : Prop where
  le : k ≤ 478
  nextFree : p.nextFree = poolPage k
  given : ∀ q, q ∈ p.given ↔ ∃ j < k, q = poolPage j

section
variable {k n : ℕ} {p : Pool}

theorem pool_start : Pool.At 0 ⟨POOL_START, []⟩ := ⟨by omega, poolPage_zero.symm, fun q => by simp⟩

theorem Pool.At.alloc (h : Pool.At k p) :
    (k < 478 ∧ p.alloc.1 = poolPage k ∧ Pool.At (k + 1) p.alloc.2) ∨
    (k = 478 ∧ p.alloc.1 = 0 ∧ p.alloc.2 = p) := by
  have hle := h.le
  have ha := allocPage_poolPage hle
  rw [← h.nextFree] at ha
  by_cases hk : k < 478
  · rw [if_pos hk, h.nextFree] at ha
    refine .inl ⟨hk, by rw [Pool.alloc, h.nextFree, ha], by omega, by rw [Pool.alloc, h.nextFree, ha], fun q => ?_⟩
    simp only [Pool.alloc, h.nextFree, ha, if_neg (poolPage_ne k), List.mem_cons, h.given]
    constructor
    · rintro (rfl | ⟨j, hj, rfl⟩)
      · exact ⟨k, by omega, rfl⟩
      · exact ⟨j, by omega, rfl⟩
    · rintro ⟨j, hj, rfl⟩
      rcases Nat.lt_succ_iff_lt_or_eq.mp hj with hlt | rfl
      · exact .inr ⟨j, hlt, rfl⟩
      · exact .inl rfl
  · rw [if_neg hk] at ha
    exact .inr ⟨by omega, by rw [Pool.alloc, ha], by rw [Pool.alloc, ha]; rfl⟩

theorem Pool.At.allocs (h : Pool.At k p) : Pool.At (min (k + n) 478) (p.allocs n) := by
  induction n generalizing k p with
  | zero => rw [Nat.add_zero, Nat.min_eq_left h.le]; exact h
  | succ n ih =>
    rcases h.alloc with ⟨_, _, h'⟩ | ⟨rfl, _, hp⟩
    · have := ih h'
      rwa [show k + 1 + n = k + (n + 1) by omega] at this
    · have := ih h
      rw [Pool.allocs, hp]
      rwa [show min (478 + n) 478 = min (478 + (n + 1)) 478 by omega] at this

theorem Pool.At.pagingInit {t : Tables × Pool} (h : Pool.At k p) (ht : p.pagingInit = some t) :
    k + 3 < 478 ∧ t.1 = ⟨poolPage k, poolPage (k + 1), poolPage (k + 2), poolPage (k + 3)⟩ ∧
      Pool.At (k + 4) t.2 := by
  unfold Pool.pagingInit at ht
  dsimp only at ht
  split at ht
  · cases ht
  · rename_i hnull
    simp only [not_or] at hnull
    obtain ⟨n₁, n₂, n₃, n₄⟩ := hnull
    obtain ⟨_, e₁, A₁⟩ := h.alloc.resolve_right fun hr => n₁ hr.2.1
    obtain ⟨_, e₂, A₂⟩ := A₁.alloc.resolve_right fun hr => n₂ hr.2.1
    obtain ⟨_, e₃, A₃⟩ := A₂.alloc.resolve_right fun hr => n₃ hr.2.1
    obtain ⟨h₄, e₄, A₄⟩ := A₃.alloc.resolve_right fun hr => n₄ hr.2.1
    have hlt : k + 3 < 478 := h₄
    rw [e₁, e₂, e₃, e₄] at ht
    obtain rfl := Option.some.inj ht
    exact ⟨hlt, rfl, A₄⟩

/-- Four pages that are there are given. -/
theorem Pool.At.pagingInit_isSome (h : Pool.At k p) (hk : k + 3 < 478) : p.pagingInit.isSome := by
  obtain ⟨_, e₁, A₁⟩ := h.alloc.resolve_right fun hr => by omega
  obtain ⟨_, e₂, A₂⟩ := A₁.alloc.resolve_right fun hr => by omega
  obtain ⟨_, e₃, A₃⟩ := A₂.alloc.resolve_right fun hr => by omega
  obtain ⟨_, e₄, _⟩ := A₃.alloc.resolve_right fun hr => by omega
  unfold Pool.pagingInit
  dsimp only
  rw [e₁, e₂, e₃, e₄, if_neg (by simp only [poolPage_ne, or_self, not_false_eq_true])]
  rfl

/-- A bitmap that ends inside the window is written. -/
theorem Pool.At.pmmInit_isSome {mmap : List MmapEntry} (h : Pool.At k p) (hk : k < 478)
    (hend : poolPage k + max (bitmapSize mmap) 64 ≤ KERNEL_END) : (p.pmmInit mmap).isSome := by
  obtain ⟨_, e, _⟩ := h.alloc.resolve_right fun hr => by omega
  unfold Pool.pmmInit
  dsimp only
  rw [e, if_neg (not_or.mpr ⟨poolPage_ne k, Nat.not_lt.mpr hend⟩)]
  rfl

theorem Pool.At.pmmInit {mmap : List MmapEntry} {b : ℕ × Pool} (h : Pool.At k p)
    (hb : p.pmmInit mmap = some b) :
    b.1 = poolPage k ∧ Pool.At (min (k + 1 + sub64 (pagesUp (bitmapSize mmap)) 1) 478) b.2 := by
  unfold Pool.pmmInit at hb
  dsimp only at hb
  split at hb
  · cases hb
  · rename_i hnull
    obtain ⟨_, e, A⟩ := h.alloc.resolve_right fun hr => hnull (.inl hr.2.1)
    obtain rfl := Option.some.inj hb
    have hpages := A.allocs (n := sub64 (pagesUp (bitmapSize mmap)) 1)
    refine ⟨?_, ?_⟩ <;> dsimp only
    · exact e
    · exact hpages

/-- Four pages, or the last of them is `NULL`. -/
theorem Pool.At.heap (h : Pool.At k p) :
    (k + 3 < 478 ∧ p.heap.1 = (poolPage k, poolPage (k + 4)) ∧ Pool.At (k + 4) p.heap.2) ∨
    (475 ≤ k ∧ p.heap.1.2 = PAGE_SIZE) := by
  have null : ∀ {q : Pool}, q.alloc.1 = 0 → add64 q.alloc.1 PAGE_SIZE = PAGE_SIZE := fun hq => by
    rw [hq]
    decide
  unfold Pool.heap
  dsimp only
  rcases h.alloc with ⟨h₁, e₁, A₁⟩ | ⟨rfl, z₁, e₁⟩
  · rcases A₁.alloc with ⟨h₂, _, A₂⟩ | ⟨h₂, z₂, e₂⟩
    · rcases A₂.alloc with ⟨h₃, _, A₃⟩ | ⟨h₃, z₃, e₃⟩
      · rcases A₃.alloc with ⟨h₄, e₄, A₄⟩ | ⟨h₄, z₄, _⟩
        · refine .inl ⟨h₄, ?_, A₄⟩
          rw [e₁, e₄, poolPage_end h₄]
        · exact .inr ⟨by omega, null z₄⟩
      · refine .inr ⟨by omega, ?_⟩
        rw [e₃]
        exact null z₃
    · refine .inr ⟨by omega, ?_⟩
      rw [e₂, e₂]
      exact null z₂
  · refine .inr ⟨by omega, ?_⟩
    rw [e₁, e₁, e₁]
    exact null z₁

end

/-! ### Which memory maps come out right -/

section
variable {mmap : List MmapEntry} {r : Regions}

/-- There is usable memory, and the pool holds the regions: the stack's page, those of the memory map,
    four tables, those of the bitmap, and four for the heap are at most 478. -/
def PoolHolds (mmap : List MmapEntry) : Prop :=
  0 < lastUsableEnd mmap ∧ pagesUp (24 * mmap.length) + pagesUp (bitmapSize mmap) + 9 ≤ 478

/-- Where `kernel_main` has the regions: `n` pages are taken for the memory map, and `k` in all before
    the heap. -/
structure Placed (n k : ℕ) (r : Regions) : Prop where
  tables : r.tables = ⟨poolPage (1 + n), poolPage (1 + n + 1), poolPage (1 + n + 2), poolPage (1 + n + 3)⟩
  memBitmap : r.memBitmap = poolPage (1 + n + 4)
  heap : (k + 3 < 478 ∧ r.heapStart = poolPage k ∧ r.heapEnd = poolPage (k + 4) ∧ Pool.At (k + 4) r.pool) ∨
    (475 ≤ k ∧ r.heapEnd = PAGE_SIZE)

theorem kernelMain_placed (h : kernelMain mmap = some r) :
    r.mmapCount = mmap.length ∧ r.memBitmapSize = bitmapSize mmap ∧
      Placed (pagesUp (24 * mmap.length))
        (min (1 + pagesUp (24 * mmap.length) + 4 + 1 + sub64 (pagesUp (bitmapSize mmap)) 1) 478) r := by
  obtain ⟨-, -, A₀⟩ := pool_start.alloc.resolve_right fun hr => absurd hr.1 (by decide)
  have A := A₀.allocs (n := pagesUp (24 * mmap.length))
  rw [kernelMain, Option.bind_eq_bind, Option.bind_eq_some_iff] at h
  obtain ⟨t, ht, h⟩ := h
  rw [Option.bind_eq_bind, Option.bind_eq_some_iff] at h
  obtain ⟨b, hb, h⟩ := h
  obtain ⟨hlt, e₁, A₁⟩ := A.pagingInit ht
  have hk : min (0 + 1 + pagesUp (24 * mmap.length)) 478 = 1 + pagesUp (24 * mmap.length) := by
    generalize pagesUp (24 * mmap.length) = n at hlt ⊢
    clear A₀ A ht hb h e₁ A₁
    omega
  rw [hk] at e₁ A₁
  obtain ⟨e₂, A₂⟩ := A₁.pmmInit hb
  obtain rfl := Option.some.inj h
  refine ⟨rfl, rfl, e₁, e₂, ?_⟩
  have hpool := A₂.heap
  rcases hpool with ⟨hlt, f, F⟩ | ⟨hle, f⟩
  · refine .inl ⟨hlt, ?_, ?_, ?_⟩ <;> dsimp only
    · rw [f]
    · rw [f]
    · exact F
  · refine .inr ⟨hle, ?_⟩
    dsimp only
    exact f

/-- The numbers of pages, for a map the bootloader can hand over. -/
theorem pages_bounds (hcount : mmap.length < 2 ^ 16) (hp : Physical mmap) :
    pagesUp (24 * mmap.length) ≤ 384 ∧ 24 * mmap.length ≤ pagesUp (24 * mmap.length) * 4096 ∧
      bitmapSize mmap ≤ pagesUp (bitmapSize mmap) * 4096 ∧ pagesUp (bitmapSize mmap) ≤ 2 ^ 26 ∧
      (0 < lastUsableEnd mmap ↔ 0 < pagesUp (bitmapSize mmap)) := by
  have hl := (lastUsableEnd_spec hp).1
  have hb : bitmapSize mmap = ((lastUsableEnd mmap + 4095) / 4096 + 7) / 8 := by
    rw [bitmapSize, pagesUp_eq hl, add64_of_lt (by omega)]
  rw [pagesUp_eq (x := 24 * mmap.length) (by omega), hb, pagesUp_eq (by omega)]
  omega

/-- Intervals that follow one another do not meet. -/
theorem disjoint_of_chain {l : List (ℕ × ℕ)}
    (h : l.IsChain fun a b => a.1 ≤ a.2 ∧ a.2 ≤ b.1 ∧ b.1 ≤ b.2) :
    l.Pairwise fun a b => ∀ x, ¬ ((a.1 ≤ x ∧ x < a.2) ∧ b.1 ≤ x ∧ x < b.2) := by
  have : IsTrans (ℕ × ℕ) fun a b => a.1 ≤ a.2 ∧ a.2 ≤ b.1 ∧ b.1 ≤ b.2 := ⟨fun a b c _ _ => by omega⟩
  exact h.pairwise.imp fun _ x _ => by omega

/-- Every byte of the pages taken lies in one of them. -/
theorem Pool.At.covers {k x : ℕ} {p : Pool} (h : Pool.At k p) (h1 : poolPage 0 ≤ x) (h2 : x < poolPage k) :
    ∃ q ∈ p.given, q ≠ 0 ∧ q ≤ x ∧ x < q + PAGE_SIZE := by
  rw [poolPage_eq] at h1 h2
  refine ⟨poolPage ((x - 0xFFFFFFFF80020000) / 4096), (h.given _).mpr ⟨_, by omega, rfl⟩, poolPage_ne _, ?_⟩
  rw [poolPage_eq]
  simp only [PAGE_SIZE]
  omega

/-- The regions follow one another through the pool. -/
theorem Placed.bounds {n b : ℕ} (P : Placed n (n + b + 5) r) (hroom : n + b + 9 ≤ 478)
    (hlen : 24 * r.mmapCount ≤ n * 4096) (hsize : r.memBitmapSize ≤ b * 4096) :
    (r.all.IsChain fun a b => a.1 ≤ a.2 ∧ a.2 ≤ b.1 ∧ b.1 ≤ b.2) ∧
      (∀ a ∈ r.all, poolPage 0 ≤ a.1 ∧ a.2 ≤ poolPage (n + b + 9)) ∧
      r.heapEnd = r.heapStart + 4 * PAGE_SIZE ∧ Pool.At (n + b + 9) r.pool := by
  obtain ⟨hstart, hend, hpool⟩ := (P.heap.resolve_right fun h => by omega).2
  have ht := P.tables
  have hm := P.memBitmap
  unfold Regions.all
  generalize r.memBitmapSize = z at hsize
  generalize 24 * r.mmapCount = l at hlen
  rw [ht, hm, hstart, hend]
  simp only [poolPage_eq, PAGE_SIZE, STACK_PAGE, MMAP_ARRAY, List.isChain_cons_cons, List.isChain_singleton,
    List.forall_mem_cons, List.not_mem_nil, false_implies, implies_true, and_true]
  clear P hstart hend ht hm
  refine ⟨?_, ?_, ?_, hpool⟩
  · omega
  · omega
  · omega

theorem Placed.sound {n b : ℕ} (P : Placed n (n + b + 5) r) (hroom : n + b + 9 ≤ 478)
    (hlen : 24 * r.mmapCount ≤ n * 4096) (hsize : r.memBitmapSize ≤ b * 4096) : r.Sound := by
  obtain ⟨hchain, hbounds, hheap, hpool⟩ := P.bounds hroom hlen hsize
  refine ⟨disjoint_of_chain hchain, fun a ha x h1 h2 => ?_, hheap, fun a ha => ?_⟩
  · obtain ⟨g1, g2⟩ := hbounds a ha
    exact hpool.covers (le_trans g1 h1) (lt_of_lt_of_le h2 g2)
  · obtain ⟨g1, g2⟩ := hbounds a ha
    rw [poolPage_eq] at g1 g2
    simp only [POOL_START, POOL_END, TEMP_PAGE]
    omega

/-- The pages before the heap, with the bitmap's counted from `page_count - 1`. -/
theorem pages_before_heap {n b : ℕ} (hn : n ≤ 384) (hb : b ≤ 2 ^ 26) :
    (0 < b → min (1 + n + 4 + 1 + sub64 b 1) 478 = min (n + b + 5) 478) ∧
    (b = 0 → min (1 + n + 4 + 1 + sub64 b 1) 478 = 478) := by
  constructor
  · intro h
    rw [sub64_of_le h (by omega)]
    congr 1
    omega
  · rintro rfl
    have : sub64 0 1 = 2 ^ 64 - 1 := by decide
    rw [this]
    omega

/-- A map that the pool holds is booted from. -/
theorem kernelMain_isSome (hcount : mmap.length < 2 ^ 16) (hp : Physical mmap) (h : PoolHolds mmap) :
    (kernelMain mmap).isSome := by
  obtain ⟨hn, _, hsize, _, _⟩ := pages_bounds hcount hp
  obtain ⟨_, hroom⟩ := h
  obtain ⟨-, -, A₀⟩ := pool_start.alloc.resolve_right fun hr => absurd hr.1 (by decide)
  have A := A₀.allocs (n := pagesUp (24 * mmap.length))
  unfold kernelMain
  dsimp only
  generalize pagesUp (24 * mmap.length) = n at hn hroom A ⊢
  generalize pagesUp (bitmapSize mmap) = b at hsize hroom
  rw [show min (0 + 1 + n) 478 = 1 + n by clear A A₀; omega] at A
  generalize Pool.allocs n (Pool.alloc ⟨POOL_START, []⟩).2 = p at A
  obtain ⟨t, ht⟩ := Option.isSome_iff_exists.mp (A.pagingInit_isSome (by omega))
  obtain ⟨_, _, A₁⟩ := A.pagingInit ht
  have hend : poolPage (1 + n + 4) + max (bitmapSize mmap) 64 ≤ KERNEL_END := by
    rw [poolPage_eq]
    simp only [KERNEL_END]
    clear A A₀ A₁ ht
    omega
  obtain ⟨b', hb'⟩ := Option.isSome_iff_exists.mp (A₁.pmmInit_isSome (by omega) hend)
  simp only [ht, hb', Option.bind_eq_bind, Option.bind_some, Option.isSome_some]

/-- Its regions are sound. -/
theorem regions_of_pool (hcount : mmap.length < 2 ^ 16) (hp : Physical mmap) (h : PoolHolds mmap) :
    ∃ r, kernelMain mmap = some r ∧ r.Sound := by
  obtain ⟨r, hr⟩ := Option.isSome_iff_exists.mp (kernelMain_isSome hcount hp h)
  obtain ⟨hcnt, hsz, P⟩ := kernelMain_placed hr
  obtain ⟨hn, hlen, hsize, hbig, hpos⟩ := pages_bounds hcount hp
  obtain ⟨husable, hroom⟩ := h
  have hb := hpos.mp husable
  generalize pagesUp (24 * mmap.length) = n at hn hlen P hroom
  generalize pagesUp (bitmapSize mmap) = b at hsize hbig P hroom hb
  rw [(pages_before_heap hn hbig).1 hb, Nat.min_eq_left (by omega)] at P
  refine ⟨r, hr, P.sound hroom ?_ ?_⟩
  · rw [hcnt]
    exact hlen
  · rw [hsz]
    exact hsize

/-- CORRECT: for every memory map of fewer than `2^16` entries that end at or below `2^52`, `kernel_main`
    comes to `heap_init` with sound regions if the pool holds them, and never with sound regions if it
    does not. -/
theorem regions_sound_iff (hcount : mmap.length < 2 ^ 16) (hp : Physical mmap) :
    (PoolHolds mmap → (kernelMain mmap).isSome) ∧
      ∀ r, kernelMain mmap = some r → (r.Sound ↔ PoolHolds mmap) := by
  refine ⟨kernelMain_isSome hcount hp, fun r hr => ?_⟩
  obtain ⟨hcnt, hsz, P⟩ := kernelMain_placed hr
  obtain ⟨hn, hlen, hsize, hbig, hpos⟩ := pages_bounds hcount hp
  unfold PoolHolds
  rw [hpos]
  generalize pagesUp (24 * mmap.length) = n at hn hlen P ⊢
  generalize pagesUp (bitmapSize mmap) = b at hsize hbig P ⊢
  obtain ⟨hk, hk0⟩ := pages_before_heap (b := b) hn hbig
  -- a heap whose last page is `NULL` ends in page 0
  have hnull : r.heapEnd = PAGE_SIZE → ¬ r.Sound := fun he hs => by
    have h1 := hs.heap
    have h2 := (hs.inside (r.heapStart, r.heapEnd) (by simp [Regions.all])).1
    simp only [PAGE_SIZE, POOL_START] at he h1 h2
    omega
  by_cases hb : 0 < b
  · rw [hk hb] at P
    by_cases hroom : n + b + 9 ≤ 478
    · rw [Nat.min_eq_left (by omega)] at P
      have hs : r.Sound := Placed.sound P hroom (by rw [hcnt]; exact hlen) (by rw [hsz]; exact hsize)
      exact ⟨fun _ => ⟨hb, hroom⟩, fun _ => hs⟩
    · refine ⟨fun hs => absurd hs (hnull ?_), fun h => absurd h.2 hroom⟩
      rcases P.heap with ⟨hlt, _⟩ | ⟨_, he⟩
      · omega
      · exact he
  · rw [hk0 (by omega)] at P
    refine ⟨fun hs => absurd hs (hnull ?_), fun h => absurd h.1 hb⟩
    rcases P.heap with ⟨hlt, _⟩ | ⟨_, he⟩
    · omega
    · exact he

end

/-- A machine with 64 MiB boots, with sound regions. -/
theorem regions_sound_small_machine :
    smallMap.length < 2 ^ 16 ∧ Physical smallMap ∧ ∃ r, kernelMain smallMap = some r ∧ r.Sound := by
  have hcount : smallMap.length < 2 ^ 16 := by decide
  have h := regions_sound_iff hcount smallMap_physical
  have hpool : PoolHolds smallMap := by unfold PoolHolds; decide
  obtain ⟨r, hr⟩ := Option.isSome_iff_exists.mp (h.1 hpool)
  exact ⟨hcount, smallMap_physical, r, hr, (h.2 r hr).mpr hpool⟩

/-- With 58.75 GiB the bitmap takes 470 pages; two are left for the heap, and `heap_end` is `NULL` and a
    page. -/
theorem regions_out_of_pool :
    ∃ r, kernelMain [⟨0, 470 * 2 ^ 27, 1⟩] = some r ∧ ¬ r.Sound := by
  obtain ⟨r, hr, he⟩ : ∃ r, kernelMain [⟨0, 470 * 2 ^ 27, 1⟩] = some r ∧ r.heapEnd = 0x1000 := by
    have h : (kernelMain [⟨0, 470 * 2 ^ 27, 1⟩]).any (fun r => decide (r.heapEnd = 0x1000)) = true := by
      decide +kernel
    cases hk : kernelMain [⟨0, 470 * 2 ^ 27, 1⟩] with
    | none => rw [hk] at h; cases h
    | some r => rw [hk] at h; exact ⟨r, rfl, of_decide_eq_true h⟩
  refine ⟨r, hr, fun hs => ?_⟩
  have h1 := hs.heap
  have h2 := (hs.inside (r.heapStart, r.heapEnd) (by simp [Regions.all])).1
  simp only [PAGE_SIZE, POOL_START] at h1 h2
  omega

end TerraOS.Vmm
