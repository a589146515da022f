import TerraOS.Boot.Mmap
import TerraOS.Kheap.Frame
import TerraOS.Vmm.Memory

/-! The kernel's memory.

    The heap and the page tables lie in one memory. kheap.c works at addresses of the window, on the four
    pages that `kernel_main` took from the pool; vmm.c writes to tables, wherever they are, through
    `TEMP_PAGE`. Neither looks at what the other does. Over any interleaving of their calls each behaves
    as if it were alone: the heap as a store of blocks, the page tables as a store of pages.

    Below `TEMP_PAGE` every translation of the window, cached or not, is the identity (`Sound.window_uses`), so
    that the heap works in memory as the window shows it. -/

namespace TerraOS.Kernel
open Lib Lib.Word Pmm Vmm Boot

/-- Memory as the window shows it. -/
def inWindow (m : Mem) : Mem := fun va => m (va - KERNEL_BASE)

/-- Memory as it was written through the window. -/
def outWindow (m : Mem) : Mem := fun x => m (KERNEL_BASE + x)

@[simp] theorem inWindow_base (m : Mem) (x : ℕ) : inWindow m (KERNEL_BASE + x) = m x := by
  rw [inWindow, Nat.add_sub_cancel_left]

theorem inWindow_outWindow {m : Mem} {va : ℕ} (h : KERNEL_BASE ≤ va) : inWindow (outWindow m) va = m va := by
  rw [inWindow, outWindow, Nat.add_sub_cancel' h]

theorem outWindow_apply (m : Mem) (x : ℕ) : outWindow m x = m (KERNEL_BASE + x) := rfl

attribute [irreducible] inWindow outWindow

/-- The machine with the frames that callers hold, and the globals of kheap.c with the blocks that theirs
    do. -/
structure State where
  session : CachedSession
  start : ℕ
  avail : ℕ
  heapStart : ℕ
  heapEnd : ℕ
  live : List ℕ

/-- The heap of a state, in the memory of the machine. -/
def State.client (k : State) : Kheap.Client :=
  ⟨⟨inWindow k.session.cpu.machine.phys, k.start, k.avail, k.heapStart, k.heapEnd⟩, k.live⟩

/-- What the heap wrote, written to the machine. -/
def State.withClient (k : State) (c : Kheap.Client) : State where
  session := ⟨⟨{ k.session.cpu.machine with phys := outWindow c.heap.mem }, k.session.cpu.tlb⟩, k.session.held⟩
  start := c.heap.start
  avail := c.heap.avail
  heapStart := c.heap.heapStart
  heapEnd := c.heap.heapEnd
  live := c.live

inductive Call where
  | page (a : Access)
  | heap (op : Kheap.Op)

def Call.run (k : State) : Call → Except (Stop ⊕ Kheap.Fault) State
  | .page a =>
    match a.run k.session with
    | .ok s => .ok { k with session := s }
    | .error stop => .error (.inl stop)
  | .heap op =>
    match Kheap.exec k.client op with
    | .ok c => .ok (k.withClient c)
    | .error fault => .error (.inr fault)

/-- Each call keeps to the rules of its own side. -/
def Call.Fair (k : State) : Call → Prop
  | .page a => a.Fair k.session
  | .heap op => Kheap.Legal k.client op

/-- `kernel_main` at `heap_init`, with `heap_start` and `heap_end` from the pool. -/
def heapInit (s : Machine) (r : Regions) : Except Kheap.Fault State := do
  let h ← Kheap.heapInit (inWindow s.phys) r.heapStart r.heapEnd
  return State.withClient ⟨⟨⟨s, []⟩, []⟩, 0, 0, 0, 0, []⟩ ⟨h, []⟩

/-- What a call does to the pages: a call of the heap, nothing. -/
def Call.act : Call → Objects.Act ℕ
  | .page a => a.act
  | .heap _ => .skip

/-- What a call may do to the blocks: a call for pages, nothing. -/
inductive Call.Answer : Call → Objects.Act ℕ → Prop
  | page (a : Access) : Answer (.page a) .skip
  | heap {op : Kheap.Op} {a : Objects.Act ℕ} : Kheap.Answer op a → Answer (.heap op) a

/-! ### The frames between -/

/-- The tables of the window lie below frame `b`. -/
def TablesBelow (b : ℕ) (s : Machine) : Prop := ∀ p f, p <+: windowPath → s.table p = some f → f < b

section
variable {s s' : Session} {b : ℕ}

/-- Every other table is in a frame from the allocator, above the kernel's 2 MiB. -/
theorem TablesBelow.spare (B : TablesBelow b s.machine) (S : Sound s) {p : List (Fin 512)} {f : ℕ} (hp : p.length ≤ 3)
    (hf : s.machine.table p = some f) : f < b ∨ 512 ≤ f := by
  by_cases hw : p <+: windowPath
  · exact .inl (B p f hw hf)
  · exact .inr (S.high p f (place_of_le hp) hw hf).1

/-- And so is every page mapped. -/
theorem leaf_high (S : Sound s) {va e : ℕ} (hv : Outside va) (he : walk s.machine.phys s.machine.root va = some e) :
    512 ≤ frame e := by
  refine (S.high _ _ hv.place (fun hw => ?_) (table_of_entry he)).1
  have := hw.length_le
  simp [path] at this

/-- A path of the window keeps its tables through `map_page`. -/
theorem TablesBelow.map {c : MapCall} (B : TablesBelow b s.machine) (S : Sound s) (A : MapsHeld s c)
    (h : Op.run s (.map c) = .ok s') : TablesBelow b s'.machine := by
  obtain ⟨pdpt, pd, pt, P, _⟩ := S.running
  obtain ⟨g, G, _, htab, _⟩ := (A.1.mapped P (map_run h).1).upper A.1.leaf_lt
  intro p f hw hf
  have hp : p.length ≤ 3 := hw.length_le
  cases hs : s.machine.table p with
  | none =>
    have hnone := table_none_below hs hw
    rw [P.table_window] at hnone
    cases hnone
  | some f' =>
    rw [htab p hp, G.table hp hs] at hf
    obtain rfl := Option.some.inj hf
    exact B p f' hw hs

/-- A call changes no byte of the frames between. -/
theorem call_spares {op : Op} (B : TablesBelow b s.machine) (S : Sound s) (ha : Allowed s op) (hl : LeavesOther s op)
    (h : op.run s = .ok s') : TablesBelow b s'.machine ∧
      ∀ x, b ≤ x / 4096 → x / 4096 < 512 → s'.machine.phys x = s.machine.phys x := by
  cases op with
  | alloc =>
    obtain rfl := Except.ok.inj h
    exact ⟨B, fun _ _ _ => rfl⟩
  | map c =>
    have S' := S.step ha hl h
    have B' := B.map S ha.1 h
    obtain ⟨pdpt, pd, pt, P, _⟩ := S.running
    refine ⟨B', fun x h1 h2 => ?_⟩
    refine (ha.1.1.mapped P (map_run h).1).bytes ha.1.1.leaf_lt fun p hp hn => ?_
    have := B'.spare S' hp hn
    omega
  | unmap ctx va =>
    obtain ⟨hu, hsome⟩ := ha
    obtain ⟨e, he⟩ := Option.isSome_iff_exists.mp hsome
    obtain ⟨f, g, pdpt, pd, pt, U⟩ := S.unmapping hu he
    simp only [Op.run, U.run, ok_bind] at h
    obtain rfl := Except.ok.inj h
    refine ⟨fun p f' hw hf' => ?_, fun x h1 h2 => cleared_bytes (fun hx => ?_) fun hx => ?_⟩
    · have hp : p.length ≤ 3 := hw.length_le
      have hf' : (cleared s.machine pt f g (index 12 va)).table p = some f' := hf'
      rw [U.place (place_of_le hp)] at hf'
      split at hf'
      · cases hf'
      · exact B p f' hw hf'
    · have := B.spare S (show (path va).length ≤ 3 by simp [path]) U.table
      omega
    · have := B.spare S (show windowPath.length ≤ 3 by simp) U.paged.table_window
      omega

/-- Neither does any other access outside the window. -/
theorem access_spares {s s' : CachedSession} {a : Access} (B : TablesBelow b s.cpu.machine) (S : Sound s.plain)
    (C : Coherent s.cpu) (hf : a.Fair s) (h : a.run s = .ok s') : TablesBelow b s'.cpu.machine ∧
      ∀ x, b ≤ x / 4096 → x / 4096 < 512 → s'.cpu.machine.phys x = s.cpu.machine.phys x := by
  cases a with
  | call op =>
    have hspares := call_spares (s := s.plain) B S hf.1 hf.2.1 (cached_plain h)
    exact hspares
  | write va e v =>
    obtain ⟨hw, huse⟩ := hf
    obtain ⟨hc, he⟩ := C.uses huse
    obtain rfl := Except.ok.inj h
    have hout : Outside va := ⟨hc, hw⟩
    have hhigh : 512 ≤ frame e := leaf_high S hout he
    refine ⟨fun p f hpre hf => B p f hpre ?_, fun x _ h2 => Mem.store8_out (by omega)⟩
    have hp : p.length ≤ 3 := hpre.length_le
    rw [← hf]
    refine (table_of_bytes hp fun q n hq hn x hx => Mem.store8_out fun hxe => ?_).symm
    obtain rfl : n = frame e := by omega
    exact S.leaf_apart hout he (show q.length ≤ 3 by omega) hn
  | read va =>
    obtain rfl := Except.ok.inj h
    simp only [fill_machine]
    exact ⟨B, fun _ _ _ => trivial⟩
  | reload =>
    obtain rfl := Except.ok.inj h
    exact ⟨B, fun _ _ _ => rfl⟩
  | drop page =>
    obtain rfl := Except.ok.inj h
    exact ⟨B, fun _ _ _ => rfl⟩

/-- Changes to the frames between leave the pages and their tables alone. -/
theorem pages_spared {t : Machine} {held : List ℕ} {tlb : List (ℕ × ℕ)} {m : Mem} (B : TablesBelow b t)
    (S : Sound ⟨t, held⟩) (C : Coherent ⟨t, tlb⟩) (hm : ∀ x, (x / 4096 < b ∨ 512 ≤ x / 4096) → m x = t.phys x) :
    Sound ⟨{ t with phys := m }, held⟩ ∧ Coherent ⟨{ t with phys := m }, tlb⟩ ∧ TablesBelow b { t with phys := m } ∧
      pages { t with phys := m } = pages t := by
  have htab : ∀ q n, q.length ≤ 3 → t.table q = some n → ∀ x, x / 4096 = n → m x = t.phys x := by
    intro q n hq hn x hx
    refine hm x ?_
    rw [hx]
    exact B.spare S hq hn
  have hwalk : ∀ va, walk m t.root va = walk t.phys t.root va := fun va =>
    entry_of_bytes (p := path va) (by simp [path]) htab
  refine ⟨S.of_bytes htab, fun x hx => ⟨(C x hx).1, (hwalk _).trans (C x hx).2⟩, fun p f hw hf => B p f hw ?_, ?_⟩
  · have hp : p.length ≤ 3 := hw.length_le
    rw [← hf]
    exact (table_of_bytes hp fun q n hq => htab q n (by omega)).symm
  · funext v
    exact pages_eq (s := ⟨t, held⟩) (t := ⟨{ t with phys := m }, held⟩) (fun va _ _ => hwalk va)
      fun va e hv _ he x hx => hm x (.inr (by rw [hx]; exact leaf_high S hv he))

end

/-! ### Both sides -/

/-- Where the heap lies: in the window, above the tables of frame `b` and below, and below `TEMP_PAGE`. -/
structure Place (b lo hi : ℕ) : Prop extends Kheap.Span lo hi where
  above : KERNEL_BASE + b * 4096 ≤ lo
  below : hi ≤ TEMP_PAGE

/-- Both sides are sound, and the heap is between the tables. -/
structure Sound (b lo hi : ℕ) (k : State) : Prop where
  pages : Vmm.Sound k.session.plain
  cache : Coherent k.session.cpu
  tables : TablesBelow b k.session.cpu.machine
  heap : ∃ cs, Kheap.Inv k.client cs
  lo_eq : k.heapStart = lo
  hi_eq : k.heapEnd = hi

section
variable {k k' : State} {b lo hi : ℕ} {c : Kheap.Client}

theorem Place.small (L : Place b lo hi) : hi - lo ≤ 2 ^ 31 := by
  have h1 := L.above
  have h2 := L.below
  simp only [KERNEL_BASE, TEMP_PAGE] at h1 h2
  omega

/-- A heap in the window is, from the machine's side, the heap it is from its own. -/
theorem client_withClient (L : Place b lo hi) (hlo : c.heap.heapStart = lo) :
    (k.withClient c).client = c.inMem (inWindow (outWindow c.heap.mem)) ∧
      Kheap.Inside c.heap (inWindow (outWindow c.heap.mem)) :=
  ⟨rfl, fun _ h1 _ => inWindow_outWindow ((Nat.le_add_right _ _).trans (L.above.trans (hlo ▸ h1)))⟩

/-- What the machine sees of a call of the heap. -/
theorem withClient_bytes (L : Place b lo hi) {h : Kheap.Heap} (hmem : h.mem = inWindow k.session.cpu.machine.phys)
    (hs : h.heapStart = lo) (he : h.heapEnd = hi) (hw : Kheap.Within h c.heap.mem) {x : ℕ}
    (hx : x / 4096 < b ∨ 512 ≤ x / 4096) :
    (k.withClient c).session.cpu.machine.phys x = k.session.cpu.machine.phys x := by
  have habove := L.above
  have hbelow := L.below
  simp only [TEMP_PAGE, KERNEL_BASE] at habove hbelow
  have hout := hw (KERNEL_BASE + x) (by rw [hs, he]; simp only [KERNEL_BASE]; omega)
  have hphys : (k.withClient c).session.cpu.machine.phys = outWindow c.heap.mem := rfl
  rw [hphys, outWindow_apply, hout, hmem, inWindow_base]

theorem Sound.page {a : Access} (K : Sound b lo hi k) (L : Place b lo hi) (hf : a.Fair k.session)
    (h : (Call.page a).run k = .ok k') :
    Sound b lo hi k' ∧ Objects.Step (Vmm.pages k.session.cpu.machine) a.act (Vmm.pages k'.session.cpu.machine) ∧
      Kheap.blocks k'.client = Kheap.blocks k.client := by
  simp only [Call.run] at h
  split at h
  · rename_i s hs
    obtain rfl := Except.ok.inj h
    obtain ⟨⟨S, C⟩, hstep⟩ := pages_access K.pages K.cache hf hs
    obtain ⟨B, hbytes⟩ := access_spares K.tables K.pages K.cache hf hs
    obtain ⟨cs, I⟩ := K.heap
    have hin : Kheap.Inside k.client.heap (inWindow s.cpu.machine.phys) := by
      intro x h1 h2
      have habove := L.above
      have hbelow := L.below
      have h1 : k.heapStart ≤ x := h1
      have h2 : x < k.heapEnd := h2
      rw [K.lo_eq] at h1
      rw [K.hi_eq] at h2
      simp only [TEMP_PAGE, KERNEL_BASE] at habove hbelow
      obtain ⟨y, rfl⟩ : ∃ y, x = KERNEL_BASE + y := Nat.exists_eq_add_of_le (by simp only [KERNEL_BASE]; omega)
      simp only [KERNEL_BASE] at h1 h2
      have hmem : k.client.heap.mem = inWindow k.session.cpu.machine.phys := rfl
      rw [hmem, inWindow_base, inWindow_base]
      exact hbytes y (by omega) (by omega)
    exact ⟨⟨S, C, B, ⟨cs, I.inMem hin⟩, K.lo_eq, K.hi_eq⟩, hstep, Kheap.blocks_inMem I hin⟩
  · cases h

theorem Sound.heapCall {op : Kheap.Op} (K : Sound b lo hi k) (L : Place b lo hi) (hl : Kheap.Legal k.client op)
    (h : (Call.heap op).run k = .ok k') :
    Sound b lo hi k' ∧ Vmm.pages k'.session.cpu.machine = Vmm.pages k.session.cpu.machine ∧
      ∃ a, Kheap.Answer op a ∧ Objects.Step (Kheap.blocks k.client) a (Kheap.blocks k'.client) := by
  simp only [Call.run] at h
  split at h
  · rename_i c hc
    obtain rfl := Except.ok.inj h
    obtain ⟨cs, I⟩ := K.heap
    have hlo : k.client.heap.heapStart = lo := K.lo_eq
    have hhi : k.client.heap.heapEnd = hi := K.hi_eq
    obtain ⟨⟨cs', I', hlo', hhi'⟩, a, ha, hstep⟩ := Kheap.blocks_step L.toSpan I hlo hhi L.small hl hc
    have hw := Kheap.exec_within I hlo hhi L.small hl hc
    obtain ⟨S, C, B, hpages⟩ := pages_spared K.tables K.pages K.cache fun x hx =>
      withClient_bytes L rfl hlo hhi hw hx
    obtain ⟨hclient, hin⟩ := client_withClient (k := k) L hlo'
    refine ⟨⟨S, C, B, ⟨cs', hclient ▸ I'.inMem hin⟩, hlo', hhi'⟩, hpages, a, ha, ?_⟩
    rw [hclient, Kheap.blocks_inMem I' hin]
    exact hstep
  · cases h

/-- What one call does: its own side takes a step, and the other side does not notice. -/
theorem Sound.call {a : Call} (K : Sound b lo hi k) (L : Place b lo hi) (hf : a.Fair k) (h : a.run k = .ok k') :
    Sound b lo hi k' ∧ Objects.Step (Vmm.pages k.session.cpu.machine) a.act (Vmm.pages k'.session.cpu.machine) ∧
      ∃ x, a.Answer x ∧ Objects.Step (Kheap.blocks k.client) x (Kheap.blocks k'.client) := by
  cases a with
  | page a =>
    obtain ⟨K', hstep, hblocks⟩ := K.page L hf h
    refine ⟨K', hstep, .skip, .page a, ?_⟩
    rw [hblocks]
    exact .skip _
  | heap op =>
    obtain ⟨K', hpages, x, hx, hstep⟩ := K.heapCall L hf h
    refine ⟨K', ?_, x, .heap hx, hstep⟩
    rw [hpages]
    exact .skip _

end

/-! ### From boot on -/

section
variable {m m' bm : Mem} {mmap : List MmapEntry} {s₀ : Machine} {r : Regions} {k : ℕ}

/-- `paging_init` is called when the pages of the stack and of the memory map are taken. -/
theorem bootNextFree_pool (hcount : mmap.length < 2 ^ 16) :
    pagesUp (24 * mmap.length) ≤ 384 ∧ bootNextFree mmap = poolPage (1 + pagesUp (24 * mmap.length)) := by
  have hpages : pagesUp (24 * mmap.length) ≤ 384 := by
    rw [pagesUp_eq (by omega)]
    omega
  obtain ⟨-, -, A₀⟩ := pool_start.alloc.resolve_right fun hr => absurd hr.1 (by decide)
  have hnext := (A₀.allocs (n := pagesUp (24 * mmap.length))).nextFree
  refine ⟨hpages, ?_⟩
  rw [bootNextFree]
  generalize pagesUp (24 * mmap.length) = n at hpages hnext ⊢
  rw [allocs_nextFree, show min (0 + 1 + n) 478 = 1 + n by clear A₀ hnext; omega] at hnext
  exact hnext

/-- `paging_init`, where the pool has its four pages. -/
theorem pagingInit_pool (h : k + 3 < 478) : ∃ t, pagingInit m (poolPage k) = some t ∧ t.pml4t = poolPage k ∧
    t.nextFree = poolPage (k + 4) ∧ ∀ x, (x / 4096 < 32 + k ∨ 36 + k ≤ x / 4096) → t.phys x = m x := by
  have given : ∀ j < 478, allocPage (poolPage j) = (poolPage j, poolPage (j + 1)) := fun j hj => by
    rw [allocPage_poolPage (by omega), if_pos hj]
  have hv : ∀ j ≤ 478, v2p (poolPage j) = (32 + j) * 4096 := fun j hj => by
    rw [v2p, poolPage_eq, sub64_of_le (by simp only [KERNEL_BASE]; omega) (by omega)]
    simp only [KERNEL_BASE]
    omega
  simp only [pagingInit, given k (by omega), given (k + 1) (by omega), given (k + 1 + 1) (by omega),
    given (k + 1 + 1 + 1) (by omega), poolPage_ne, or_self, if_false]
  refine ⟨_, rfl, rfl, rfl, fun x hx => ?_⟩
  simp only [hv k (by omega), hv (k + 1) (by omega), hv (k + 1 + 1) (by omega), hv (k + 1 + 1 + 1) (by omega),
    PAGE_SIZE]
  rw [identityTable_out (by omega), Mem.store64_out (by omega), Mem.store64_out (by omega),
    Mem.store64_out (by omega)]
  simp only [fillBytes]
  rw [if_neg (by omega), if_neg (by omega), if_neg (by omega), if_neg (by omega)]

/-- The four tables determine their pages. -/
theorem fourTables_bytes {n x : ℕ} (T : FourTables m n) (T' : FourTables m' n) (h1 : n ≤ x / 4096)
    (h2 : x / 4096 < n + 4) : m' x = m x := by
  have hents : ∀ i : Fin 512, ents m' (x / 4096) i = ents m (x / 4096) i := by
    intro i
    obtain h | h | h | h : x / 4096 = n ∨ x / 4096 = n + 1 ∨ x / 4096 = n + 2 ∨ x / 4096 = n + 3 := by omega
    · rw [h, T.pml4, T'.pml4]
    · rw [h, T.pdpt, T'.pdpt]
    · rw [h, T.pd, T'.pd]
    · rw [h, T.pt, T'.pt]
  exact bytes_of_ents hents rfl

/-- Memory that has the tables already, and anything else elsewhere, is memory after a boot. -/
theorem boot_again (hboot : boot m bm mmap = some s₀) (hcount : mmap.length < 2 ^ 16)
    (hm : ∀ x, x / 4096 < 37 + pagesUp (24 * mmap.length) → m' x = s₀.phys x) :
    boot m' bm mmap = some { s₀ with phys := m' } := by
  obtain ⟨t, ht, hfit, rfl⟩ := boot_cases hboot
  obtain ⟨hpages, hnext⟩ := bootNextFree_pool hcount
  generalize pagesUp (24 * mmap.length) = n at hpages hnext hm
  obtain ⟨t₁, ht₁, hptr, hfree, _⟩ := @pagingInit_pool m (1 + n) (by omega)
  obtain ⟨t', ht', hptr', hfree', hout⟩ := @pagingInit_pool m' (1 + n) (by omega)
  rw [← hnext] at ht₁ ht'
  rw [ht] at ht₁
  obtain rfl := Option.some.inj ht₁
  -- the tables are written over with what they hold
  have hphys : t'.phys = m' := by
    obtain ⟨k, _, _, hk, _, T, _⟩ := pagingInit_spec (bootNextFree_inPool mmap) ht
    obtain ⟨k', _, _, hk', _, T', _⟩ := pagingInit_spec (bootNextFree_inPool mmap) ht'
    rw [hptr, poolPage_eq] at hk
    rw [hptr', poolPage_eq] at hk'
    simp only [KERNEL_BASE] at hk hk'
    obtain rfl : k = 33 + n := by omega
    obtain rfl : k' = 33 + n := by omega
    funext x
    by_cases hx : 33 + n ≤ x / 4096 ∧ x / 4096 < 37 + n
    · rw [hm x hx.2]
      exact fourTables_bytes T T' hx.1 (by omega)
    · exact hout x (by omega)
  rw [boot, ht', Option.bind_eq_bind, Option.bind_some]
  dsimp only
  rw [hfree', ← hfree, if_pos hfit, hphys, hptr', hptr]

/-- The tables come right after them. -/
theorem boot_tables (hboot : boot m bm mmap = some s₀) (hcount : mmap.length < 2 ^ 16) :
    ∃ n, n = 33 + pagesUp (24 * mmap.length) ∧ ∀ p f, p.length ≤ 3 → s₀.table p = some f → n ≤ f ∧ f < n + 4 := by
  obtain ⟨t, ht, _, hs₀⟩ := boot_cases hboot
  obtain ⟨n, P, hroot, hk, _, h511, T, _⟩ := boot_spec hboot
  obtain ⟨hpages, hnext⟩ := bootNextFree_pool hcount
  generalize pagesUp (24 * mmap.length) = n' at hpages hnext ⊢
  obtain ⟨t', ht', hptr⟩ := pagingInit_poolPage (m := m) (k := 1 + n') (by omega)
  rw [hnext, ht'] at ht
  obtain rfl := Option.some.inj ht
  have hpml4 : KERNEL_BASE + n * 4096 = poolPage (1 + n') := by
    rw [← hptr, ← hk, ← P.ptr, hs₀]
  refine ⟨n, ?_, fun p f hp hf => ?_⟩
  · rw [poolPage_eq] at hpml4
    simp only [KERNEL_BASE] at hpml4
    omega
  · rcases T.table_cases (by omega) hroot hp hf with ⟨_, rfl⟩ | ⟨_, rfl⟩ | ⟨_, rfl⟩ | ⟨_, rfl⟩ <;> omega

/-- The bitmap follows, and the heap comes after it. -/
theorem boot_placed (hboot : boot m bm mmap = some s₀) (hcount : mmap.length < 2 ^ 16)
    (hr : Vmm.kernelMain mmap = some r) (hs : r.Sound) :
    ∃ b, b = 37 + pagesUp (24 * mmap.length) ∧ TablesBelow b s₀ ∧ Place b r.heapStart r.heapEnd := by
  obtain ⟨n, hn, htables⟩ := boot_tables hboot hcount
  have hpages : pagesUp (24 * mmap.length) ≤ 384 := by
    rw [pagesUp_eq (by omega)]
    omega
  obtain ⟨-, -, Q⟩ := kernelMain_placed hr
  have hheap := hs.heap
  have hin := hs.inside (r.heapStart, r.heapEnd) (by simp [Regions.all])
  generalize pagesUp (24 * mmap.length) = n' at hn hpages Q ⊢
  generalize sub64 (pagesUp (bitmapSize mmap)) 1 = v at Q
  refine ⟨n + 4, by omega, fun p f hw hf => (htables p f hw.length_le hf).2, ?_⟩
  simp only [POOL_START, POOL_END, TEMP_PAGE, PAGE_SIZE] at hheap hin
  rcases Q.heap with ⟨hlt, hstart, _, _⟩ | ⟨_, hend⟩
  · rw [poolPage_eq] at hstart
    have hk : 1 + n' + 5 ≤ min (1 + n' + 4 + 1 + v) 478 := by omega
    generalize min (1 + n' + 4 + 1 + v) 478 = k at hk hlt hstart
    refine ⟨⟨?_, ?_, ?_, ?_⟩, ?_, ?_⟩
    · omega
    · omega
    · omega
    · omega
    · simp only [KERNEL_BASE]
      omega
    · simp only [TEMP_PAGE]
      omega
  · simp only [PAGE_SIZE] at hend
    omega

/-- `heap_init` returns, and changes bytes of its own region alone. -/
theorem heapInit_ran (s₀ : Machine) {b lo hi : ℕ} (hlo : r.heapStart = lo) (hhi : r.heapEnd = hi)
    (L : Place b lo hi) :
    ∃ h, Kheap.heapInit (inWindow s₀.phys) lo hi = .ok h ∧
      heapInit s₀ r = .ok (State.withClient ⟨⟨⟨s₀, []⟩, []⟩, 0, 0, 0, 0, []⟩ ⟨h, []⟩) ∧
      ∀ x, (x / 4096 < b ∨ 512 ≤ x / 4096) → outWindow h.mem x = s₀.phys x := by
  have habove := L.above
  have hbelow := L.below
  simp only [KERNEL_BASE, TEMP_PAGE] at habove hbelow
  have h0 : lo ≠ 0 := by omega
  obtain ⟨h, hh⟩ : ∃ h, Kheap.heapInit (inWindow s₀.phys) lo hi = .ok h := by
    simp only [Kheap.heapInit, Kheap.setSize_ok h0, Kheap.setInuse_ok h0, Kheap.setNext_ok h0, ok_bind, pure_ok]
    exact ⟨_, rfl⟩
  refine ⟨h, hh, ?_, fun x hx => ?_⟩
  · rw [heapInit, hlo, hhi, hh]
    rfl
  · rw [outWindow_apply, Kheap.heapInit_within L.toSpan hh (by simp only [KERNEL_BASE]; omega), inWindow_base]

/-- It leaves both sides sound and empty. -/
theorem heapInit_sound {b lo hi : ℕ} (S : Vmm.Sound ⟨s₀, []⟩) (B : TablesBelow b s₀) (hlo : r.heapStart = lo)
    (hhi : r.heapEnd = hi) (L : Place b lo hi) :
    ∃ k, heapInit s₀ r = .ok k ∧ Sound b lo hi k ∧ Vmm.pages k.session.cpu.machine = Vmm.pages s₀ ∧
      Kheap.blocks k.client = fun _ => none := by
  obtain ⟨h, hh, hrun, hbytes⟩ := heapInit_ran s₀ hlo hhi L
  obtain ⟨I, hstart, hend⟩ := Kheap.init_inv L.toSpan hh
  obtain ⟨S', C', B', hpages⟩ := @pages_spared b s₀ [] [] _ B S (fun x hx => absurd hx List.not_mem_nil) hbytes
  generalize hk : (⟨⟨⟨s₀, []⟩, []⟩, 0, 0, 0, 0, []⟩ : State) = k at hrun
  have hsession : k.session = ⟨⟨s₀, []⟩, []⟩ := by rw [← hk]
  have hmachine : (k.withClient ⟨h, []⟩).session = ⟨⟨{ s₀ with phys := outWindow h.mem }, []⟩, []⟩ := by
    rw [State.withClient, hsession]
  obtain ⟨hclient, hin⟩ := client_withClient (k := k) (c := ⟨h, []⟩) L hstart
  have hheap := I.inMem hin
  rw [← hclient] at hheap
  refine ⟨_, hrun, ⟨?_, ?_, ?_, ⟨_, hheap⟩, hstart, hend⟩, ?_, ?_⟩
  · rw [hmachine]
    exact S'
  · rw [hmachine]
    exact C'
  · rw [hmachine]
    exact B'
  · rw [hmachine]
    exact hpages
  · funext p
    exact if_neg List.not_mem_nil

/-- A translation of the window, below `TEMP_PAGE`. -/
theorem Sound.window_uses {k : State} {b lo hi x e : ℕ} (K : Sound b lo hi k) (hx : x < 511 * 4096)
    (h : k.session.cpu.Uses (KERNEL_BASE + x) e) : frame e * 4096 + (KERNEL_BASE + x) % 4096 = x := by
  obtain ⟨hc, he⟩ := K.cache.uses h
  obtain ⟨pdpt, pd, pt, P, _⟩ := K.pages.running
  have htrans : k.session.cpu.machine.translate (KERNEL_BASE + x) = some x := P.toWindow.translate hx
  rw [Machine.translate, if_pos hc, he, Option.map_some, and_pageMask] at htrans
  exact Option.some.inj htrans

/-- A byte of a block, by any translation. -/
theorem Sound.reads_block {k : State} {b lo hi p i : ℕ} {o : List UInt8} {v : UInt8} (K : Sound b lo hi k)
    (L : Place b lo hi) (ho : Kheap.blocks k.client p = some o) (hv : o[i]? = some v) :
    k.session.cpu.Reads (p + i) v := by
  obtain ⟨cs, I⟩ := K.heap
  have hlo : k.client.heap.heapStart = lo := K.lo_eq
  have hhi : k.client.heap.heapEnd = hi := K.hi_eq
  by_cases hp : p ∈ k.client.live
  · obtain ⟨c, hc, _, rfl, _⟩ := I.chunk hp
    rw [I.block hc hp] at ho
    obtain rfl := Option.some.inj ho
    have hi := (List.getElem?_eq_some_iff.mp hv).1
    rw [Mem.length_bytes] at hi
    rw [Mem.getElem?_bytes _ _ hi] at hv
    have hb := I.holds.fits.bounds c hc
    rw [hlo, hhi] at hb
    have habove := L.above
    have hbelow := L.below
    simp only [KERNEL_BASE, TEMP_PAGE] at habove hbelow
    unfold Kheap.Chunk.stop at hb
    obtain ⟨x, hx⟩ : ∃ x, c.ptr + i = KERNEL_BASE + x := by
      refine Nat.exists_eq_add_of_le ?_
      simp only [KERNEL_BASE]
      unfold Kheap.Chunk.ptr
      omega
    have hlt : x < 511 * 4096 := by
      unfold Kheap.Chunk.ptr at hx
      simp only [KERNEL_BASE] at hx
      omega
    have hval := Option.some.inj hv
    rw [hx] at hval
    have hmem : k.client.heap.mem = inWindow k.session.cpu.machine.phys := rfl
    rw [hmem, inWindow_base] at hval
    obtain ⟨pdpt, pd, pt, P, _⟩ := K.pages.running
    have htrans : k.session.cpu.machine.translate (KERNEL_BASE + x) = some x := P.toWindow.translate hlt
    have hcan := canonical_of_translate htrans
    rw [hx]
    refine ⟨?_, fun e he => by rw [K.window_uses hlt he]; exact hval⟩
    rw [Machine.translate, if_pos hcan] at htrans
    obtain ⟨e, he, _⟩ := Option.map_eq_some_iff.mp htrans
    exact ⟨e, .inr ⟨hcan, he⟩⟩
  · rw [Kheap.blocks_none hp] at ho
    cases ho

end

/-- CORRECT: after boot and `heap_init`, over any interleaving of calls for pages, loads of and stores to pages,
    reloads of `CR3`, calls of the heap and writes to blocks, each side is a store of its own, and a call on
    one side is no step at all on the other. Whatever was written, to a page or to a block, the
    kernel reads back, by any translation that the processor may use, until it is given up. -/
theorem kernel_memory {m bm : Mem} {mmap : List MmapEntry} {s₀ : Machine} (hboot : boot m bm mmap = some s₀)
    (hcount : mmap.length < 2 ^ 16) (hp : Physical mmap) (hpool : PoolHolds mmap) :
    ∃ r k₀, Vmm.kernelMain mmap = some r ∧ heapInit s₀ r = .ok k₀ ∧ ∀ calls k, Run Call.Fair Call.run k₀ calls k →
      (Trace Objects.Step (fun _ => none) (calls.map Call.act) (Vmm.pages k.session.cpu.machine) ∧
        ∀ va v, Outside va → Objects.known (calls.map Call.act) (va / 4096) (va % 4096) = some v →
          k.session.cpu.Reads va v) ∧
      ∃ acts, List.Forall₂ Call.Answer calls acts ∧ Trace Objects.Step (fun _ => none) acts (Kheap.blocks k.client) ∧
        ∀ p i v, Objects.known acts p i = some v → k.session.cpu.Reads (p + i) v := by
  obtain ⟨r, hr, hsound⟩ := regions_of_pool hcount hp hpool
  obtain ⟨b, -, B, L⟩ := boot_placed hboot hcount hr hsound
  obtain ⟨k₀, hk₀, K₀, hpages, hblocks⟩ := heapInit_sound (boot_sound hboot) B rfl rfl L
  refine ⟨r, k₀, hr, hk₀, fun calls k hrun => ?_⟩
  rw [boot_pages hboot] at hpages
  obtain ⟨_, hpageTrace⟩ := hrun.trace_map (I := Sound b r.heapStart r.heapEnd) (f := Call.act)
    (fun k => Vmm.pages k.session.cpu.machine) K₀ fun _ _ _ K hf hst =>
      ⟨(K.call L hf hst).1, (K.call L hf hst).2.1⟩
  obtain ⟨K, acts, hacts, hblockTrace⟩ := hrun.trace (I := Sound b r.heapStart r.heapEnd) (M := Call.Answer)
    (fun k => Kheap.blocks k.client) K₀ fun _ _ _ K hf hst => ⟨(K.call L hf hst).1, (K.call L hf hst).2.2⟩
  rw [hpages] at hpageTrace
  rw [hblocks] at hblockTrace
  refine ⟨⟨hpageTrace, fun va v hva hv => ?_⟩, acts, hacts, hblockTrace, fun p i v hv => ?_⟩
  · obtain ⟨o, ho, hob⟩ := Objects.trace_agrees hpageTrace _ _ _ hv
    exact K.cache.reads hva ho hob
  · obtain ⟨o, ho, hob⟩ := Objects.trace_agrees hblockTrace p i v hv
    exact K.reads_block L ho hob

/-! ### A byte on each side -/

/-- A block is allocated from one free chunk. -/
theorem fresh_block {st : Kheap.Client} {lo hi : ℕ} (hfour : hi = lo + 4 * 4096) (hlo : st.heap.heapStart = lo)
    (hhi : st.heap.heapEnd = hi) (I : Kheap.Inv st [⟨lo, hi - lo - 32, false⟩]) : ∃ h' cs' c,
      Kheap.Legal st (.kalloc 16) ∧ Kheap.exec st (.kalloc 16) = .ok ⟨h', [c.ptr]⟩ ∧ c.ptr ≠ 0 ∧
      Kheap.Inv ⟨h', [c.ptr]⟩ cs' ∧ h'.heapStart = lo ∧ c ∈ cs' ∧ 16 ≤ c.size := by
  have hsixteen : Kheap.align16 16 = 16 := by decide
  have hlegal : Kheap.Legal st (.kalloc 16) := by
    have havail := I.holds.avail_eq
    rw [hlo, hhi] at havail
    show 16 ≤ st.heap.avail
    omega
  obtain ⟨h', cs', c, hkalloc, E, hused, hsize, hnew⟩ : ∃ h' cs' c, Kheap.kalloc st.heap 16 = .ok (c.ptr, h') ∧
      Kheap.Edit True st.heap h' [⟨lo, hi - lo - 32, false⟩] cs' [] [c] ∧ c.inuse = true ∧
      Kheap.align16 16 ≤ c.size ∧ c ∉ [(⟨lo, hi - lo - 32, false⟩ : Kheap.Chunk)] := by
    rcases Kheap.kalloc_edit I.holds 16 with ⟨_, hno⟩ | ⟨_, h⟩
    · refine absurd ⟨_, List.mem_cons_self, rfl, ?_⟩ hno
      rw [hsixteen]
      show 16 ≤ hi - lo - 32
      omega
    · exact h
  have hptr : c.ptr ≠ 0 := by
    unfold Kheap.Chunk.ptr
    omega
  have hlive : st.live = [] := by
    refine List.eq_nil_iff_forall_not_mem.mpr fun p hp => ?_
    obtain ⟨d, hd, hu, _⟩ := I.live p hp
    rw [List.mem_singleton.mp hd] at hu
    cases hu
  refine ⟨h', cs', c, hlegal, ?_, hptr, ?_, E.start_eq.trans hlo, (E.used c hused).mpr (.inl List.mem_cons_self),
    hsixteen ▸ hsize⟩
  · simp only [Kheap.exec, hkalloc, ok_bind, if_neg hptr, hlive]
    rfl
  · rw [← hlive]
    exact Kheap.Effect.inv I (.allocated (.kalloc 16) E hused hnew)

/-- A block is allocated, and its first byte written. -/
theorem heap_byte {k : State} {b lo hi : ℕ} (K : Sound b lo hi k) (L : Place b lo hi) (hfour : hi = lo + 4 * 4096)
    (I : Kheap.Inv k.client [⟨lo, hi - lo - 32, false⟩]) : ∃ p m k', p ≠ 0 ∧
      Run Call.Fair Call.run k [.heap (.kalloc 16), .heap (.write p 9)] k' ∧
      k'.session = ⟨⟨{ k.session.cpu.machine with phys := m }, k.session.cpu.tlb⟩, k.session.held⟩ ∧
      ∀ x, x / 4096 < b → m x = k.session.cpu.machine.phys x := by
  have hlo : k.client.heap.heapStart = lo := K.lo_eq
  have hhi : k.client.heap.heapEnd = hi := K.hi_eq
  obtain ⟨h', cs', c, hlegal, hexec, hptr, I₁, hstart, hc, hsize⟩ := fresh_block hfour hlo hhi I
  have hw₁ := Kheap.exec_within I hlo hhi L.small hlegal hexec
  obtain ⟨k₁, hk₁⟩ : ∃ k₁, k₁ = k.withClient ⟨h', [c.ptr]⟩ := ⟨_, rfl⟩
  have hrun₁ : (Call.heap (.kalloc 16)).run k = .ok k₁ := by rw [Call.run, hexec, hk₁]
  have K₁ := (K.heapCall L hlegal hrun₁).1
  have hlo₁ : k₁.client.heap.heapStart = lo := K₁.lo_eq
  have hhi₁ : k₁.client.heap.heapEnd = hi := K₁.hi_eq
  -- its byte
  obtain ⟨hclient, hin⟩ := client_withClient (k := k) (c := ⟨h', [c.ptr]⟩) L hstart
  have I₂ := I₁.inMem hin
  rw [← hclient, ← hk₁] at I₂
  have hmem : c.ptr ∈ k₁.client.live := by
    rw [hk₁]
    exact List.mem_cons_self
  obtain ⟨d, hd, _, hdc, hcap⟩ := I₂.chunk hmem
  obtain rfl := I₂.holds.ptr_inj hd hc hdc
  have hlegal₁ : Kheap.Legal k₁.client (.write d.ptr 9) := ⟨d.ptr, hmem, le_rfl, by omega⟩
  obtain ⟨t, ht⟩ : ∃ t, Kheap.exec k₁.client (.write d.ptr 9) = .ok t := ⟨_, rfl⟩
  have hw₂ := Kheap.exec_within I₂ hlo₁ hhi₁ L.small hlegal₁ ht
  have hrun₂ : (Call.heap (.write d.ptr 9)).run k₁ = .ok (k₁.withClient t) := by rw [Call.run, ht]
  refine ⟨d.ptr, outWindow t.heap.mem, _, hptr, .cons hlegal hrun₁ (.cons hlegal₁ hrun₂ (.nil _)), ?_, fun x hx => ?_⟩
  · rw [hk₁]
    rfl
  · have h₁ := withClient_bytes (k := k) (c := ⟨h', [d.ptr]⟩) L rfl hlo hhi hw₁ (.inl hx)
    have h₂ := withClient_bytes (k := k₁) (c := t) L rfl hlo₁ hhi₁ hw₂ (.inl hx)
    rw [← hk₁] at h₁
    exact h₂.trans h₁

/-- A page is mapped at 4 MiB, and a byte of it written. -/
theorem page_byte {m bm : Mem} {s₀ : Machine} {k : State} (hboot : boot m bm smallMap = some s₀)
    (hsession : k.session = ⟨⟨s₀, []⟩, []⟩) : ∃ c e k', c.va = 0x400000 ∧
      Run Call.Fair Call.run k [.page (.call .alloc), .page (.call (.map c)), .page (.write 0x400005 e 7)] k' := by
  obtain ⟨n, s₁, s₂, cpu, _, A, _, hno, _, hwalk, hm, h₁, h₂⟩ := cachedSession_boot hboot
  have huse : cpu.Uses 0x400005 (n * 4096 ||| 0x3) := by
    rw [← hm] at hwalk
    exact .inr ⟨by decide, (walk_page _ _ 0x400005).symm.trans hwalk⟩
  have houtside : ¬ (KERNEL_BASE ≤ 0x400005 ∧ 0x400005 < KERNEL_END) := by decide
  generalize n * 4096 ||| 0x3 = e at huse
  obtain ⟨w, hw⟩ : ∃ w, Access.run ⟨cpu, []⟩ (.write 0x400005 e 7) = .ok w := ⟨_, rfl⟩
  have hrun₁ : (Call.page (.call .alloc)).run k = .ok { k with session := ⟨⟨s₁, []⟩, [n * 4096]⟩ } := by
    simp only [Call.run, Access.run, Op.cached, hsession, h₁]
  have hrun₂ : (Call.page (.call (.map ⟨s₁.pml4t, 0x400000, n * 4096, 0x3⟩))).run
      { k with session := ⟨⟨s₁, []⟩, [n * 4096]⟩ } = .ok { k with session := ⟨cpu, []⟩ } := by
    simp only [Call.run, Access.run, Op.cached, h₂]
  have hrun₃ : (Call.page (.write 0x400005 e 7)).run { k with session := ⟨cpu, []⟩ }
      = .ok { k with session := w } := by
    simp only [Call.run, hw]
  exact ⟨_, e, _, rfl, .cons ⟨trivial, trivial, trivial⟩ hrun₁ (.cons ⟨⟨A, walk_none_of_table hno⟩, trivial, trivial⟩
    hrun₂ (.cons ⟨houtside, huse⟩ hrun₃ (.nil _)))⟩

/-- The machine with 64 MiB: a block with a byte in it, then a page with one, and both are read. -/
theorem kernel_memory_small_machine : ∃ s₀ k₀ p c e k, boot (fun _ => 0) (fun _ => 0) smallMap = some s₀ ∧
    Run Call.Fair Call.run k₀ ([.heap (.kalloc 16), .heap (.write p 9)] ++
      [.page (.call .alloc), .page (.call (.map c)), .page (.write 0x400005 e 7)]) k ∧
    k.session.cpu.Reads p 9 ∧ k.session.cpu.Reads 0x400005 7 := by
  obtain ⟨s₀, hboot, _⟩ := boot_smallMap (fun _ => 0) fun _ => 0
  have hcount : smallMap.length < 2 ^ 16 := by decide
  have hpool : PoolHolds smallMap := by
    unfold PoolHolds
    decide
  obtain ⟨r, k₀, hr, hk₀, hall⟩ := kernel_memory hboot hcount smallMap_physical hpool
  obtain ⟨r', hr', hsound⟩ := regions_of_pool hcount smallMap_physical hpool
  rw [hr] at hr'
  obtain rfl := Option.some.inj hr'
  obtain ⟨b, hb, B, L⟩ := boot_placed hboot hcount hr hsound
  obtain ⟨h, hh, hrun₀, hbytes₀⟩ := heapInit_ran s₀ rfl rfl L
  obtain ⟨k₀', hk₀', K₀, _⟩ := heapInit_sound (boot_sound hboot) B rfl rfl L
  rw [hk₀] at hk₀' hrun₀
  obtain rfl := Except.ok.inj hk₀'
  have hk₀ := Except.ok.inj hrun₀
  obtain ⟨I, hstart, _⟩ := Kheap.init_inv L.toSpan hh
  obtain ⟨hclient, hin⟩ := client_withClient (k := ⟨⟨⟨s₀, []⟩, []⟩, 0, 0, 0, 0, []⟩) (c := ⟨h, []⟩) L hstart
  have I := I.inMem hin
  rw [← hclient, ← hk₀] at I
  obtain ⟨p, m, k₁, _, hrun₁, hsession, hbytes⟩ := heap_byte K₀ L hsound.heap I
  have hsession₀ : k₀.session = ⟨⟨{ s₀ with phys := outWindow h.mem }, []⟩, []⟩ := by
    rw [hk₀]
    rfl
  rw [hsession₀] at hsession hbytes
  have hboot' : boot m (fun _ => 0) smallMap = some { s₀ with phys := m } := boot_again hboot hcount fun x hx => by
    rw [← hb] at hx
    exact (hbytes x hx).trans (hbytes₀ x (.inl hx))
  obtain ⟨c, e, k, hva, hrun₂⟩ := page_byte hboot' hsession
  have hrun := hrun₁.append hrun₂
  obtain ⟨⟨_, hpages⟩, acts, hacts, _, hblocks⟩ := hall _ _ hrun
  refine ⟨s₀, k₀, p, c, e, k, hboot, hrun, ?_, hpages 0x400005 7 (by decide) ?_⟩
  · -- the answer to the write is a byte of a block
    obtain ⟨a₁, as₁, -, h₁, rfl⟩ := List.forall₂_cons_left_iff.mp hacts
    obtain ⟨a₂, as₂, hwrite, h₂, rfl⟩ := List.forall₂_cons_left_iff.mp h₁
    obtain ⟨a₃, as₃, halloc, h₃, rfl⟩ := List.forall₂_cons_left_iff.mp h₂
    obtain ⟨a₄, as₄, hmap, h₄, rfl⟩ := List.forall₂_cons_left_iff.mp h₃
    obtain ⟨a₅, as₅, hstore, h₅, rfl⟩ := List.forall₂_cons_left_iff.mp h₄
    obtain rfl := List.forall₂_nil_left_iff.mp h₅
    cases halloc
    cases hmap
    cases hstore
    clear hrun hrun₁ hrun₂ hsession hbytes
    cases hwrite with
    | heap hwrite =>
      cases hwrite with
      | write q i v =>
        refine hblocks q i 9 ?_
        simp [Objects.known, Objects.Act.learn]
  · simp [Objects.known, Call.act, Access.act, Objects.Act.learn, hva]

end TerraOS.Kernel
