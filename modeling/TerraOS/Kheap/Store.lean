import TerraOS.Kheap.Layout
import TerraOS.Lib.Objects

/-! The heap is a store.

    What a client sees of the heap is its blocks: byte strings under the pointers it holds. `kalloc`
    makes one, `kfree` drops one, `krealloc` moves one, a write changes a byte of one, and no call touches
    another. Headers, splits and merges do not show. `memcpy` counts in an `int`, so the heap has at
    most `2^31` bytes here; `kernel_main` builds one of four pages. -/

namespace TerraOS.Kheap
open Lib Lib.Word

/-- The client's blocks, with all the bytes their headers give them. -/
def blocks (s : Client) : Objects.Store ℕ := fun p =>
  if p ∈ s.live then some (s.heap.mem.bytes p (capacity s.heap p)) else none

/-- What a call may do to the blocks. -/
inductive Answer : Op → Objects.Act ℕ → Prop
  | noMemory (n : ℕ) : Answer (.kalloc n) .skip
  | kalloc (n q : ℕ) : Answer (.kalloc n) (.make q n)
  | kfree (p : ℕ) : Answer (.kfree p) (.drop p)
  | noMove (p n : ℕ) : Answer (.krealloc p n) .skip
  | fresh (n q : ℕ) : Answer (.krealloc 0 n) (.make q n)
  | krealloc (p n q : ℕ) : Answer (.krealloc p n) (.move p q n)
  | write (p i : ℕ) (b : UInt8) : Answer (.write (p + i) b) (.put p i b)

section
variable {s s' : Client} {cs cs' : List Chunk} {b c : Chunk} {h' : Heap} {tight : Prop}

theorem blocks_none {p : ℕ} (hp : p ∉ s.live) : blocks s p = none := if_neg hp

/-- A live block shows its payload. -/
theorem Inv.block (I : Inv s cs) (hc : c ∈ cs) (hl : c.ptr ∈ s.live) :
    blocks s c.ptr = some (s.heap.mem.bytes c.ptr c.size) := by
  obtain ⟨d, hd, _, hdc, hcap⟩ := I.chunk hl
  obtain rfl := I.holds.ptr_inj hd hc hdc
  rw [blocks, if_pos hl, hcap]

/-- A call spares the blocks it takes neither out nor in. -/
theorem Edit.blocks_eq (I : Inv s cs) {out inn : List Chunk} (E : Edit tight s.heap h' cs cs' out inn)
    {live : List ℕ} (I' : Inv ⟨h', live⟩ cs') {p : ℕ} (hiff : p ∈ live ↔ p ∈ s.live)
    (hout : ∀ c ∈ out, c.ptr ≠ p) : blocks ⟨h', live⟩ p = blocks s p := by
  by_cases hp : p ∈ s.live
  · obtain ⟨c, hc, hcu, rfl, _⟩ := I.chunk hp
    have hco : c ∉ out := fun h => hout c h rfl
    have hc' : c ∈ cs' := (E.used c hcu).mpr (.inr ⟨hc, hco⟩)
    rw [I.block hc hp, I'.block hc' (hiff.mpr hp)]
    refine congrArg some (Mem.bytes_congr fun i hi => E.bytes c hc hcu hco _ ?_)
    unfold Chunk.Owns Chunk.stop
    unfold Chunk.ptr
    omega
  · rw [blocks_none hp, blocks_none fun h => hp (hiff.mp h)]

/-- A block handed out is new, and shows at least the bytes asked for. -/
theorem Edit.makes (I : Inv s cs) (E : Edit tight s.heap h' cs cs' [] [b]) (I' : Inv ⟨h', b.ptr :: s.live⟩ cs')
    (hbu : b.inuse = true) (hbn : b ∉ cs) {n : ℕ} (hn : n ≤ b.size) :
    Objects.Step (blocks s) (.make b.ptr n) (blocks ⟨h', b.ptr :: s.live⟩) := by
  have hb : b ∈ cs' := (E.used b hbu).mpr (.inl List.mem_cons_self)
  have hupd : blocks ⟨h', b.ptr :: s.live⟩
      = Function.update (blocks s) b.ptr (some (h'.mem.bytes b.ptr b.size)) := by
    funext p
    by_cases hp : p = b.ptr
    · rw [hp, Function.update_self]
      exact I'.block hb List.mem_cons_self
    · rw [Function.update_of_ne hp]
      exact E.blocks_eq I I' (by simp [hp]) (by simp)
  rw [hupd]
  refine .make (blocks_none fun hl => ?_) (by rw [Mem.length_bytes]; exact hn)
  exact E.not_live I hbu (fun d hd _ _ h => hbn (h ▸ hd)) hl (by simp) rfl

theorem Edit.drops (I : Inv s cs) (E : Edit tight s.heap h' cs cs' [c] [])
    (I' : Inv ⟨h', s.live.erase c.ptr⟩ cs') :
    Objects.Step (blocks s) (.drop c.ptr) (blocks ⟨h', s.live.erase c.ptr⟩) := by
  have hupd : blocks ⟨h', s.live.erase c.ptr⟩ = Function.update (blocks s) c.ptr none := by
    funext p
    by_cases hp : p = c.ptr
    · rw [hp, Function.update_self]
      exact blocks_none I.nodup.not_mem_erase
    · rw [Function.update_of_ne hp]
      refine E.blocks_eq I I' (List.mem_erase_of_ne hp) fun d hd => ?_
      rw [List.mem_singleton.mp hd]
      exact Ne.symm hp
  rw [hupd]
  exact .drop

/-- A block moved keeps the bytes asked for, as far as it had them. -/
theorem Edit.moves (I : Inv s cs) (E : Edit tight s.heap h' cs cs' [c] [b]) (hc : c ∈ cs) (hl : c.ptr ∈ s.live)
    {r n : ℕ} (M : Moved s.heap h' cs c b r) (hr : n ≤ r) (hsize : c.size < 2 ^ 31)
    (I' : Inv ⟨h', b.ptr :: s.live.erase c.ptr⟩ cs') :
    Objects.Step (blocks s) (.move c.ptr b.ptr n) (blocks ⟨h', b.ptr :: s.live.erase c.ptr⟩) := by
  have hb : b ∈ cs' := (E.used b M.inuse).mpr (.inl List.mem_cons_self)
  have hupd : blocks ⟨h', b.ptr :: s.live.erase c.ptr⟩
      = Function.update (Function.update (blocks s) c.ptr none) b.ptr (some (h'.mem.bytes b.ptr b.size)) := by
    funext p
    by_cases hpb : p = b.ptr
    · rw [hpb, Function.update_self]
      exact I'.block hb List.mem_cons_self
    · rw [Function.update_of_ne hpb]
      by_cases hpc : p = c.ptr
      · rw [hpc, Function.update_self]
        rw [hpc] at hpb
        exact blocks_none fun h => I.nodup.not_mem_erase ((List.mem_cons.mp h).resolve_left hpb)
      · rw [Function.update_of_ne hpc]
        refine E.blocks_eq I I' ?_ fun d hd => ?_
        · rw [List.mem_cons, List.mem_erase_of_ne hpc, or_iff_right hpb]
        · rw [List.mem_singleton.mp hd]
          exact Ne.symm hpc
  rw [hupd]
  refine .move (I.block hc hl) (fun hne => blocks_none fun hbl => ?_) ?_ ?_
  · refine E.not_live I M.inuse (fun d hd _ hdc h => ?_) hbl (fun d hd => ?_) rfl
    · exact hdc (by rw [h, M.fresh (h ▸ hd)]; simp)
    · rw [List.mem_singleton.mp hd]
      exact Ne.symm hne
  · rw [Mem.length_bytes]
    exact hr.trans M.large
  · rw [List.prefix_iff_eq_take, List.length_take, Mem.length_bytes]
    rw [Mem.take_bytes _ _ (show min n c.size ≤ b.size from (Nat.min_le_left _ _).trans (hr.trans M.large))]
    rcases Nat.le_total n c.size with hnc | hnc
    · rw [Mem.take_bytes _ _ hnc, Nat.min_eq_left hnc]
      exact (Mem.bytes_congr fun i hi => M.data i (by omega) (by omega)).symm
    · rw [List.take_of_length_le (by rw [Mem.length_bytes]; exact hnc), Nat.min_eq_right hnc]
      exact (Mem.bytes_congr fun i hi => M.data i (by omega) (by omega)).symm

/-- A write changes one byte of one block. -/
theorem Inv.writes (I : Inv s cs) {v : UInt8} {i : ℕ} (hc : c ∈ cs) (hl : c.ptr ∈ s.live)
    (hi : i < c.size) : Objects.Step (blocks s) (.put c.ptr i v)
      (blocks ⟨{ s.heap with mem := s.heap.mem.store8 (c.ptr + i) v }, s.live⟩) := by
  have hout : ∀ x, ¬ c.Owns x → s.heap.mem.store8 (c.ptr + i) v x = s.heap.mem x := by
    intro x hx
    refine Mem.store8_out ?_
    rintro rfl
    refine hx ⟨by omega, ?_⟩
    unfold Chunk.stop Chunk.ptr
    omega
  have I' : Inv ⟨{ s.heap with mem := s.heap.mem.store8 (c.ptr + i) v }, s.live⟩ cs :=
    ⟨I.holds.of_payload hc hout, I.live, I.nodup, I.merged⟩
  have hupd : blocks ⟨{ s.heap with mem := s.heap.mem.store8 (c.ptr + i) v }, s.live⟩
      = Function.update (blocks s) c.ptr (some ((s.heap.mem.bytes c.ptr c.size).set i v)) := by
    funext p
    by_cases hp : p = c.ptr
    · rw [hp, Function.update_self, I'.block hc hl]
      exact congrArg some (Mem.bytes_store8 _ _ v hi)
    · rw [Function.update_of_ne hp]
      by_cases hpl : p ∈ s.live
      · obtain ⟨d, hd, _, rfl, _⟩ := I.chunk hpl
        rw [I.block hd hpl, I'.block hd hpl]
        refine congrArg some (Mem.bytes_congr fun j hj => hout _ ?_)
        have hdc : d ≠ c := fun h => hp (by rw [h])
        have hap := (I.holds.fits.apart d hd c hc).resolve_left hdc
        unfold Chunk.Owns
        unfold Chunk.stop Chunk.ptr at *
        omega
      · rw [blocks_none hpl]
        exact blocks_none hpl
  rw [hupd]
  exact .put v (I.block hc hl) (by rw [Mem.length_bytes]; exact hi)

end

/-! ### Call by call -/

section
variable {s s' : Client} {cs : List Chunk} {n p : ℕ}

theorem Inv.kalloc_step (I : Inv s cs) (hn : n ≤ align16 n) (h : exec s (.kalloc n) = .ok s') :
    ∃ cs' a, Effect s cs (.kalloc n) s' cs' ∧ Answer (.kalloc n) a ∧ Objects.Step (blocks s) a (blocks s') := by
  rcases kalloc_edit I.holds n with ⟨hk, _⟩ | ⟨_, h', cs', b, hk, E, hbu, hbs, hbn⟩
  · simp only [exec, hk, ok_bind, pure_ok, if_pos] at h
    obtain rfl := Except.ok.inj h
    exact ⟨cs, .skip, .refused _, .noMemory n, .skip _⟩
  · have hb : b.ptr ≠ 0 := by unfold Chunk.ptr; omega
    simp only [exec, hk, ok_bind, pure_ok, if_neg hb] at h
    obtain rfl := Except.ok.inj h
    have e : Effect s cs (.kalloc n) ⟨h', b.ptr :: s.live⟩ cs' := .allocated _ E hbu hbn
    exact ⟨cs', _, e, .kalloc n b.ptr, E.makes I (e.inv I) hbu hbn (hn.trans hbs)⟩

theorem Inv.kfree_step (I : Inv s cs) (hl : p ∈ s.live) (h : exec s (.kfree p) = .ok s') :
    ∃ cs' a, Effect s cs (.kfree p) s' cs' ∧ Answer (.kfree p) a ∧ Objects.Step (blocks s) a (blocks s') := by
  obtain ⟨c, hc, hcu, rfl, _⟩ := I.chunk hl
  by_cases hp : s.heap.heapEnd ≤ c.ptr
  · simp only [exec, kfree_end hp, ok_bind, pure_ok] at h
    obtain rfl := Except.ok.inj h
    -- the chunk stays in use, but the client has let go of it
    have hupd : blocks ⟨s.heap, s.live.erase c.ptr⟩ = Function.update (blocks s) c.ptr none := by
      funext q
      by_cases hq : q = c.ptr
      · rw [hq, Function.update_self]
        exact blocks_none I.nodup.not_mem_erase
      · rw [Function.update_of_ne hq]
        simp only [blocks, List.mem_erase_of_ne hq]
    exact ⟨cs, _, .kept _ hp hl, .kfree c.ptr, by rw [hupd]; exact .drop⟩
  · obtain ⟨h', cs', hk, E⟩ := kfree_edit I.holds hc hcu (by omega)
    simp only [exec, hk, ok_bind, pure_ok] at h
    obtain rfl := Except.ok.inj h
    have e : Effect s cs (.kfree c.ptr) ⟨h', s.live.erase c.ptr⟩ cs' := .freed hc hcu hl E
    exact ⟨cs', _, e, .kfree c.ptr, E.drops I (e.inv I)⟩

/-- `krealloc` of no block is `kalloc`. -/
theorem Inv.krealloc_null_step (I : Inv s cs) (hn : n ≤ align16 n) (h : exec s (.krealloc 0 n) = .ok s') :
    ∃ cs' a, Effect s cs (.krealloc 0 n) s' cs' ∧ Answer (.krealloc 0 n) a ∧
      Objects.Step (blocks s) a (blocks s') := by
  have hkr : krealloc s.heap 0 n = kalloc s.heap (align16 n) := by simp [krealloc]
  have h0 : 0 ∉ s.live := fun h => by
    obtain ⟨c, _, _, hc⟩ := I.live 0 h
    unfold Chunk.ptr at hc
    omega
  rcases kalloc_edit I.holds (align16 n) with ⟨hk, _⟩ | ⟨_, h', cs', b, hk, E, hbu, hbs, hbn⟩
  · simp only [exec, hkr, hk, ok_bind, pure_ok, if_pos] at h
    obtain rfl := Except.ok.inj h
    exact ⟨cs, .skip, .refused _, .noMove 0 n, .skip _⟩
  · have hb : b.ptr ≠ 0 := by unfold Chunk.ptr; omega
    simp only [exec, hkr, hk, ok_bind, pure_ok, if_neg hb, List.erase_of_not_mem h0] at h
    obtain rfl := Except.ok.inj h
    have e : Effect s cs (.krealloc 0 n) ⟨h', b.ptr :: s.live⟩ cs' := .allocated _ E hbu hbn
    rw [align16_align16] at hbs
    exact ⟨cs', _, e, .fresh n b.ptr, E.makes I (e.inv I) hbu hbn (hn.trans hbs)⟩

theorem Inv.krealloc_step (I : Inv s cs) (hp : p ∈ s.live) (hn : n ≤ align16 n) (hsize : ∀ c ∈ cs, c.size < 2 ^ 31)
    (hw : NoWrap s (.krealloc p n)) (h : exec s (.krealloc p n) = .ok s') :
    ∃ cs' a, Effect s cs (.krealloc p n) s' cs' ∧ Answer (.krealloc p n) a ∧
      Objects.Step (blocks s) a (blocks s') := by
  obtain ⟨c, hc, hcu, rfl, hcap⟩ := I.chunk hp
  obtain ⟨pre, post, rfl⟩ := List.append_of_mem hc
  rcases krealloc_outcome I.holds hcu n (fun hg => hcap ▸ hw.steady hp hg) with
    ⟨hk, _⟩ | ⟨hk, _⟩ | ⟨_, h', cs', b, hk, E, M⟩
  · simp only [exec, hk, error_bind] at h
    cases h
  · simp only [exec, hk, ok_bind, pure_ok, if_pos] at h
    obtain rfl := Except.ok.inj h
    exact ⟨_, .skip, .refused _, .noMove _ n, .skip _⟩
  · have hb : b.ptr ≠ 0 := by unfold Chunk.ptr; omega
    simp only [exec, hk, ok_bind, pure_ok, if_neg hb] at h
    obtain rfl := Except.ok.inj h
    have e : Effect s (pre ++ c :: post) (.krealloc c.ptr n) ⟨h', b.ptr :: s.live.erase c.ptr⟩ cs' :=
      .moved hc hcu hp E M
    exact ⟨cs', _, e, .krealloc c.ptr n b.ptr, E.moves I hc hp M hn (hsize c hc) (e.inv I)⟩

theorem Inv.write_step {a : ℕ} {v : UInt8} (I : Inv s cs) (hl : Legal s (.write a v))
    (h : exec s (.write a v) = .ok s') :
    ∃ cs' act, Effect s cs (.write a v) s' cs' ∧ Answer (.write a v) act ∧
      Objects.Step (blocks s) act (blocks s') := by
  obtain ⟨p, hp, ha, hlt⟩ := hl
  obtain ⟨c, hc, hcu, rfl, hcap⟩ := I.chunk hp
  obtain ⟨i, rfl⟩ := Nat.exists_eq_add_of_le ha
  simp only [exec, pure_ok] at h
  obtain rfl := Except.ok.inj h
  have hi : i < c.size := by omega
  refine ⟨cs, _, .wrote (I.holds.of_payload hc fun x hx => Mem.store8_out ?_) rfl rfl, .write c.ptr i v,
    I.writes hc hp hi⟩
  rintro rfl
  exact hx ⟨ha, by unfold Chunk.stop Chunk.ptr; omega⟩

end

/-- What one step does to the blocks, in a heap of at most `2^31` bytes. -/
theorem blocks_step {s s' : Client} {cs : List Chunk} {op : Op} {lo hi : ℕ} (R : Span lo hi) (I : Inv s cs)
    (h1 : s.heap.heapStart = lo) (h2 : s.heap.heapEnd = hi) (hsmall : hi - lo ≤ 2 ^ 31) (hl : Legal s op)
    (h : exec s op = .ok s') :
    (∃ cs', Inv s' cs' ∧ s'.heap.heapStart = lo ∧ s'.heap.heapEnd = hi) ∧
      ∃ a, Answer op a ∧ Objects.Step (blocks s) a (blocks s') := by
  have hav : s.heap.avail = hi - lo := by rw [I.holds.avail_eq, h1, h2]
  have hsize : ∀ c ∈ cs, c.size < 2 ^ 31 := fun c hc => by
    have hcb := I.holds.fits.bounds c hc
    unfold Chunk.stop at hcb
    omega
  have hle : ∀ n, n ≤ s.heap.avail → n ≤ align16 n := fun n hn => (le_align16 (by omega)).1
  obtain ⟨cs', a, e, ha, hst⟩ : ∃ cs' a, Effect s cs op s' cs' ∧ Answer op a ∧
      Objects.Step (blocks s) a (blocks s') := by
    cases op with
    | kalloc n => exact I.kalloc_step (hle n hl) h
    | kfree p => exact I.kfree_step hl h
    | krealloc p n =>
      obtain ⟨rfl | hp, hn⟩ := hl
      · exact I.krealloc_null_step (hle n hn) h
      · exact I.krealloc_step hp (hle n hn) hsize (noWrap_of_small R (by omega) ⟨.inr hp, hn⟩ hav) h
    | write a v => exact I.write_step hl h
  exact ⟨⟨cs', e.inv I, e.region.1.trans h1, e.region.2.trans h2⟩, a, ha, hst⟩

/-- CORRECT: from `heap_init` on, every run of legal calls and writes that returns is a run of a store of
    blocks, one action for each call. A byte the client wrote is in its block until the block is given
    up, through every other call, and through `krealloc` as far as the new size goes. -/
theorem heap_is_store {m : Mem} {lo hi : ℕ} {h : Heap} {ops : List Op} {s : Client} (R : Span lo hi)
    (hsmall : hi - lo ≤ 2 ^ 31) (hinit : heapInit m lo hi = .ok h) (hrun : Run Legal exec ⟨h, []⟩ ops s) :
    ∃ as, List.Forall₂ Answer ops as ∧ Trace Objects.Step (fun _ => none) as (blocks s) ∧
      ∀ p i b, Objects.known as p i = some b →
        p ∈ s.live ∧ i < capacity s.heap p ∧ s.heap.mem (p + i) = b := by
  obtain ⟨_, as, has, htrace⟩ := hrun.trace
    (I := fun s => ∃ cs, Inv s cs ∧ s.heap.heapStart = lo ∧ s.heap.heapEnd = hi) (M := Answer) blocks
    ⟨_, init_inv R hinit⟩ fun t a u hI hok hst => by
      obtain ⟨cs, I, h1, h2⟩ := hI
      exact blocks_step R I h1 h2 hsmall hok hst
  refine ⟨as, has, htrace, fun p i b hb => ?_⟩
  obtain ⟨o, ho, hob⟩ := Objects.trace_agrees htrace p i b hb
  unfold blocks at ho
  split at ho
  · rename_i hp
    obtain rfl := Option.some.inj ho
    have hi := (List.getElem?_eq_some_iff.mp hob).1
    rw [Mem.length_bytes] at hi
    rw [Mem.getElem?_bytes _ _ hi] at hob
    exact ⟨hp, hi, Option.some.inj hob⟩
  · cases ho

/-- A block written, moved to hold 300 bytes and still there. -/
theorem heap_is_store_four_pages : ∃ s as, after 0x30000 0x34000 [.kalloc 16, .kalloc 16, .write 0x30021 7,
      .krealloc 0x30020 300] = some s ∧ List.Forall₂ Answer [.kalloc 16, .kalloc 16, .write 0x30021 7,
      .krealloc 0x30020 300] as ∧ Trace Objects.Step (fun _ => none) as (blocks s) ∧
      ∀ p i b, Objects.known as p i = some b →
        p ∈ s.live ∧ i < capacity s.heap p ∧ s.heap.mem (p + i) = b := by
  obtain ⟨s, hs⟩ := Option.isSome_iff_exists.mp (show (after 0x30000 0x34000 [.kalloc 16, .kalloc 16,
    .write 0x30021 7, .krealloc 0x30020 300]).isSome = true by decide)
  obtain ⟨h₀, hinit, hrun⟩ := after_run hs
  obtain ⟨as, has⟩ := heap_is_store ⟨by decide, by decide, by decide, by decide⟩ (by decide) hinit hrun
  exact ⟨s, as, hs, has⟩

end TerraOS.Kheap
