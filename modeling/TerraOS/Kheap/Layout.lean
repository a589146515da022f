import TerraOS.Kheap.Client

/-! The heap's layout over whole runs.

    From `heap_init` on, after any legal sequence of calls, the chunk list is finite, sorted and clear of
    overlaps, and what the client holds are payloads that meet neither each other nor a header. One
    region is too large for this: in `[16, 2^64 - 16)` the size test of `extendChunkInPlace` can wrap to
    zero. -/

namespace TerraOS.Kheap
open Lib Lib.Word

/-- The layout of a state, with `cs` the chunks that following `next` from `heap.start` passes. -/
structure Layout (s : Client) (cs : List Chunk) : Prop where
  walk : Seg s.heap.mem s.heap.start cs 0
  increasing : cs.Pairwise fun c d => c.addr < d.addr
  aligned : ∀ c ∈ cs, c.addr % 16 = 0
  clear : cs.IsChain fun c d => c.addr + 32 + c.size ≤ d.addr
  last : ∀ c ∈ cs.getLast?, c.addr + 32 + c.size ≤ s.heap.heapEnd
  live : ∀ p ∈ s.live, ∃ c ∈ cs, c.inuse = true ∧ c.addr + 32 = p
  nodup : s.live.Nodup
  disjoint : ∀ c ∈ cs, ∀ d ∈ cs, c.ptr ∈ s.live → d.ptr ∈ s.live → c ≠ d →
    ∀ x, ¬ (c.Owns x ∧ d.Owns x)
  headers : ∀ c ∈ cs, c.ptr ∈ s.live → ∀ d ∈ cs, ∀ x, c.Owns x → ¬ (d.addr ≤ x ∧ x < d.addr + 32)

theorem Inv.layout {s : Client} {cs : List Chunk} (I : Inv s cs) : Layout s cs where
  walk := I.holds.seg
  increasing := I.holds.fits.sorted.imp fun h => by unfold Chunk.stop at h; omega
  aligned c hc := (I.holds.fits.bounds c hc).2.2.1
  clear := I.holds.fits.sorted.isChain
  last c hc := (I.holds.fits.bounds c (List.mem_of_mem_getLast? hc)).2.1
  live := I.live
  nodup := I.nodup
  disjoint c hc d hd _ _ hne x := by
    rintro ⟨hx, hy⟩
    have := (I.holds.fits.apart c hc d hd).resolve_left hne
    unfold Chunk.Owns Chunk.ptr at hx hy
    omega
  headers c hc _ d hd x := by
    rintro hx ⟨h1, h2⟩
    unfold Chunk.Owns Chunk.ptr at hx
    rcases I.holds.fits.apart c hc d hd with rfl | h | h
    · omega
    · omega
    · unfold Chunk.stop at h; omega

/-- CORRECT: in every region of at most `2^64 - 48` bytes, every state reached from `heap_init` by
    legal calls is laid out, and no further legal call runs forever. -/
theorem heap_layout {m : Mem} {lo hi : ℕ} {h : Heap} {ops : List Op} {s : Client} (R : Span lo hi)
    (hsmall : hi - lo ≤ 2 ^ 64 - 48) (hinit : heapInit m lo hi = .ok h)
    (hrun : Run Legal exec ⟨h, []⟩ ops s) :
    (∃ cs, Layout s cs) ∧ ∀ op, Legal s op → exec s op ≠ .error .diverge := by
  obtain ⟨cs, I, h1, h2⟩ := run_inv_small R hsmall hinit hrun
  refine ⟨⟨cs, I.layout⟩, fun op hl hd => ?_⟩
  have hav : s.heap.avail = hi - lo := by rw [I.holds.avail_eq, h1, h2]
  rcases exec_effect I hl.owned (noWrap_of_small R hsmall hl hav).steady with hn | ⟨_, _, hn, _⟩ <;>
    rw [hn] at hd <;> cases hd

/-- Memory that reads zero everywhere. -/
def zeroMem : Mem := fun _ => 0

/-- A client on a heap in zeroed memory, after the calls `ops`. -/
def after (lo hi : ℕ) (ops : List Op) : Option Client :=
  match heapInit zeroMem lo hi with
  | .ok h => Run.perform Legal exec ⟨h, []⟩ ops
  | .error _ => none

theorem after_run {lo hi : ℕ} {ops : List Op} {s : Client} (h : after lo hi ops = some s) :
    ∃ h₀, heapInit zeroMem lo hi = .ok h₀ ∧ Run Legal exec ⟨h₀, []⟩ ops s := by
  unfold after at h
  split at h
  · rename_i h₀ heq
    exact ⟨h₀, heq, Run.of_perform h⟩
  · cases h

/-- A decidable fact about the state a closed run ends in. -/
theorem after_such {lo hi : ℕ} {ops : List Op} (P : Client → Prop) [DecidablePred P]
    (h : (after lo hi ops).any (fun s => decide (P s)) = true) :
    ∃ s, after lo hi ops = some s ∧ P s := by
  cases hs : after lo hi ops with
  | none => rw [hs] at h; cases h
  | some s => rw [hs] at h; exact ⟨s, rfl, of_decide_eq_true h⟩

/-- Four pages, as `kernel_main` passes them: allocate, allocate, grow in place, free, reallocate. -/
theorem heap_layout_four_pages :
    ∃ s, after 0xFFFFFFFF80030000 0xFFFFFFFF80034000 [.kalloc 24, .kalloc 100,
      .krealloc 0xFFFFFFFF80030060 300, .kfree 0xFFFFFFFF80030020, .krealloc 0 8] = some s ∧
      (∃ cs, Layout s cs) ∧ ∀ op, Legal s op → exec s op ≠ .error .diverge := by
  obtain ⟨s, hs⟩ := Option.isSome_iff_exists.mp (show (after 0xFFFFFFFF80030000 0xFFFFFFFF80034000
    [.kalloc 24, .kalloc 100, .krealloc 0xFFFFFFFF80030060 300, .kfree 0xFFFFFFFF80030020,
      .krealloc 0 8]).isSome = true by decide)
  obtain ⟨h₀, hinit, hrun⟩ := after_run hs
  exact ⟨s, hs, heap_layout ⟨by decide, by decide, by decide, by decide⟩ (by decide) hinit hrun⟩

/-- In the region `[16, 2^64 - 16)` an empty block that asks for the whole heap wraps the size test of
    `extendChunkInPlace`; the block then claims `2^64 - 32` bytes with its successor 32 bytes on. -/
theorem heap_layout_wraps :
    ∃ s, after 16 (2 ^ 64 - 16) [.kalloc 0, .krealloc 48 (2 ^ 64 - 32)] = some s ∧
      ¬ ∃ cs, Layout s cs := by
  obtain ⟨s, hs, hv⟩ : ∃ s, after 16 (2 ^ 64 - 16) [.kalloc 0, .krealloc 48 (2 ^ 64 - 32)] = some s ∧
      s.heap.start = 16 ∧ header s.heap.mem 16 = ⟨2 ^ 64 - 32, true, 48⟩ :=
    after_such _ (by decide)
  refine ⟨s, hs, ?_⟩
  rintro ⟨cs, L⟩
  have hw := L.walk
  rw [hv.1] at hw
  match cs, hw, L.clear with
  | [], hw, _ => simp [Seg] at hw
  | [c], ⟨_, _, _, _, hn⟩, _ => simp [Seg, hv.2] at hn
  | c :: d :: cs, ⟨_, hc, hsz, _, _, hd, _⟩, hcl =>
    have := (List.isChain_cons_cons.mp hcl).1
    rw [hv.2] at hsz hd
    simp only at hsz hd
    omega

end TerraOS.Kheap
