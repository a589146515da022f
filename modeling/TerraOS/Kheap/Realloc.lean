import TerraOS.Kheap.Layout

/-! `krealloc` and the client's data.

    A call either hands back a block with the old contents, as far as they fit, and leaves every other
    block alone, or it returns `NULL` and leaves the heap as it was. `memcpy` counts in an `int`, so the
    statement is for heaps of at most `2^31` bytes; `kernel_main` builds one of four pages. -/

namespace TerraOS.Kheap
open Lib Lib.Word

/-- CORRECT: in every reachable state, for every live `p` and every `n ≤ heap.avail`, a call that does
    not read through `NULL` preserves the data or changes nothing. -/
theorem krealloc_preserves {m : Mem} {lo hi : ℕ} {h h' : Heap} {ops : List Op} {s : Client}
    {p n q : ℕ} (R : Span lo hi) (hsmall : hi - lo ≤ 2 ^ 31) (hinit : heapInit m lo hi = .ok h)
    (hrun : Run Legal exec ⟨h, []⟩ ops s) (hp : p ∈ s.live) (hn : n ≤ s.heap.avail)
    (hk : krealloc s.heap p n = .ok (q, h')) :
    ∃ cs c, Seg s.heap.mem s.heap.start cs 0 ∧ c ∈ cs ∧ c.inuse = true ∧ c.ptr = p ∧
      ((q = 0 ∧ h' = s.heap) ∨
       (q ≠ 0 ∧ ∃ cs' b, Seg h'.mem h'.start cs' 0 ∧ b ∈ cs' ∧ b.inuse = true ∧ b.ptr = q ∧
          n ≤ b.size ∧ (∀ i < min c.size n, h'.mem (q + i) = s.heap.mem (p + i)) ∧
          ∀ d ∈ cs, d.ptr ∈ s.live → d ≠ c → d ∈ cs' ∧ ∀ x, d.Owns x → h'.mem x = s.heap.mem x)) := by
  obtain ⟨cs, I, h1, h2⟩ := run_inv_small R (by omega) hinit hrun
  have hav : s.heap.avail = hi - lo := by rw [I.holds.avail_eq, h1, h2]
  obtain ⟨c, hc, hcu, rfl, _⟩ := I.chunk hp
  have hcb := I.holds.fits.bounds c hc
  rw [h1, h2] at hcb
  unfold Chunk.stop at hcb
  obtain ⟨pre, post, rfl⟩ := List.append_of_mem hc
  refine ⟨_, c, I.holds.seg, hc, hcu, rfl, ?_⟩
  have hw := noWrap_of_small (a := .krealloc c.ptr n) R (by omega) ⟨.inr hp, hn⟩ hav
  have hle := (le_align16 (n := n) (by omega)).1
  rcases krealloc_outcome I.holds hcu n (fun hg => by have := hw hg; omega) with
    ⟨hx, _⟩ | ⟨hx, _⟩ | ⟨_, h'', cs', b, hx, E, M⟩ <;> rw [hx] at hk
  · cases hk
  · obtain ⟨rfl, rfl⟩ := Prod.mk.inj (Except.ok.inj hk)
    exact .inl ⟨rfl, rfl⟩
  · obtain ⟨rfl, rfl⟩ := Prod.mk.inj (Except.ok.inj hk)
    refine .inr ⟨by unfold Chunk.ptr; omega, cs', b, E.holds.seg,
      (E.used b M.inuse).mpr (.inl (by simp)), M.inuse, rfl, le_trans hle M.large, fun i hi => ?_,
      fun d hd hdl hdc => ?_⟩
    · exact M.data i (by omega) (by omega)
    · obtain ⟨e, he, heu, hep⟩ := I.live _ hdl
      obtain rfl := I.holds.ptr_inj he hd hep
      exact ⟨(E.used e heu).mpr (.inr ⟨hd, by simpa using hdc⟩),
        E.bytes e hd heu (by simpa using hdc)⟩

/-- A block of 16 bytes with another behind it, moved to hold 100. -/
theorem krealloc_preserves_moved :
    ∃ s q h', after 0x30000 0x34000 [.kalloc 16, .kalloc 16, .write 0x30020 7] = some s ∧
      0x30020 ∈ s.live ∧ 100 ≤ s.heap.avail ∧ krealloc s.heap 0x30020 100 = .ok (q, h') ∧
      ∃ cs c, Seg s.heap.mem s.heap.start cs 0 ∧ c ∈ cs ∧ c.inuse = true ∧ c.ptr = 0x30020 ∧
      ((q = 0 ∧ h' = s.heap) ∨
       (q ≠ 0 ∧ ∃ cs' b, Seg h'.mem h'.start cs' 0 ∧ b ∈ cs' ∧ b.inuse = true ∧ b.ptr = q ∧
          100 ≤ b.size ∧ (∀ i < min c.size 100, h'.mem (q + i) = s.heap.mem (0x30020 + i)) ∧
          ∀ d ∈ cs, d.ptr ∈ s.live → d ≠ c → d ∈ cs' ∧ ∀ x, d.Owns x → h'.mem x = s.heap.mem x)) := by
  obtain ⟨s, hs, hp, hn, hk⟩ : ∃ s, after 0x30000 0x34000 [.kalloc 16, .kalloc 16,
      .write 0x30020 7] = some s ∧ 0x30020 ∈ s.live ∧ 100 ≤ s.heap.avail ∧
      (krealloc s.heap 0x30020 100).toBool = true := after_such _ (by decide)
  obtain ⟨h₀, hinit, hrun⟩ := after_run hs
  obtain ⟨q, h', hk'⟩ : ∃ q h', krealloc s.heap 0x30020 100 = .ok (q, h') := by
    generalize krealloc s.heap 0x30020 100 = r at hk
    cases r with
    | error e => cases hk
    | ok r => exact ⟨r.1, r.2, rfl⟩
  exact ⟨s, q, h', hs, hp, hn, hk', krealloc_preserves ⟨by decide, by decide, by decide, by decide⟩
    (by decide) hinit hrun hp hn hk'⟩

end TerraOS.Kheap
