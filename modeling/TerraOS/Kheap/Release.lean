import TerraOS.Kheap.Requests

/-! Giving a block back.

    `kfree` ignores a pointer that is not below `heap_end`. A block of no bytes at the very end of the
    region has such a pointer: an in-place extension that uses its successor up leaves a chunk of size 0
    there, and `kalloc(0)` hands it out. -/

namespace TerraOS.Kheap
open Lib Lib.Word

/-- The chunks in use. -/
def used (cs : List Chunk) : List Chunk := cs.filter Chunk.inuse

/-- The bytes of the chunks in use. -/
def usedSize (cs : List Chunk) : ℕ := ((used cs).map Chunk.size).sum

/-- Merging leaves the chunks in use as they are, in their order. -/
theorem used_coalesce (cs : List Chunk) : used (coalesce cs) = used cs := by
  induction cs using coalesce_induction with
  | nil => rfl
  | one c => rfl
  | merge c d cs hc hd ih =>
    rw [coalesce_free hc hd, ih]
    simp [used, hc, hd]
  | keep c d cs h ih =>
    rw [coalesce_keep h]
    simp only [used, List.filter_cons (x := c)] at ih ⊢
    rw [ih]

/-- The block at `p` can be given back: `kfree` accepts it, and then its chunk, and no other, is no
    longer in use. -/
def GivenBack (s : Client) (p : ℕ) : Prop :=
  s.heap.heapStart ≤ p ∧ p < s.heap.heapEnd ∧ ∃ h' cs cs', kfree s.heap p = .ok h' ∧
    Seg s.heap.mem s.heap.start cs 0 ∧ Seg h'.mem h'.start cs' 0 ∧
    (∀ c ∈ cs', c.ptr = p → c.inuse = false) ∧ usedSize cs' + capacity s.heap p = usedSize cs ∧
    (used cs').length + 1 = (used cs).length

/-- CORRECT: in every state reached by legal steps that wrap no size test, a live block can be given
    back if and only if it is not at `heap_end`. -/
theorem blocks_given_back {m : Mem} {lo hi : ℕ} {h : Heap} {ops : List Op} {s : Client} (R : Span lo hi)
    (hinit : heapInit m lo hi = .ok h)
    (hrun : Run (fun s op => Legal s op ∧ Steady s op) exec ⟨h, []⟩ ops s) {p : ℕ} (hp : p ∈ s.live) :
    GivenBack s p ↔ p ≠ s.heap.heapEnd := by
  obtain ⟨cs, I, _, _⟩ := run_inv R hinit (fun _ _ h => h.1.owned) (fun _ _ h _ => h.2) hrun
  obtain ⟨c, hc, hcu, rfl, hcap⟩ := I.chunk hp
  have hcb := I.holds.fits.bounds c hc
  have hcp : c.ptr = c.addr + 32 := rfl
  unfold Chunk.stop at hcb
  refine ⟨fun h => Nat.ne_of_lt h.2.1, fun hne => ⟨by omega, by omega, ?_⟩⟩
  obtain ⟨pre, post, rfl⟩ := List.append_of_mem hc
  obtain ⟨m', hf, H', _⟩ := kfree_spec I.holds hcu (by omega)
  refine ⟨_, _, _, hf, I.holds.seg, H'.seg, fun d hd hdp => ?_, ?_, ?_⟩
  · by_contra hdu
    rw [Bool.not_eq_false] at hdu
    rw [mem_coalesce_inuse _ d hdu] at hd
    have hside := not_mem_sides I.holds.fits
    have same {l : List Chunk} (hl : d ∈ l) (hsub : ∀ e ∈ l, e ∈ pre ++ c :: post) : c ∈ l :=
      I.holds.ptr_inj (hsub d hl) hc hdp ▸ hl
    rcases List.mem_append.mp hd with hd | hd
    · exact hside.1 (same hd fun e he => List.mem_append_left _ he)
    · rcases List.mem_cons.mp hd with rfl | hd
      · cases hdu
      · exact hside.2 (same hd fun e he => List.mem_append_right _ (List.mem_cons_of_mem _ he))
  · rw [usedSize, used_coalesce, usedSize, hcap]
    simp only [used, List.filter_append, List.filter_cons, hcu, if_true, Bool.false_eq_true, if_false,
      List.map_append, List.map_cons, List.sum_append, List.sum_cons]
    omega
  · rw [used_coalesce]
    simp only [used, List.filter_append, List.filter_cons, hcu, if_true, Bool.false_eq_true, if_false,
      List.length_append, List.length_cons]
    omega

/-- Four pages and two blocks, the first of no bytes. -/
theorem blocks_given_back_four_pages :
    ∃ s, after 0xFFFFFFFF80030000 0xFFFFFFFF80034000 [.kalloc 0, .kalloc 24] = some s ∧
      0xFFFFFFFF80030020 ∈ s.live ∧
      (GivenBack s 0xFFFFFFFF80030020 ↔ 0xFFFFFFFF80030020 ≠ s.heap.heapEnd) := by
  obtain ⟨s, hs, hp⟩ : ∃ s, after 0xFFFFFFFF80030000 0xFFFFFFFF80034000 [.kalloc 0, .kalloc 24] = some s ∧
      0xFFFFFFFF80030020 ∈ s.live := after_such _ (by decide)
  obtain ⟨h₀, hinit, hrun⟩ := after_run hs
  have R : Span 0xFFFFFFFF80030000 0xFFFFFFFF80034000 := ⟨by decide, by decide, by decide, by decide⟩
  exact ⟨s, hs, hp, blocks_given_back R hinit (steady_run R (by decide) hinit hrun) hp⟩

/-- Four pages: a block extended over all that is behind it but a header, and then a block of no
    bytes. -/
theorem block_at_the_end :
    ∃ s, after 0xFFFFFFFF80030000 0xFFFFFFFF80034000 [.kalloc 16, .krealloc 0xFFFFFFFF80030020 0x3FA0,
        .kalloc 0] = some s ∧
      0xFFFFFFFF80034000 ∈ s.live ∧ ¬ GivenBack s 0xFFFFFFFF80034000 := by
  obtain ⟨s, hs, hp, hend⟩ : ∃ s, after 0xFFFFFFFF80030000 0xFFFFFFFF80034000 [.kalloc 16,
      .krealloc 0xFFFFFFFF80030020 0x3FA0, .kalloc 0] = some s ∧ 0xFFFFFFFF80034000 ∈ s.live ∧
      s.heap.heapEnd = 0xFFFFFFFF80034000 := after_such _ (by decide)
  refine ⟨s, hs, hp, fun h => ?_⟩
  have := h.2.1
  rw [hend] at this
  exact Nat.lt_irrefl _ this

end TerraOS.Kheap
