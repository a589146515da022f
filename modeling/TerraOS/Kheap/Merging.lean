import TerraOS.Kheap.Layout

/-! Free chunks over whole runs.

    The list between calls is always merged, so `kfree` may be read as: clear one flag, then bring the
    list to its merged form. Clearing further flags before or after a merge comes to the same
    (`coalesce_mark`); the list that any number of frees leaves is the merged form of the list with all
    their flags cleared, in whatever order they came. -/

namespace TerraOS.Kheap
open Lib Lib.Word

/-- CORRECT: in every region of at most `2^64 - 48` bytes, in every state reached from `heap_init` by
    legal calls no two neighbours of the chunk list are both free, and every size is a multiple of 16. -/
theorem heap_merged {m : Mem} {lo hi : ℕ} {h : Heap} {ops : List Op} {s : Client} (R : Span lo hi)
    (hsmall : hi - lo ≤ 2 ^ 64 - 48) (hinit : heapInit m lo hi = .ok h)
    (hrun : Run Legal exec ⟨h, []⟩ ops s) :
    ∃ cs, Seg s.heap.mem s.heap.start cs 0 ∧ (cs.IsChain fun c d => c.inuse = true ∨ d.inuse = true) ∧
      ∀ c ∈ cs, c.size % 16 = 0 := by
  obtain ⟨cs, I, _, _⟩ := run_inv_small R hsmall hinit hrun
  exact ⟨cs, I.holds.seg, I.merged, fun c hc => (I.holds.fits.bounds c hc).2.2.2⟩

/-- Four pages: of two blocks the first is shrunk, the second grown in place, and the first freed. -/
theorem heap_merged_four_pages :
    ∃ s, after 0xFFFFFFFF80030000 0xFFFFFFFF80034000 [.kalloc 100, .kalloc 24,
      .krealloc 0xFFFFFFFF80030020 16, .krealloc 0xFFFFFFFF800300B0 60, .kfree 0xFFFFFFFF80030020] = some s ∧
      ∃ cs, Seg s.heap.mem s.heap.start cs 0 ∧
        (cs.IsChain fun c d => c.inuse = true ∨ d.inuse = true) ∧ ∀ c ∈ cs, c.size % 16 = 0 := by
  obtain ⟨s, hs⟩ := Option.isSome_iff_exists.mp (show (after 0xFFFFFFFF80030000 0xFFFFFFFF80034000
    [.kalloc 100, .kalloc 24, .krealloc 0xFFFFFFFF80030020 16, .krealloc 0xFFFFFFFF800300B0 60,
      .kfree 0xFFFFFFFF80030020]).isSome = true by decide)
  obtain ⟨h₀, hinit, hrun⟩ := after_run hs
  exact ⟨s, hs, heap_merged ⟨by decide, by decide, by decide, by decide⟩ (by decide) hinit hrun⟩

/-! ### The region that is too large -/

/-- Zeroed memory but for what reads as a header in use, of size 5, near the top of the address space. -/
def littered : Mem := (zeroMem.store64 (2 ^ 64 - 80) 5).store8 (2 ^ 64 - 72) 1

/-- A block extended over the whole address space and shrunk again, with another behind it: the header
    of what is left over lies across the header of the other block. -/
def overlapping : List Op := [.kalloc 0, .krealloc 48 (2 ^ 64 - 32), .kalloc 16, .krealloc 48 16]

/-- A decidable fact about the state that a closed run on littered memory ends in. -/
theorem littered_such (ops : List Op) (P : Client → Prop) [DecidablePred P]
    (h : (match heapInit littered 16 (2 ^ 64 - 16) with
      | .ok h => (Run.perform Legal exec ⟨h, []⟩ ops).any fun s => decide (P s)
      | .error _ => false) = true) :
    ∃ h₀ s, heapInit littered 16 (2 ^ 64 - 16) = .ok h₀ ∧ Run Legal exec ⟨h₀, []⟩ ops s ∧ P s := by
  split at h
  · rename_i h₀ heq
    cases hs : Run.perform Legal exec ⟨h₀, []⟩ ops with
    | none => rw [hs] at h; cases h
    | some s => rw [hs] at h; exact ⟨h₀, s, heq, Run.of_perform hs, of_decide_eq_true h⟩
  · cases h

/-- A list that reaches a chunk shows its header and goes on. -/
theorem Seg.next {m : Mem} {a : ℕ} {cs : List Chunk} (h : Seg m a cs 0) (ha : a ≠ 0) :
    ∃ c cs', cs = c :: cs' ∧ c.size = (header m a).size ∧ Seg m (header m a).next cs' 0 := by
  match cs, h with
  | [], h => exact absurd h ha
  | c :: cs', ⟨_, _, hs, _, hn⟩ => exact ⟨c, cs', rfl, hs.symm, hn⟩

/-- There the list runs on into memory that was never a chunk, with a size of 5. -/
theorem heap_merged_overlaps : ∃ h₀ s, heapInit littered 16 (2 ^ 64 - 16) = .ok h₀ ∧
    Run Legal exec ⟨h₀, []⟩ overlapping s ∧
    ¬ ∃ cs, Seg s.heap.mem s.heap.start cs 0 ∧
      (cs.IsChain fun c d => c.inuse = true ∨ d.inuse = true) ∧ ∀ c ∈ cs, c.size % 16 = 0 := by
  obtain ⟨h₀, s, hinit, hrun, hstart, e₁, e₂, e₃, e₄⟩ := littered_such overlapping
    (fun s => s.heap.start = 16 ∧ header s.heap.mem 16 = ⟨16, true, 64⟩ ∧
      header s.heap.mem 64 = ⟨2 ^ 64 - 80, false, 48⟩ ∧ header s.heap.mem 48 = ⟨16, true, 2 ^ 64 - 80⟩ ∧
      header s.heap.mem (2 ^ 64 - 80) = ⟨5, true, 0⟩) (by decide)
  refine ⟨h₀, s, hinit, hrun, ?_⟩
  rintro ⟨cs, hw, _, hsize⟩
  rw [hstart] at hw
  obtain ⟨c₁, cs₁, rfl, _, hw⟩ := hw.next (by decide)
  rw [e₁] at hw
  obtain ⟨c₂, cs₂, rfl, _, hw⟩ := hw.next (by decide)
  rw [e₂] at hw
  obtain ⟨c₃, cs₃, rfl, _, hw⟩ := hw.next (by decide)
  rw [e₃] at hw
  obtain ⟨c₄, cs₄, rfl, h₄, _⟩ := hw.next (by decide)
  rw [e₄] at h₄
  have := hsize c₄ (by simp)
  rw [h₄] at this
  cases this

/-! ### Clearing flags -/

/-- The list with the flags of the chunks at `P` cleared. -/
def mark (P : ℕ → Prop) [DecidablePred P] (cs : List Chunk) : List Chunk :=
  cs.map fun c => if P c.addr then { c with inuse := false } else c

section
variable (P : ℕ → Prop) [DecidablePred P]

theorem mark_free {c : Chunk} (h : c.inuse = false) (cs : List Chunk) : mark P (c :: cs) = c :: mark P cs := by
  obtain ⟨a, n, u⟩ := c
  simp only at h
  simp only [mark, List.map_cons, h, ite_self]

theorem mark_cons (c : Chunk) (cs : List Chunk) :
    mark P (c :: cs) = (if P c.addr then { c with inuse := false } else c) :: mark P cs := rfl

theorem mark_mark (Q : ℕ → Prop) [DecidablePred Q] (cs : List Chunk) :
    mark Q (mark P cs) = mark (fun a => P a ∨ Q a) cs := by
  rw [mark, mark, mark, List.map_map]
  refine List.map_congr_left fun c _ => ?_
  by_cases hp : P c.addr <;> by_cases hq : Q c.addr <;> simp [hp, hq]

theorem mark_congr {P Q : ℕ → Prop} [DecidablePred P] [DecidablePred Q] {cs : List Chunk}
    (h : ∀ c ∈ cs, P c.addr ↔ Q c.addr) : mark P cs = mark Q cs :=
  List.map_congr_left fun c hc => if_congr (h c hc) rfl rfl

/-- A merged list is its own merged form. -/
theorem coalesce_merged : ∀ {cs : List Chunk}, Merged cs → coalesce cs = cs
  | [], _ => rfl
  | [_], _ => rfl
  | c :: d :: cs, h => by
    obtain ⟨hcd, hrest⟩ := List.isChain_cons_cons.mp h
    rw [coalesce_keep hcd, coalesce_merged hrest]

/-- Merging the tail first changes nothing. -/
theorem coalesce_cons_coalesce (cs : List Chunk) : ∀ x, coalesce (x :: coalesce cs) = coalesce (x :: cs) := by
  induction cs using coalesce_induction with
  | nil => exact fun x => rfl
  | one c => exact fun x => rfl
  | merge c d cs hc hd ih =>
    intro x
    rw [coalesce_free hc hd, ih]
    cases hx : x.inuse with
    | false =>
      rw [coalesce_free (d := { c with size := c.size + (32 + d.size) }) hx hc, coalesce_free hx hc,
        coalesce_free (c := { x with size := x.size + (32 + c.size) }) hx hd]
      simp only [Nat.add_assoc]
    | true => rw [coalesce_keep (.inl hx), coalesce_keep (.inl hx), coalesce_free hc hd]
  | keep c d cs h ih =>
    intro x
    rw [coalesce_keep h]
    cases hxc : x.inuse || c.inuse with
    | false =>
      obtain ⟨hx, hc⟩ := Bool.or_eq_false_iff.mp hxc
      rw [coalesce_free hx hc, coalesce_free hx hc, ih]
    | true =>
      have hxc := Bool.or_eq_true_iff.mp hxc
      rw [coalesce_keep hxc, coalesce_keep hxc, ih]

/-- Flags cleared after a merge: it might as well not have been. -/
theorem coalesce_mark (cs : List Chunk) : coalesce (mark P (coalesce cs)) = coalesce (mark P cs) := by
  induction cs using coalesce_induction with
  | nil => rfl
  | one c => rfl
  | merge c d cs hc hd ih =>
    rw [coalesce_free hc hd, ih, mark_free P hc, mark_free P hd, coalesce_free hc hd,
      mark_free P (c := { c with size := c.size + (32 + d.size) }) hc]
  | keep c d cs h ih =>
    rw [coalesce_keep h, mark_cons, mark_cons, ← coalesce_cons_coalesce, ih, coalesce_cons_coalesce]

end

/-! ### Frees in a row -/

/-- `kfree` on each pointer, in this order. -/
def freeAll (h : Heap) : List ℕ → Except Fault Heap
  | [] => .ok h
  | p :: ps => do
    let h ← kfree h p
    freeAll h ps

/-- The chunks that the pointers name and whose free is not turned away. -/
def Freed (hi : ℕ) (ps : List ℕ) (a : ℕ) : Prop := a + 32 ∈ ps ∧ a + 32 < hi

instance (hi : ℕ) (ps : List ℕ) : DecidablePred (Freed hi ps) := fun a =>
  inferInstanceAs (Decidable (a + 32 ∈ ps ∧ a + 32 < hi))

/-- Clearing the one flag at a chunk of the list. -/
theorem mark_one {pre post : List Chunk} {c : Chunk} {lo hi : ℕ} (hf : Fits lo hi (pre ++ c :: post))
    (hin : c.ptr < hi) : mark (Freed hi [c.ptr]) (pre ++ c :: post) = pre ++ { c with inuse := false } :: post := by
  have hother : ∀ d ∈ pre ++ post, ¬ Freed hi [c.ptr] d.addr := fun d hd hfr => by
    have he : d.addr + 32 = c.addr + 32 := List.mem_singleton.mp hfr.1
    have hp := List.pairwise_append.mp hf.sorted
    rcases List.mem_append.mp hd with hd | hd
    · have := hp.2.2 d hd c (by simp)
      unfold Chunk.stop at this; omega
    · have := (List.pairwise_cons.mp hp.2.1).1 d hd
      unfold Chunk.stop at this; omega
  have same : ∀ l : List Chunk, (∀ d ∈ l, d ∈ pre ++ post) → mark (Freed hi [c.ptr]) l = l := fun l hl =>
    (List.map_congr_left fun d hd => if_neg (hother d (hl d hd))).trans (List.map_id l)
  have hself : Freed hi [c.ptr] c.addr := ⟨List.mem_singleton.mpr rfl, hin⟩
  rw [mark, List.map_append, List.map_cons, if_pos hself]
  congr 1
  · exact same pre fun d hd => List.mem_append_left _ hd
  · exact congrArg _ (same post fun d hd => List.mem_append_right _ hd)

/-- The list after the frees does not show their order. -/
theorem freeAll_spec : ∀ {ps : List ℕ} {h : Heap} {cs : List Chunk}, Holds h cs → Merged cs →
    (∀ p ∈ ps, ∃ c ∈ cs, c.inuse = true ∧ c.ptr = p) → ps.Nodup →
    ∃ h', freeAll h ps = .ok h' ∧ Holds h' (coalesce (mark (Freed h.heapEnd ps) cs))
  | [], h, cs, H, hm, _, _ => by
    have hid : mark (Freed h.heapEnd []) cs = cs :=
      (List.map_congr_left fun c _ => if_neg fun hf => absurd hf.1 List.not_mem_nil).trans (List.map_id cs)
    exact ⟨h, rfl, by rw [hid, coalesce_merged hm]; exact H⟩
  | p :: ps, h, cs, H, hm, hlive, hnd => by
    obtain ⟨hp, hnd'⟩ := List.nodup_cons.mp hnd
    obtain ⟨c, hc, hcu, rfl⟩ := hlive p (by simp)
    by_cases hin : c.ptr < h.heapEnd
    · obtain ⟨pre, post, rfl⟩ := List.append_of_mem hc
      obtain ⟨m', hk, H', _⟩ := kfree_spec H hcu hin
      rw [← mark_one H.fits hin] at H'
      -- what is still to be freed is still there
      have hlive' : ∀ p ∈ ps, ∃ d ∈ coalesce (mark (Freed h.heapEnd [c.ptr]) (pre ++ c :: post)),
          d.inuse = true ∧ d.ptr = p := fun p hps => by
        obtain ⟨d, hd, hdu, rfl⟩ := hlive p (List.mem_cons_of_mem _ hps)
        refine ⟨d, (mem_coalesce_inuse _ d hdu).mpr (List.mem_map.mpr ⟨d, hd, if_neg fun hf => hp ?_⟩), hdu, rfl⟩
        rw [← show d.ptr = c.ptr from List.mem_singleton.mp hf.1]
        exact hps
      obtain ⟨h', hk', H''⟩ := freeAll_spec H' (merged_coalesce _) hlive' hnd'
      refine ⟨h', by rw [freeAll, hk]; exact hk', ?_⟩
      rw [coalesce_mark, mark_mark] at H''
      rw [mark_congr (Q := fun a => Freed h.heapEnd [c.ptr] a ∨ Freed h.heapEnd ps a) fun d _ => ?_]
      · exact H''
      · simp only [Freed, List.mem_cons, List.not_mem_nil, or_false]
        tauto
    · obtain ⟨h', hk', H''⟩ := freeAll_spec H hm (fun p hps => hlive p (List.mem_cons_of_mem _ hps)) hnd'
      refine ⟨h', by rw [freeAll, kfree_end (by omega)]; exact hk', ?_⟩
      rw [mark_congr (Q := Freed h.heapEnd ps) fun d _ => ?_]
      · exact H''
      · refine ⟨fun hf => ⟨(List.mem_cons.mp hf.1).resolve_left fun he => ?_, hf.2⟩,
          fun hf => ⟨List.mem_cons_of_mem _ hf.1, hf.2⟩⟩
        have := hf.2
        omega

/-- CORRECT: in every region of at most `2^64 - 48` bytes and every state reached from `heap_init` by
    legal calls, freeing live blocks in one order or in another leaves the same chunk list. -/
theorem kfree_any_order {m : Mem} {lo hi : ℕ} {h : Heap} {ops : List Op} {s : Client} (R : Span lo hi)
    (hsmall : hi - lo ≤ 2 ^ 64 - 48) (hinit : heapInit m lo hi = .ok h)
    (hrun : Run Legal exec ⟨h, []⟩ ops s) {ps qs : List ℕ} (hlive : ∀ p ∈ ps, p ∈ s.live)
    (hnd : ps.Nodup) (hperm : ps.Perm qs) :
    ∃ h₁ h₂ cs, freeAll s.heap ps = .ok h₁ ∧ freeAll s.heap qs = .ok h₂ ∧ h₁.start = h₂.start ∧
      Seg h₁.mem h₁.start cs 0 ∧ Seg h₂.mem h₂.start cs 0 := by
  obtain ⟨cs, I, _, _⟩ := run_inv_small R hsmall hinit hrun
  obtain ⟨h₁, hk₁, H₁⟩ := freeAll_spec I.holds I.merged (fun p hp => I.live p (hlive p hp)) hnd
  obtain ⟨h₂, hk₂, H₂⟩ := freeAll_spec I.holds I.merged
    (fun p hp => I.live p (hlive p (hperm.mem_iff.mpr hp))) (hperm.nodup_iff.mp hnd)
  have hsame : mark (Freed s.heap.heapEnd qs) cs = mark (Freed s.heap.heapEnd ps) cs :=
    mark_congr fun c _ => and_congr_left' hperm.mem_iff.symm
  rw [hsame] at H₂
  exact ⟨h₁, h₂, _, hk₁, hk₂, H₁.seg.head_eq.trans H₂.seg.head_eq.symm, H₁.seg, H₂.seg⟩

/-- Three blocks side by side on four pages, freed from the left and from the right. -/
theorem kfree_any_order_four_pages :
    ∃ s, after 0xFFFFFFFF80030000 0xFFFFFFFF80034000 [.kalloc 24, .kalloc 100, .kalloc 8] = some s ∧
      ∃ h₁ h₂ cs, freeAll s.heap [0xFFFFFFFF80030020, 0xFFFFFFFF80030060, 0xFFFFFFFF800300F0] = .ok h₁ ∧
        freeAll s.heap [0xFFFFFFFF800300F0, 0xFFFFFFFF80030060, 0xFFFFFFFF80030020] = .ok h₂ ∧
        h₁.start = h₂.start ∧ Seg h₁.mem h₁.start cs 0 ∧ Seg h₂.mem h₂.start cs 0 := by
  obtain ⟨s, hs, hlive⟩ : ∃ s, after 0xFFFFFFFF80030000 0xFFFFFFFF80034000 [.kalloc 24, .kalloc 100,
      .kalloc 8] = some s ∧ s.live = [0xFFFFFFFF800300F0, 0xFFFFFFFF80030060, 0xFFFFFFFF80030020] :=
    after_such _ (by decide)
  obtain ⟨h₀, hinit, hrun⟩ := after_run hs
  exact ⟨s, hs, kfree_any_order ⟨by decide, by decide, by decide, by decide⟩ (by decide) hinit hrun
    (by rw [hlive]; decide) (by decide) (by decide)⟩

/-- In the region that is too large, the two blocks freed in their two orders leave lists that start
    with chunks of different sizes. -/
theorem kfree_order_overlaps : ∃ h₀ s, heapInit littered 16 (2 ^ 64 - 16) = .ok h₀ ∧
    Run Legal exec ⟨h₀, []⟩ overlapping s ∧ (∀ p ∈ [48, 80], p ∈ s.live) ∧
    ∃ h₁ h₂, freeAll s.heap [48, 80] = .ok h₁ ∧ freeAll s.heap [80, 48] = .ok h₂ ∧
      ¬ ∃ cs, Seg h₁.mem h₁.start cs 0 ∧ Seg h₂.mem h₂.start cs 0 := by
  obtain ⟨h₀, s, hinit, hrun, hlive, h₁, h₂⟩ := littered_such overlapping
    (fun s => s.live = [48, 80] ∧
      (freeAll s.heap [48, 80]).toOption.map (fun h => (h.start, (header h.mem 16).size)) = some (16, 16) ∧
      (freeAll s.heap [80, 48]).toOption.map (fun h => (h.start, (header h.mem 16).size)) = some (16, 48))
    (by decide)
  refine ⟨h₀, s, hinit, hrun, by rw [hlive]; decide, ?_⟩
  cases k₁ : freeAll s.heap [48, 80] with
  | error e => rw [k₁] at h₁; cases h₁
  | ok f₁ =>
    cases k₂ : freeAll s.heap [80, 48] with
    | error e => rw [k₂] at h₂; cases h₂
    | ok f₂ =>
      rw [k₁] at h₁
      rw [k₂] at h₂
      obtain ⟨s₁, z₁⟩ := Prod.mk.inj (Option.some.inj h₁)
      obtain ⟨s₂, z₂⟩ := Prod.mk.inj (Option.some.inj h₂)
      refine ⟨f₁, f₂, rfl, rfl, ?_⟩
      rintro ⟨cs, w₁, w₂⟩
      rw [s₁] at w₁
      rw [s₂] at w₂
      obtain ⟨c₁, cs₁, rfl, e₁, _⟩ := w₁.next (by decide)
      obtain ⟨c₂, cs₂, he, e₂, _⟩ := w₂.next (by decide)
      obtain ⟨rfl, _⟩ := List.cons.inj he
      rw [z₁] at e₁
      rw [z₂, e₁] at e₂
      cases e₂

end TerraOS.Kheap
