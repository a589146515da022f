import TerraOS.Kheap.Merging

/-! First fit, and its inverse.

    `kalloc` takes the first free chunk that is large enough. Its early test against `heap.avail` refuses
    nothing the walk would have found, because no chunk of a laid out list is larger than `heap.avail`
    less a header. Freed at once, the block merges with what it was carved from, and with nothing else:
    the list was merged before. -/

namespace TerraOS.Kheap
open Lib Lib.Word

instance decidableSeg (m : Mem) : ∀ (a : ℕ) (cs : List Chunk) (b : ℕ), Decidable (Seg m a cs b)
  | a, [], b => inferInstanceAs (Decidable (a = b))
  | a, c :: cs, b =>
    have := decidableSeg m (header m a).next cs b
    inferInstanceAs (Decidable (a ≠ 0 ∧ c.addr = a ∧ (header m a).size = c.size ∧
      (header m a).inuse = c.inuse ∧ Seg m (header m a).next cs b))

/-- The least multiple of 16 that holds the request is what the request is rounded to. -/
theorem align16_least {n r : ℕ} (hn : n ≤ 2 ^ 64 - 16) (hr : IsLeast {k | 16 ∣ k ∧ n ≤ k} r) :
    align16 n = r := by
  obtain ⟨h1, h2⟩ := le_align16 (n := n) (by omega)
  have hle : r ≤ align16 n := hr.2 ⟨Nat.dvd_of_mod_eq_zero (align16_mod n), h1⟩
  obtain ⟨⟨k, hk⟩, hnr⟩ := hr.1
  have := align16_mod n
  omega

/-- CORRECT: in every region of at most `2^64 - 48` bytes, in every state reached from `heap_init` by
    legal calls, `kalloc` refuses a request that no free chunk holds, and otherwise carves it out of the
    lowest free chunk that does, and touches no other chunk. -/
theorem kalloc_first_fit {m : Mem} {lo hi : ℕ} {h : Heap} {ops : List Op} {s : Client} (R : Span lo hi)
    (hsmall : hi - lo ≤ 2 ^ 64 - 48) (hinit : heapInit m lo hi = .ok h)
    (hrun : Run Legal exec ⟨h, []⟩ ops s) {n r : ℕ} (hn : n ≤ 2 ^ 64 - 16)
    (hr : IsLeast {k | 16 ∣ k ∧ n ≤ k} r) :
    ∃ cs, Seg s.heap.mem s.heap.start cs 0 ∧
      ((kalloc s.heap n = .ok (0, s.heap) ∧ ∀ c ∈ cs, c.inuse = false → c.size < r) ∨
       ∃ pre c post h', cs = pre ++ c :: post ∧ c.inuse = false ∧ r ≤ c.size ∧
        (∀ d ∈ cs, d.inuse = false → r ≤ d.size → c.addr ≤ d.addr) ∧
        kalloc s.heap n = .ok (c.addr + 32, h') ∧ h'.start = s.heap.start ∧
        Seg h'.mem h'.start (pre ++ (carve r c ++ post)) 0) := by
  obtain ⟨cs, I, _, _⟩ := run_inv_small R hsmall hinit hrun
  have small {c : Chunk} (hu : Unfit r c) (hc : c.inuse = false) : c.size < r :=
    hu.resolve_left (by simp [hc])
  have hspec := kalloc_spec I.holds n
  rw [align16_least hn hr] at hspec
  refine ⟨cs, I.holds.seg, ?_⟩
  rcases hspec with ⟨hk, hno⟩ | ⟨pre, c, post, m', rfl, hc, hle, hpre, hk, H', _⟩
  · exact .inl ⟨hk, fun c hc hcu => small (hno c hc) hcu⟩
  · refine .inr ⟨pre, c, post, _, rfl, hc, hle, fun d hd hdu hrd => ?_, hk, rfl, H'.seg⟩
    rcases List.mem_append.mp hd with hd | hd
    · have := small (hpre d hd) hdu
      omega
    · rcases List.mem_cons.mp hd with rfl | hd
      · exact le_rfl
      · have hafter := (List.pairwise_append.mp I.holds.fits.sorted).2.1
        have := (List.pairwise_cons.mp hafter).1 d hd
        unfold Chunk.stop at this
        omega

/-- Four pages: the hole between two blocks is too small for 100 bytes. -/
theorem kalloc_first_fit_four_pages :
    ∃ s, after 0xFFFFFFFF80030000 0xFFFFFFFF80034000 [.kalloc 24, .kalloc 8, .kfree 0xFFFFFFFF80030020] =
        some s ∧
      ∃ cs, Seg s.heap.mem s.heap.start cs 0 ∧
      ((kalloc s.heap 100 = .ok (0, s.heap) ∧ ∀ c ∈ cs, c.inuse = false → c.size < 112) ∨
       ∃ pre c post h', cs = pre ++ c :: post ∧ c.inuse = false ∧ 112 ≤ c.size ∧
        (∀ d ∈ cs, d.inuse = false → 112 ≤ d.size → c.addr ≤ d.addr) ∧ kalloc s.heap 100 = .ok (c.addr + 32, h') ∧
        h'.start = s.heap.start ∧ Seg h'.mem h'.start (pre ++ (carve 112 c ++ post)) 0) := by
  obtain ⟨s, hs⟩ := Option.isSome_iff_exists.mp (show (after 0xFFFFFFFF80030000 0xFFFFFFFF80034000
    [.kalloc 24, .kalloc 8, .kfree 0xFFFFFFFF80030020]).isSome = true by decide)
  obtain ⟨h₀, hinit, hrun⟩ := after_run hs
  exact ⟨s, hs, kalloc_first_fit ⟨by decide, by decide, by decide, by decide⟩ (by decide) hinit hrun
    (by decide) ⟨⟨by decide, by decide⟩, fun k ⟨⟨j, hj⟩, hk⟩ => by omega⟩⟩

/-! ### The region that is too large -/

/-- The list once two headers overlap. -/
def overlapped : List Chunk :=
  [⟨16, 16, true⟩, ⟨64, 2 ^ 64 - 80, false⟩, ⟨48, 16, true⟩, ⟨2 ^ 64 - 80, 5, true⟩]

/-- The first call below, seen from the lists before and after. -/
theorem littered_kalloc : ∃ h₀ s h', heapInit littered 16 (2 ^ 64 - 16) = .ok h₀ ∧
    Run Legal exec ⟨h₀, []⟩ overlapping s ∧ Seg s.heap.mem s.heap.start overlapped 0 ∧
    s.heap.heapStart = 16 ∧ s.heap.heapEnd = 2 ^ 64 - 16 ∧
    kalloc s.heap (2 ^ 64 - 192) = .ok (96, h') ∧
    Seg h'.mem h'.start [⟨16, 16, true⟩, ⟨64, 2 ^ 64 - 192, true⟩, ⟨2 ^ 64 - 96, 80, false⟩,
      ⟨48, 16, true⟩, ⟨2 ^ 64 - 192, 0, false⟩] 0 ∧
    (kfree h' 96).toOption.any (fun h => decide (Seg h.mem h.start [⟨16, 16, true⟩,
      ⟨64, 2 ^ 64 - 80, false⟩, ⟨48, 16, true⟩, ⟨2 ^ 64 - 80, 48, true⟩] 0)) = true := by
  obtain ⟨h₀, s, hinit, hrun, hw, h1, h2, hk⟩ := littered_such overlapping
    (fun s => Seg s.heap.mem s.heap.start overlapped 0 ∧ s.heap.heapStart = 16 ∧
      s.heap.heapEnd = 2 ^ 64 - 16 ∧ (kalloc s.heap (2 ^ 64 - 192)).toOption.any (fun a =>
        decide (a.1 = 96 ∧ Seg a.2.mem a.2.start [⟨16, 16, true⟩, ⟨64, 2 ^ 64 - 192, true⟩,
          ⟨2 ^ 64 - 96, 80, false⟩, ⟨48, 16, true⟩, ⟨2 ^ 64 - 192, 0, false⟩] 0 ∧
          (kfree a.2 96).toOption.any (fun h => decide (Seg h.mem h.start [⟨16, 16, true⟩,
            ⟨64, 2 ^ 64 - 80, false⟩, ⟨48, 16, true⟩, ⟨2 ^ 64 - 80, 48, true⟩] 0)) = true)) = true)
    (by decide)
  cases hr : kalloc s.heap (2 ^ 64 - 192) with
  | error e => rw [hr] at hk; cases hk
  | ok a =>
    rw [hr] at hk
    obtain ⟨hq, hw', hf⟩ := of_decide_eq_true hk
    exact ⟨h₀, s, a.2, hinit, hrun, hw, h1, h2, by rw [hr, ← hq], hw', hf⟩

/-- There the header of what is left over lies across the header of the last chunk, and the size written
    at 64 is the link of the chunk at 48: the last chunk drops out of the list. -/
theorem kalloc_overlaps : ∃ h₀ s, heapInit littered 16 (2 ^ 64 - 16) = .ok h₀ ∧
    Run Legal exec ⟨h₀, []⟩ overlapping s ∧
    ¬ ∃ cs, Seg s.heap.mem s.heap.start cs 0 ∧
      ((kalloc s.heap (2 ^ 64 - 192) = .ok (0, s.heap) ∧
        ∀ c ∈ cs, c.inuse = false → c.size < 2 ^ 64 - 192) ∨
       ∃ pre c post h', cs = pre ++ c :: post ∧ c.inuse = false ∧ 2 ^ 64 - 192 ≤ c.size ∧
        (∀ d ∈ cs, d.inuse = false → 2 ^ 64 - 192 ≤ d.size → c.addr ≤ d.addr) ∧
        kalloc s.heap (2 ^ 64 - 192) = .ok (c.addr + 32, h') ∧ h'.start = s.heap.start ∧
        Seg h'.mem h'.start (pre ++ (carve (2 ^ 64 - 192) c ++ post)) 0) := by
  obtain ⟨h₀, s, h₁, hinit, hrun, hw, _, _, hk, hw₁, _⟩ := littered_kalloc
  refine ⟨h₀, s, hinit, hrun, ?_⟩
  rintro ⟨cs, hcs, ⟨hk', _⟩ | ⟨pre, c, post, h', rfl, hcu, _, _, hk', _, hw'⟩⟩
  · rw [hk] at hk'
    cases (Prod.mk.inj (Except.ok.inj hk')).1
  · rw [hk] at hk'
    obtain ⟨_, rfl⟩ := Prod.mk.inj (Except.ok.inj hk')
    have hlast : (⟨2 ^ 64 - 80, 5, true⟩ : Chunk) ∈ pre ++ c :: post := hw.unique hcs ▸ by decide
    have hkept : (⟨2 ^ 64 - 80, 5, true⟩ : Chunk) ∈ pre ++ (carve (2 ^ 64 - 192) c ++ post) := by
      rcases List.mem_append.mp hlast with h | h
      · exact List.mem_append_left _ h
      · rcases List.mem_cons.mp h with h | h
        · rw [← h] at hcu
          cases hcu
        · exact List.mem_append_right _ (List.mem_append_right _ h)
    rw [← hw₁.unique hw'] at hkept
    exact absurd hkept (by decide)

/-! ### `kfree` after `kalloc` -/

/-- Merging the end of a list first changes nothing. -/
theorem coalesce_append (l : List Chunk) : ∀ pre : List Chunk, coalesce (pre ++ coalesce l) = coalesce (pre ++ l)
  | [] => coalesce_merged (merged_coalesce l)
  | x :: pre => by
    rw [List.cons_append, ← coalesce_cons_coalesce, coalesce_append l pre, coalesce_cons_coalesce,
      List.cons_append]

/-- A block carved out of a free chunk and given back merges to that chunk. -/
theorem coalesce_carve {pre post : List Chunk} {c b : Chunk} {rest : List Chunk} {r : ℕ} (hle : r ≤ c.size)
    (hc : c.inuse = false) (hb : carve r c = b :: rest) (hm : Merged (pre ++ c :: post)) :
    coalesce (pre ++ { b with inuse := false } :: (rest ++ post)) = pre ++ c :: post := by
  have hback : coalesce ({ b with inuse := false } :: (rest ++ post)) = coalesce (c :: post) := by
    unfold carve at hb
    obtain ⟨a, z, u⟩ := c
    simp only at hc hle hb
    subst hc
    by_cases hs : z - r > MIN_CHUNK_SIZE
    · have hs36 : z - r > 36 := hs
      rw [if_pos hs] at hb
      obtain ⟨rfl, rfl⟩ := List.cons.inj hb
      rw [List.singleton_append, coalesce_free rfl rfl, show r + (32 + (z - r - 32)) = z by omega]
    · rw [if_neg hs] at hb
      obtain ⟨rfl, rfl⟩ := List.cons.inj hb
      rfl
  rw [← coalesce_append, hback, coalesce_append, coalesce_merged hm]

/-- CORRECT: in every region of at most `2^64 - 48` bytes, in every state reached from `heap_init` by
    legal calls, a block that `kalloc` hands out and `kfree` accepts leaves, when it is freed at once,
    the list as it was. -/
theorem kfree_undoes_kalloc {m : Mem} {lo hi : ℕ} {h h' : Heap} {ops : List Op} {s : Client}
    (R : Span lo hi) (hsmall : hi - lo ≤ 2 ^ 64 - 48) (hinit : heapInit m lo hi = .ok h)
    (hrun : Run Legal exec ⟨h, []⟩ ops s) {n p : ℕ} (hk : kalloc s.heap n = .ok (p, h'))
    (hlo : s.heap.heapStart ≤ p) (hhi : p < s.heap.heapEnd) :
    ∃ h'' cs, kfree h' p = .ok h'' ∧ h''.start = s.heap.start ∧ Seg s.heap.mem s.heap.start cs 0 ∧
      Seg h''.mem h''.start cs 0 := by
  obtain ⟨cs, I, _, _⟩ := run_inv_small R hsmall hinit hrun
  rcases kalloc_spec I.holds n with ⟨hk', _⟩ | ⟨pre, c, post, m', rfl, hc, hle, _, hk', H', _⟩
  · rw [hk] at hk'
    obtain ⟨rfl, _⟩ := Prod.mk.inj (Except.ok.inj hk')
    have := I.holds.region.lo_pos
    omega
  · rw [hk] at hk'
    obtain ⟨rfl, rfl⟩ := Prod.mk.inj (Except.ok.inj hk')
    obtain ⟨b, rest, hb, hba, hbu, _⟩ := carve_head hle
    have hbp : b.ptr = c.ptr := by unfold Chunk.ptr; rw [hba]
    rw [hb, List.cons_append] at H'
    obtain ⟨m'', hf, H'', _⟩ := kfree_spec H' hbu (hbp ▸ hhi)
    rw [coalesce_carve hle hc hb I.merged] at H''
    rw [hbp] at hf
    exact ⟨_, _, hf, rfl, I.holds.seg, H''.seg⟩

/-- Four pages: 100 bytes out of the chunk behind a block, and back. -/
theorem kfree_undoes_kalloc_four_pages :
    ∃ s p h', after 0xFFFFFFFF80030000 0xFFFFFFFF80034000 [.kalloc 24] = some s ∧
      kalloc s.heap 100 = .ok (p, h') ∧ s.heap.heapStart ≤ p ∧ p < s.heap.heapEnd ∧
      ∃ h'' cs, kfree h' p = .ok h'' ∧ h''.start = s.heap.start ∧ Seg s.heap.mem s.heap.start cs 0 ∧
        Seg h''.mem h''.start cs 0 := by
  obtain ⟨s, hs, hk⟩ : ∃ s, after 0xFFFFFFFF80030000 0xFFFFFFFF80034000 [.kalloc 24] = some s ∧
      (kalloc s.heap 100).toOption.any
        (fun a => decide (s.heap.heapStart ≤ a.1 ∧ a.1 < s.heap.heapEnd)) = true :=
    after_such _ (by decide)
  obtain ⟨h₀, hinit, hrun⟩ := after_run hs
  cases hr : kalloc s.heap 100 with
  | error e => rw [hr] at hk; cases hk
  | ok a =>
    rw [hr] at hk
    obtain ⟨hlo, hhi⟩ := of_decide_eq_true hk
    exact ⟨s, a.1, a.2, hs, hr, hlo, hhi, kfree_undoes_kalloc ⟨by decide, by decide, by decide, by decide⟩
      (by decide) hinit hrun hr hlo hhi⟩

/-- In the region that is too large the block is given back, and the last chunk is left with a size that
    `kalloc` wrote there as a link. -/
theorem kfree_undo_overlaps : ∃ h₀ s h', heapInit littered 16 (2 ^ 64 - 16) = .ok h₀ ∧
    Run Legal exec ⟨h₀, []⟩ overlapping s ∧ kalloc s.heap (2 ^ 64 - 192) = .ok (96, h') ∧
    s.heap.heapStart ≤ 96 ∧ 96 < s.heap.heapEnd ∧
    ¬ ∃ h'' cs, kfree h' 96 = .ok h'' ∧ h''.start = s.heap.start ∧ Seg s.heap.mem s.heap.start cs 0 ∧
      Seg h''.mem h''.start cs 0 := by
  obtain ⟨h₀, s, h', hinit, hrun, hw, h1, h2, hk, _, hf⟩ := littered_kalloc
  refine ⟨h₀, s, h', hinit, hrun, hk, by omega, by omega, ?_⟩
  rintro ⟨h'', cs, hf', _, hcs, hcs'⟩
  rw [hf'] at hf
  obtain rfl := hw.unique hcs
  exact absurd (hcs'.unique (of_decide_eq_true hf)) (by decide)

end TerraOS.Kheap
