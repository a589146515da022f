import TerraOS.Kheap.Chunks

/-! The allocator on chunk lists.

    What `kalloc`, `kfree` and the merge do to the chunk list, with the memory left out: `firstFit`
    carves a block out of the first free chunk that is large enough, `coalesce` merges runs of free
    chunks. Both keep the layout (`Fits`). They also keep the tiling (`Tiles`), in which every chunk
    begins where the one before it ends. -/

namespace TerraOS.Kheap

/-- The chunk `c` given out for a request of `r` bytes, and what is left of it. -/
def carve (r : ℕ) (c : Chunk) : List Chunk :=
  if c.size - r > MIN_CHUNK_SIZE then
    [⟨c.addr, r, true⟩, ⟨c.addr + 32 + r, c.size - r - 32, false⟩]
  else [{ c with inuse := true }]

/-- First fit: the pointer handed out and the list after it; `none` when no free chunk is large
    enough. -/
def firstFit (r : ℕ) : List Chunk → Option (ℕ × List Chunk)
  | [] => none
  | c :: cs =>
    if !c.inuse && decide (r ≤ c.size) then some (c.ptr, carve r c ++ cs)
    else (firstFit r cs).map fun q => (q.1, c :: q.2)

/-- The merge with the chunk it stands at in hand. -/
def coalesceFrom (c : Chunk) : List Chunk → List Chunk
  | [] => [c]
  | d :: cs =>
    if !c.inuse && !d.inuse then coalesceFrom { c with size := c.size + (32 + d.size) } cs
    else c :: coalesceFrom d cs

/-- Merge every free chunk with the free chunks that follow it. -/
def coalesce : List Chunk → List Chunk
  | [] => []
  | c :: cs => coalesceFrom c cs

/-- No two neighbours are both free. -/
def Merged (cs : List Chunk) : Prop := cs.IsChain fun c d => c.inuse = true ∨ d.inuse = true

/-- Every chunk starts where the one before it ends, from `lo` up to `hi`. -/
def Tiles : ℕ → ℕ → List Chunk → Prop
  | lo, hi, [] => lo = hi
  | lo, hi, c :: cs => c.addr = lo ∧ Tiles c.stop hi cs

/-! ### First fit -/

/-- A chunk that `kalloc` passes over. -/
def Unfit (r : ℕ) (c : Chunk) : Prop := c.inuse = true ∨ c.size < r

/-- Some free chunk holds `r` bytes. -/
def Room (r : ℕ) (cs : List Chunk) : Prop := ∃ c ∈ cs, c.inuse = false ∧ r ≤ c.size

theorem not_room {r : ℕ} {cs : List Chunk} : ¬ Room r cs ↔ ∀ c ∈ cs, Unfit r c := by
  unfold Room Unfit
  constructor
  · intro h c hc
    by_contra hu
    simp only [not_or, Bool.not_eq_true, Nat.not_lt] at hu
    exact h ⟨c, hc, hu⟩
  · rintro h ⟨c, hc, hcu, hr⟩
    rcases h c hc with hu | hu
    · rw [hcu] at hu; cases hu
    · omega

theorem firstFit_cases (r : ℕ) : ∀ cs : List Chunk,
    (firstFit r cs = none ∧ ∀ c ∈ cs, Unfit r c) ∨
    ∃ pre c post, cs = pre ++ c :: post ∧ c.inuse = false ∧ r ≤ c.size ∧ (∀ d ∈ pre, Unfit r d) ∧
      firstFit r cs = some (c.ptr, pre ++ (carve r c ++ post))
  | [] => .inl ⟨rfl, by simp⟩
  | c :: cs => by
    by_cases hc : (!c.inuse && decide (r ≤ c.size)) = true
    · have hc' : c.inuse = false ∧ r ≤ c.size := by simpa using hc
      exact .inr ⟨[], c, cs, rfl, hc'.1, hc'.2, by simp, by rw [firstFit, if_pos hc]; rfl⟩
    · have hu : Unfit r c := by
        unfold Unfit; cases h : c.inuse <;> simp_all
      rcases firstFit_cases r cs with ⟨hn, hall⟩ | ⟨pre, d, post, rfl, hd, hr, hpre, hf⟩
      · refine .inl ⟨by rw [firstFit, if_neg hc, hn]; rfl, ?_⟩
        rintro d hd
        rcases List.mem_cons.mp hd with rfl | hd
        · exact hu
        · exact hall d hd
      · refine .inr ⟨c :: pre, d, post, rfl, hd, hr, ?_, by rw [firstFit, if_neg hc, hf]; rfl⟩
        rintro e he
        rcases List.mem_cons.mp he with rfl | he
        · exact hu
        · exact hpre e he

/-- Carving keeps the layout: the new chunk is aligned and ends where the old one did. -/
theorem fits_carve {r : ℕ} {c : Chunk} {post : List Chunk} {lo hi : ℕ} (hr : r % 16 = 0)
    (hle : r ≤ c.size) (h : Fits lo hi (c :: post)) : Fits lo hi (carve r c ++ post) := by
  obtain ⟨h1, h2, h3, h4⟩ := h
  unfold carve
  by_cases hs : c.size - r > MIN_CHUNK_SIZE
  · rw [if_pos hs]
    have hs' : c.size - r > 36 := hs
    have he : (⟨c.addr + 32 + r, c.size - r - 32, false⟩ : Chunk).stop = c.stop := by
      simp only [Chunk.stop]; omega
    refine ⟨h1, h2, hr, ?_, ?_, ?_, ?_⟩
    · simp only [Chunk.stop]; omega
    · simp only; omega
    · simp only; omega
    · rw [he]; exact h4
  · rw [if_neg hs]
    exact ⟨h1, h2, h3, h4⟩

theorem tiles_carve {r : ℕ} {c : Chunk} {post : List Chunk} {lo hi : ℕ} (hle : r ≤ c.size)
    (h : Tiles lo hi (c :: post)) : Tiles lo hi (carve r c ++ post) := by
  obtain ⟨h1, h2⟩ := h
  unfold carve
  by_cases hs : c.size - r > MIN_CHUNK_SIZE
  · rw [if_pos hs]
    have hs' : c.size - r > 36 := hs
    refine ⟨h1, ?_, ?_⟩
    · simp only [Chunk.stop]
    · have he : (⟨c.addr + 32 + r, c.size - r - 32, false⟩ : Chunk).stop = c.stop := by
        simp only [Chunk.stop]; omega
      rw [he]; exact h2
  · rw [if_neg hs]
    exact ⟨h1, h2⟩

/-- The first chunk carved is the block: in use, at the old address, large enough. -/
theorem carve_head {r : ℕ} {c : Chunk} (hle : r ≤ c.size) :
    ∃ b rest, carve r c = b :: rest ∧ b.addr = c.addr ∧ b.inuse = true ∧ r ≤ b.size ∧
      b.stop ≤ c.stop ∧ (∀ d ∈ rest, d.inuse = false) := by
  unfold carve
  by_cases hs : c.size - r > MIN_CHUNK_SIZE
  · rw [if_pos hs]
    exact ⟨_, _, rfl, rfl, rfl, le_refl _, by simp only [Chunk.stop]; omega, by simp⟩
  · rw [if_neg hs]
    exact ⟨_, _, rfl, rfl, rfl, hle, le_refl _, by simp⟩

/-! ### Merging -/

theorem coalesce_free {c d : Chunk} {cs : List Chunk} (hc : c.inuse = false) (hd : d.inuse = false) :
    coalesce (c :: d :: cs) = coalesce ({ c with size := c.size + (32 + d.size) } :: cs) := by
  rw [coalesce, coalesceFrom, if_pos (by simp [hc, hd])]; rfl

theorem coalesce_keep {c d : Chunk} {cs : List Chunk} (h : c.inuse = true ∨ d.inuse = true) :
    coalesce (c :: d :: cs) = c :: coalesce (d :: cs) := by
  rw [coalesce, coalesceFrom, if_neg (by rcases h with h | h <;> simp [h])]; rfl

/-- Induction along the merge: the list ends, the first two merge, or the first is kept. -/
theorem coalesce_induction {P : List Chunk → Prop} (nil : P []) (one : ∀ c, P [c])
    (merge : ∀ c d cs, c.inuse = false → d.inuse = false →
      P ({ c with size := c.size + (32 + d.size) } :: cs) → P (c :: d :: cs))
    (keep : ∀ c d cs, (c.inuse = true ∨ d.inuse = true) → P (d :: cs) → P (c :: d :: cs))
    : ∀ cs, P cs
  | [] => nil
  | c :: cs => by
    induction cs generalizing c with
    | nil => exact one c
    | cons d cs ih =>
      by_cases h : c.inuse = true ∨ d.inuse = true
      · exact keep c d cs h (ih d)
      · simp only [not_or, Bool.not_eq_true] at h
        exact merge c d cs h.1 h.2 (ih _)

theorem fits_coalesce (cs : List Chunk) : ∀ {lo hi : ℕ}, Fits lo hi cs → Fits lo hi (coalesce cs) := by
  induction cs using coalesce_induction with
  | nil => intro lo hi h; exact h
  | one c => intro lo hi h; exact h
  | merge c d cs hc hd ih =>
    intro lo hi ⟨h1, h2, h3, g1, g2, g3, g4⟩
    rw [coalesce_free hc hd]
    refine ih ⟨h1, h2, ?_, g4.mono ?_⟩
    · simp only; omega
    · simp only [Chunk.stop] at g1 ⊢; omega
  | keep c d cs h ih =>
    intro lo hi ⟨h1, h2, h3, h4⟩
    rw [coalesce_keep h]
    exact ⟨h1, h2, h3, ih h4⟩

theorem tiles_coalesce (cs : List Chunk) :
    ∀ {lo hi : ℕ}, Tiles lo hi cs → Tiles lo hi (coalesce cs) := by
  induction cs using coalesce_induction with
  | nil => intro lo hi h; exact h
  | one c => intro lo hi h; exact h
  | merge c d cs hc hd ih =>
    intro lo hi ⟨h1, g1, g2⟩
    rw [coalesce_free hc hd]
    refine ih ⟨h1, ?_⟩
    have he : ({ c with size := c.size + (32 + d.size) } : Chunk).stop = d.stop := by
      simp only [Chunk.stop] at g1 ⊢; omega
    rw [he]; exact g2
  | keep c d cs h ih =>
    intro lo hi ⟨h1, h2⟩
    rw [coalesce_keep h]
    exact ⟨h1, ih h2⟩

/-- Merging touches no chunk in use. -/
theorem mem_coalesce_inuse (cs : List Chunk) (b : Chunk) (hb : b.inuse = true) :
    b ∈ coalesce cs ↔ b ∈ cs := by
  induction cs using coalesce_induction with
  | nil => rfl
  | one c => rfl
  | merge c d cs hc hd ih =>
    rw [coalesce_free hc hd, ih]
    have hbc : b ≠ c := by rintro rfl; simp [hb] at hc
    have hbd : b ≠ d := by rintro rfl; simp [hb] at hd
    have hbm : b ≠ { c with size := c.size + (32 + d.size) } := by
      rintro rfl; simp only at hb; simp [hb] at hc
    simp [hbc, hbd, hbm]
  | keep c d cs h ih => rw [coalesce_keep h, List.mem_cons, ih, ← List.mem_cons]

/-- A merged list starts with the chunk it started with, possibly grown. -/
theorem coalesce_cons (c : Chunk) (cs : List Chunk) :
    ∃ s rest, coalesce (c :: cs) = ⟨c.addr, s, c.inuse⟩ :: rest := by
  generalize he : c :: cs = l
  induction l using coalesce_induction generalizing c cs with
  | nil => simp at he
  | one d =>
    obtain ⟨rfl, rfl⟩ := List.cons.inj he
    exact ⟨c.size, [], rfl⟩
  | merge d e l hd he' ih =>
    obtain ⟨rfl, rfl⟩ := List.cons.inj he
    obtain ⟨s, rest, h⟩ := ih _ _ rfl
    exact ⟨s, rest, by rw [coalesce_free hd he', h]⟩
  | keep d e l h _ =>
    obtain ⟨rfl, rfl⟩ := List.cons.inj he
    exact ⟨c.size, coalesce (e :: l), by rw [coalesce_keep h]⟩

theorem merged_coalesce (cs : List Chunk) : Merged (coalesce cs) := by
  induction cs using coalesce_induction with
  | nil => exact .nil
  | one c => exact .singleton c
  | merge c d cs hc hd ih => rw [coalesce_free hc hd]; exact ih
  | keep c d cs h ih =>
    rw [coalesce_keep h]
    obtain ⟨s, rest, hr⟩ := coalesce_cons d cs
    rw [hr] at ih ⊢
    exact List.isChain_cons_cons.mpr ⟨h, ih⟩

/-! ### Tilings -/

theorem tiles_append {c : Chunk} {ys : List Chunk} : ∀ {xs : List Chunk} {lo hi : ℕ},
    Tiles lo hi (xs ++ c :: ys) ↔ Tiles lo c.addr xs ∧ Tiles c.addr hi (c :: ys)
  | [], lo, hi => by
    simp only [List.nil_append, Tiles, true_and]
    exact ⟨fun ⟨h1, h2⟩ => ⟨h1.symm, h2⟩, fun ⟨h1, h2⟩ => ⟨h1.symm, h2⟩⟩
  | x :: xs, lo, hi => by
    simp only [List.cons_append, Tiles, tiles_append]
    tauto

/-- A merged tiling with no chunk in use is one free chunk over the whole region. -/
theorem eq_single_of_tiles {cs : List Chunk} {lo hi : ℕ} (ht : Tiles lo hi cs) (hm : Merged cs)
    (hlt : lo < hi) (hfree : ∀ c ∈ cs, c.inuse = false) : cs = [⟨lo, hi - lo - 32, false⟩] := by
  match cs, ht, hm with
  | [], ht, _ => simp only [Tiles] at ht; omega
  | [c], ⟨h1, h2⟩, _ =>
    have hc := hfree c (by simp)
    obtain ⟨a, s, u⟩ := c
    simp only [Tiles, Chunk.stop] at h1 h2 hc
    simp only [List.cons.injEq, Chunk.mk.injEq, and_true]
    exact ⟨h1, by omega, hc⟩
  | c :: d :: cs, _, hm =>
    have hcd := (List.isChain_cons_cons.mp hm).1
    rw [hfree c (by simp), hfree d (by simp)] at hcd
    simp at hcd

end TerraOS.Kheap
