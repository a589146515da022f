import TerraOS.Kheap.Refine

/-! What one heap call does to the blocks in use.

    `Edit` is the summary every invariant is derived from: which chunks leave the set of chunks in use
    and which enter it, that all others keep their bytes, and that the list stays merged and (unless a
    block grew in place) keeps tiling the region. `krealloc` has five ways to return; each is an edit
    that takes the old chunk out and puts one chunk in. -/

namespace TerraOS.Kheap
open Lib Lib.Word

/-- One call, from list `cs` to list `cs'`: of the chunks in use, `out` leaves and `inn` enters. -/
structure Edit (tight : Prop) (h h' : Heap) (cs cs' out inn : List Chunk) : Prop where
  start_eq : h'.heapStart = h.heapStart
  end_eq : h'.heapEnd = h.heapEnd
  holds : Holds h' cs'
  used : ∀ b : Chunk, b.inuse = true → (b ∈ cs' ↔ b ∈ inn ∨ (b ∈ cs ∧ b ∉ out))
  bytes : ∀ b ∈ cs, b.inuse = true → b ∉ out → ∀ x, b.Owns x → h'.mem x = h.mem x
  merged : Merged cs → Merged cs'
  tiles : tight → Tiles h.heapStart h.heapEnd cs → Tiles h.heapStart h.heapEnd cs'

/-! ### Merged lists -/

theorem merged_congr {cs cs' : List Chunk} (h : cs'.map Chunk.inuse = cs.map Chunk.inuse) :
    Merged cs' ↔ Merged cs := by
  have e : ∀ l : List Chunk, Merged l ↔ (l.map Chunk.inuse).IsChain fun u v => u = true ∨ v = true :=
    fun l => by rw [List.isChain_map]; rfl
  rw [e, e, h]

/-- A chunk in use may stand after any chunk. -/
theorem merged_append_used {pre : List Chunk} {b c : Chunk} (hb : b.inuse = true)
    (h : Merged (pre ++ [c])) : Merged (pre ++ [b]) := by
  have h' := List.isChain_append.mp h
  exact List.isChain_append.mpr ⟨h'.1, .singleton b, fun x _ y hy => .inr (by
    simp only [List.head?_cons, Option.mem_def, Option.some.injEq] at hy; rw [← hy, hb])⟩

/-- Carving a free chunk keeps a list merged: what is left over meets the neighbour the free chunk
    met. -/
theorem merged_carve {pre post : List Chunk} {c : Chunk} {r : ℕ} (hc : c.inuse = false)
    (h : Merged (pre ++ c :: post)) : Merged (pre ++ (carve r c ++ post)) := by
  obtain ⟨h1, h2⟩ := List.isChain_split.mp h
  unfold carve
  by_cases hs : c.size - r > MIN_CHUNK_SIZE
  · rw [if_pos hs, List.cons_append, List.cons_append, List.nil_append]
    refine List.isChain_split.mpr ⟨merged_append_used rfl h1, List.isChain_cons_cons.mpr
      ⟨.inl rfl, ?_⟩⟩
    refine (merged_congr ?_).mpr h2
    simp [hc]
  · rw [if_neg hs, List.cons_append, List.nil_append]
    refine List.isChain_split.mpr ⟨merged_append_used rfl h1, ?_⟩
    cases post with
    | nil => exact .singleton _
    | cons d post =>
      exact List.isChain_cons_cons.mpr ⟨.inl rfl, (List.isChain_cons_cons.mp h2).2⟩

/-- A pointer names one chunk. -/
theorem Holds.ptr_inj {h : Heap} {cs : List Chunk} (H : Holds h cs) {b c : Chunk} (hb : b ∈ cs)
    (hc : c ∈ cs) (hp : b.ptr = c.ptr) : b = c := by
  rcases H.fits.apart b hb c hc with h1 | h1 | h1
  · exact h1
  · unfold Chunk.stop Chunk.ptr at *; omega
  · unfold Chunk.stop Chunk.ptr at *; omega

/-! ### `kalloc` -/

/-- A chunk with the address of a free member is no member in use. -/
theorem not_mem_of_addr_eq {cs : List Chunk} {lo hi : ℕ} (hf : Fits lo hi cs) {b c : Chunk}
    (hc : c ∈ cs) (hcu : c.inuse = false) (hbu : b.inuse = true) (ha : b.addr = c.addr) : b ∉ cs := by
  intro hb
  rcases hf.apart b hb c hc with rfl | h | h
  · rw [hcu] at hbu; cases hbu
  · unfold Chunk.stop at h; omega
  · unfold Chunk.stop at h; omega

theorem kalloc_edit {h : Heap} {cs : List Chunk} (H : Holds h cs) (n : ℕ) :
    (kalloc h n = .ok (0, h) ∧ ¬ Room (align16 n) cs) ∨
    (Room (align16 n) cs ∧ ∃ h' cs' b, kalloc h n = .ok (b.ptr, h') ∧
      Edit True h h' cs cs' [] [b] ∧ b.inuse = true ∧ align16 n ≤ b.size ∧ b ∉ cs) := by
  rcases kalloc_spec H n with ⟨hk, hno⟩ | ⟨pre, c, post, m', rfl, hc, hle, _, hk, H', hout⟩
  · exact .inl ⟨hk, not_room.mpr hno⟩
  obtain ⟨b, rest, hb, hba, hbu, hbs, _, hrest⟩ := carve_head hle
  have hmem : c ∈ pre ++ c :: post := by simp
  have hnb : b ∉ pre ++ c :: post := not_mem_of_addr_eq H.fits hmem hc hbu hba
  refine .inr ⟨⟨c, hmem, hc, hle⟩, { h with mem := m' }, _, b, by rw [hk]; simp only [Chunk.ptr, hba],
    ⟨rfl, rfl, H', fun e he => ?_, fun e he heu _ x hx => ?_, merged_carve hc, fun _ ht => ?_⟩,
    hbu, hbs, hnb⟩
  · have hec : e ≠ c := by rintro rfl; rw [hc] at he; cases he
    have her : e ∉ rest := fun hr => by rw [hrest e hr] at he; cases he
    simp only [hb, List.cons_append, List.mem_append, List.mem_cons, List.not_mem_nil, hec, her]
    tauto
  · refine hout x ?_
    have hec : e ≠ c := by rintro rfl; rw [hc] at heu; cases heu
    unfold Chunk.Owns Chunk.ptr at hx
    rcases H.fits.apart e he c hmem with h1 | h1 | h1
    · exact absurd h1 hec
    · omega
    · omega
  · obtain ⟨t1, t2⟩ := tiles_append.mp ht
    have t3 := tiles_carve hle t2
    rw [hb, List.cons_append] at t3 ⊢
    exact tiles_append.mpr (hba ▸ ⟨t1, t3⟩)

/-! ### `kfree` -/

/-- The bytes of a chunk in use are no free chunk's header. -/
theorem not_freeHeader {cs : List Chunk} {lo hi x : ℕ} (hf : Fits lo hi cs) {b : Chunk} (hb : b ∈ cs)
    (hbu : b.inuse = true) (hx : b.Owns x) : ¬ FreeHeader cs x := by
  rintro ⟨c, hc, hcu, h1, h2⟩
  unfold Chunk.Owns Chunk.ptr at hx
  rcases hf.apart b hb c hc with rfl | h | h
  · rw [hcu] at hbu; cases hbu
  · omega
  · unfold Chunk.stop at h hx; omega

theorem fits_setInuse {pre post : List Chunk} {c : Chunk} {u : Bool} {lo hi : ℕ}
    (h : Fits lo hi (pre ++ c :: post)) : Fits lo hi (pre ++ { c with inuse := u } :: post) := by
  rw [fits_append] at h ⊢; exact h

/-- A member of a laid out list occurs in it once. -/
theorem not_mem_sides {pre post : List Chunk} {c : Chunk} {lo hi : ℕ}
    (h : Fits lo hi (pre ++ c :: post)) : c ∉ pre ∧ c ∉ post := by
  have hp := h.sorted
  rw [List.pairwise_append] at hp
  constructor
  · intro hc
    have := hp.2.2 c hc c (by simp)
    unfold Chunk.stop at this; omega
  · intro hc
    have := (List.pairwise_cons.mp hp.2.1).1 c hc
    unfold Chunk.stop at this; omega

theorem kfree_edit {h : Heap} {cs : List Chunk} {c : Chunk} (H : Holds h cs) (hmem : c ∈ cs)
    (hc : c.inuse = true) (hin : c.ptr < h.heapEnd) :
    ∃ h' cs', kfree h c.ptr = .ok h' ∧ Edit True h h' cs cs' [c] [] := by
  obtain ⟨pre, post, rfl⟩ := List.append_of_mem hmem
  obtain ⟨m', hk, H', hout⟩ := kfree_spec H hc hin
  have hside := not_mem_sides H.fits
  refine ⟨_, _, hk, rfl, rfl, H', fun b hb => ?_, fun b hb hbu hbc x hx => ?_,
    fun _ => merged_coalesce _, fun _ ht => ?_⟩
  · rw [mem_coalesce_inuse _ b hb]
    have hbf : b ≠ { c with inuse := false } := by rintro rfl; cases hb
    simp only [List.mem_append, List.mem_cons, List.not_mem_nil, hbf, false_or, or_false]
    constructor
    · rintro (h1 | h1)
      · exact ⟨.inl h1, fun e => hside.1 (e ▸ h1)⟩
      · exact ⟨.inr (.inr h1), fun e => hside.2 (e ▸ h1)⟩
    · rintro ⟨h1 | h1 | h1, hne⟩
      · exact .inl h1
      · exact absurd h1 hne
      · exact .inr h1
  · have hb' : b ∈ pre ++ { c with inuse := false } :: post := by
      simp only [List.mem_append, List.mem_cons, List.not_mem_nil, or_false] at hb hbc ⊢
      tauto
    have hno := not_freeHeader (fits_setInuse H.fits) hb' hbu hx
    have hflag : x ≠ c.addr + 8 := by
      rintro rfl
      exact hno ⟨{ c with inuse := false }, by simp, rfl, by simp only; omega, by simp only; omega⟩
    exact (hout x fun hl => hno hl.freeHeader).trans (if_neg hflag)
  · refine tiles_coalesce _ ?_
    rw [tiles_append] at ht ⊢
    exact ht

/-! ### `krealloc` -/

/-- `extendChunkInPlace` takes its growing branch: the successor is free and passes the size test, as
    the code computes it. -/
def growsInPlace (h : Heap) (p n : ℕ) : Bool :=
  let c := header h.mem (p - 32)
  let d := header h.mem c.next
  decide (c.size < align16 n) && decide (c.next ≠ 0) && !d.inuse &&
    decide (add64 (sub64 (align16 n) c.size) 32 ≤ d.size)

section realloc
variable {h : Heap} {pre post : List Chunk} {c d : Chunk} {r n : ℕ}

theorem extend_null (H : Holds h (pre ++ [c])) : extendChunkInPlace h r c.addr = .error .nullDeref := by
  obtain ⟨k, _, h0, hck, _, _, hn⟩ := seg_append.mp H.seg
  have hn' : (header h.mem k).next = 0 := hn
  subst hck
  simp [extendChunkInPlace, getNext_ok h0, hn', getInuse]

/-- The successor does not qualify: nothing is touched. -/
theorem extend_refused (H : Holds h (pre ++ c :: d :: post))
    (hno : d.inuse = true ∨ d.size < add64 (sub64 r c.size) 32) :
    extendChunkInPlace h r c.addr = .ok (0, h) := by
  obtain ⟨k, _, h0, hck, hsz, _, n0, hda, hsz', hu', _⟩ := seg_append.mp H.seg
  subst hck
  rcases hno with hu | hs
  · simp [extendChunkInPlace, getNext_ok h0, getInuse_ok n0, hu', hu]
  · simp [extendChunkInPlace, getNext_ok h0, getInuse_ok n0, getSize_ok h0, getSize_ok n0, hsz, hsz',
      Nat.not_le.mpr hs]

/-- The successor gives up `r - c.size` bytes. Its header moves up by that much and by 32 more, which
    leaves 32 bytes between the grown block and the free chunk that belong to neither. -/
theorem extend_grown (H : Holds h (pre ++ c :: d :: post)) (hd : d.inuse = false) (hlt : c.size < r)
    (hr : r % 16 = 0) (hfit : r - c.size + 32 ≤ d.size) :
    ∃ m', extendChunkInPlace h r c.addr = .ok (c.ptr, { h with mem := m' }) ∧
      Holds { h with mem := m' } (pre ++ ⟨c.addr, r, c.inuse⟩ ::
        ⟨d.addr + 32 + (r - c.size), d.size - (r - c.size) - 32, false⟩ :: post) ∧
      ∀ x, (x < c.addr ∨ c.addr + 32 ≤ x) → (x < d.addr + 32 ∨ d.stop ≤ x) → m' x = h.mem x := by
  obtain ⟨R, hst, hav, hseg, hf⟩ := H
  have hhi := R.hi_lt
  obtain ⟨f1, f2, f3, f4, g1, g2, g3, g4⟩ := fits_append.mp hf
  have hstop := g4.le
  have hc0 := hseg.addr_ne_zero c (by simp)
  have hd0 := hseg.addr_ne_zero d (by simp)
  obtain ⟨k, _, _, hck, hsz, hu, _, hda, hsz', hu', hpost⟩ := seg_append.mp hseg
  subst hck
  rw [← hda] at hsz' hu' hpost
  have hpa := hpost.head_eq
  have hpn : (header h.mem d.addr).next < 2 ^ 64 := Mem.load64_lt _ _
  unfold Chunk.stop at g1 hstop
  generalize he : r - c.size = e at *
  have hext : sub64 r c.size = e := by rw [sub64_of_le (by omega) (by omega)]; omega
  have htest : add64 e 32 = e + 32 := add64_of_lt (by omega)
  have hsp : add64 (add64 d.addr 32) e = d.addr + 32 + e := by
    rw [add64_of_lt (a := d.addr) (by omega), add64_of_lt (by omega)]
  have hrest : sub64 (sub64 d.size e) 32 = d.size - e - 32 := by
    rw [sub64_of_le (a := d.size) (by omega) (by omega), sub64_of_le (by omega) (by omega)]
  have hgrow : add64 c.size e = r := by rw [add64_of_lt (by omega)]; omega
  have hptr : add64 c.addr 32 = c.ptr := add64_of_lt (by omega)
  generalize hs : d.addr + 32 + e = s at *
  have s0 : s ≠ 0 := by omega
  have hsd : Apart s d.addr := by right; omega
  have hsc : Apart s c.addr := by right; omega
  have hcs : Apart c.addr s := by left; omega
  have hnext : (header h.mem c.addr).next = d.addr := hda.symm
  -- the memory after the five writes
  set m' : Mem := (((((h.mem.store64 s (d.size - e - 32)).store8 (s + 8) 0).store64 (s + 16)
    (header h.mem d.addr).next).store64 c.addr r).store64 (c.addr + 16) s) with hm'
  have hcode : extendChunkInPlace h r c.addr = .ok (c.ptr, { h with mem := m' }) := by
    simp [extendChunkInPlace, getNext_ok hc0, getNext_ok hd0, getInuse_ok hd0, getSize_ok hc0,
      getSize_ok hd0, setSize_ok s0, setInuse_ok s0, setNext_ok s0, setSize_ok hc0, setNext_ok hc0,
      hnext, hu', hd, hsz, hsz', hext, htest, hfit, hsp, hrest, hgrow, hptr,
      header_setInuse_apart hsd, header_setSize_apart hsd, header_setInuse_apart hsc,
      header_setSize_apart hsc, header_setNext_apart hsc, hm']
  have hout : ∀ x, (x < c.addr ∨ c.addr + 32 ≤ x) → (x < d.addr + 32 ∨ d.stop ≤ x) →
      m' x = h.mem x := by
    intro x h1 h2
    unfold Chunk.stop at h2
    rw [hm', Mem.store64_out (by omega), Mem.store64_out (by omega), Mem.store64_out (by omega),
      Mem.store8_out (by omega), Mem.store64_out (by omega)]
  have hz (m : Mem) : header (m.store8 (s + 8) 0) s = ⟨(header m s).size, false, (header m s).next⟩ :=
    header_setInuse (b := false)
  have hhc : header m' c.addr = ⟨r, c.inuse, s⟩ := by
    rw [hm', header_setNext (by omega), header_setSize (by omega), header_setNext_apart hsc,
      header_setInuse_apart hsc, header_setSize_apart hsc, hu]
  have hhs : header m' s = ⟨d.size - e - 32, false, headAddr post⟩ := by
    rw [hm', header_setNext_apart hcs, header_setSize_apart hcs, header_setNext hpn, hz,
      header_setSize (by omega), hpa]
  refine ⟨m', hcode, ⟨R, hst, hav, ?_, ?_⟩, hout⟩
  · refine @seg_replace h.mem m' pre [c, d] [⟨c.addr, r, c.inuse⟩, ⟨s, d.size - e - 32, false⟩] post h.start
      hseg (fun b hb => header_congr fun x _ hx => ?_) (fun b hb => header_congr fun x hx _ => ?_)
      fun k hk => ?_
    · have := (f1.bounds b hb).2.1
      unfold Chunk.stop at this
      exact hout x (by omega) (by omega)
    · have := (g4.bounds b hb).1
      unfold Chunk.stop at this
      exact hout x (by omega) (by unfold Chunk.stop; omega)
    · obtain ⟨_, rfl, _⟩ := hk
      simp only [Seg, hhc, hhs]
      simp [hc0, s0]
  · rw [fits_append]
    refine ⟨f1, le_refl _, f3, hr, ?_, ?_, ?_, ?_⟩
    · simp only [Chunk.stop]; omega
    · simp only; omega
    · simp only; omega
    · refine g4.mono ?_
      simp only [Chunk.stop]; omega

end realloc

/-- Writes into the payload of a chunk leave the list alone. -/
theorem Holds.of_payload {h : Heap} {cs : List Chunk} {b : Chunk} {m' : Mem} (H : Holds h cs)
    (hb : b ∈ cs) (hout : ∀ x, ¬ b.Owns x → m' x = h.mem x) : Holds { h with mem := m' } cs := by
  refine ⟨H.region, H.start_eq, H.avail_eq, H.seg.congr fun c hc => header_congr fun x h1 h2 =>
    hout x ?_, H.fits⟩
  unfold Chunk.Owns Chunk.ptr
  rcases H.fits.apart c hc b hb with rfl | h3 | h3
  · omega
  · unfold Chunk.stop at h3 ⊢; omega
  · unfold Chunk.stop at h3 ⊢; omega

/-- The block a call hands back in place of `c`, and the bytes it carries over. `memcpy` stops after
    `2 ^ 31` of them. -/
structure Moved (h h' : Heap) (cs : List Chunk) (c b : Chunk) (r : ℕ) : Prop where
  inuse : b.inuse = true
  fresh : b ∈ cs → b = c
  large : r ≤ b.size
  data : ∀ i, i < min c.size r → i < 2 ^ 31 → h'.mem (b.ptr + i) = h.mem (c.ptr + i)

theorem relocate_edit {h : Heap} {cs : List Chunk} {c : Chunk} {r : ℕ} {copied : ℕ → ℕ → ℕ}
    (H : Holds h cs) (hmem : c ∈ cs) (hc : c.inuse = true) (hin : c.ptr < h.heapEnd)
    (hr : align16 r = r) (hcp : copied c.size r = min c.size r) :
    (relocate h c.ptr c.addr r copied = .ok (0, h) ∧ ¬ Room r cs) ∨
    (Room r cs ∧ ∃ h' cs' b, relocate h c.ptr c.addr r copied = .ok (b.ptr, h') ∧
      Edit True h h' cs cs' [c] [b] ∧ Moved h h' cs c b r) := by
  have hcase := kalloc_edit H r
  rw [hr] at hcase
  rcases hcase with ⟨hk, hno⟩ | ⟨hroom, h1, cs1, b, hk, E1, hbu, hbs, hbn⟩
  · exact .inl ⟨by simp [relocate, hk], hno⟩
  have hb1 : b ∈ cs1 := (E1.used b hbu).mpr (.inl (by simp))
  have hc1 : c ∈ cs1 := (E1.used c hc).mpr (.inr ⟨hmem, by simp⟩)
  have hne : b ≠ c := fun e => hbn (e ▸ hmem)
  have hhi := E1.holds.region.hi_lt
  have hbb := E1.holds.fits.bounds b hb1
  have hcb := E1.holds.fits.bounds c hc1
  have hbp : b.ptr = b.addr + 32 := rfl
  have hcptr : c.ptr = c.addr + 32 := rfl
  have hapart : c.stop ≤ b.addr ∨ b.stop ≤ c.addr :=
    (E1.holds.fits.apart c hc1 b hb1).resolve_left (Ne.symm hne)
  unfold Chunk.stop at hbb hcb hapart
  have hc0 := E1.holds.seg.addr_ne_zero c hc1
  have hsz := (E1.holds.seg.header_of_mem c hc1).1
  -- the copy stays inside the new block
  have hcopy := @memcpy_flat Fault h1.mem b.ptr c.ptr (min c.size r)
    (by omega) (by omega) (by omega) (by omega)
  generalize hk' : min (min c.size r) (2 ^ 31) = k at hcopy
  have H2 : Holds { h1 with mem := copyBytes h1.mem b.ptr c.ptr k } cs1 := by
    refine E1.holds.of_payload hb1 fun x hx => if_neg ?_
    unfold Chunk.Owns Chunk.stop at hx; omega
  obtain ⟨h3, cs3, hf, E3⟩ := kfree_edit H2 hc1 hc (show c.ptr < h1.heapEnd from E1.end_eq ▸ hin)
  have hb0 : b.ptr ≠ 0 := by omega
  refine .inr ⟨hroom, h3, cs3, b, ?_, ⟨E3.start_eq.trans E1.start_eq, E3.end_eq.trans E1.end_eq, E3.holds,
    fun e he => ?_, fun e he heu hec x hx => ?_, fun hm => E3.merged (E1.merged hm), fun _ ht => ?_⟩,
    hbu, fun hb => absurd hb hbn, hbs, fun i hi hi31 => ?_⟩
  · simp [relocate, hk, hb0, getSize_ok hc0, hsz, hcp, hcopy, hf]
  · rw [E3.used e he, E1.used e he]
    simp only [List.mem_singleton, List.not_mem_nil, false_or, not_false_eq_true, and_true]
    constructor
    · rintro ⟨h1 | h1, h2⟩
      · exact .inl h1
      · exact .inr ⟨h1, h2⟩
    · rintro (rfl | ⟨h1, h2⟩)
      · exact ⟨.inl rfl, hne⟩
      · exact ⟨.inr h1, h2⟩
  · have he1 : e ∈ cs1 := (E1.used e heu).mpr (.inr ⟨he, by simp⟩)
    have heb : e ≠ b := fun h => hbn (h ▸ he)
    rw [E3.bytes e he1 heu hec x hx, ← E1.bytes e he heu (by simp) x hx]
    refine if_neg ?_
    have := (E1.holds.fits.apart e he1 b hb1).resolve_left heb
    unfold Chunk.Owns Chunk.ptr at hx
    unfold Chunk.stop at this hx; omega
  · have := E3.tiles trivial
    simp only [E1.start_eq, E1.end_eq] at this
    exact this (E1.tiles trivial ht)
  · have hown : b.Owns (b.ptr + i) := by unfold Chunk.Owns Chunk.stop; omega
    rw [E3.bytes b hb1 hbu (by simpa using hne) _ hown,
      ← E1.bytes c hmem hc (by simp) (c.ptr + i) (by unfold Chunk.Owns Chunk.stop; omega)]
    show copyBytes h1.mem b.ptr c.ptr k (b.ptr + i) = _
    rw [copyBytes, if_pos ⟨by omega, by omega⟩, Nat.add_sub_cancel_left]

/-- Nothing moves: the block is handed back as it is. -/
theorem edit_same {h : Heap} {cs : List Chunk} {c : Chunk} {tight : Prop} (H : Holds h cs)
    (hmem : c ∈ cs) : Edit tight h h cs cs [c] [c] := by
  refine ⟨rfl, rfl, H, fun b _ => ?_, fun _ _ _ _ _ _ => rfl, id, fun _ => id⟩
  simp only [List.mem_singleton]
  constructor
  · intro hb; by_cases e : b = c
    · exact .inl e
    · exact .inr ⟨hb, e⟩
  · rintro (rfl | ⟨hb, _⟩)
    · exact hmem
    · exact hb

/-- The split of a shrinking block: the list with its tail as a chunk of its own, before the merge. -/
theorem shrink_split {h : Heap} {pre post : List Chunk} {c : Chunk} {r : ℕ}
    (H : Holds h (pre ++ c :: post)) (hc : c.inuse = true) (hr : r % 16 = 0)
    (hlt : r + 36 < c.size) :
    ∃ m, shrinkChunk h.mem c.addr r (c.size - r) = .ok m ∧
      Holds { h with mem := m } (pre ++ ⟨c.addr, r, true⟩ ::
        ⟨c.addr + 32 + r, c.size - r - 32, false⟩ :: post) ∧
      ∀ x, (x < c.addr ∨ c.addr + 32 ≤ x) → (x < c.addr + 32 + r ∨ c.stop ≤ x) →
        m x = h.mem x := by
  have hmem : c ∈ pre ++ c :: post := by simp
  have hhi := H.region.hi_lt
  have hcb := H.fits.bounds c hmem
  have hc0 := H.seg.addr_ne_zero c hmem
  unfold Chunk.stop at hcb
  obtain ⟨k, _, _, hck, hsz, hu, hpost⟩ := seg_append.mp H.seg
  subst hck
  obtain ⟨m, hm, S⟩ := @shrinkChunk_spec h.mem c.addr r (c.size - r) hc0 (by omega)
    (by rw [hsz]; omega) (by omega)
  have hout : ∀ x, (x < c.addr ∨ c.addr + 32 ≤ x) → (x < c.addr + 32 + r ∨ c.stop ≤ x) →
      m x = h.mem x := by
    intro x h1 h2
    unfold Chunk.stop at h2
    exact S.out x h1 (by omega)
  refine ⟨m, hm, ⟨H.region, H.start_eq, H.avail_eq, ?_, ?_⟩, hout⟩
  · refine @seg_replace_one h.mem m pre post [⟨c.addr, r, true⟩, ⟨c.addr + 32 + r, c.size - r - 32, false⟩] c _ _ _
      H.seg H.fits (fun x hx => ?_) ?_
    · unfold Chunk.stop at hx
      exact S.out x (by omega) (by omega)
    · simp only [Seg, S.old, S.new, hu, hc, hpost.head_eq]
      simp [hc0]
  · obtain ⟨f1, f2, f3, f4, f5⟩ := fits_append.mp H.fits
    refine fits_append.mpr ⟨f1, le_refl _, f3, hr, ?_, ?_, ?_, ?_⟩
    · simp only [Chunk.stop]; omega
    · simp only; omega
    · simp only; omega
    · exact f5.mono (by simp only [Chunk.stop]; omega)

/-- A block shrunk in place gives its tail back to the list. -/
theorem shrink_edit {h : Heap} {pre post : List Chunk} {c : Chunk} {r : ℕ}
    (H : Holds h (pre ++ c :: post)) (hc : c.inuse = true) (hr : r % 16 = 0)
    (hlt : r + 36 < c.size) :
    ∃ m h', shrinkChunk h.mem c.addr r (c.size - r) = .ok m ∧
      coalesceChunk { h with mem := m } = .ok h' ∧
      ∃ cs', Edit True h h' (pre ++ c :: post) cs' [c] [⟨c.addr, r, true⟩] ∧
        Moved h h' (pre ++ c :: post) c ⟨c.addr, r, true⟩ r := by
  have hmem : c ∈ pre ++ c :: post := by simp
  have hside := not_mem_sides H.fits
  obtain ⟨m, hm, H1, hsplit⟩ := shrink_split H hc hr hlt
  obtain ⟨m', hco, H2, hout⟩ := coalesceChunk_spec H1
  have hf1 := H1.fits
  generalize hb : (⟨c.addr, r, true⟩ : Chunk) = b at *
  generalize hf : (⟨c.addr + 32 + r, c.size - r - 32, false⟩ : Chunk) = f at *
  have hbin : b ∈ pre ++ b :: f :: post := by simp
  have hbu : b.inuse = true := by rw [← hb]
  have keep : ∀ e ∈ pre ++ b :: f :: post, e.inuse = true → ∀ x, e.Owns x → m' x = m x :=
    fun e he heu x hx => hout x fun hl => not_freeHeader hf1 he heu hx hl.freeHeader
  refine ⟨m, _, hm, hco, _, ⟨rfl, rfl, H2, fun e he => ?_, fun e he heu hec x hx => ?_,
    fun _ => merged_coalesce _, fun _ ht => ?_⟩, hbu, fun hmb => H.ptr_inj hmb hmem (by rw [← hb]; rfl),
    by rw [← hb], fun i hi _ => ?_⟩
  · rw [mem_coalesce_inuse _ e he]
    have hef : e ≠ f := by rintro rfl; rw [← hf] at he; cases he
    simp only [List.mem_append, List.mem_cons, List.not_mem_nil, hef, false_or, or_false]
    constructor
    · rintro (h1 | h1 | h1)
      · exact .inr ⟨.inl h1, fun e => hside.1 (e ▸ h1)⟩
      · exact .inl h1
      · exact .inr ⟨.inr (.inr h1), fun e => hside.2 (e ▸ h1)⟩
    · rintro (h1 | ⟨h1 | h1 | h1, hne⟩)
      · exact .inr (.inl h1)
      · exact .inl h1
      · exact absurd h1 hne
      · exact .inr (.inr h1)
  · have hec' : e ≠ c := by simpa using hec
    have he' : e ∈ pre ++ b :: f :: post := by
      simp only [List.mem_append, List.mem_cons] at he ⊢; tauto
    show m' x = _
    rw [keep e he' heu x hx]
    unfold Chunk.Owns Chunk.ptr at hx
    have hap := (H.fits.apart e he c hmem).resolve_left hec'
    unfold Chunk.stop at hap hx
    exact hsplit x (by omega) (by unfold Chunk.stop; omega)
  · refine tiles_coalesce _ (tiles_append.mpr ?_)
    obtain ⟨t1, t2⟩ := tiles_append.mp ht
    have hstop : f.stop = c.stop := by rw [← hf]; simp only [Chunk.stop]; omega
    have hba : b.addr = c.addr := by rw [← hb]
    rw [hba]
    refine ⟨t1, hba, ?_, ?_⟩
    · rw [← hb, ← hf]; rfl
    · rw [hstop]; exact t2.2
  · have hbp : b.ptr = c.ptr := by rw [← hb]; rfl
    rw [hbp]
    show m' (c.ptr + i) = h.mem (c.ptr + i)
    rw [keep b hbin hbu _ (by rw [← hb]; simp only [Chunk.Owns, Chunk.ptr, Chunk.stop]; omega)]
    exact hsplit _ (by unfold Chunk.ptr; omega) (by unfold Chunk.ptr; omega)

/-- The growing branch as an edit. It is the one edit that does not keep the tiling. -/
theorem grow_edit {h : Heap} {pre post : List Chunk} {c d : Chunk} {r : ℕ}
    (H : Holds h (pre ++ c :: d :: post)) (hc : c.inuse = true) (hd : d.inuse = false)
    (hlt : c.size < r) (hr : r % 16 = 0) (hfit : r - c.size + 32 ≤ d.size) :
    ∃ h' cs', extendChunkInPlace h r c.addr = .ok (c.ptr, h') ∧
      Edit False h h' (pre ++ c :: d :: post) cs' [c] [⟨c.addr, r, true⟩] ∧
      Moved h h' (pre ++ c :: d :: post) c ⟨c.addr, r, true⟩ r := by
  obtain ⟨m', hx, H', hout⟩ := extend_grown H hd hlt hr hfit
  rw [hc] at H'
  have hside := not_mem_sides H.fits
  obtain ⟨f1, f2, f3, f4, g1, g2, g3, g4⟩ := fits_append.mp H.fits
  unfold Chunk.stop at g1
  have hcs : c ∉ post := fun h => hside.2 (List.mem_cons_of_mem _ h)
  have hcd : c ≠ d := by rintro rfl; rw [hc] at hd; cases hd
  refine ⟨_, _, hx, ⟨rfl, rfl, H', fun e he => ?_, fun e he heu hec x hx => ?_, fun hm => ?_,
    False.elim⟩, rfl, fun hmb => H.ptr_inj hmb (by simp) rfl, le_refl _, fun i hi _ => ?_⟩
  · have hed : e ≠ d := by rintro rfl; rw [hd] at he; cases he
    have hes (a s : ℕ) : e ≠ ⟨a, s, false⟩ := by rintro rfl; cases he
    simp only [List.mem_append, List.mem_cons, List.not_mem_nil, hed, hes, false_or, or_false]
    constructor
    · rintro (h1 | h1 | h1)
      · exact .inr ⟨.inl h1, fun e => hside.1 (e ▸ h1)⟩
      · exact .inl h1
      · exact .inr ⟨.inr (.inr h1), fun e => hcs (e ▸ h1)⟩
    · rintro (h1 | ⟨h1 | h1 | h1, hne⟩)
      · exact .inr (.inl h1)
      · exact .inl h1
      · exact absurd h1 hne
      · exact .inr (.inr h1)
  · have hec' : e ≠ c := by simpa using hec
    have hed : e ≠ d := by rintro rfl; rw [hd] at heu; cases heu
    unfold Chunk.Owns Chunk.ptr at hx
    have h1 := (H.fits.apart e he c (by simp)).resolve_left hec'
    have h2 := (H.fits.apart e he d (by simp)).resolve_left hed
    exact hout x (by unfold Chunk.stop at h1 hx; omega) (by unfold Chunk.stop at h2 hx ⊢; omega)
  · refine (merged_congr ?_).mpr hm
    simp [hc, hd]
  · refine hout _ ?_ ?_
    · simp only [Chunk.ptr]; omega
    · simp only [Chunk.ptr]; omega

/-- The last chunk of the list has to grow: the code reads through its `NULL` link. -/
theorem krealloc_last {h : Heap} {pre : List Chunk} {c : Chunk} (H : Holds h (pre ++ [c])) {n : ℕ}
    (hlt : c.size < align16 n) : krealloc h c.ptr n = .error .nullDeref := by
  have hhi := H.region.hi_lt
  have hcb := H.fits.bounds c (by simp)
  unfold Chunk.stop at hcb
  have hc0 := H.seg.addr_ne_zero c (by simp)
  have hsz := (H.seg.header_of_mem c (by simp)).1
  have hp0 : c.ptr ≠ 0 := by unfold Chunk.ptr; omega
  have hsub : sub64 c.ptr 32 = c.addr := by
    unfold Chunk.ptr; rw [sub64_of_le (by omega) (by omega)]; omega
  simp [krealloc, hp0, hsub, getSize_ok hc0, hsz, hlt, extend_null H]

/-- The outcomes of `krealloc` on a block in use: `NULL` read through when the last chunk of the list
    has to grow; refusal with the heap as it was, for want of a free chunk to move to; or one block in
    place of the old one. -/
theorem krealloc_outcome {h : Heap} {pre post : List Chunk} {c : Chunk}
    (H : Holds h (pre ++ c :: post)) (hc : c.inuse = true) (n : ℕ)
    (hw : growsInPlace h c.ptr n = true → align16 n - c.size + 32 < 2 ^ 64) :
    (krealloc h c.ptr n = .error .nullDeref ∧ c.size < align16 n ∧ post = []) ∨
    (krealloc h c.ptr n = .ok (0, h) ∧ c.size ≠ align16 n ∧ c.size < align16 n + 36 ∧
      ¬ Room (align16 n) (pre ++ c :: post)) ∨
    ((align16 n < c.size → c.size < align16 n + 36 → Room (align16 n) (pre ++ c :: post)) ∧
      ∃ h' cs' b, krealloc h c.ptr n = .ok (b.ptr, h') ∧
      Edit (growsInPlace h c.ptr n = false) h h' (pre ++ c :: post) cs' [c] [b] ∧
      Moved h h' (pre ++ c :: post) c b (align16 n)) := by
  have hmem : c ∈ pre ++ c :: post := by simp
  have hal := align16_mod n
  have hidem := align16_align16 n
  have hrlt := align16_lt n
  have hhi := H.region.hi_lt
  have hcb := H.fits.bounds c hmem
  unfold Chunk.stop at hcb
  obtain ⟨k, _, h0, hck, hsz, _, hpost⟩ := seg_append.mp H.seg
  subst hck
  have hp0 : c.ptr ≠ 0 := by unfold Chunk.ptr; omega
  have hsub : sub64 c.ptr 32 = c.addr := by
    unfold Chunk.ptr; rw [sub64_of_le (by omega) (by omega)]; omega
  have hsub' : c.ptr - 32 = c.addr := by unfold Chunk.ptr; omega
  have same : krealloc h c.ptr n = .ok (c.ptr, h) → c.size ≥ align16 n →
      ∃ h' cs' b, krealloc h c.ptr n = .ok (b.ptr, h') ∧
        Edit (growsInPlace h c.ptr n = false) h h' (pre ++ c :: post) cs' [c] [b] ∧
        Moved h h' (pre ++ c :: post) c b (align16 n) :=
    fun hk hge => ⟨h, _, c, hk, edit_same H hmem, hc, fun _ => rfl, hge, fun _ _ _ => rfl⟩
  rcases lt_trichotomy c.size (align16 n) with hlt | heq | hgt
  · -- growing
    have hext : sub64 (align16 n) c.size = align16 n - c.size := sub64_of_le (by omega) hrlt
    match post, H, hpost with
    | [], H, _ =>
      exact .inl ⟨krealloc_last H hlt, hlt, rfl⟩
    | d :: post, H, ⟨n0, hda, hsz', hu', _⟩ =>
      have hbd := H.fits.bounds d (by simp)
      have hcd : c.stop ≤ d.addr := (fits_append.mp H.fits).2.2.2.2.1
      unfold Chunk.stop at hbd hcd
      have hgi : growsInPlace h c.ptr n = (!d.inuse && decide (add64 (align16 n - c.size) 32 ≤ d.size)) := by
        simp [growsInPlace, hsub', hsz, hsz', hu', hlt, n0, hext]
      by_cases hg : growsInPlace h c.ptr n = true
      · have hg' := hg
        rw [hgi] at hg'
        simp only [Bool.and_eq_true, Bool.not_eq_true', decide_eq_true_eq] at hg'
        rw [add64_of_lt (hw hg)] at hg'
        obtain ⟨h', cs', hx, E, M⟩ := grow_edit H hc hg'.1 hlt hal hg'.2
        refine .inr (.inr ⟨fun hc => absurd hc (by omega), h', cs', ⟨c.addr, align16 n, true⟩, ?_, ?_, M⟩)
        · show krealloc h c.ptr n = .ok (c.ptr, h')
          simp [krealloc, hp0, hsub, getSize_ok h0, hsz, hlt, hx]
        · exact { E with tiles := fun hf => absurd hg (by simp [hf]) }
      · have hno : d.inuse = true ∨ d.size < add64 (sub64 (align16 n) c.size) 32 := by
          rw [hgi] at hg
          rw [hext]
          cases hdu : d.inuse <;> simp_all
        have hx := extend_refused H hno
        rcases @relocate_edit h _ c (align16 n) (fun old new => if old < new then old else new)
            H (by simp) hc (by unfold Chunk.ptr; omega) hidem (by simp only [if_pos hlt]; omega) with
          ⟨hk, hno⟩ | ⟨hroom, h', cs', b, hk, E, M⟩
        · exact .inr (.inl ⟨by simp [krealloc, hp0, hsub, getSize_ok h0, hsz, hlt, hx, hk], by omega,
            by omega, hno⟩)
        · exact .inr (.inr ⟨fun _ _ => hroom, h', cs', b, by
            simp [krealloc, hp0, hsub, getSize_ok h0, hsz, hlt, hx, hk],
            { E with tiles := fun _ => E.tiles trivial }, M⟩)
  · refine .inr (.inr ⟨fun hc => absurd hc (by omega), same ?_ (by omega)⟩)
    simp [krealloc, hp0, hsub, getSize_ok h0, hsz, heq]
  · -- shrinking
    have hleft : sub64 c.size (align16 n) = c.size - align16 n := sub64_of_le (by omega) (by omega)
    have hnlt : ¬ c.size < align16 n := by omega
    by_cases hbig : c.size - align16 n > MIN_CHUNK_SIZE
    · have hb36 : c.size - align16 n > 36 := hbig
      obtain ⟨m, h', hm, hco, cs', E, M⟩ := shrink_edit H hc hal (by omega)
      refine .inr (.inr ⟨fun _ hc => absurd hc (by omega), h', cs', ⟨c.addr, align16 n, true⟩, ?_,
        { E with tiles := fun _ => E.tiles trivial }, M⟩)
      have hptr : add64 c.addr 32 = c.ptr := add64_of_lt (by omega)
      show krealloc h c.ptr n = .ok (c.ptr, h')
      simp [krealloc, hp0, hsub, getSize_ok h0, hsz, hnlt, hgt, hleft, hbig, hm, hco, hptr]
    · by_cases hsm : c.size - align16 n < MIN_CHUNK_SIZE
      · rcases @relocate_edit h _ c (align16 n) (fun old new => if old > new then new else old)
            H hmem hc (by unfold Chunk.ptr; omega) hidem (by simp only [gt_iff_lt, if_pos hgt]; omega) with
          ⟨hk, hno⟩ | ⟨hroom, h', cs', b, hk, E, M⟩
        · have hs36 : c.size - align16 n < 36 := hsm
          exact .inr (.inl ⟨by
            simp [krealloc, hp0, hsub, getSize_ok h0, hsz, hnlt, hgt, hleft, hbig, hsm, hk], by omega,
            by omega, hno⟩)
        · exact .inr (.inr ⟨fun _ _ => hroom, h', cs', b, by
            simp [krealloc, hp0, hsub, getSize_ok h0, hsz, hnlt, hgt, hleft, hbig, hsm, hk],
            { E with tiles := fun _ => E.tiles trivial }, M⟩)
      · have hs36 : ¬ c.size - align16 n < 36 := hsm
        refine .inr (.inr ⟨fun _ hc => absurd hc (by omega), same ?_ (by omega)⟩)
        simp [krealloc, hp0, hsub, getSize_ok h0, hsz, hnlt, hgt, hleft, hbig, hsm]

end TerraOS.Kheap
