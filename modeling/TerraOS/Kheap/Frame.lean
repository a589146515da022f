import TerraOS.Kheap.Store

/-! What the heap leaves alone.

    Every call writes inside the region that `heap_init` was given, and reads nothing outside it: what a
    client holds does not depend on the rest of memory. -/

namespace TerraOS.Kheap
open Lib Lib.Word

/-- `m` differs from the heap's memory inside its region only. -/
def Within (h : Heap) (m : Mem) : Prop := ∀ x, (x < h.heapStart ∨ h.heapEnd ≤ x) → m x = h.mem x

section
variable {h h' : Heap} {m : Mem} {cs pre post : List Chunk} {c : Chunk} {n q r : ℕ}

theorem Within.rfl : Within h h.mem := fun _ _ => Eq.refl _

theorem Within.trans {m' : Mem} (h1 : Within h h'.mem) (hs : h'.heapStart = h.heapStart)
    (he : h'.heapEnd = h.heapEnd) (h2 : Within h' m') : Within h m' := by
  intro x hx
  rw [h2 x (by rwa [hs, he]), h1 x hx]

/-- Changes to the bytes of one chunk. -/
theorem Holds.within (H : Holds h cs) (hc : c ∈ cs) (hm : ∀ x, (x < c.addr ∨ c.stop ≤ x) → m x = h.mem x) :
    Within h m := by
  intro x hx
  have hb := H.fits.bounds c hc
  exact hm x (by omega)

/-- A merge writes to chunks alone. -/
theorem Holds.freeLink_inside (H : Holds h cs) {x : ℕ} (hx : FreeLink cs x) : h.heapStart ≤ x ∧ x < h.heapEnd := by
  obtain ⟨c, hc, _, hl⟩ := hx
  have hb := H.fits.bounds c hc
  unfold Chunk.Link at hl
  unfold Chunk.stop at hb
  omega

/-! ### The calls -/

theorem heapInit_within {lo hi : ℕ} (R : Span lo hi) (he : heapInit m lo hi = .ok h) {x : ℕ} (hx : x < lo ∨ hi ≤ x) :
    h.mem x = m x := by
  obtain ⟨_, _, _, hout⟩ := heapInit_holds R.lo_al R.hi_al R.room R.hi_lt he
  have hroom := R.room
  exact hout x (by omega)

theorem kalloc_within (H : Holds h cs) (hk : kalloc h n = .ok (q, h')) : Within h h'.mem := by
  rcases kalloc_spec H n with ⟨hk', _⟩ | ⟨pre, c, post, m', rfl, _, _, _, hk', _, hout⟩
  · rw [hk'] at hk
    obtain ⟨_, rfl⟩ := Prod.mk.inj (Except.ok.inj hk)
    exact .rfl
  · rw [hk'] at hk
    obtain ⟨_, rfl⟩ := Prod.mk.inj (Except.ok.inj hk)
    exact H.within (by simp) hout

theorem coalesceChunk_within (H : Holds h cs) (hk : coalesceChunk h = .ok h') : Within h h'.mem := by
  obtain ⟨m', hk', _, hout⟩ := coalesceChunk_spec H
  rw [hk'] at hk
  obtain rfl := Except.ok.inj hk
  intro x hx
  refine hout x fun hl => ?_
  have := H.freeLink_inside hl
  omega

theorem kfree_within (H : Holds h cs) (hmem : c ∈ cs) (hc : c.inuse = true) (hk : kfree h c.ptr = .ok h') :
    Within h h'.mem := by
  by_cases hin : h.heapEnd ≤ c.ptr
  · rw [kfree_end hin] at hk
    obtain rfl := Except.ok.inj hk
    exact .rfl
  · obtain ⟨pre, post, rfl⟩ := List.append_of_mem hmem
    obtain ⟨m', hk', H', hout⟩ := kfree_spec H hc (by omega)
    rw [hk'] at hk
    obtain rfl := Except.ok.inj hk
    have hb := H.fits.bounds c hmem
    unfold Chunk.stop at hb
    intro x hx
    refine (hout x fun hl => ?_).trans (if_neg (by omega))
    obtain ⟨d, hd, _, hlink⟩ := hl
    have hbd := (fits_setInuse (u := false) H.fits).bounds d hd
    unfold Chunk.Link at hlink
    unfold Chunk.stop at hbd
    omega

/-- The relocating tail: the new block is carved out, filled, and the old one merged away. -/
theorem relocate_within {copied : ℕ → ℕ → ℕ} (H : Holds h cs) (hmem : c ∈ cs) (hc : c.inuse = true)
    (hr : align16 r = r) (hcp : copied c.size r = min c.size r)
    (hk : relocate h c.ptr c.addr r copied = .ok (q, h')) : Within h h'.mem := by
  have hcase := kalloc_edit H r
  rw [hr] at hcase
  rcases hcase with ⟨hka, _⟩ | ⟨_, h1, cs1, b, hka, E1, hbu, hbs, hbn⟩
  · simp only [relocate, hka, ok_bind, if_pos, pure_ok] at hk
    obtain ⟨_, rfl⟩ := Prod.mk.inj (Except.ok.inj hk)
    exact .rfl
  have hb1 : b ∈ cs1 := (E1.used b hbu).mpr (.inl (by simp))
  have hc1 : c ∈ cs1 := (E1.used c hc).mpr (.inr ⟨hmem, by simp⟩)
  have hne : c ≠ b := fun e => hbn (e ▸ hmem)
  have hhi := E1.holds.region.hi_lt
  have hbb := E1.holds.fits.bounds b hb1
  have hcb := E1.holds.fits.bounds c hc1
  have hap := (E1.holds.fits.apart c hc1 b hb1).resolve_left hne
  have hbp : b.ptr = b.addr + 32 := Eq.refl _
  have hcptr : c.ptr = c.addr + 32 := Eq.refl _
  unfold Chunk.stop at hbb hcb hap
  have hcopy := @memcpy_flat Fault h1.mem b.ptr c.ptr (min c.size r)
    (by omega) (by omega) (by omega) (by omega)
  generalize hk' : min (min c.size r) (2 ^ 31) = k at hcopy
  have hout : ∀ x, ¬ b.Owns x → copyBytes h1.mem b.ptr c.ptr k x = h1.mem x := by
    intro x hx
    refine if_neg ?_
    unfold Chunk.Owns Chunk.stop at hx
    omega
  have hc0 := E1.holds.seg.addr_ne_zero c hc1
  have hsz := (E1.holds.seg.header_of_mem c hc1).1
  have hb0 : b.ptr ≠ 0 := by omega
  have H2 := E1.holds.of_payload hb1 hout
  simp only [relocate, hka, ok_bind, if_neg hb0, getSize_ok hc0, hsz, hcp, hcopy, bind_eq_ok, pure_ok] at hk
  obtain ⟨h3, hf, hk⟩ := hk
  obtain ⟨_, rfl⟩ := Prod.mk.inj (Except.ok.inj hk)
  have hcopied : Within h1 (copyBytes h1.mem b.ptr c.ptr k) := E1.holds.within hb1 fun x hx => hout x fun hown => by
    unfold Chunk.Owns Chunk.stop at hown
    unfold Chunk.stop at hx
    omega
  have hfilled : Within h ({ h1 with mem := copyBytes h1.mem b.ptr c.ptr k } : Heap).mem :=
    (kalloc_within H hka).trans E1.start_eq E1.end_eq hcopied
  exact hfilled.trans E1.start_eq E1.end_eq (kfree_within H2 hc1 hc hf)

/-- A successor that qualifies gives up its front; the bytes written are its own and the block's header. -/
theorem extendChunkInPlace_within {d : Chunk} (H : Holds h (pre ++ c :: d :: post)) (hlt : c.size < r)
    (hr : r % 16 = 0) (hr64 : r + 32 < 2 ^ 64) (hk : extendChunkInPlace h r c.addr = .ok (q, h')) :
    Within h h'.mem ∧ (q = 0 → h' = h) := by
  by_cases hno : d.inuse = true ∨ d.size < add64 (sub64 r c.size) 32
  · rw [extend_refused H hno] at hk
    obtain ⟨_, rfl⟩ := Prod.mk.inj (Except.ok.inj hk)
    exact ⟨.rfl, fun _ => Eq.refl _⟩
  · rw [not_or, Bool.not_eq_true, Nat.not_lt, sub64_of_le (by omega) (by omega), add64_of_lt (by omega)] at hno
    obtain ⟨m', hx, _, hout⟩ := extend_grown H hno.1 hlt hr hno.2
    rw [hx] at hk
    obtain ⟨rfl, rfl⟩ := Prod.mk.inj (Except.ok.inj hk)
    have hcb := H.fits.bounds c (by simp)
    have hdb := H.fits.bounds d (by simp)
    refine ⟨fun x hx => hout x ?_ ?_, fun h0 => ?_⟩
    · unfold Chunk.stop at hcb
      omega
    · unfold Chunk.stop at hdb ⊢
      omega
    · unfold Chunk.ptr at h0
      omega

/-- `krealloc`, in all its ways to return. -/
theorem krealloc_within (H : Holds h cs) (hmem : c ∈ cs) (hc : c.inuse = true) (hn : align16 n + 32 < 2 ^ 64)
    (hk : krealloc h c.ptr n = .ok (q, h')) : Within h h'.mem := by
  obtain ⟨pre, post, rfl⟩ := List.append_of_mem hmem
  have hal := align16_mod n
  have hidem := align16_align16 n
  have hhi := H.region.hi_lt
  have hcb := H.fits.bounds c hmem
  unfold Chunk.stop at hcb
  have hc0 := H.seg.addr_ne_zero c hmem
  have hsz := (H.seg.header_of_mem c hmem).1
  have hp0 : c.ptr ≠ 0 := by
    unfold Chunk.ptr
    omega
  have hsub : sub64 c.ptr 32 = c.addr := by
    unfold Chunk.ptr
    rw [sub64_of_le (by omega) (by omega), Nat.add_sub_cancel]
  simp only [krealloc, if_neg hp0, hsub, getSize_ok hc0, hsz, ok_bind] at hk
  rcases lt_trichotomy c.size (align16 n) with hlt | heq | hgt
  · -- growing: in place, or else by moving
    rw [if_pos hlt, bind_eq_ok] at hk
    obtain ⟨⟨ext, h1⟩, hx, hk⟩ := hk
    cases post with
    | nil =>
      rw [extend_null H] at hx
      cases hx
    | cons d post =>
      obtain ⟨hext, hsame⟩ := extendChunkInPlace_within H hlt hal hn hx
      by_cases h0 : ext = 0
      · rw [if_neg (not_not.mpr h0), hsame h0] at hk
        exact relocate_within H hmem hc hidem (by rw [if_pos hlt, Nat.min_eq_left hlt.le]) hk
      · rw [if_pos h0] at hk
        obtain ⟨_, rfl⟩ := Prod.mk.inj (Except.ok.inj hk)
        exact hext
  · rw [if_neg (by omega), if_neg (by omega)] at hk
    obtain ⟨_, rfl⟩ := Prod.mk.inj (Except.ok.inj hk)
    exact .rfl
  · -- shrinking: the tail split off, a move, or nothing
    rw [if_neg (by omega), if_pos hgt, sub64_of_le hgt.le (by omega)] at hk
    by_cases hbig : c.size - align16 n > MIN_CHUNK_SIZE
    · have hb36 : c.size - align16 n > 36 := hbig
      obtain ⟨m, hm, H1, hsplit⟩ := shrink_split H hc hal (by omega)
      simp only [if_pos hbig, hm, ok_bind, bind_eq_ok] at hk
      obtain ⟨h1, hco, hk⟩ := hk
      obtain ⟨_, rfl⟩ := Prod.mk.inj (Except.ok.inj hk)
      have hsplit' : Within h ({ h with mem := m } : Heap).mem := fun x hx =>
        hsplit x (by omega) (by unfold Chunk.stop; omega)
      exact hsplit'.trans (Eq.refl _) (Eq.refl _) (coalesceChunk_within H1 hco)
    · rw [if_neg hbig] at hk
      by_cases hsm : c.size - align16 n < MIN_CHUNK_SIZE
      · rw [if_pos hsm] at hk
        exact relocate_within H hmem hc hidem (by rw [if_pos hgt, Nat.min_eq_right hgt.le]) hk
      · rw [if_neg hsm] at hk
        obtain ⟨_, rfl⟩ := Prod.mk.inj (Except.ok.inj hk)
        exact .rfl

end

/-! ### The client -/

section
variable {s s' : Client} {cs : List Chunk} {lo hi : ℕ} {m : Mem}

/-- A legal step changes no byte outside the region. -/
theorem exec_within {op : Op} (I : Inv s cs) (h1 : s.heap.heapStart = lo) (h2 : s.heap.heapEnd = hi)
    (hsmall : hi - lo ≤ 2 ^ 31) (hl : Legal s op) (h : exec s op = .ok s') : Within s.heap s'.heap.mem := by
  have hav : s.heap.avail = hi - lo := by rw [I.holds.avail_eq, h1, h2]
  have hround : ∀ n, n ≤ s.heap.avail → align16 n + 32 < 2 ^ 64 := by
    intro n hn
    have := (le_align16 (n := n) (by omega)).2
    omega
  cases op with
  | kalloc n =>
    simp only [exec, bind_eq_ok] at h
    obtain ⟨⟨q, h'⟩, hk, h⟩ := h
    obtain rfl := Except.ok.inj h
    exact kalloc_within I.holds hk
  | kfree p =>
    simp only [exec, bind_eq_ok] at h
    obtain ⟨h', hk, h⟩ := h
    obtain rfl := Except.ok.inj h
    obtain ⟨c, hc, hcu, rfl, _⟩ := I.chunk hl
    exact kfree_within I.holds hc hcu hk
  | krealloc p n =>
    simp only [exec, bind_eq_ok] at h
    obtain ⟨⟨q, h'⟩, hk, h⟩ := h
    obtain rfl := Except.ok.inj h
    rcases hl.1 with rfl | hp
    · have hkr : krealloc s.heap 0 n = kalloc s.heap (align16 n) := by simp [krealloc]
      exact kalloc_within I.holds (hkr ▸ hk)
    · obtain ⟨c, hc, hcu, rfl, _⟩ := I.chunk hp
      exact krealloc_within I.holds hc hcu (hround n hl.2) hk
  | write a b =>
    obtain rfl := Except.ok.inj h
    obtain ⟨p, hp, ha, hlt⟩ := hl
    obtain ⟨c, hc, _, rfl, hcap⟩ := I.chunk hp
    rw [hcap] at hlt
    refine I.holds.within hc fun x hx => Mem.store8_out ?_
    unfold Chunk.ptr at ha hlt
    unfold Chunk.stop at hx
    omega

/-- Memory that agrees with the heap's inside its region. -/
def Inside (h : Heap) (m : Mem) : Prop := ∀ x, h.heapStart ≤ x → x < h.heapEnd → m x = h.mem x

/-- The heap and its client in other memory. -/
def Client.inMem (s : Client) (m : Mem) : Client := ⟨{ s.heap with mem := m }, s.live⟩

/-- They do not see what is outside. -/
theorem Inv.inMem (I : Inv s cs) (hm : Inside s.heap m) : Inv (s.inMem m) cs := by
  obtain ⟨H, hlive, hnodup, hmerged⟩ := I
  refine ⟨⟨H.region, H.start_eq, H.avail_eq, H.seg.congr fun c hc => header_congr fun x h1 h2 => ?_, H.fits⟩,
    hlive, hnodup, hmerged⟩
  have hb := H.fits.bounds c hc
  unfold Chunk.stop at hb
  exact hm x (by omega) (by omega)

theorem blocks_inMem (I : Inv s cs) (hm : Inside s.heap m) : blocks (s.inMem m) = blocks s := by
  funext p
  by_cases hp : p ∈ s.live
  · obtain ⟨c, hc, _, rfl, _⟩ := I.chunk hp
    rw [I.block hc hp, (I.inMem hm).block hc hp]
    have hb := I.holds.fits.bounds c hc
    refine congrArg some (Mem.bytes_congr fun i hi => hm _ ?_ ?_)
    · unfold Chunk.ptr
      omega
    · unfold Chunk.ptr
      unfold Chunk.stop at hb
      omega
  · rw [blocks_none hp]
    exact blocks_none hp

end

end TerraOS.Kheap
