import TerraOS.Kheap.Lists

/-! The code carries out the list operations.

    `Holds h cs`: the memory of `h` holds the chunk list `cs`, laid out in the heap's region. Under it
    each function of kheap.c returns (its walks end, no field is read through `NULL` unless it says
    so), the memory then holds the list the abstract operation gives, and every byte outside the
    chunks it edits is unchanged. -/

namespace TerraOS.Kheap
open Lib Lib.Word

/-- A region a heap can be built in. -/
structure Region (lo hi : ℕ) : Prop where
  lo_pos : 0 < lo
  lo_al : lo % 16 = 0
  hi_al : hi % 16 = 0
  room : lo + 32 ≤ hi
  hi_lt : hi < 2 ^ 64

/-- The heap `h` holds the chunk list `cs`. -/
structure Holds (h : Heap) (cs : List Chunk) : Prop where
  region : Region h.heapStart h.heapEnd
  start_eq : h.start = h.heapStart
  avail_eq : h.avail = h.heapEnd - h.heapStart
  seg : Seg h.mem h.start cs 0
  fits : Fits h.heapStart h.heapEnd cs

theorem align16_eq (n : ℕ) : align16 n = add64 n 15 / 16 * 16 := by
  have hm := and_mask (k := 4) (n := 64) (add64 n 15) (by decide)
  have hlt := add64_lt n 15
  rw [Nat.mod_eq_of_lt hlt] at hm
  exact hm

theorem align16_mod (n : ℕ) : align16 n % 16 = 0 := by rw [align16_eq]; omega

theorem align16_lt (n : ℕ) : align16 n < 2 ^ 64 := by
  have := add64_lt n 15
  rw [align16_eq]; omega

theorem align16_align16 (n : ℕ) : align16 (align16 n) = align16 n := by
  have h1 := align16_mod n
  have h2 := align16_lt n
  rw [align16_eq (align16 n)]; unfold add64; omega

/-- Rounding up, for requests that do not wrap. -/
theorem le_align16 {n : ℕ} (h : n + 15 < 2 ^ 64) : n ≤ align16 n ∧ align16 n < n + 16 := by
  rw [align16_eq, add64_of_lt h]; omega

/-- A request of at most `a` bytes, `a` a multiple of 16, rounds to at most `a`. -/
theorem align16_le {n a : ℕ} (h : n ≤ a) (ha : a % 16 = 0) (hlt : a + 15 < 2 ^ 64) :
    align16 n ≤ a := by
  rw [align16_eq, add64_of_lt (by omega)]; omega

/-! ### `heap_init` -/

theorem heapInit_holds {m : Mem} {lo hi : ℕ} {h : Heap} (hlo : lo % 16 = 0) (hhi : hi % 16 = 0)
    (hroom : lo + 32 ≤ hi) (hlt : hi < 2 ^ 64) (he : heapInit m lo hi = .ok h) :
    Holds h [⟨lo, hi - lo - 32, false⟩] ∧ h.heapStart = lo ∧ h.heapEnd = hi ∧
      ∀ x, x < lo ∨ lo + 32 ≤ x → h.mem x = m x := by
  rcases Nat.eq_zero_or_pos lo with rfl | hpos
  · simp [heapInit, setSize] at he
  · have h0 : lo ≠ 0 := by omega
    simp only [heapInit, setSize_ok h0, setInuse_ok h0, setNext_ok h0, ok_bind, pure_ok,
      Except.ok.injEq] at he
    subst he
    have ha : sub64 (sub64 hi lo) 32 = hi - lo - 32 := by
      rw [sub64_of_le (by omega) hlt, sub64_of_le (by omega) (by omega)]
    refine ⟨⟨⟨hpos, hlo, hhi, hroom, hlt⟩, rfl, sub64_of_le (by omega) hlt, ?_, ?_⟩, rfl, rfl, ?_⟩
    · simp only [Seg, header_setNext (show 0 < 2 ^ 64 by decide), header_setInuse, ha,
        header_setSize (show hi - lo - 32 < 2 ^ 64 by omega)]
      simp [h0]
    · simp only [Fits, Chunk.stop]; omega
    · intro x hx
      show ((((m.store64 lo _).store8 (lo + 8) _).store64 (lo + 16) 0) : Mem) x = m x
      rw [Mem.store64_out (by omega), Mem.store8_out (by omega), Mem.store64_out (by omega)]

/-! ### `kalloc` -/

/-- The walk of `kalloc` stops at the first fit, or at the end of the list. -/
theorem findChunk_unfit {m : Mem} {r : ℕ} : ∀ {pre : List Chunk} {a b fuel : ℕ}, Seg m a pre b →
    (∀ c ∈ pre, Unfit r c) → findChunk m r (pre.length + fuel) a = findChunk m r fuel b
  | [], a, b, fuel, h, _ => by rw [show a = b from h, List.length_nil, Nat.zero_add]
  | c :: cs, a, b, fuel, ⟨h0, _, h2, h3, h4⟩, hu => by
    rw [List.length_cons, Nat.add_right_comm, findChunk, if_neg h0, getInuse_ok h0, getSize_ok h0,
      getNext_ok h0]
    simp only [ok_bind, h2, h3]
    rw [if_neg (by rcases hu c (List.mem_cons_self ..) with h | h <;> simp [h])]
    exact findChunk_unfit h4 fun d hd => hu d (List.mem_cons_of_mem _ hd)

theorem findChunk_none {m : Mem} {r a fuel : ℕ} {cs : List Chunk} (h : Seg m a cs 0)
    (hu : ∀ c ∈ cs, Unfit r c) (hf : cs.length < fuel) : findChunk m r fuel a = .ok 0 := by
  obtain ⟨k, rfl⟩ : ∃ k, fuel = cs.length + (k + 1) := ⟨fuel - cs.length - 1, by omega⟩
  rw [findChunk_unfit h hu, findChunk, if_pos rfl]

theorem findChunk_some {m : Mem} {r a fuel : ℕ} {pre post : List Chunk} {c : Chunk}
    (h : Seg m a (pre ++ c :: post) 0) (hu : ∀ d ∈ pre, Unfit r d) (hc : c.inuse = false)
    (hr : r ≤ c.size) (hf : pre.length < fuel) : findChunk m r fuel a = .ok c.addr := by
  obtain ⟨b, h1, h0, hb, h2, h3, _⟩ := seg_append.mp h
  obtain ⟨k, rfl⟩ : ∃ k, fuel = pre.length + (k + 1) := ⟨fuel - pre.length - 1, by omega⟩
  rw [findChunk_unfit h1 hu, findChunk, if_neg h0, getInuse_ok h0, getSize_ok h0]
  simp only [ok_bind, h2, h3]
  rw [if_pos (by simp [hc, hr]), hb]

/-- Rewriting a stretch of a list. The rest of the list keeps its headers, so the new list is read off
    the headers of the new stretch. -/
theorem seg_replace {m m' : Mem} {pre old mid post : List Chunk} {a : ℕ}
    (h : Seg m a (pre ++ (old ++ post)) 0)
    (hpre : ∀ d ∈ pre, header m' d.addr = header m d.addr)
    (hpost : ∀ d ∈ post, header m' d.addr = header m d.addr)
    (hmid : ∀ k, Seg m k old (headAddr post) → Seg m' k mid (headAddr post)) :
    Seg m' a (pre ++ (mid ++ post)) 0 := by
  obtain ⟨k, h1, h2⟩ := seg_append.mp h
  obtain ⟨l, h3, h4⟩ := seg_append.mp h2
  obtain rfl := h4.head_eq
  exact seg_append.mpr ⟨k, h1.congr hpre, seg_append.mpr ⟨_, hmid k h3, h4.congr hpost⟩⟩

/-- Rewriting one chunk into chunks inside its bytes. -/
theorem seg_replace_one {m m' : Mem} {pre post mid : List Chunk} {c : Chunk} {a lo hi : ℕ}
    (h : Seg m a (pre ++ c :: post) 0) (hf : Fits lo hi (pre ++ c :: post))
    (hout : ∀ x, x < c.addr ∨ c.stop ≤ x → m' x = m x)
    (hmid : Seg m' c.addr mid (headAddr post)) : Seg m' a (pre ++ (mid ++ post)) 0 := by
  obtain ⟨f1, f2⟩ := fits_append.mp hf
  refine @seg_replace m m' pre [c] mid post a h (fun d hd => header_congr fun x _ hx => hout x ?_)
    (fun d hd => header_congr fun x hx _ => hout x ?_) fun k hk => hk.2.1 ▸ hmid
  · have := (f1.bounds d hd).2.1
    unfold Chunk.stop at this; omega
  · have := (f2.2.2.2.bounds d hd).1
    omega

/-- What both splits leave behind: the old header shortened and pointing at the new one, the new one
    free and pointing where the old one did, no other byte changed. -/
structure Split (m m' : Mem) (c n size rest : ℕ) : Prop where
  old : header m' c = ⟨size, (header m c).inuse, n⟩
  new : header m' n = ⟨rest, false, (header m c).next⟩
  out : ∀ x, (x < c ∨ c + 32 ≤ x) → (x < n ∨ n + 32 ≤ x) → m' x = m x

theorem splitChunk_spec {m : Mem} {c size left : ℕ} (h0 : c ≠ 0) (hl : 32 ≤ left)
    (hlt : c + 32 + size + left < 2 ^ 64) :
    ∃ m', splitChunk m c size left = .ok m' ∧ Split m m' c (c + 32 + size) size (left - 32) := by
  have hn : add64 (add64 c 32) size = c + 32 + size := by
    rw [add64_of_lt (a := c) (by omega), add64_of_lt (by omega)]
  have hr : sub64 left 32 = left - 32 := sub64_of_le hl (by omega)
  have hnx : (header m c).next < 2 ^ 64 := Mem.load64_lt m (c + 16)
  rw [splitChunk, hn, hr]
  generalize hne : c + 32 + size = n at *
  have n0 : n ≠ 0 := by omega
  have hcn : Apart c n := by left; omega
  have hnc : Apart n c := by right; omega
  simp only [setSize_ok n0, setInuse_ok n0, setNext_ok n0, setSize_ok h0, setNext_ok h0,
    getNext_ok h0, ok_bind, header_setInuse_apart hnc, header_setSize_apart hnc]
  refine ⟨_, rfl, ?_, ?_, ?_⟩
  · rw [header_setSize (by omega), header_setNext (by omega), header_setNext_apart hnc,
      header_setInuse_apart hnc, header_setSize_apart hnc]
  · rw [header_setSize_apart hcn, header_setNext_apart hcn, header_setNext hnx, header_setInuse,
      header_setSize (by omega)]
  · intro x hx1 hx2
    rw [Mem.store64_out (by omega), Mem.store64_out (by omega), Mem.store64_out (by omega),
      Mem.store8_out (by omega), Mem.store64_out (by omega)]

theorem shrinkChunk_spec {m : Mem} {c size left : ℕ} (h0 : c ≠ 0) (hl : 32 ≤ left)
    (hsz : (header m c).size = size + left) (hlt : c + 32 + size + left < 2 ^ 64) :
    ∃ m', shrinkChunk m c size left = .ok m' ∧ Split m m' c (c + 32 + size) size (left - 32) := by
  have hn : add64 (add64 c 32) size = c + 32 + size := by
    rw [add64_of_lt (a := c) (by omega), add64_of_lt (by omega)]
  have hr : sub64 left 32 = left - 32 := sub64_of_le hl (by omega)
  have hnx : (header m c).next < 2 ^ 64 := Mem.load64_lt m (c + 16)
  rw [shrinkChunk, hn, hr]
  generalize hne : c + 32 + size = n at *
  have n0 : n ≠ 0 := by omega
  have hcn : Apart c n := by left; omega
  have hnc : Apart n c := by right; omega
  have hs : sub64 (header m c).size left = size := by rw [hsz, sub64_of_le (by omega) (by omega)]; omega
  simp only [setSize_ok n0, setInuse_ok n0, setNext_ok n0, setSize_ok h0, setNext_ok h0,
    getNext_ok h0, getSize_ok h0, ok_bind, header_setInuse_apart hnc, header_setSize_apart hnc,
    header_setNext_apart hnc, hs]
  refine ⟨_, rfl, ?_, ?_, ?_⟩
  · rw [header_setNext (by omega), header_setSize (by omega), header_setNext_apart hnc,
      header_setInuse_apart hnc, header_setSize_apart hnc]
  · rw [header_setNext_apart hcn, header_setSize_apart hcn, header_setNext hnx, header_setInuse,
      header_setSize (by omega)]
  · intro x hx1 hx2
    rw [Mem.store64_out (by omega), Mem.store64_out (by omega), Mem.store64_out (by omega),
      Mem.store8_out (by omega), Mem.store64_out (by omega)]

/-- Taking a chunk of at least `r` bytes carves it up in place. -/
theorem takeChunk_spec {m : Mem} {c : Chunk} {r : ℕ} (h0 : c.addr ≠ 0) (hle : r ≤ c.size)
    (hsz : (header m c.addr).size = c.size) (hlt : c.stop < 2 ^ 64) :
    ∃ m', takeChunk m c.addr r = .ok m' ∧ Seg m' c.addr (carve r c) (header m c.addr).next ∧
      ∀ x, x < c.addr ∨ c.stop ≤ x → m' x = m x := by
  unfold Chunk.stop at hlt
  have hleft : sub64 c.size r = c.size - r := sub64_of_le hle (by omega)
  rw [takeChunk, getSize_ok h0, ok_bind, hsz, hleft, carve]
  have hh (m' : Mem) : header (m'.store8 (c.addr + 8) 1) c.addr =
      ⟨(header m' c.addr).size, true, (header m' c.addr).next⟩ := header_setInuse (b := true)
  by_cases hsplit : c.size - r > MIN_CHUNK_SIZE
  · have hs36 : c.size - r > 36 := hsplit
    obtain ⟨m1, hm1, S⟩ := @splitChunk_spec m c.addr r (c.size - r) h0 (by omega) (by omega)
    have hcn : Apart c.addr (c.addr + 32 + r) := by left; omega
    rw [if_pos hsplit, if_pos hsplit, hm1]
    simp only [ok_bind, setInuse_ok h0]
    refine ⟨_, rfl, ?_, fun x hx => ?_⟩
    · simp only [Seg, if_true, hh, S.old, header_setInuse_apart hcn, S.new]
      simp [h0]
    · unfold Chunk.stop at hx
      rw [Mem.store8_out (by omega), S.out x (by omega) (by omega)]
  · rw [if_neg hsplit, if_neg hsplit]
    simp only [pure_ok, ok_bind, setInuse_ok h0]
    refine ⟨_, rfl, ?_, fun x hx => ?_⟩
    · simp only [Seg, if_true, hh, hsz]
      simp [h0]
    · unfold Chunk.stop at hx
      rw [Mem.store8_out (by omega)]

/-- The outcome of `kalloc`: refused with nothing changed, or the first fitting chunk carved up, with
    no byte outside that chunk changed. -/
theorem kalloc_spec {h : Heap} {cs : List Chunk} (H : Holds h cs) (n : ℕ) :
    (kalloc h n = .ok (0, h) ∧ ∀ c ∈ cs, Unfit (align16 n) c) ∨
    ∃ pre c post m', cs = pre ++ c :: post ∧ c.inuse = false ∧ align16 n ≤ c.size ∧
      (∀ d ∈ pre, Unfit (align16 n) d) ∧ kalloc h n = .ok (c.ptr, { h with mem := m' }) ∧
      Holds { h with mem := m' } (pre ++ (carve (align16 n) c ++ post)) ∧
      ∀ x, x < c.addr ∨ c.stop ≤ x → m' x = h.mem x := by
  obtain ⟨R, hst, hav, hseg, hfit⟩ := H
  have hlen := hfit.length_le
  have hhi := R.hi_lt
  have hal := align16_mod n
  rw [kalloc]
  generalize align16 n = r at *
  by_cases hbig : r > h.avail
  · -- the early test refuses what no chunk could hold
    refine .inl ⟨by simp [hbig], fun c hc => .inr ?_⟩
    have := hfit.bounds c hc
    unfold Chunk.stop at this; omega
  rcases firstFit_cases r cs with ⟨_, hall⟩ | ⟨pre, c, post, rfl, hfree, hle, hpre, _⟩
  · have hwalk : cs.length < WALK := by simp only [WALK]; omega
    have hfind := findChunk_none hseg hall hwalk
    exact .inl ⟨by simp [hbig, hfind], hall⟩
  · have hwalk : pre.length < WALK := by
      simp only [WALK, List.length_append, List.length_cons] at hlen ⊢
      omega
    have hfind := findChunk_some hseg hpre hfree hle hwalk
    have hc0 := hseg.addr_ne_zero c (by simp)
    have hcb := hfit.bounds c (by simp)
    obtain ⟨k, _, _, hck, hcs, _, hpost⟩ := seg_append.mp hseg
    rw [← hck] at hcs hpost
    obtain ⟨m', htake, hmid, hout⟩ := takeChunk_spec hc0 hle hcs (by omega)
    rw [hpost.head_eq] at hmid
    refine .inr ⟨pre, c, post, m', rfl, hfree, hle, hpre, ?_, ⟨R, hst, hav, ?_, ?_⟩, hout⟩
    · have hptr : add64 c.addr 32 = c.ptr := add64_of_lt (by unfold Chunk.stop at hcb; omega)
      simp [hbig, hfind, hc0, htake, hptr]
    · exact seg_replace_one hseg hfit hout hmid
    · obtain ⟨b, rest, hb, hba, _⟩ := carve_head hle
      have hf := fits_append.mp hfit
      have hcarve := fits_carve hal hle hf.2
      rw [hb, List.cons_append] at hcarve ⊢
      exact fits_append.mpr (hba ▸ ⟨hf.1, hcarve⟩)

/-! ### `coalesce_chunk` and `kfree` -/

/-- `x` is a header byte of a free chunk. -/
def FreeHeader (cs : List Chunk) (x : ℕ) : Prop :=
  ∃ c ∈ cs, c.inuse = false ∧ c.addr ≤ x ∧ x < c.addr + 32

/-- `x` is a byte of the `size` or the `next` of `c`. -/
def Chunk.Link (c : Chunk) (x : ℕ) : Prop := (c.addr ≤ x ∧ x < c.addr + 8) ∨ (c.addr + 16 ≤ x ∧ x < c.addr + 24)

/-- `x` is such a byte of a free chunk: the only bytes a merge writes. -/
def FreeLink (cs : List Chunk) (x : ℕ) : Prop := ∃ c ∈ cs, c.inuse = false ∧ c.Link x

theorem FreeLink.freeHeader {cs : List Chunk} {x : ℕ} (h : FreeLink cs x) : FreeHeader cs x := by
  obtain ⟨c, hc, hu, hl⟩ := h
  unfold Chunk.Link at hl
  exact ⟨c, hc, hu, by omega, by omega⟩

theorem absorbNext_spec {m : Mem} {c n cs ns : ℕ} (h0 : c ≠ 0) (n0 : n ≠ 0) (hap : Apart c n)
    (hcs : (header m c).size = cs) (hns : (header m n).size = ns) (hlt : cs + (32 + ns) < 2 ^ 64) :
    ∃ m', absorbNext m c n = .ok m' ∧
      header m' c = ⟨cs + (32 + ns), (header m c).inuse, (header m n).next⟩ ∧
      ∀ x, (x < c ∨ c + 8 ≤ x) → (x < c + 16 ∨ c + 24 ≤ x) → m' x = m x := by
  have hnx : (header m n).next < 2 ^ 64 := Mem.load64_lt m _
  have hsum : add64 cs (add64 32 ns) = cs + (32 + ns) := by
    rw [add64_of_lt (a := 32) (by omega), add64_of_lt (by omega)]
  simp only [absorbNext, getSize_ok h0, getSize_ok n0, hcs, hns, hsum, setSize_ok h0, setNext_ok h0,
    getNext_ok n0, ok_bind, header_setSize_apart hap]
  refine ⟨_, rfl, ?_, fun x hx hx' => ?_⟩
  · rw [header_setNext hnx, header_setSize (by omega)]
  · rw [Mem.store64_out (by omega), Mem.store64_out (by omega)]

/-- The merge loop, by induction along the list it walks. Each round either drops a chunk from the list
    or moves on, so it takes no more rounds than there are chunks. -/
theorem coalesceLoop_spec (cs : List Chunk) : ∀ {lo hi fuel a : ℕ} {m : Mem}, hi < 2 ^ 64 →
    Seg m a cs 0 → Fits lo hi cs → cs.length < fuel →
    ∃ m', coalesceLoop fuel m a = .ok m' ∧ Seg m' a (coalesce cs) 0 ∧
      ∀ x, ¬ FreeLink cs x → m' x = m x := by
  induction cs using coalesce_induction with
  | nil =>
    rintro lo hi (_ | fuel) a m - hs - hlen
    · simp at hlen
    · have ha : a = 0 := hs
      exact ⟨m, by rw [coalesceLoop, if_pos ha], hs, fun _ _ => rfl⟩
  | one c =>
    rintro lo hi (_ | fuel) a m - hs - hlen
    · simp at hlen
    · have h0 := hs.1
      have hn : (header m a).next = 0 := hs.2.2.2.2
      refine ⟨m, ?_, hs, fun _ _ => rfl⟩
      simp [coalesceLoop, h0, getNext_ok h0, hn]
  | merge c d cs hc hd ih =>
    rintro lo hi (_ | fuel) a m hhi hs hf hlen
    · simp at hlen
    · obtain ⟨h0, ha, hsz, hu, n0, hda, hsz', hu', hrest⟩ := hs
      obtain ⟨f1, f2, f3, g1, g2, g3, g4⟩ := hf
      have hstop := g4.le
      have hbd := g4.bounds
      unfold Chunk.stop at g1 hstop hbd
      obtain ⟨m1, hm1, hh, hout⟩ := absorbNext_spec (m := m) h0 n0 (by left; omega) hsz hsz' (by omega)
      have hseg1 : Seg m1 a ({ c with size := c.size + (32 + d.size) } :: cs) 0 := by
        refine ⟨h0, ha, by rw [hh], by rw [hh, hu], ?_⟩
        rw [hh]
        refine hrest.congr fun e he => header_congr fun x hx _ => ?_
        have := hbd e he
        exact hout x (by omega) (by omega)
      have hfit1 : Fits lo hi ({ c with size := c.size + (32 + d.size) } :: cs) :=
        ⟨f1, f2, by simp only; omega, g4.mono (by simp only [Chunk.stop]; omega)⟩
      have hlen1 : ({ c with size := c.size + (32 + d.size) } :: cs).length < fuel := by
        simp only [List.length_cons] at hlen ⊢
        omega
      obtain ⟨m2, hm2, hseg2, hout2⟩ := ih hhi hseg1 hfit1 hlen1
      refine ⟨m2, ?_, by rw [coalesce_free hc hd]; exact hseg2, fun x hx => ?_⟩
      · simp [coalesceLoop, h0, n0, getNext_ok h0, getInuse_ok h0, getInuse_ok n0, hu, hu', hc, hd,
          hm1, hm2]
      · have hcx : ¬ c.Link x := fun hl => hx ⟨c, by simp, hc, hl⟩
        unfold Chunk.Link at hcx
        rw [hout2 x, hout x (by omega) (by omega)]
        · rintro ⟨e, he, heu, hxe⟩
          rcases List.mem_cons.mp he with rfl | he
          · exact hx ⟨c, by simp, hc, hxe⟩
          · exact hx ⟨e, by simp [he], heu, hxe⟩
  | keep c d cs h ih =>
    rintro lo hi (_ | fuel) a m hhi hs hf hlen
    · simp at hlen
    · obtain ⟨h0, ha, hsz, hu, htail⟩ := hs
      obtain ⟨f1, f2, f3, f4⟩ := hf
      have n0 := htail.1
      have hu' := htail.2.2.2.1
      have hlen1 : (d :: cs).length < fuel := by
        simp only [List.length_cons] at hlen ⊢
        omega
      obtain ⟨m2, hm2, hseg2, hout2⟩ := ih hhi htail f4 hlen1
      -- the rest of the walk writes headers behind this one
      have hh : header m2 a = header m a := by
        refine header_congr fun x _ hx => hout2 x ?_
        rintro ⟨e, he, _, hxe⟩
        have := (f4.bounds e he).1
        unfold Chunk.stop at this
        unfold Chunk.Link at hxe
        omega
      refine ⟨m2, ?_, ?_, fun x hx => hout2 x ?_⟩
      · rcases h with h | h <;>
          simp [coalesceLoop, h0, n0, getNext_ok h0, getInuse_ok h0, getInuse_ok n0, hu, hu', h, hm2]
      · rw [coalesce_keep h]
        exact ⟨h0, ha, by rw [hh, hsz], by rw [hh, hu], by rw [hh]; exact hseg2⟩
      · rintro ⟨e, he, heu, hxe⟩
        exact hx ⟨e, List.mem_cons_of_mem _ he, heu, hxe⟩

theorem coalesceChunk_spec {h : Heap} {cs : List Chunk} (H : Holds h cs) :
    ∃ m', coalesceChunk h = .ok { h with mem := m' } ∧ Holds { h with mem := m' } (coalesce cs) ∧
      ∀ x, ¬ FreeLink cs x → m' x = h.mem x := by
  obtain ⟨R, hst, hav, hseg, hfit⟩ := H
  have hlen := hfit.length_le
  have hhi := R.hi_lt
  have hwalk : cs.length < WALK := by simp only [WALK]; omega
  obtain ⟨m', hm, hs, hout⟩ := coalesceLoop_spec cs hhi hseg hfit hwalk
  refine ⟨m', ?_, ⟨R, hst, hav, hs, fits_coalesce cs hfit⟩, hout⟩
  rw [coalesceChunk, hm]; rfl

/-- Freeing a block inside the region clears its flag and merges the whole list. -/
theorem kfree_spec {h : Heap} {pre post : List Chunk} {c : Chunk} (H : Holds h (pre ++ c :: post))
    (hc : c.inuse = true) (hin : c.ptr < h.heapEnd) :
    ∃ m', kfree h c.ptr = .ok { h with mem := m' } ∧
      Holds { h with mem := m' } (coalesce (pre ++ { c with inuse := false } :: post)) ∧
      ∀ x, ¬ FreeLink (pre ++ { c with inuse := false } :: post) x →
        m' x = if x = c.addr + 8 then 0 else h.mem x := by
  obtain ⟨R, hst, hav, hseg, hfit⟩ := H
  have hcb := hfit.bounds c (by simp)
  have hc0 := hseg.addr_ne_zero c (by simp)
  have hhi := R.hi_lt
  unfold Chunk.ptr at hin
  unfold Chunk.stop at hcb
  obtain ⟨k, h1, h0, hck, hsz, hu, hpost⟩ := seg_append.mp hseg
  rw [← hck] at hsz hu hpost
  have hhead : header (h.mem.store8 (c.addr + 8) 0) c.addr =
      ⟨c.size, false, headAddr post⟩ := by
    have := header_setInuse (m := h.mem) (c := c.addr) (b := false)
    simp only [Bool.false_eq_true, if_false] at this
    rw [this, hsz, ← hpost.head_eq]
  have H1 : Holds { h with mem := h.mem.store8 (c.addr + 8) 0 }
      (pre ++ { c with inuse := false } :: post) := by
    refine ⟨R, hst, hav, ?_, ?_⟩
    · refine @seg_replace_one h.mem _ pre post [{ c with inuse := false }] c _ _ _ hseg hfit
        (fun x hx => Mem.store8_out (by unfold Chunk.stop at hx; omega)) ?_
      simp only [Seg, hhead]
      simp [hc0]
    · rw [fits_append] at hfit ⊢
      exact hfit
  obtain ⟨m', hm, H2, hout⟩ := coalesceChunk_spec H1
  refine ⟨m', ?_, H2, fun x hx => ?_⟩
  · have hsub : sub64 c.ptr 32 = c.addr := by
      unfold Chunk.ptr; rw [sub64_of_le (by omega) (by omega)]; omega
    have hrange : ¬ (c.ptr < h.heapStart ∨ h.heapEnd ≤ c.ptr) := by unfold Chunk.ptr; omega
    have hp0 : c.ptr ≠ 0 := by unfold Chunk.ptr; omega
    simp [kfree, hp0, hrange, hsub, getInuse_ok hc0, setInuse_ok hc0, hu, hc, hm]
  · exact hout x hx

/-- A block at the very end of the region is refused by the range test and stays in use. -/
theorem kfree_end {h : Heap} {p : ℕ} (hp : h.heapEnd ≤ p) : kfree h p = .ok h := by
  have hr : p < h.heapStart ∨ h.heapEnd ≤ p := .inr hp
  by_cases h0 : p = 0 <;> simp [kfree, h0, hr]

end TerraOS.Kheap
