import TerraOS.Kheap.Layout

/-! What a request gets.

    Sizes are rounded up to 16 modulo `2^64`, so a request within 15 bytes of `2^64` is served as one of
    no bytes; and `extendChunkInPlace` adds a header to the bytes it needs, modulo `2^64` again. Away
    from these two wraps a pointer handed out has the bytes asked for behind it. Two more things go wrong
    in `krealloc`: the last chunk has no successor to look at, and a block that loses 16 or 32 bytes is
    moved although it could stay. -/

namespace TerraOS.Kheap
open Lib Lib.Word

/-! ### Enough room behind the pointer -/

/-- The answer `r` to a request of `n` bytes on heap `h`, with `others` the other live blocks: `NULL`
    and nothing changed, or `n` bytes of the region that meet no header and no other live block. A call
    that reads through `NULL` gives no answer. -/
def Sized (h : Heap) (others : List ℕ) (n : ℕ) (r : Except Fault (ℕ × Heap)) : Prop :=
  ∀ q h', r = .ok (q, h') → (q = 0 ∧ h' = h) ∨
    (q ≠ 0 ∧ h.heapStart + 32 ≤ q ∧ q + n ≤ h.heapEnd ∧ ∃ cs, Seg h'.mem h'.start cs 0 ∧
      ∀ x, q ≤ x → x < q + n → (∀ c ∈ cs, ¬ (c.addr ≤ x ∧ x < c.addr + 32)) ∧
        ∀ p ∈ others, ¬ (p ≤ x ∧ x < p + capacity h' p))

/-- No free chunk is left. -/
def Full (h : Heap) : Prop := ∃ cs, Seg h.mem h.start cs 0 ∧ ∀ c ∈ cs, c.inuse = true

/-- The request does not wrap, or what it wraps to is refused. -/
def Honest (s : Client) : Op → Prop
  | .kalloc n => n ≤ 2 ^ 64 - 16 ∨ Full s.heap
  | .krealloc p n => Steady s (.krealloc p n) ∧
      (n ≤ 2 ^ 64 - 16 ∨ ((capacity s.heap p = 16 ∨ capacity s.heap p = 32) ∧ Full s.heap))
  | _ => True

theorem full_iff {h : Heap} {cs : List Chunk} (H : Holds h cs) : Full h ↔ ¬ Room 0 cs := by
  rw [not_room]
  constructor
  · rintro ⟨ds, hw, hall⟩ c hc
    rw [H.seg.unique hw] at hc
    exact .inl (hall c hc)
  · exact fun h => ⟨cs, H.seg, fun c hc => (h c hc).resolve_right (Nat.not_lt_zero _)⟩

/-- A size that wraps rounds to nothing. -/
theorem align16_wraps {n : ℕ} (h : 2 ^ 64 - 16 < n) (hn : n < 2 ^ 64) : align16 n = 0 := by
  rw [align16_eq]; unfold add64; omega

/-- A block of at least `n` bytes answers the request. -/
theorem sized_of_block {h : Heap} {s' : Client} {cs' : List Chunk} {b : Chunk} {others : List ℕ} {n : ℕ}
    (I : Inv s' cs') (hb : b ∈ cs') (hn : n ≤ b.size) (hlive : s'.live = b.ptr :: others)
    (hstart : s'.heap.heapStart = h.heapStart) (hend : s'.heap.heapEnd = h.heapEnd) :
    Sized h others n (.ok (b.ptr, s'.heap)) := by
  intro q h' he
  obtain ⟨rfl, rfl⟩ := Prod.mk.inj (Except.ok.inj he)
  have hbb := I.holds.fits.bounds b hb
  have hbp : b.ptr = b.addr + 32 := rfl
  unfold Chunk.stop at hbb
  refine .inr ⟨by omega, by omega, by omega, cs', I.holds.seg, fun x h1 h2 => ⟨fun c hc hx => ?_,
    fun p hp hx => ?_⟩⟩
  · rcases I.holds.fits.apart b hb c hc with rfl | h3 | h3
    · omega
    · unfold Chunk.stop at h3; omega
    · unfold Chunk.stop at h3; omega
  · obtain ⟨c, hc, _, rfl, hcap⟩ := I.chunk (hlive ▸ List.mem_cons_of_mem _ hp)
    have hnd := I.nodup
    rw [hlive, List.nodup_cons] at hnd
    rw [hcap] at hx
    unfold Chunk.ptr at hx
    rcases I.holds.fits.apart b hb c hc with rfl | h3 | h3
    · exact hnd.1 hp
    · unfold Chunk.stop at h3; omega
    · unfold Chunk.stop at h3; omega

/-- A pointer returned for a size that no region holds is no answer. -/
theorem not_sized {h : Heap} {others : List ℕ} {n q : ℕ} {h' : Heap} {r : Except Fault (ℕ × Heap)}
    (R : Region h.heapStart h.heapEnd) (hr : r = .ok (q, h')) (hq : q ≠ 0) (hn : 2 ^ 64 - 48 < n) :
    ¬ Sized h others n r := by
  intro hs
  rcases hs q h' hr with ⟨h0, _⟩ | ⟨_, h1, h2, _⟩
  · exact hq h0
  · have := R.hi_lt
    have := R.lo_pos
    have := R.lo_al
    omega

theorem kalloc_sized {s : Client} {cs : List Chunk} (I : Inv s cs) {n : ℕ} (hn : n < 2 ^ 64) :
    Sized s.heap s.live n (kalloc s.heap n) ↔ Honest s (.kalloc n) := by
  simp only [Honest, full_iff I.holds]
  rcases kalloc_edit I.holds n with ⟨hk, hno⟩ | ⟨hroom, h', cs', b, hk, E, hbu, hbs, hbn⟩
  · refine ⟨fun _ => ?_, fun _ q h' he => .inl ?_⟩
    · by_cases hw : n ≤ 2 ^ 64 - 16
      · exact .inl hw
      · rw [align16_wraps (by omega) hn] at hno
        exact .inr hno
    · rw [hk] at he
      obtain ⟨rfl, rfl⟩ := Prod.mk.inj (Except.ok.inj he)
      exact ⟨rfl, rfl⟩
  · by_cases hw : n ≤ 2 ^ 64 - 16
    · refine ⟨fun _ => .inl hw, fun _ => ?_⟩
      have I' := (Effect.allocated (.kalloc n) E hbu hbn).inv I
      have hb' : b ∈ cs' := (E.used b hbu).mpr (.inl (by simp))
      have hle := (le_align16 (n := n) (by omega)).1
      rw [hk]
      exact sized_of_block I' hb' (by omega) rfl E.start_eq E.end_eq
    · rw [align16_wraps (by omega) hn] at hroom
      have hb0 : b.ptr ≠ 0 := by unfold Chunk.ptr; omega
      refine ⟨fun hs => absurd hs (not_sized I.holds.region hk hb0 (by omega)), fun h => ?_⟩
      rcases h with h | h
      · exact absurd h hw
      · exact absurd hroom h

/-- The growing branch of `extendChunkInPlace` hands back the block, whatever its sums come to. -/
theorem krealloc_grows {h : Heap} {pre post : List Chunk} {c : Chunk} (H : Holds h (pre ++ c :: post))
    {n : ℕ} (hg : growsInPlace h c.ptr n = true) : ∃ h', krealloc h c.ptr n = .ok (c.ptr, h') := by
  have hhi := H.region.hi_lt
  have hcb := H.fits.bounds c (by simp)
  unfold Chunk.stop at hcb
  have hc0 := H.seg.addr_ne_zero c (by simp)
  have hsub' : c.ptr - 32 = c.addr := by unfold Chunk.ptr; omega
  have hsub : sub64 c.ptr 32 = c.addr := by
    unfold Chunk.ptr; rw [sub64_of_le (by omega) (by omega)]; omega
  have hp0 : c.ptr ≠ 0 := by unfold Chunk.ptr; omega
  obtain ⟨k, _, h0, hck, hsz, _, hpost⟩ := seg_append.mp H.seg
  subst hck
  have hal := align16_mod n
  have hrlt := align16_lt n
  unfold growsInPlace at hg
  simp only [hsub', Bool.and_eq_true, decide_eq_true_eq, Bool.not_eq_true'] at hg
  obtain ⟨⟨⟨hlt, hn0⟩, hdu⟩, htest⟩ := hg
  match post, H, hpost with
  | [], _, hpost => exact absurd hpost hn0
  | d :: post, H, ⟨_, hda, hdsz, _, _⟩ =>
    have hdb := H.fits.bounds d (by simp)
    have hcd : c.stop ≤ d.addr := (fits_append.mp H.fits).2.2.2.2.1
    unfold Chunk.stop at hdb hcd
    have hext : sub64 (align16 n) c.size = align16 n - c.size := sub64_of_le (by omega) hrlt
    rw [hsz] at hlt htest
    rw [← hda] at hn0 hdu htest hdsz
    rw [hext, hdsz] at htest
    have hptr : add64 c.addr 32 ≠ 0 := by rw [add64_of_lt (by omega)]; omega
    -- the split lands at a sum that may wrap, but not to 0
    have hsplit : add64 (add64 d.addr 32) (align16 n - c.size) ≠ 0 := by
      rw [add64_of_lt (a := d.addr) (by omega)]
      unfold add64 at htest ⊢
      omega
    simp only [krealloc, hp0, hsub, getSize_ok h0, hsz, hlt, extendChunkInPlace, getNext_ok h0, ← hda,
      getInuse_ok hn0, hdu, getSize_ok hn0, hdsz, hext, htest, setSize_ok hsplit, setInuse_ok hsplit,
      getNext_ok hn0, setNext_ok hsplit, setSize_ok h0, setNext_ok h0, hptr, ok_bind, pure_ok, if_true,
      if_false, ge_iff_le, ne_eq, not_false_eq_true]
    exact ⟨_, rfl⟩

theorem krealloc_sized {s : Client} {cs : List Chunk} (I : Inv s cs) {p n : ℕ} (hp : p ∈ s.live)
    (hn : n < 2 ^ 64) :
    Sized s.heap (s.live.erase p) n (krealloc s.heap p n) ↔ Honest s (.krealloc p n) := by
  obtain ⟨c, hc, hcu, rfl, hcap⟩ := I.chunk hp
  obtain ⟨pre, post, rfl⟩ := List.append_of_mem hc
  have hcb := I.holds.fits.bounds c hc
  have hp0 : c.ptr ≠ 0 := by unfold Chunk.ptr; omega
  simp only [Honest, full_iff I.holds, hcap]
  by_cases hst : Steady s (.krealloc c.ptr n)
  · rcases krealloc_outcome I.holds hcu n (fun hg => hcap ▸ hst hp hg) with
      ⟨hk, hlt, _⟩ | ⟨hk, hne, hlt, hno⟩ | ⟨hroom, h', cs', b, hk, E, M⟩
    · have hle : n ≤ 2 ^ 64 - 16 := by
        by_contra hw
        rw [align16_wraps (by omega) hn] at hlt
        omega
      exact ⟨fun _ => ⟨hst, .inl hle⟩, fun _ q h' he => by rw [hk] at he; cases he⟩
    · refine ⟨fun _ => ⟨hst, ?_⟩, fun _ q h' he => .inl ?_⟩
      · by_cases hw : n ≤ 2 ^ 64 - 16
        · exact .inl hw
        · rw [align16_wraps (by omega) hn] at hne hlt hno
          exact .inr ⟨by omega, hno⟩
      · rw [hk] at he
        obtain ⟨rfl, rfl⟩ := Prod.mk.inj (Except.ok.inj he)
        exact ⟨rfl, rfl⟩
    · by_cases hw : n ≤ 2 ^ 64 - 16
      · refine ⟨fun _ => ⟨hst, .inl hw⟩, fun _ => ?_⟩
        have I' := (Effect.moved hc hcu hp E M).inv I
        have hb' : b ∈ cs' := (E.used b M.inuse).mpr (.inl (by simp))
        have hle := (le_align16 (n := n) (by omega)).1
        have hlarge := M.large
        rw [hk]
        exact sized_of_block I' hb' (by omega) rfl E.start_eq E.end_eq
      · rw [align16_wraps (by omega) hn] at hroom
        have hb0 : b.ptr ≠ 0 := by unfold Chunk.ptr; omega
        refine ⟨fun hs => absurd hs (not_sized I.holds.region hk hb0 (by omega)), fun h => ?_⟩
        rcases h.2 with h | ⟨hsz, hfull⟩
        · exact absurd h hw
        · exact absurd (hroom (by omega) (by omega)) hfull
  · -- the size test wraps: the block is handed back as it is
    refine ⟨fun hs => absurd hs ?_, fun h => absurd h.1 hst⟩
    simp only [Steady, not_forall] at hst
    obtain ⟨_, hg, hwrap⟩ := hst
    rw [hcap] at hwrap
    obtain ⟨h', hk⟩ := krealloc_grows I.holds hg
    have hr := align16_lt n
    have hle : 2 ^ 64 - 48 < n := by
      by_contra hs
      have := (le_align16 (n := n) (by omega)).2
      omega
    exact not_sized I.holds.region hk hp0 hle

/-- CORRECT: in every run on owned blocks, of any sizes, in which no in-place extension wraps its size
    test, and in the state it reaches, a request of `n` bytes is answered with `n` bytes or refused if and
    only if it does not wrap or is refused for want of any free chunk. -/
theorem requests_sized {m : Mem} {lo hi : ℕ} {h : Heap} {ops : List Op} {s : Client} (R : Span lo hi)
    (hinit : heapInit m lo hi = .ok h)
    (hrun : Run (fun s op => Owned s op ∧ Steady s op) exec ⟨h, []⟩ ops s) {n : ℕ} (hn : n < 2 ^ 64) :
    (Sized s.heap s.live n (kalloc s.heap n) ↔ Honest s (.kalloc n)) ∧
    ∀ p ∈ s.live, Sized s.heap (s.live.erase p) n (krealloc s.heap p n) ↔ Honest s (.krealloc p n) := by
  obtain ⟨cs, I, _, _⟩ := run_inv R hinit (fun _ _ h => h.1) (fun _ _ h _ => h.2) hrun
  exact ⟨kalloc_sized I hn, fun p hp => krealloc_sized I hp hn⟩

/-- A run of legal steps on a region short of the whole address space wraps no size test. -/
theorem steady_run {lo hi : ℕ} {h : Heap} {ops : List Op} {s : Client} {m : Mem} (R : Span lo hi)
    (hsmall : hi - lo ≤ 2 ^ 64 - 48) (hinit : heapInit m lo hi = .ok h)
    (hrun : Run Legal exec ⟨h, []⟩ ops s) :
    Run (fun s op => Legal s op ∧ Steady s op) exec ⟨h, []⟩ ops s := by
  induction hrun with
  | nil => exact .nil _
  | snoc hr hok hst ih =>
    obtain ⟨cs, I, h1, h2⟩ := run_inv_small R hsmall hinit hr
    exact .snoc ih ⟨hok, (noWrap_of_small R hsmall hok (by rw [I.holds.avail_eq, h1, h2])).steady⟩ hst

/-- Four pages, two blocks: requests of 100 bytes. -/
theorem requests_sized_four_pages :
    ∃ s, after 0xFFFFFFFF80030000 0xFFFFFFFF80034000 [.kalloc 24, .kalloc 16] = some s ∧
      (Sized s.heap s.live 100 (kalloc s.heap 100) ↔ Honest s (.kalloc 100)) ∧
      ∀ p ∈ s.live, Sized s.heap (s.live.erase p) 100 (krealloc s.heap p 100) ↔
        Honest s (.krealloc p 100) := by
  obtain ⟨s, hs⟩ := Option.isSome_iff_exists.mp (show (after 0xFFFFFFFF80030000 0xFFFFFFFF80034000
    [.kalloc 24, .kalloc 16]).isSome = true by decide)
  obtain ⟨h₀, hinit, hrun⟩ := after_run hs
  have R : Span 0xFFFFFFFF80030000 0xFFFFFFFF80034000 := ⟨by decide, by decide, by decide, by decide⟩
  exact ⟨s, hs, requests_sized R hinit
    ((steady_run R (by decide) hinit hrun).mono fun _ _ h => ⟨h.1.owned, h.2⟩) (by decide)⟩

/-- Both wraps on four pages: `kalloc(2^64 - 1)` hands out an empty block, and an empty block extended
    to `2^64 - 16` bytes is handed back. -/
theorem requests_wrap :
    ∃ s, after 0xFFFFFFFF80030000 0xFFFFFFFF80034000 [.kalloc 0] = some s ∧
      ¬ Sized s.heap s.live (2 ^ 64 - 1) (kalloc s.heap (2 ^ 64 - 1)) ∧
      ∃ p ∈ s.live, ¬ Sized s.heap (s.live.erase p) (2 ^ 64 - 16) (krealloc s.heap p (2 ^ 64 - 16)) := by
  obtain ⟨s, hs, hend, hlive, hq, hq'⟩ : ∃ s, after 0xFFFFFFFF80030000 0xFFFFFFFF80034000
      [.kalloc 0] = some s ∧ s.heap.heapEnd = 0xFFFFFFFF80034000 ∧ 0xFFFFFFFF80030020 ∈ s.live ∧
      (kalloc s.heap (2 ^ 64 - 1)).toOption.map Prod.fst = some 0xFFFFFFFF80030040 ∧
      (krealloc s.heap 0xFFFFFFFF80030020 (2 ^ 64 - 16)).toOption.map Prod.fst = some 0xFFFFFFFF80030020 :=
    after_such _ (by decide)
  have far {q n : ℕ} {others : List ℕ} {r : Except Fault (ℕ × Heap)} (h0 : q ≠ 0)
      (hlt : 0xFFFFFFFF80034000 < q + n) (hr : r.toOption.map Prod.fst = some q) :
      ¬ Sized s.heap others n r := by
    cases r with
    | error e => cases hr
    | ok a =>
      obtain rfl : a.1 = q := Option.some.inj hr
      intro hS
      rcases hS a.1 a.2 rfl with ⟨hz, _⟩ | ⟨_, _, hle, _⟩
      · exact h0 hz
      · rw [hend] at hle
        exact absurd hle (Nat.not_le.mpr hlt)
  exact ⟨s, hs, far (by decide) (by decide) hq, _, hlive, far (by decide) (by decide) hq'⟩

/-! ### The link of the last chunk -/

/-- CORRECT: in every state reached by legal steps that wrap no size test, `krealloc` of a live block
    returns if and only if the block fits where it is or its chunk has a successor. -/
theorem krealloc_returns {m : Mem} {lo hi : ℕ} {h : Heap} {ops : List Op} {s : Client} (R : Span lo hi)
    (hinit : heapInit m lo hi = .ok h)
    (hrun : Run (fun s op => Legal s op ∧ Steady s op) exec ⟨h, []⟩ ops s) {p : ℕ} (hp : p ∈ s.live)
    (n : ℕ) :
    (∃ q h', krealloc s.heap p n = .ok (q, h')) ↔
      ¬ (capacity s.heap p < align16 n ∧ (header s.heap.mem (p - 32)).next = 0) := by
  obtain ⟨cs, I, _, _⟩ := run_inv R hinit (fun _ _ h => h.1.owned) (fun _ _ h _ => h.2) hrun
  obtain ⟨c, hc, hcu, rfl, hcap⟩ := I.chunk hp
  obtain ⟨pre, post, rfl⟩ := List.append_of_mem hc
  obtain ⟨k, _, _, hck, _, _, hpost⟩ := seg_append.mp I.holds.seg
  subst hck
  have hsub : c.ptr - 32 = c.addr := by unfold Chunk.ptr; omega
  rw [hcap, hsub, hpost.head_eq]
  constructor
  · rintro ⟨q, h', hk⟩ ⟨hlt, hnext⟩
    match post, I, hpost with
    | [], I, _ => rw [krealloc_last I.holds hlt] at hk; cases hk
    | d :: post, _, ⟨h0, hd, _⟩ => exact h0 (hd.symm.trans hnext)
  · intro hlast
    by_cases hg : growsInPlace s.heap c.ptr n = true
    · obtain ⟨h', hk⟩ := krealloc_grows I.holds hg
      exact ⟨_, h', hk⟩
    · rcases krealloc_outcome I.holds hcu n (fun h => absurd h hg) with
        ⟨_, hlt, rfl⟩ | ⟨hk, _⟩ | ⟨_, h', cs', b, hk, _⟩
      · exact absurd ⟨hlt, rfl⟩ hlast
      · exact ⟨_, _, hk⟩
      · exact ⟨_, _, hk⟩

/-- Four pages and one block with free memory behind it. -/
theorem krealloc_returns_four_pages :
    ∃ s, after 0xFFFFFFFF80030000 0xFFFFFFFF80034000 [.kalloc 24] = some s ∧
      0xFFFFFFFF80030020 ∈ s.live ∧
      ((∃ q h', krealloc s.heap 0xFFFFFFFF80030020 100 = .ok (q, h')) ↔
        ¬ (capacity s.heap 0xFFFFFFFF80030020 < align16 100 ∧
          (header s.heap.mem (0xFFFFFFFF80030020 - 32)).next = 0)) := by
  obtain ⟨s, hs, hp⟩ : ∃ s, after 0xFFFFFFFF80030000 0xFFFFFFFF80034000 [.kalloc 24] = some s ∧
      0xFFFFFFFF80030020 ∈ s.live := after_such _ (by decide)
  obtain ⟨h₀, hinit, hrun⟩ := after_run hs
  have R : Span 0xFFFFFFFF80030000 0xFFFFFFFF80034000 := ⟨by decide, by decide, by decide, by decide⟩
  exact ⟨s, hs, hp, krealloc_returns R hinit (steady_run R (by decide) hinit hrun) hp 100⟩

/-- A call whose outcome, results aside, is a fault. -/
theorem faults_of_map {α : Type} {x : Except Fault α} {f : Fault}
    (h : x.map (fun _ => ()) = .error f) : x = .error f := by
  cases x with
  | error e => exact congrArg _ (Except.error.inj h)
  | ok a => cases h

/-- One block over all four pages, asked to hold a byte more. -/
theorem krealloc_reads_null :
    ∃ s, after 0xFFFFFFFF80030000 0xFFFFFFFF80034000 [.kalloc 0x3FE0] = some s ∧
      0xFFFFFFFF80030020 ∈ s.live ∧ 0x3FE1 ≤ s.heap.avail ∧
      krealloc s.heap 0xFFFFFFFF80030020 0x3FE1 = .error .nullDeref := by
  obtain ⟨s, hs, hp, hn, hk⟩ : ∃ s, after 0xFFFFFFFF80030000 0xFFFFFFFF80034000
      [.kalloc 0x3FE0] = some s ∧ 0xFFFFFFFF80030020 ∈ s.live ∧ 0x3FE1 ≤ s.heap.avail ∧
      (krealloc s.heap 0xFFFFFFFF80030020 0x3FE1).map (fun _ => ()) = .error .nullDeref :=
    after_such _ (by decide)
  exact ⟨s, hs, hp, hn, faults_of_map hk⟩

/-! ### Shrinking -/

/-- A block to be shortened by less than a header and 4 bytes, and no free chunk to move it to. -/
def Cramped (s : Client) (p n : ℕ) : Prop :=
  align16 n < capacity s.heap p ∧ capacity s.heap p - align16 n < MIN_CHUNK_SIZE ∧
    ∃ cs, Seg s.heap.mem s.heap.start cs 0 ∧ ¬ Room (align16 n) cs

/-- CORRECT: in every state reached by legal steps that wrap no size test, shrinking a live block gives
    a block of the size asked for if and only if the block is not cramped. -/
theorem krealloc_shrinks {m : Mem} {lo hi : ℕ} {h : Heap} {ops : List Op} {s : Client} (R : Span lo hi)
    (hinit : heapInit m lo hi = .ok h)
    (hrun : Run (fun s op => Legal s op ∧ Steady s op) exec ⟨h, []⟩ ops s) {p n : ℕ} (hp : p ∈ s.live)
    (hn : n ≤ capacity s.heap p) :
    (∃ q h' cs b, krealloc s.heap p n = .ok (q, h') ∧ q ≠ 0 ∧ Seg h'.mem h'.start cs 0 ∧ b ∈ cs ∧
      b.inuse = true ∧ b.ptr = q ∧ n ≤ b.size) ↔ ¬ Cramped s p n := by
  obtain ⟨cs, I, _, _⟩ := run_inv R hinit (fun _ _ h => h.1.owned) (fun _ _ h _ => h.2) hrun
  obtain ⟨c, hc, hcu, rfl, hcap⟩ := I.chunk hp
  obtain ⟨pre, post, rfl⟩ := List.append_of_mem hc
  have hcb := I.holds.fits.bounds c hc
  have hhi := I.holds.region.hi_lt
  unfold Chunk.stop at hcb
  rw [hcap] at hn
  have hle := align16_le (n := n) hn hcb.2.2.2 (by omega)
  have hup := (le_align16 (n := n) (by omega)).1
  have hstay : growsInPlace s.heap c.ptr n = false := by
    have hge : ¬ capacity s.heap c.ptr < align16 n := by rw [hcap]; omega
    unfold growsInPlace
    unfold capacity at hge
    simp [hge]
  simp only [Cramped, hcap]
  rcases krealloc_outcome I.holds hcu n (fun h => absurd h (by simp [hstay])) with
    ⟨_, hlt, _⟩ | ⟨hk, hne, hlt, hno⟩ | ⟨hroom, h', cs', b, hk, E, M⟩
  · omega
  · refine ⟨?_, fun h => absurd ⟨by omega, ?_, _, I.holds.seg, hno⟩ h⟩
    · rintro ⟨q, h', _, _, he, h0, _⟩
      rw [hk] at he
      exact absurd (Prod.mk.inj (Except.ok.inj he)).1.symm h0
    · show c.size - align16 n < 36
      omega
  · refine ⟨?_, fun _ => ⟨_, _, cs', b, hk, by unfold Chunk.ptr; omega, E.holds.seg,
      (E.used b M.inuse).mpr (.inl (by simp)), M.inuse, rfl, le_trans hup M.large⟩⟩
    rintro _ ⟨hlt, hsm, ds, hw, hno⟩
    have hsm : c.size - align16 n < 36 := hsm
    rw [← I.holds.seg.unique hw] at hno
    exact hno (hroom hlt (by omega))

/-- Four pages: 100 bytes shortened to 40. -/
theorem krealloc_shrinks_four_pages :
    ∃ s, after 0xFFFFFFFF80030000 0xFFFFFFFF80034000 [.kalloc 100] = some s ∧
      0xFFFFFFFF80030020 ∈ s.live ∧ 40 ≤ capacity s.heap 0xFFFFFFFF80030020 ∧
      ((∃ q h' cs b, krealloc s.heap 0xFFFFFFFF80030020 40 = .ok (q, h') ∧ q ≠ 0 ∧
        Seg h'.mem h'.start cs 0 ∧ b ∈ cs ∧ b.inuse = true ∧ b.ptr = q ∧ 40 ≤ b.size) ↔
        ¬ Cramped s 0xFFFFFFFF80030020 40) := by
  obtain ⟨s, hs, hp, hn⟩ : ∃ s, after 0xFFFFFFFF80030000 0xFFFFFFFF80034000 [.kalloc 100] = some s ∧
      0xFFFFFFFF80030020 ∈ s.live ∧ 40 ≤ capacity s.heap 0xFFFFFFFF80030020 :=
    after_such _ (by decide)
  obtain ⟨h₀, hinit, hrun⟩ := after_run hs
  have R : Span 0xFFFFFFFF80030000 0xFFFFFFFF80034000 := ⟨by decide, by decide, by decide, by decide⟩
  exact ⟨s, hs, hp, hn, krealloc_shrinks R hinit (steady_run R (by decide) hinit hrun) hp hn⟩

/-- One block over all four pages, asked to give up 16 bytes: it should move, and there is nowhere to
    move to. -/
theorem krealloc_cannot_shrink :
    ∃ s, after 0xFFFFFFFF80030000 0xFFFFFFFF80034000 [.kalloc 0x3FE0] = some s ∧
      0xFFFFFFFF80030020 ∈ s.live ∧ 0x3FD0 ≤ capacity s.heap 0xFFFFFFFF80030020 ∧
      ∃ h', krealloc s.heap 0xFFFFFFFF80030020 0x3FD0 = .ok (0, h') := by
  obtain ⟨s, hs, hp, hn, hk⟩ : ∃ s, after 0xFFFFFFFF80030000 0xFFFFFFFF80034000
      [.kalloc 0x3FE0] = some s ∧ 0xFFFFFFFF80030020 ∈ s.live ∧
      0x3FD0 ≤ capacity s.heap 0xFFFFFFFF80030020 ∧
      (krealloc s.heap 0xFFFFFFFF80030020 0x3FD0).map Prod.fst = .ok 0 := after_such _ (by decide)
  refine ⟨s, hs, hp, hn, ?_⟩
  generalize krealloc s.heap 0xFFFFFFFF80030020 0x3FD0 = r at hk
  cases r with
  | error e => cases hk
  | ok a => exact ⟨a.2, congrArg _ (Prod.ext (Except.ok.inj hk) rfl)⟩

end TerraOS.Kheap
