import TerraOS.Kheap.Layout

/-! Where the heap's memory goes.

    Splitting, merging and relocating keep the region tiled by its chunks. `extendChunkInPlace` does not:
    it places the shortened successor 32 bytes behind the grown block, and those bytes are lost to the
    list for good. A second leak is at the end of the region: `kfree` turns away a pointer equal to
    `heap_end`, which is what `kalloc(0)` returns on a heap of one header. -/

namespace TerraOS.Kheap
open Lib Lib.Word

/-- A step that loses nothing: no in-place extension, and no `kfree` of a pointer equal to
    `heap_end`. -/
def Lossless (s : Client) : Op → Prop
  | .krealloc p n => growsInPlace s.heap p n = false
  | .kfree p => p ≠ s.heap.heapEnd
  | _ => True

instance (s : Client) : DecidablePred (Lossless s)
  | .kalloc _ => inferInstanceAs (Decidable True)
  | .kfree p => inferInstanceAs (Decidable (p ≠ s.heap.heapEnd))
  | .krealloc p n => inferInstanceAs (Decidable (growsInPlace s.heap p n = false))
  | .write _ _ => inferInstanceAs (Decidable True)

/-- The invariant of lossless runs: a tiling in which every chunk in use is a live block. -/
structure Tight (s : Client) (cs : List Chunk) : Prop where
  inv : Inv s cs
  tiles : Tiles s.heap.heapStart s.heap.heapEnd cs
  used : ∀ c ∈ cs, c.inuse = true → c.ptr ∈ s.live

/-- Lossless steps keep the tiling and lose no block. -/
theorem Effect.tight {s s' : Client} {cs cs' : List Chunk} {op : Op} (T : Tight s cs)
    (hok : Lossless s op) (e : Effect s cs op s' cs') : Tight s' cs' := by
  have I' := e.inv T.inv
  cases e with
  | refused => exact T
  | kept p hp hl =>
    -- a live block at or past `heap_end` is at `heap_end`
    obtain ⟨c, hc, hcu, rfl⟩ := T.inv.live p hl
    have := (T.inv.holds.fits.bounds c hc).2.1
    unfold Chunk.stop at this
    exact absurd (show c.ptr = _ by unfold Chunk.ptr at *; omega) hok
  | allocated _ E hbu hbn =>
    refine ⟨I', E.start_eq ▸ E.end_eq ▸ E.tiles trivial T.tiles, fun c hc hcu => ?_⟩
    rcases (E.used c hcu).mp hc with h | ⟨h, _⟩
    · rw [List.mem_singleton.mp h]; exact List.mem_cons_self ..
    · exact List.mem_cons_of_mem _ (T.used c h hcu)
  | freed hc hcu hl E =>
    refine ⟨I', E.start_eq ▸ E.end_eq ▸ E.tiles trivial T.tiles, fun d hd hdu => ?_⟩
    rcases (E.used d hdu).mp hd with h | ⟨h, hne⟩
    · cases h
    · refine (List.mem_erase_of_ne fun hp => hne ?_).mpr (T.used d h hdu)
      rw [T.inv.holds.ptr_inj h hc hp]; simp
  | moved hc hcu hl E M =>
    refine ⟨I', E.start_eq ▸ E.end_eq ▸ E.tiles hok T.tiles, fun d hd hdu => ?_⟩
    rcases (E.used d hdu).mp hd with h | ⟨h, hne⟩
    · rw [List.mem_singleton.mp h]; exact List.mem_cons_self ..
    · refine List.mem_cons_of_mem _ ((List.mem_erase_of_ne fun hp => hne ?_).mpr (T.used d h hdu))
      rw [T.inv.holds.ptr_inj h hc hp]; simp
  | wrote H h1 h2 => exact ⟨I', by simp only [h1, h2]; exact T.tiles, T.used⟩

/-- CORRECT: in every run of lossless steps, every state reached is a tiling of the region; with every
    block freed it is the single free chunk that `heap_init` built. -/
theorem heap_tiled {m : Mem} {lo hi : ℕ} {h : Heap} {ops : List Op} {s : Client} (R : Span lo hi)
    (hinit : heapInit m lo hi = .ok h)
    (hrun : Run (fun s op => Legal s op ∧ Lossless s op) exec ⟨h, []⟩ ops s) :
    ∃ cs, Seg s.heap.mem s.heap.start cs 0 ∧ s.heap.start = lo ∧ Tiles lo hi cs ∧
      (s.live = [] → cs = [⟨lo, hi - lo - 32, false⟩]) := by
  obtain ⟨cs, T, h1, h2⟩ : ∃ cs, Tight s cs ∧ s.heap.heapStart = lo ∧ s.heap.heapEnd = hi := by
    refine hrun.invariant
      (I := fun s => ∃ cs, Tight s cs ∧ s.heap.heapStart = lo ∧ s.heap.heapEnd = hi) ?_ ?_
    · obtain ⟨I, h1, h2⟩ := init_inv R hinit
      refine ⟨_, ⟨I, ?_, by simp⟩, h1, h2⟩
      have := R.room
      simp only [h1, h2, Tiles, Chunk.stop, true_and]; omega
    · rintro t a u ⟨cs, T, h1, h2⟩ ⟨hl, hok⟩ hst
      have hw : NoWrap t a := by
        cases a with
        | krealloc p n => exact fun hg => absurd hg (by simp [show growsInPlace _ p n = false from hok])
        | _ => trivial
      rcases exec_effect T.inv hl.owned hw.steady with hn | ⟨u', cs', hu, e⟩
      · rw [hn] at hst; cases hst
      · rw [hu] at hst
        obtain rfl := Except.ok.inj hst
        exact ⟨cs', e.tight T hok, e.region.1.trans h1, e.region.2.trans h2⟩
  have ht := T.tiles
  rw [h1, h2] at ht
  refine ⟨cs, T.inv.holds.seg, T.inv.holds.start_eq.trans h1, ht, fun hlive => ?_⟩
  refine eq_single_of_tiles ht T.inv.merged (by have := R.room; omega) fun c hc => ?_
  by_contra hu
  have := T.used c hc (by simpa using hu)
  simp [hlive] at this

/-- A lossless run over four pages: two blocks, the first shrunk and freed, the second moved. -/
theorem heap_tiled_four_pages :
    ∃ s, Run.perform (fun s op => Legal s op ∧ Lossless s op) exec
        ⟨⟨((zeroMem.store64 0x30000 0x3FE0).store8 0x30008 0).store64 0x30010 0, 0x30000, 0x4000,
          0x30000, 0x34000⟩, []⟩
        [.kalloc 100, .kalloc 24, .krealloc 0x30020 16, .kfree 0x30020] = some s ∧
      ∃ cs, Seg s.heap.mem s.heap.start cs 0 ∧ s.heap.start = 0x30000 ∧ Tiles 0x30000 0x34000 cs ∧
        (s.live = [] → cs = [⟨0x30000, 0x34000 - 0x30000 - 32, false⟩]) := by
  obtain ⟨s, hs⟩ := Option.isSome_iff_exists.mp (show (Run.perform
    (fun s op => Legal s op ∧ Lossless s op) exec
    ⟨⟨((zeroMem.store64 0x30000 0x3FE0).store8 0x30008 0).store64 0x30010 0, 0x30000, 0x4000,
      0x30000, 0x34000⟩, []⟩
    [.kalloc 100, .kalloc 24, .krealloc 0x30020 16, .kfree 0x30020]).isSome = true by decide)
  exact ⟨s, hs, heap_tiled (m := zeroMem) ⟨by decide, by decide, by decide, by decide⟩ rfl
    (Run.of_perform hs)⟩

/-- A block of 16 bytes extended in place to 32 and freed again: the list is one free chunk, and it
    ends 32 bytes short of `heap_end`. -/
theorem heap_loses_a_header :
    ∃ s, after 0x30000 0x34000 [.kalloc 16, .krealloc 0x30020 32, .kfree 0x30020] = some s ∧
      s.live = [] ∧ ¬ ∃ cs, Seg s.heap.mem s.heap.start cs 0 ∧ Tiles 0x30000 0x34000 cs := by
  obtain ⟨s, hs, hlive, hstart, hv⟩ : ∃ s, after 0x30000 0x34000 [.kalloc 16, .krealloc 0x30020 32,
      .kfree 0x30020] = some s ∧ s.live = [] ∧ s.heap.start = 0x30000 ∧
      header s.heap.mem 0x30000 = ⟨0x4000 - 64, false, 0⟩ := after_such _ (by decide)
  refine ⟨s, hs, hlive, ?_⟩
  rintro ⟨cs, hw, ht⟩
  rw [hstart] at hw
  match cs, hw, ht with
  | [], hw, _ => simp [Seg] at hw
  | [c], ⟨_, hc, hsz, _⟩, ⟨_, ht⟩ =>
    rw [hv] at hsz
    simp only [Tiles, Chunk.stop] at ht hsz
    omega
  | c :: d :: cs, ⟨_, _, _, _, hn, _⟩, _ => simp [hv] at hn

end TerraOS.Kheap
