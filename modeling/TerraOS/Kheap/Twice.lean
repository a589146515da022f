import TerraOS.Kheap.Merging

/-! Freeing twice.

    The chunk of a freed block may be taken over by its neighbour; its header then lies in a free chunk
    or between two, and `kfree` still reads the flag there. A merge writes sizes and links of free
    chunks, `kfree` itself only clears flags, and the client keeps to its payloads: until a block is
    given out again the flag stays clear (`Cleared`), and a second `kfree` turns back at it. -/

namespace TerraOS.Kheap
open Lib Lib.Word

/-- Neither gives memory out again. -/
def Op.Idle : Op → Prop
  | .kfree _ => True
  | .write _ _ => True
  | .kalloc _ => False
  | .krealloc _ _ => False

instance : DecidablePred Op.Idle
  | .kfree _ => inferInstanceAs (Decidable True)
  | .write _ _ => inferInstanceAs (Decidable True)
  | .kalloc _ => inferInstanceAs (Decidable False)
  | .krealloc _ _ => inferInstanceAs (Decidable False)

/-- The flag at `x` is clear, and `x` is neither in a field that a merge may write nor in a block. -/
structure Cleared (x : ℕ) (m : Mem) (cs : List Chunk) : Prop where
  flag : m x = 0
  link : ∀ c ∈ cs, ¬ c.Link x
  owned : ∀ c ∈ cs, c.inuse = true → ¬ c.Owns x

/-- What is known of the flag of a freed `p` in a state: nothing, where `kfree` turns `p` away anyhow. -/
def Settled (p : ℕ) (s : Client) : Prop :=
  ∃ cs, Inv s cs ∧ (p < s.heap.heapEnd → Cleared (p - 32 + 8) s.heap.mem cs)

/-- A merge makes no headers. -/
theorem mem_coalesce_addr (cs : List Chunk) : ∀ c ∈ coalesce cs, ∃ d ∈ cs, d.addr = c.addr := by
  induction cs using coalesce_induction with
  | nil => exact fun c hc => ⟨c, hc, rfl⟩
  | one d => exact fun c hc => ⟨c, hc, rfl⟩
  | merge d e cs hd he ih =>
    intro c hc
    rw [coalesce_free hd he] at hc
    obtain ⟨f, hf, hfc⟩ := ih c hc
    rcases List.mem_cons.mp hf with rfl | hf
    · exact ⟨d, by simp, hfc⟩
    · exact ⟨f, by simp [hf], hfc⟩
  | keep d e cs h ih =>
    intro c hc
    rw [coalesce_keep h] at hc
    rcases List.mem_cons.mp hc with rfl | hc
    · exact ⟨c, by simp, rfl⟩
    · obtain ⟨f, hf, hfc⟩ := ih c hc
      exact ⟨f, List.mem_cons_of_mem _ hf, hfc⟩

section
variable {s t : Client} {h : Heap} {cs pre post : List Chunk} {c : Chunk} {p x : ℕ} {op : Op}

/-- A second `kfree` reads the flag and nothing else. -/
theorem kfree_flag (hp : 32 < p) (hlt : p < 2 ^ 64) (hflag : h.mem (p - 32 + 8) = 0) : kfree h p = .ok h := by
  have hsub : sub64 p 32 = p - 32 := sub64_of_le (by omega) hlt
  have h0 : p - 32 ≠ 0 := by omega
  have hp0 : p ≠ 0 := by omega
  have hfree : getInuse h.mem (p - 32) = .ok false := by
    rw [getInuse_ok h0, header, hflag]
    rfl
  rw [kfree, if_neg hp0]
  split
  · rfl
  · simp only [hsub, hfree, ok_bind]
    rfl

/-- The list with the flag of `c` cleared, before and after the merge. -/
theorem Cleared.of_mark (hlink : ∀ d ∈ pre ++ c :: post, ¬ d.Link x)
    (howned : ∀ d ∈ pre ++ post, d.inuse = true → ¬ d.Owns x) {m : Mem} (hflag : m x = 0) :
    Cleared x m (coalesce (pre ++ { c with inuse := false } :: post)) := by
  have hmark : ∀ d ∈ pre ++ { c with inuse := false } :: post, ¬ d.Link x ∧ (d.inuse = true → ¬ d.Owns x) := by
    intro d hd
    rcases List.mem_append.mp hd with hd | hd
    · exact ⟨hlink d (by simp [hd]), howned d (by simp [hd])⟩
    · rcases List.mem_cons.mp hd with rfl | hd
      · exact ⟨hlink c (by simp), fun hu => by cases hu⟩
      · exact ⟨hlink d (by simp [hd]), howned d (by simp [hd])⟩
  refine ⟨hflag, fun d hd => ?_, fun d hd hu => ?_⟩
  · obtain ⟨e, he, haddr⟩ := mem_coalesce_addr _ d hd
    have hno := (hmark e he).1
    unfold Chunk.Link at hno ⊢
    rwa [haddr] at hno
  · exact (hmark d ((mem_coalesce_inuse _ d hu).mp hd)).2 hu

/-- The step lemma of a block that is freed inside the region: its own flag is clear, and flags that are
    clear stay so. -/
theorem kfree_cleared (I : Inv s (pre ++ c :: post)) (hcu : c.inuse = true) (hin : c.ptr < s.heap.heapEnd) :
    ∃ h', kfree s.heap c.ptr = .ok h' ∧
      Seg h'.mem h'.start (coalesce (pre ++ { c with inuse := false } :: post)) 0 ∧
      ∀ x, x = c.addr + 8 ∨ Cleared x s.heap.mem (pre ++ c :: post) →
        Cleared x h'.mem (coalesce (pre ++ { c with inuse := false } :: post)) := by
  obtain ⟨m', hk, H', hout⟩ := kfree_spec I.holds hcu hin
  refine ⟨_, hk, H'.seg, fun x hx => ?_⟩
  have hlink : ∀ d ∈ pre ++ c :: post, ¬ d.Link x := by
    intro d hd
    rcases hx with rfl | hx
    · unfold Chunk.Link
      rcases I.holds.fits.apart d hd c (by simp) with rfl | h | h
      · omega
      · unfold Chunk.stop at h
        omega
      · unfold Chunk.stop at h
        omega
    · exact hx.link d hd
  have howned : ∀ d ∈ pre ++ post, d.inuse = true → ¬ d.Owns x := by
    intro d hd hdu
    have hmem : d ∈ pre ++ c :: post := by
      rcases List.mem_append.mp hd with hd | hd <;> simp [hd]
    rcases hx with rfl | hx
    · unfold Chunk.Owns Chunk.ptr
      rcases I.holds.fits.apart d hmem c (by simp) with rfl | h | h
      · omega
      · omega
      · unfold Chunk.stop at h
        omega
    · exact hx.owned d hmem hdu
  have hfree : ¬ FreeLink (pre ++ { c with inuse := false } :: post) x := by
    rintro ⟨d, hd, -, hl⟩
    rcases List.mem_append.mp hd with hd | hd
    · exact hlink d (by simp [hd]) hl
    · rcases List.mem_cons.mp hd with rfl | hd
      · exact hlink c (by simp) hl
      · exact hlink d (by simp [hd]) hl
  refine Cleared.of_mark hlink howned ((hout x hfree).trans ?_)
  split
  · rfl
  · next hne => exact (hx.resolve_left hne).flag

/-- `kfree` on a live block, wherever it is: it returns, and takes no clear flag back. -/
theorem free_step (I : Inv s cs) (hp : p ∈ s.live) :
    ∃ t cs', exec s (.kfree p) = .ok t ∧ Inv t cs' ∧ t.heap.heapEnd = s.heap.heapEnd ∧
      ∀ x, (x = p - 32 + 8 ∧ p < s.heap.heapEnd) ∨ Cleared x s.heap.mem cs → Cleared x t.heap.mem cs' := by
  obtain ⟨c, hc, hcu, rfl, -⟩ := I.chunk hp
  rcases Nat.lt_or_ge c.ptr s.heap.heapEnd with hin | hend
  · obtain ⟨h', cs', hk, E⟩ := kfree_edit I.holds hc hcu hin
    obtain ⟨pre, post, rfl⟩ := List.append_of_mem hc
    obtain ⟨h'', hk', hseg, hclear⟩ := kfree_cleared I hcu hin
    obtain rfl := Except.ok.inj (hk.symm.trans hk')
    obtain rfl := E.holds.seg.unique hseg
    refine ⟨_, _, by simp [exec, hk], (Effect.freed hc hcu hp E).inv I, E.end_eq, fun x hx => hclear x ?_⟩
    exact hx.imp_left fun h => h.1
  · refine ⟨_, cs, by simp [exec, kfree_end hend], (Effect.kept c.ptr hend hp).inv I, rfl, fun x hx => ?_⟩
    exact hx.resolve_left fun h => absurd h.2 (Nat.not_lt.mpr hend)

theorem free_settled (I : Inv s cs) (hp : p ∈ s.live) : ∃ t, exec s (.kfree p) = .ok t ∧ Settled p t := by
  obtain ⟨t, cs', ht, I', hend, hclear⟩ := free_step I hp
  exact ⟨t, ht, cs', I', fun hlt => hclear _ (.inl ⟨rfl, hend ▸ hlt⟩)⟩

/-- The step lemma. -/
theorem idle_settled (hs : Settled p s) (hl : Legal s op) (hidle : op.Idle) (hst : exec s op = .ok t) :
    Settled p t := by
  obtain ⟨cs, I, hclear⟩ := hs
  cases op with
  | kalloc n => exact hidle.elim
  | krealloc q n => exact hidle.elim
  | kfree q =>
    obtain ⟨t', cs', ht, I', hend, hkeep⟩ := free_step I hl
    obtain rfl := Except.ok.inj (ht.symm.trans hst)
    exact ⟨cs', I', fun hlt => hkeep _ (.inr (hclear (hend ▸ hlt)))⟩
  | write a b =>
    obtain ⟨q, hq, hlo, hhi⟩ := hl
    obtain ⟨c, hc, hcu, rfl, hcap⟩ := I.chunk hq
    have hown : c.Owns a := ⟨hlo, by rwa [hcap] at hhi⟩
    have H : Holds { s.heap with mem := s.heap.mem.store8 a b } cs :=
      I.holds.of_payload hc fun x hx => Mem.store8_out fun h => hx (h ▸ hown)
    obtain rfl := Except.ok.inj hst
    refine ⟨cs, (Effect.wrote (a := a) (b := b) H rfl rfl).inv I, fun hlt => ?_⟩
    have hcl := hclear hlt
    refine ⟨?_, hcl.link, hcl.owned⟩
    have hne : p - 32 + 8 ≠ a := fun h => hcl.owned c hc hcu (h ▸ hown)
    exact (Mem.store8_out hne).trans hcl.flag

end

/-- CORRECT: in every region of at most `2^64 - 48` bytes and every state reached from `heap_init` by
    legal calls, a block that is freed twice, with only frees and writes to other blocks in between, is
    freed once. -/
theorem kfree_twice {m : Mem} {lo hi : ℕ} {h : Heap} {ops : List Op} {s : Client} (R : Span lo hi)
    (hsmall : hi - lo ≤ 2 ^ 64 - 48) (hinit : heapInit m lo hi = .ok h)
    (hrun : Run Legal exec ⟨h, []⟩ ops s) {p : ℕ} (hp : p ∈ s.live) :
    ∃ t, exec s (.kfree p) = .ok t ∧ ∀ ops' u, Run (fun s op => Legal s op ∧ op.Idle) exec t ops' u →
      kfree u.heap p = .ok u.heap := by
  obtain ⟨cs, I, -, -⟩ := run_inv_small R hsmall hinit hrun
  obtain ⟨t, ht, hsettled⟩ := free_settled I hp
  refine ⟨t, ht, fun ops' u hidle => ?_⟩
  obtain ⟨cs', I', hclear⟩ := hidle.invariant hsettled fun s op u hs hop hst => idle_settled hs hop.1 hop.2 hst
  rcases Nat.lt_or_ge p u.heap.heapEnd with hin | hend
  · obtain ⟨c, hc, -, rfl, -⟩ := I.chunk hp
    have hpos := I.holds.region.lo_pos
    have hlo := (I.holds.fits.bounds c hc).1
    have hhi := I'.holds.region.hi_lt
    have hptr : c.ptr = c.addr + 32 := rfl
    exact kfree_flag (by omega) (by omega) (hclear hin).flag
  · exact kfree_end hend

/-- Four pages and three blocks side by side, the second of them freed twice. -/
theorem kfree_twice_four_pages :
    ∃ s, after 0xFFFFFFFF80030000 0xFFFFFFFF80034000 [.kalloc 24, .kalloc 100, .kalloc 8] = some s ∧
      ∃ t, exec s (.kfree 0xFFFFFFFF80030060) = .ok t ∧
        ∀ ops' u, Run (fun s op => Legal s op ∧ op.Idle) exec t ops' u →
          kfree u.heap 0xFFFFFFFF80030060 = .ok u.heap := by
  obtain ⟨s, hs, hp⟩ : ∃ s, after 0xFFFFFFFF80030000 0xFFFFFFFF80034000 [.kalloc 24, .kalloc 100,
      .kalloc 8] = some s ∧ 0xFFFFFFFF80030060 ∈ s.live := after_such _ (by decide)
  obtain ⟨h₀, hinit, hrun⟩ := after_run hs
  exact ⟨s, hs, kfree_twice ⟨by decide, by decide, by decide, by decide⟩ (by decide) hinit hrun hp⟩

theorem ok_of_toOption {α : Type} {x : Except Fault α} {a : α} (h : x.toOption = some a) : x = .ok a := by
  cases x with
  | error e => cases h
  | ok b => rw [Option.some.inj h]

/-- In the region that is too large the stale header lies in a live payload, and a write to it sets the
    flag again. -/
theorem kfree_twice_overlaps : ∃ h₀ s t u h', heapInit littered 16 (2 ^ 64 - 16) = .ok h₀ ∧
    Run Legal exec ⟨h₀, []⟩ overlapping s ∧ 80 ∈ s.live ∧ exec s (.kfree 80) = .ok t ∧
    Run (fun s op => Legal s op ∧ op.Idle) exec t [.write 56 1] u ∧
    kfree u.heap 80 = .ok h' ∧ h'.mem 56 ≠ u.heap.mem 56 := by
  obtain ⟨h₀, s, hinit, hrun, hlive, htwice⟩ := littered_such overlapping
    (fun s => 80 ∈ s.live ∧ ((exec s (.kfree 80)).toOption.any fun t =>
      (Run.perform (fun s op => Legal s op ∧ op.Idle) exec t [.write 56 1]).any fun u =>
        (kfree u.heap 80).toOption.any fun h' => h'.mem 56 != u.heap.mem 56) = true) (by decide)
  simp only [Option.any_eq_true, bne_iff_ne] at htwice
  obtain ⟨t, ht, u, hu, h', hk, hne⟩ := htwice
  exact ⟨h₀, s, t, u, h', hinit, hrun, hlive, ok_of_toOption ht, Run.of_perform hu, ok_of_toOption hk, hne⟩

end TerraOS.Kheap
