import TerraOS.Kheap.Edits
import TerraOS.Lib.Runs

/-! A client of the heap and its runs.

    The client holds the pointers it was given and has not given back (`live`). It calls `kalloc`,
    `kfree` and `krealloc` on them, in any order, with sizes up to `heap.avail`, and it writes to its
    own blocks. `exec_effect` says once what a step can do; the invariants over whole runs are read off
    it. -/

namespace TerraOS.Kheap
open Lib Lib.Word

/-- The heap and the blocks its client holds. -/
structure Client where
  heap : Heap
  live : List ℕ

inductive Op where
  | kalloc (n : ℕ)
  | kfree (p : ℕ)
  | krealloc (p n : ℕ)
  | write (a : ℕ) (b : UInt8)

/-- The size of the block at `p`, as its header has it. -/
def capacity (h : Heap) (p : ℕ) : ℕ := (header h.mem (p - 32)).size

def exec (s : Client) : Op → Except Fault Client
  | .kalloc n => do
    let (q, h) ← kalloc s.heap n
    return ⟨h, if q = 0 then s.live else q :: s.live⟩
  | .kfree p => do
    let h ← kfree s.heap p
    return ⟨h, s.live.erase p⟩
  | .krealloc p n => do
    let (q, h) ← krealloc s.heap p n
    return ⟨h, if q = 0 then s.live else q :: s.live.erase p⟩
  | .write a b => return ⟨{ s.heap with mem := s.heap.mem.store8 a b }, s.live⟩

/-- What the client may do: pass live pointers (or `NULL` to `krealloc`), ask for at most `heap.avail`
    bytes, write inside live payloads. -/
def Legal (s : Client) : Op → Prop
  | .kalloc n => n ≤ s.heap.avail
  | .kfree p => p ∈ s.live
  | .krealloc p n => (p = 0 ∨ p ∈ s.live) ∧ n ≤ s.heap.avail
  | .write a _ => ∃ p ∈ s.live, p ≤ a ∧ a < p + capacity s.heap p

instance (s : Client) : DecidablePred (Legal s)
  | .kalloc n => inferInstanceAs (Decidable (n ≤ s.heap.avail))
  | .kfree p => inferInstanceAs (Decidable (p ∈ s.live))
  | .krealloc p n => inferInstanceAs (Decidable ((p = 0 ∨ p ∈ s.live) ∧ n ≤ s.heap.avail))
  | .write a _ => inferInstanceAs (Decidable (∃ p ∈ s.live, p ≤ a ∧ a < p + capacity s.heap p))

/-- The part of `Legal` that is about pointers; it leaves the sizes open. -/
def Owned (s : Client) : Op → Prop
  | .kalloc _ => True
  | .kfree p => p ∈ s.live
  | .krealloc p _ => p = 0 ∨ p ∈ s.live
  | .write a _ => ∃ p ∈ s.live, p ≤ a ∧ a < p + capacity s.heap p

theorem Legal.owned {s : Client} {op : Op} (h : Legal s op) : Owned s op := by
  cases op with
  | kalloc n => trivial
  | kfree p => exact h
  | krealloc p n => exact h.1
  | write a b => exact h

/-- The invariant: the heap holds `cs`, the live pointers are blocks of `cs`, each held once. -/
structure Inv (s : Client) (cs : List Chunk) : Prop where
  holds : Holds s.heap cs
  live : ∀ p ∈ s.live, ∃ c ∈ cs, c.inuse = true ∧ c.ptr = p
  nodup : s.live.Nodup
  merged : Merged cs

/-- An in-place extension computes its size test without wrapping. -/
def NoWrap (s : Client) : Op → Prop
  | .krealloc p n => growsInPlace s.heap p n = true → align16 n + 32 < 2 ^ 64
  | _ => True

/-- The same of the exact test: what the block has to grow by, and a header, stay below `2 ^ 64`. -/
def Steady (s : Client) : Op → Prop
  | .krealloc p n => p ∈ s.live → growsInPlace s.heap p n = true →
      align16 n - capacity s.heap p + 32 < 2 ^ 64
  | _ => True

theorem NoWrap.steady {s : Client} {op : Op} (h : NoWrap s op) : Steady s op := by
  cases op with
  | krealloc p n =>
    intro _ hg
    have := h hg
    omega
  | _ => trivial

/-- The chunk behind a live pointer. -/
theorem Inv.chunk {s : Client} {cs : List Chunk} (I : Inv s cs) {p : ℕ} (hp : p ∈ s.live) :
    ∃ c ∈ cs, c.inuse = true ∧ c.ptr = p ∧ capacity s.heap p = c.size := by
  obtain ⟨c, hc, hcu, rfl⟩ := I.live p hp
  refine ⟨c, hc, hcu, rfl, ?_⟩
  rw [capacity, show c.ptr - 32 = c.addr by unfold Chunk.ptr; omega]
  exact (I.holds.seg.header_of_mem c hc).1

/-- Everything a step can do to the heap and to the client's blocks. -/
inductive Effect (s : Client) (cs : List Chunk) : Op → Client → List Chunk → Prop
  /-- `kalloc` or `krealloc` refused. -/
  | refused (op : Op) : Effect s cs op s cs
  /-- The range test of `kfree` turned away a block at `heap_end`; its chunk stays in use. -/
  | kept (p : ℕ) : s.heap.heapEnd ≤ p → p ∈ s.live →
      Effect s cs (.kfree p) ⟨s.heap, s.live.erase p⟩ cs
  | allocated (op : Op) {h' : Heap} {cs' : List Chunk} {b : Chunk} :
      Edit True s.heap h' cs cs' [] [b] → b.inuse = true → b ∉ cs →
      Effect s cs op ⟨h', b.ptr :: s.live⟩ cs'
  | freed {h' : Heap} {cs' : List Chunk} {c : Chunk} : c ∈ cs → c.inuse = true → c.ptr ∈ s.live →
      Edit True s.heap h' cs cs' [c] [] → Effect s cs (.kfree c.ptr) ⟨h', s.live.erase c.ptr⟩ cs'
  | moved {h' : Heap} {cs' : List Chunk} {b c : Chunk} {n : ℕ} : c ∈ cs → c.inuse = true →
      c.ptr ∈ s.live → Edit (growsInPlace s.heap c.ptr n = false) s.heap h' cs cs' [c] [b] →
      Moved s.heap h' cs c b (align16 n) →
      Effect s cs (.krealloc c.ptr n) ⟨h', b.ptr :: s.live.erase c.ptr⟩ cs'
  | wrote {h' : Heap} {a : ℕ} {b : UInt8} : Holds h' cs → h'.heapStart = s.heap.heapStart →
      h'.heapEnd = s.heap.heapEnd → Effect s cs (.write a b) ⟨h', s.live⟩ cs

/-- The step lemma: a legal step reads through `NULL`, or returns with one of the effects above. It
    never runs forever. -/
theorem exec_effect {s : Client} {cs : List Chunk} (I : Inv s cs) {op : Op} (hl : Owned s op)
    (hw : Steady s op) :
    exec s op = .error .nullDeref ∨ ∃ s' cs', exec s op = .ok s' ∧ Effect s cs op s' cs' := by
  cases op with
  | kalloc n =>
    rcases kalloc_edit I.holds n with ⟨hk, _⟩ | ⟨_, h', cs', b, hk, E, hbu, _, hbn⟩
    · exact .inr ⟨s, cs, by simp [exec, hk], .refused _⟩
    · have hb : b.ptr ≠ 0 := by unfold Chunk.ptr; omega
      exact .inr ⟨_, cs', by simp [exec, hk, hb], .allocated _ E hbu hbn⟩
  | kfree p =>
    by_cases hp : s.heap.heapEnd ≤ p
    · exact .inr ⟨_, cs, by simp [exec, kfree_end hp], .kept p hp hl⟩
    · obtain ⟨c, hc, hcu, rfl, _⟩ := I.chunk hl
      obtain ⟨h', cs', hk, E⟩ := kfree_edit I.holds hc hcu (by omega)
      exact .inr ⟨_, cs', by simp [exec, hk], .freed hc hcu hl E⟩
  | krealloc p n =>
    rcases hl with rfl | hp
    · -- `krealloc(NULL, n)` is `kalloc`
      have hkr : krealloc s.heap 0 n = kalloc s.heap (align16 n) := by simp [krealloc]
      rcases kalloc_edit I.holds (align16 n) with ⟨hk, _⟩ | ⟨_, h', cs', b, hk, E, hbu, _, hbn⟩
      · exact .inr ⟨s, cs, by simp [exec, hkr, hk], .refused _⟩
      · have hb : b.ptr ≠ 0 := by unfold Chunk.ptr; omega
        have h0 : 0 ∉ s.live := fun h => by
          obtain ⟨c, _, _, hc⟩ := I.live 0 h
          unfold Chunk.ptr at hc; omega
        exact .inr ⟨_, cs', by simp [exec, hkr, hk, hb, List.erase_of_not_mem h0],
          .allocated _ E hbu hbn⟩
    · obtain ⟨c, hc, hcu, rfl, hcap⟩ := I.chunk hp
      obtain ⟨pre, post, rfl⟩ := List.append_of_mem hc
      rcases krealloc_outcome I.holds hcu n (fun hg => hcap ▸ hw hp hg) with
        ⟨hk, _⟩ | ⟨hk, _⟩ | ⟨_, h', cs', b, hk, E, M⟩
      · exact .inl (by simp [exec, hk])
      · exact .inr ⟨s, _, by simp [exec, hk], .refused _⟩
      · have hb : b.ptr ≠ 0 := by unfold Chunk.ptr; omega
        exact .inr ⟨_, cs', by simp [exec, hk, hb], .moved hc hcu hp E M⟩
  | write a v =>
    obtain ⟨p, hp, h1, h2⟩ := hl
    obtain ⟨c, hc, hcu, rfl, hcap⟩ := I.chunk hp
    refine .inr ⟨_, cs, rfl, .wrote (I.holds.of_payload hc fun x hx => Mem.store8_out ?_) rfl rfl⟩
    rintro rfl
    exact hx ⟨h1, by rw [hcap] at h2; exact h2⟩

/-- Live blocks that an edit does not take out are still blocks. -/
theorem Edit.live_of {tight : Prop} {h h' : Heap} {cs cs' out inn : List Chunk}
    (E : Edit tight h h' cs cs' out inn) {p : ℕ} (hp : ∃ c ∈ cs, c.inuse = true ∧ c.ptr = p)
    (hne : ∀ c ∈ out, c.ptr ≠ p) : ∃ c ∈ cs', c.inuse = true ∧ c.ptr = p := by
  obtain ⟨c, hc, hcu, hcp⟩ := hp
  exact ⟨c, (E.used c hcu).mpr (.inr ⟨hc, fun h => hne c h hcp⟩), hcu, hcp⟩

/-- A block an edit brings in is not yet live, unless the client just gave it up. -/
theorem Edit.not_live {tight : Prop} {s : Client} {h' : Heap} {cs cs' out : List Chunk} {b : Chunk}
    (I : Inv s cs) (E : Edit tight s.heap h' cs cs' out [b]) (hbu : b.inuse = true)
    (hout : ∀ c ∈ cs, c.inuse = true → c ∉ out → c ≠ b) {p : ℕ} (hp : p ∈ s.live)
    (hne : ∀ c ∈ out, c.ptr ≠ p) : b.ptr ≠ p := by
  intro he
  obtain ⟨c, hc, hcu, hcp⟩ := I.live p hp
  have hco : c ∉ out := fun h => hne c h hcp
  have hc' : c ∈ cs' := (E.used c hcu).mpr (.inr ⟨hc, hco⟩)
  have hb' : b ∈ cs' := (E.used b hbu).mpr (.inl (by simp))
  exact hout c hc hcu hco (E.holds.ptr_inj hc' hb' (hcp.trans he.symm))

/-- Every effect keeps the invariant. -/
theorem Effect.inv {s s' : Client} {cs cs' : List Chunk} {op : Op} (I : Inv s cs)
    (e : Effect s cs op s' cs') : Inv s' cs' := by
  cases e with
  | refused => exact I
  | kept p hp hl =>
    exact ⟨I.holds, fun q hq => I.live q (List.mem_of_mem_erase hq), I.nodup.erase p, I.merged⟩
  | allocated _ E hbu hbn =>
    rename_i h' b
    refine ⟨E.holds, fun p hp => ?_, List.nodup_cons.mpr ⟨fun hb => ?_, I.nodup⟩, E.merged I.merged⟩
    · rcases List.mem_cons.mp hp with rfl | hp
      · exact ⟨b, (E.used b hbu).mpr (.inl (by simp)), hbu, rfl⟩
      · exact E.live_of (I.live p hp) (by simp)
    · exact E.not_live I hbu (fun c hc _ _ h => hbn (h ▸ hc)) hb (by simp) rfl
  | freed hc hcu hl E =>
    rename_i h' c
    refine ⟨E.holds, fun p hp => E.live_of (I.live p (List.mem_of_mem_erase hp)) ?_,
      I.nodup.erase _, E.merged I.merged⟩
    rintro d hd rfl
    rw [List.mem_singleton.mp hd] at hp
    exact (List.Nodup.not_mem_erase I.nodup) hp
  | moved hc hcu hl E M =>
    rename_i h' b c n
    have hgone : ∀ p ∈ s.live.erase c.ptr, ∀ d ∈ [c], d.ptr ≠ p := by
      rintro p hp d hd rfl
      rw [List.mem_singleton.mp hd] at hp
      exact (List.Nodup.not_mem_erase I.nodup) hp
    refine ⟨E.holds, fun p hp => ?_, List.nodup_cons.mpr ⟨fun hb => ?_, I.nodup.erase _⟩,
      E.merged I.merged⟩
    · rcases List.mem_cons.mp hp with rfl | hp
      · exact ⟨b, (E.used b M.inuse).mpr (.inl (by simp)), M.inuse, rfl⟩
      · exact E.live_of (I.live p (List.mem_of_mem_erase hp)) (hgone p hp)
    · refine E.not_live I M.inuse (fun d hd _ hdc h => ?_) (List.mem_of_mem_erase hb) (hgone _ hb) rfl
      exact hdc (by rw [h, M.fresh (h ▸ hd)]; simp)
  | wrote H _ _ => exact ⟨H, I.live, I.nodup, I.merged⟩

/-- A step moves neither bound of the region. -/
theorem Effect.region {s s' : Client} {cs cs' : List Chunk} {op : Op} (e : Effect s cs op s' cs') :
    s'.heap.heapStart = s.heap.heapStart ∧ s'.heap.heapEnd = s.heap.heapEnd := by
  cases e with
  | refused => exact ⟨rfl, rfl⟩
  | kept => exact ⟨rfl, rfl⟩
  | allocated _ E => exact ⟨E.start_eq, E.end_eq⟩
  | freed _ _ _ E => exact ⟨E.start_eq, E.end_eq⟩
  | moved _ _ _ E => exact ⟨E.start_eq, E.end_eq⟩
  | wrote _ h1 h2 => exact ⟨h1, h2⟩

/-- A region the caller may pass to `heap_init`: aligned, not wrapping, with room for a header. -/
structure Span (lo hi : ℕ) : Prop where
  lo_al : lo % 16 = 0
  hi_al : hi % 16 = 0
  room : lo + 32 ≤ hi
  hi_lt : hi < 2 ^ 64

theorem init_inv {m : Mem} {lo hi : ℕ} {h : Heap} (R : Span lo hi) (he : heapInit m lo hi = .ok h) :
    Inv ⟨h, []⟩ [⟨lo, hi - lo - 32, false⟩] ∧ h.heapStart = lo ∧ h.heapEnd = hi := by
  obtain ⟨H, h1, h2, _⟩ := heapInit_holds R.lo_al R.hi_al R.room R.hi_lt he
  exact ⟨⟨H, by simp, .nil, .singleton _⟩, h1, h2⟩

/-- The run lemma: whatever steps are admitted, as long as they keep to owned blocks and do not wrap,
    the invariant holds in every state reached. -/
theorem run_inv {ok : Client → Op → Prop} {m : Mem} {lo hi : ℕ} {h : Heap} {ops : List Op} {s : Client}
    (R : Span lo hi) (he : heapInit m lo hi = .ok h) (hl : ∀ t a, ok t a → Owned t a)
    (hw : ∀ t a, ok t a → t.heap.avail = hi - lo → Steady t a) (hrun : Run ok exec ⟨h, []⟩ ops s) :
    ∃ cs, Inv s cs ∧ s.heap.heapStart = lo ∧ s.heap.heapEnd = hi := by
  refine hrun.invariant (I := fun s => ∃ cs, Inv s cs ∧ s.heap.heapStart = lo ∧ s.heap.heapEnd = hi)
    ⟨_, init_inv R he⟩ ?_
  rintro t a u ⟨cs, I, h1, h2⟩ hok hst
  have hav : t.heap.avail = hi - lo := by rw [I.holds.avail_eq, h1, h2]
  rcases exec_effect I (hl t a hok) (hw t a hok hav) with hn | ⟨u', cs', hu, e⟩
  · rw [hn] at hst; cases hst
  · rw [hu] at hst
    obtain rfl := Except.ok.inj hst
    exact ⟨cs', e.inv I, e.region.1.trans h1, e.region.2.trans h2⟩

/-- In a region short of the whole address space no request the client may make wraps. -/
theorem noWrap_of_small {t : Client} {a : Op} {lo hi : ℕ} (R : Span lo hi) (hs : hi - lo ≤ 2 ^ 64 - 48)
    (hl : Legal t a) (hav : t.heap.avail = hi - lo) : NoWrap t a := by
  cases a with
  | krealloc p n =>
    intro _
    have hmod : (hi - lo) % 16 = 0 := by have := R.lo_al; have := R.hi_al; have := R.room; omega
    have := align16_le (n := n) (a := hi - lo) (by rw [← hav]; exact hl.2) hmod (by omega)
    omega
  | _ => trivial

/-- The run lemma for regions short of the whole address space: no step but must be legal. -/
theorem run_inv_small {m : Mem} {lo hi : ℕ} {h : Heap} {ops : List Op} {s : Client} (R : Span lo hi)
    (hsmall : hi - lo ≤ 2 ^ 64 - 48) (he : heapInit m lo hi = .ok h)
    (hrun : Run Legal exec ⟨h, []⟩ ops s) :
    ∃ cs, Inv s cs ∧ s.heap.heapStart = lo ∧ s.heap.heapEnd = hi :=
  run_inv R he (fun _ _ h => h.owned) (fun _ _ hl hav => (noWrap_of_small R hsmall hl hav).steady) hrun

end TerraOS.Kheap
