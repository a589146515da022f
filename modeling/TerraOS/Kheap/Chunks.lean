import TerraOS.Kheap.Model

/-! The chunk list behind the memory.

    `Seg m a cs b` says that following `next` from `a` in memory `m` passes exactly the chunks `cs` and
    arrives at `b`. A field write touches one header, so a segment survives every write outside the
    headers it passes (`Seg.congr`), and a list edit is proved by cutting the list at the edited chunk
    (`seg_append`). `Fits lo hi cs` is the layout: chunks in address order inside `[lo, hi)`, 16-aligned,
    none reaching into the next. It allows room between a chunk's end and its successor. -/

namespace TerraOS.Kheap
open Lib Lib.Word

/-- A chunk as the list sees it. -/
structure Chunk where
  addr : ℕ
  size : ℕ
  inuse : Bool
  deriving DecidableEq, Repr

namespace Chunk

/-- The pointer handed to the client. -/
def ptr (c : Chunk) : ℕ := c.addr + 32

/-- The first address after the payload. -/
def stop (c : Chunk) : ℕ := c.addr + 32 + c.size

/-- `x` is a payload byte of `c`. -/
def Owns (c : Chunk) (x : ℕ) : Prop := c.ptr ≤ x ∧ x < c.stop

end Chunk

/-! ### Headers in memory -/

/-- The three fields of a header. -/
structure Header where
  size : ℕ
  inuse : Bool
  next : ℕ
  deriving DecidableEq

def header (m : Mem) (c : ℕ) : Header := ⟨m.load64 c, m (c + 8) != 0, m.load64 (c + 16)⟩

section fields
variable {m m' : Mem} {c d v : ℕ} {b : Bool}

theorem getSize_ok (h : c ≠ 0) : getSize m c = .ok (header m c).size := if_neg h
theorem getInuse_ok (h : c ≠ 0) : getInuse m c = .ok (header m c).inuse := if_neg h
theorem getNext_ok (h : c ≠ 0) : getNext m c = .ok (header m c).next := if_neg h
theorem setSize_ok (h : c ≠ 0) : setSize m c v = .ok (m.store64 c v) := if_neg h
theorem setInuse_ok (h : c ≠ 0) :
    setInuse m c b = .ok (m.store8 (c + 8) (if b then 1 else 0)) := if_neg h
theorem setNext_ok (h : c ≠ 0) : setNext m c v = .ok (m.store64 (c + 16) v) := if_neg h

/-- A header is read from its own 32 bytes. -/
theorem header_congr (h : ∀ x, c ≤ x → x < c + 32 → m' x = m x) : header m' c = header m c := by
  simp only [header, Header.mk.injEq]
  refine ⟨Mem.load64_congr fun x h1 h2 => h x h1 (by omega), ?_,
    Mem.load64_congr fun x h1 h2 => h x (by omega) (by omega)⟩
  rw [h (c + 8) (by omega) (by omega)]

theorem header_setSize (h : v < 2 ^ 64) :
    header (m.store64 c v) c = ⟨v, (header m c).inuse, (header m c).next⟩ := by
  simp only [header, Header.mk.injEq]
  refine ⟨Mem.load64_store64 h, ?_, Mem.load64_store64_out (by omega)⟩
  rw [Mem.store64_out (by omega)]

theorem header_setInuse :
    header (m.store8 (c + 8) (if b then 1 else 0)) c = ⟨(header m c).size, b, (header m c).next⟩ := by
  simp only [header, Header.mk.injEq]
  refine ⟨Mem.load64_store8_out (by omega), ?_, Mem.load64_store8_out (by omega)⟩
  rw [Mem.store8_self]; cases b <;> rfl

theorem header_setNext (h : v < 2 ^ 64) :
    header (m.store64 (c + 16) v) c = ⟨(header m c).size, (header m c).inuse, v⟩ := by
  simp only [header, Header.mk.injEq]
  refine ⟨Mem.load64_store64_out (by omega), ?_, Mem.load64_store64 h⟩
  rw [Mem.store64_out (by omega)]

/-- Two headers that do not meet. -/
abbrev Apart (c d : ℕ) : Prop := c + 32 ≤ d ∨ d + 32 ≤ c

theorem header_setSize_apart (h : Apart c d) : header (m.store64 c v) d = header m d :=
  header_congr fun x h1 h2 => Mem.store64_out (by omega)

theorem header_setInuse_apart {u : UInt8} (h : Apart c d) :
    header (m.store8 (c + 8) u) d = header m d :=
  header_congr fun x h1 h2 => Mem.store8_out (by omega)

theorem header_setNext_apart (h : Apart c d) : header (m.store64 (c + 16) v) d = header m d :=
  header_congr fun x h1 h2 => Mem.store64_out (by omega)

end fields

/-! ### List segments -/

/-- From `a`, `next` leads through the chunks `cs` to `b`. -/
def Seg (m : Mem) : ℕ → List Chunk → ℕ → Prop
  | a, [], b => a = b
  | a, c :: cs, b => a ≠ 0 ∧ c.addr = a ∧ (header m a).size = c.size ∧
      (header m a).inuse = c.inuse ∧ Seg m (header m a).next cs b

theorem seg_append {m : Mem} : ∀ {xs ys : List Chunk} {a b : ℕ},
    Seg m a (xs ++ ys) b ↔ ∃ k, Seg m a xs k ∧ Seg m k ys b
  | [], ys, a, b => by simp [Seg]
  | x :: xs, ys, a, b => by
    simp only [List.cons_append, Seg, seg_append]
    constructor
    · rintro ⟨h1, h2, h3, h4, k, h5, h6⟩; exact ⟨k, ⟨h1, h2, h3, h4, h5⟩, h6⟩
    · rintro ⟨k, ⟨h1, h2, h3, h4, h5⟩, h6⟩; exact ⟨h1, h2, h3, h4, k, h5, h6⟩

/-- A segment depends on the headers it passes and on no other byte. -/
theorem Seg.congr {m m' : Mem} : ∀ {cs : List Chunk} {a b : ℕ}, Seg m a cs b →
    (∀ c ∈ cs, header m' c.addr = header m c.addr) → Seg m' a cs b
  | [], _, _, h, _ => h
  | c :: cs, a, b, ⟨h1, h2, h3, h4, h5⟩, hh => by
    have hc : header m' a = header m a := h2 ▸ hh c (List.mem_cons_self ..)
    refine ⟨h1, h2, by rw [hc, h3], by rw [hc, h4], ?_⟩
    rw [hc]; exact h5.congr fun d hd => hh d (List.mem_cons_of_mem _ hd)

theorem Seg.addr_ne_zero {m : Mem} : ∀ {cs : List Chunk} {a b : ℕ}, Seg m a cs b →
    ∀ c ∈ cs, c.addr ≠ 0
  | c :: cs, a, b, ⟨h1, h2, _, _, h5⟩, d, hd => by
    rcases List.mem_cons.mp hd with rfl | hd
    · exact h2 ▸ h1
    · exact h5.addr_ne_zero d hd

/-- The header of a chunk on a segment shows the chunk. -/
theorem Seg.header_of_mem {m : Mem} : ∀ {cs : List Chunk} {a b : ℕ}, Seg m a cs b →
    ∀ c ∈ cs, (header m c.addr).size = c.size ∧ (header m c.addr).inuse = c.inuse
  | c :: cs, a, b, ⟨_, h2, h3, h4, h5⟩, d, hd => by
    rcases List.mem_cons.mp hd with rfl | hd
    · exact ⟨h2 ▸ h3, h2 ▸ h4⟩
    · exact h5.header_of_mem d hd

/-- The pointer that reaches the rest of the list: `NULL` at its end. -/
def headAddr : List Chunk → ℕ
  | [] => 0
  | c :: _ => c.addr

theorem Seg.head_eq {m : Mem} : ∀ {cs : List Chunk} {a : ℕ}, Seg m a cs 0 → a = headAddr cs
  | [], _, h => h
  | _ :: _, _, h => h.2.1.symm

/-- The links leave no choice of list. -/
theorem Seg.unique {m : Mem} : ∀ {cs ds : List Chunk} {a : ℕ}, Seg m a cs 0 → Seg m a ds 0 → cs = ds
  | [], [], _, _, _ => rfl
  | [], _ :: _, _, h, ⟨h0, _⟩ => absurd h h0
  | _ :: _, [], _, ⟨h0, _⟩, h => absurd h h0
  | c :: cs, d :: ds, a, ⟨_, ha, hs, hu, hn⟩, ⟨_, ga, gs, gu, gn⟩ => by
    have hcd : c = d := by
      obtain ⟨_, _, _⟩ := c
      obtain ⟨_, _, _⟩ := d
      simp only at ha hs hu ga gs gu
      rw [ha, ga, ← hs, ← gs, ← hu, ← gu]
    rw [hcd, hn.unique gn]

/-! ### Layout -/

/-- `cs` lies inside `[lo, hi)` in address order, aligned, each chunk clear of the next. -/
def Fits : ℕ → ℕ → List Chunk → Prop
  | lo, hi, [] => lo ≤ hi
  | lo, hi, c :: cs => lo ≤ c.addr ∧ c.addr % 16 = 0 ∧ c.size % 16 = 0 ∧ Fits c.stop hi cs

theorem Fits.le : ∀ {cs : List Chunk} {lo hi : ℕ}, Fits lo hi cs → lo ≤ hi
  | [], _, _, h => h
  | c :: cs, lo, hi, ⟨h1, _, _, h4⟩ => by
    have := h4.le; unfold Chunk.stop at this; omega

theorem Fits.mono : ∀ {cs : List Chunk} {lo lo' hi : ℕ}, Fits lo hi cs → lo' ≤ lo → Fits lo' hi cs
  | [], _, _, _, h, hl => le_trans hl h
  | _ :: _, _, _, _, ⟨h1, h2⟩, hl => ⟨le_trans hl h1, h2⟩

theorem fits_append {c : Chunk} {ys : List Chunk} : ∀ {xs : List Chunk} {lo hi : ℕ},
    Fits lo hi (xs ++ c :: ys) ↔ Fits lo c.addr xs ∧ Fits c.addr hi (c :: ys)
  | [], lo, hi => by simp [Fits]
  | x :: xs, lo, hi => by
    simp only [List.cons_append, Fits, fits_append, le_refl, true_and]
    tauto

/-- Where a member of a laid out list can be. -/
theorem Fits.bounds : ∀ {cs : List Chunk} {lo hi : ℕ}, Fits lo hi cs → ∀ c ∈ cs,
    lo ≤ c.addr ∧ c.stop ≤ hi ∧ c.addr % 16 = 0 ∧ c.size % 16 = 0
  | c :: cs, lo, hi, ⟨h1, h2, h3, h4⟩, d, hd => by
    rcases List.mem_cons.mp hd with rfl | hd
    · exact ⟨h1, h4.le, h2, h3⟩
    · obtain ⟨g1, g2, g3, g4⟩ := h4.bounds d hd
      unfold Chunk.stop at g1; exact ⟨by omega, g2, g3, g4⟩

/-- Two members of a laid out list are the same chunk or lie one after the other. -/
theorem Fits.apart : ∀ {cs : List Chunk} {lo hi : ℕ}, Fits lo hi cs → ∀ c ∈ cs, ∀ d ∈ cs,
    c = d ∨ c.stop ≤ d.addr ∨ d.stop ≤ c.addr
  | x :: cs, lo, hi, ⟨_, _, _, h4⟩, c, hc, d, hd => by
    rcases List.mem_cons.mp hc with rfl | hc' <;> rcases List.mem_cons.mp hd with rfl | hd'
    · exact .inl rfl
    · exact .inr (.inl (h4.bounds d hd').1)
    · exact .inr (.inr (h4.bounds c hc').1)
    · exact h4.apart c hc' d hd'

/-- Each chunk takes at least its header, so a laid out list is short. -/
theorem Fits.length_le : ∀ {cs : List Chunk} {lo hi : ℕ}, Fits lo hi cs → cs.length * 32 + lo ≤ hi
  | [], _, _, h => by simpa [Fits] using h
  | c :: cs, lo, hi, ⟨h1, _, _, h4⟩ => by
    have := h4.length_le; unfold Chunk.stop at this; simp only [List.length_cons]; omega

/-- Strictly increasing addresses. -/
theorem Fits.sorted {cs : List Chunk} {lo hi : ℕ} (h : Fits lo hi cs) :
    cs.Pairwise fun c d => c.stop ≤ d.addr := by
  induction cs generalizing lo with
  | nil => exact .nil
  | cons c cs ih =>
    obtain ⟨_, _, _, h4⟩ := h
    exact List.pairwise_cons.mpr ⟨fun d hd => (h4.bounds d hd).1, ih h4⟩

end TerraOS.Kheap
