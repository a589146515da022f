import TerraOS.Lib.ByteMem

/-! utils.c and utils.h: the kernel's constants and the two byte loops every subsystem uses.

    `memcpy` and `memset` are written once, over an arbitrary byte bus: the heap runs them on flat
    memory, the loader through the page tables. `memcpy` counts in a signed 32-bit `int` that is
    compared with a 64-bit count, so its index is kept as a 32-bit pattern and sign-extended for both
    the comparison and the address. -/

namespace TerraOS
open Lib Lib.Word

abbrev KERNEL_BASE : ℕ := 0xFFFFFFFF80000000
abbrev POOL_START : ℕ := 0xFFFFFFFF80020000
abbrev POOL_END : ℕ := 0xFFFFFFFF801FF000
abbrev KERNEL_END : ℕ := 0xFFFFFFFF80200000
abbrev PAGE_SIZE : ℕ := 0x1000
abbrev PAGE_MASK : ℕ := 0x000FFFFFFFFFF000

section loops
variable {σ ε : Type} (B : Bus σ ε)

/-- The loop of `memcpy`: `i` is the bit pattern of the `int` index. `2 ^ 32` rounds are more than it
    can take, because the pattern `2 ^ 32 - 1` extends to the largest 64-bit number. -/
def memcpyLoop (dest src count : ℕ) : ℕ → ℕ → σ → Except ε σ
  | 0, _, s => .ok s
  | fuel + 1, i, s =>
    if sext32 i < count then do
      let b ← B.rd s (add64 src (sext32 i))
      let s ← B.wr s (add64 dest (sext32 i)) b
      memcpyLoop dest src count fuel ((i + 1) % 2 ^ 32) s
    else .ok s

def memcpy (s : σ) (dest src count : ℕ) : Except ε σ :=
  memcpyLoop B dest src count (2 ^ 32) 0 s

/-- The loop of `memset`, at index `i` with `n` rounds left. -/
def memsetLoop (dest : ℕ) (byte : UInt8) : ℕ → ℕ → σ → Except ε σ
  | 0, _, s => .ok s
  | n + 1, i, s => do
    let s ← B.wr s (add64 dest i) byte
    memsetLoop dest byte n (i + 1) s

def memset (s : σ) (dest c count : ℕ) : Except ε σ :=
  memsetLoop B dest (UInt8.ofNat c) count 0 s

end loops

/-- The bytes `[d, d + n)` replaced by those of `[s, s + n)`. -/
def copyBytes (m : Mem) (d s n : ℕ) : Mem := fun x =>
  if d ≤ x ∧ x < d + n then m (s + (x - d)) else m x

/-- One round of the flat loop extends the copied range by one byte. -/
theorem store8_copyBytes {m : Mem} {d s n : ℕ} (hdis : s + n < d ∨ d + n ≤ s) :
    (copyBytes m d s n).store8 (d + n) (copyBytes m d s n (s + n)) = copyBytes m d s (n + 1) := by
  funext x
  rcases eq_or_ne x (d + n) with rfl | hx
  · have hsrc : copyBytes m d s n (s + n) = m (s + n) := if_neg (by omega)
    rw [Mem.store8_self, hsrc, copyBytes, if_pos ⟨by omega, by omega⟩]
    congr 1; omega
  · rw [Mem.store8_out hx]
    simp only [copyBytes]
    by_cases h : d ≤ x ∧ x < d + n
    · rw [if_pos h, if_pos ⟨h.1, by omega⟩]
    · rw [if_neg h, if_neg (by omega)]

/-- What the flat loop does from a state in which `i` bytes are already copied. It stops at `2 ^ 31`:
    there the index turns negative and extends to a number no such count exceeds. -/
theorem memcpyLoop_flat {ε : Type} {m : Mem} {d s count : ℕ} (hd : d + count ≤ 2 ^ 64)
    (hs : s + count ≤ 2 ^ 64) (hdis : s + count ≤ d ∨ d + count ≤ s)
    (hc : count ≤ 2 ^ 63) : ∀ (fuel i : ℕ), i ≤ min count (2 ^ 31) → min count (2 ^ 31) < i + fuel →
    memcpyLoop (flatBus ε) d s count fuel i (copyBytes m d s i)
      = .ok (copyBytes m d s (min count (2 ^ 31)))
  | 0, i, _, h2 => by omega
  | fuel + 1, i, h1, h2 => by
    rw [memcpyLoop]
    by_cases hi : i < min count (2 ^ 31)
    · rw [sext32_of_lt (by omega), if_pos (by omega), add64_of_lt (by omega), add64_of_lt (by omega),
        Nat.mod_eq_of_lt (by omega)]
      simp only [flatBus, ok_bind]
      rw [store8_copyBytes (by omega)]
      exact memcpyLoop_flat hd hs hdis hc fuel (i + 1) (by omega) (by omega)
    · have he : i = min count (2 ^ 31) := by omega
      rw [if_neg (by unfold sext32; split <;> omega), he]

theorem copyBytes_zero (m : Mem) (d s : ℕ) : copyBytes m d s 0 = m := by
  funext x; exact if_neg (by omega)

/-- On flat memory and disjoint ranges `memcpy` copies the first `2 ^ 31` of the bytes it is asked
    for, and leaves every other byte alone. -/
theorem memcpy_flat {ε : Type} {m : Mem} {d s count : ℕ} (hd : d + count ≤ 2 ^ 64)
    (hs : s + count ≤ 2 ^ 64) (hdis : s + count ≤ d ∨ d + count ≤ s) (hc : count ≤ 2 ^ 63) :
    memcpy (flatBus ε) m d s count = .ok (copyBytes m d s (min count (2 ^ 31))) := by
  have h := memcpyLoop_flat (ε := ε) (m := m) hd hs hdis hc (2 ^ 32) 0 (by omega) (by omega)
  rwa [copyBytes_zero] at h

/-- The loop has ended by the time `2 ^ 32` rounds are done: more rounds change nothing. -/
theorem memcpyLoop_fuel {σ ε : Type} (B : Bus σ ε) {d s count : ℕ} (hc : count < 2 ^ 64) (k : ℕ) :
    ∀ (fuel i : ℕ) (st : σ), i < 2 ^ 32 → 2 ^ 32 ≤ i + fuel →
      memcpyLoop B d s count (fuel + k) i st = memcpyLoop B d s count fuel i st
  | 0, i, _, hi, h => by omega
  | fuel + 1, i, st, hi, h => by
    rw [Nat.add_right_comm, memcpyLoop, memcpyLoop]
    by_cases hlt : sext32 i < count
    · -- the last pattern extends to `2 ^ 64 - 1`, so that this is not the last
      have hnext : i + 1 < 2 ^ 32 := by
        unfold sext32 at hlt
        split at hlt <;> omega
      rw [if_pos hlt, if_pos hlt, Nat.mod_eq_of_lt hnext]
      congr 1
      funext b
      congr 1
      funext st'
      exact memcpyLoop_fuel B hc k fuel (i + 1) st' hnext (by omega)
    · rw [if_neg hlt, if_neg hlt]

/-- What is asked of a copy: `dest` holds the bytes of `src`, and no other byte has changed. -/
def Copies (m m' : Mem) (dest src count : ℕ) : Prop :=
  (∀ i < count, m' (dest + i) = m (src + i)) ∧ ∀ x, x < dest ∨ dest + count ≤ x → m' x = m x

theorem copies_copyBytes {m : Mem} {dest src count : ℕ} :
    Copies m (copyBytes m dest src (min count (2 ^ 31))) dest src count ↔
      ∀ i, 2 ^ 31 ≤ i → i < count → m (dest + i) = m (src + i) := by
  constructor
  · rintro ⟨hcopied, _⟩ i hi hlt
    rw [← hcopied i hlt, copyBytes, if_neg (by omega)]
  · intro h
    refine ⟨fun i hlt => ?_, fun x hx => if_neg (by omega)⟩
    by_cases hi : i < 2 ^ 31
    · rw [copyBytes, if_pos (by omega), Nat.add_sub_cancel_left]
    · rw [copyBytes, if_neg (by omega), h i (by omega) hlt]

/-- `memcpy` comes to an end, and has copied what it was asked to if and only if the bytes from `2 ^ 31`
    on are the same in both ranges before the call: the index never gets to them. -/
theorem memcpy_copies_iff {ε : Type} {m : Mem} {dest src count : ℕ} (hd : dest + count ≤ 2 ^ 64)
    (hs : src + count ≤ 2 ^ 64) (hdis : src + count ≤ dest ∨ dest + count ≤ src) :
    (∃ m', (∀ fuel, 2 ^ 32 ≤ fuel → memcpyLoop (flatBus ε) dest src count fuel 0 m = .ok m') ∧
      Copies m m' dest src count) ↔
    ∀ i, 2 ^ 31 ≤ i → i < count → m (dest + i) = m (src + i) := by
  have hc : count ≤ 2 ^ 63 := by omega
  have hend : memcpyLoop (flatBus ε) dest src count (2 ^ 32) 0 m
      = .ok (copyBytes m dest src (min count (2 ^ 31))) := memcpy_flat hd hs hdis hc
  rw [← copies_copyBytes]
  constructor
  · rintro ⟨m', hrun, hcopies⟩
    obtain rfl := Except.ok.inj (hend.symm.trans (hrun _ le_rfl))
    exact hcopies
  · intro hcopies
    refine ⟨_, fun fuel hfuel => ?_, hcopies⟩
    obtain ⟨k, rfl⟩ := Nat.exists_eq_add_of_le hfuel
    rw [memcpyLoop_fuel _ (by omega) k (2 ^ 32) 0 m (by omega) (by omega), hend]

/-- The segment of `user_program_elf`, 192 bytes, in a memory that has its address in every byte. -/
theorem memcpy_copies_iff_user_program :
    (∃ m', (∀ fuel, 2 ^ 32 ≤ fuel →
        memcpyLoop (flatBus Empty) 0x400000 0xFFFFFFFF80011000 0xC0 fuel 0 UInt8.ofNat = .ok m') ∧
      Copies UInt8.ofNat m' 0x400000 0xFFFFFFFF80011000 0xC0) ↔
    ∀ i, 2 ^ 31 ≤ i → i < 0xC0 → UInt8.ofNat (0x400000 + i) = UInt8.ofNat (0xFFFFFFFF80011000 + i) :=
  memcpy_copies_iff (by decide) (by decide) (by decide)

/-- A byte more than `2 ^ 31`: the last one, the only one that is not zero, stays where it is. -/
theorem memcpy_stops_short : ∃ (m : Mem) (dest src count : ℕ),
    dest + count ≤ 2 ^ 64 ∧ src + count ≤ 2 ^ 64 ∧ src + count ≤ dest ∧
      ¬ ∃ m', memcpy (flatBus Empty) m dest src count = .ok m' ∧ Copies m m' dest src count := by
  refine ⟨fun x => if x = 2 ^ 31 then 1 else 0, 2 ^ 32, 0, 2 ^ 31 + 1, by decide, by decide, by decide, ?_⟩
  rintro ⟨m', hrun, hcopied, _⟩
  rw [memcpy_flat (by decide) (by decide) (by decide) (by decide)] at hrun
  obtain rfl := Except.ok.inj hrun
  have hlast := hcopied (2 ^ 31) (by decide)
  rw [copyBytes, if_neg (by decide), if_neg (by decide)] at hlast
  exact absurd hlast (by decide)

/-- The bytes `[d, d + n)` set to `b`. -/
def fillBytes (m : Mem) (d n : ℕ) (b : UInt8) : Mem := fun x =>
  if d ≤ x ∧ x < d + n then b else m x

theorem store8_fillBytes {m : Mem} {d n : ℕ} {b : UInt8} :
    (fillBytes m d n b).store8 (d + n) b = fillBytes m d (n + 1) b := by
  funext x
  rcases eq_or_ne x (d + n) with rfl | hx
  · rw [Mem.store8_self, fillBytes, if_pos ⟨by omega, by omega⟩]
  · rw [Mem.store8_out hx]
    simp only [fillBytes]
    by_cases h : d ≤ x ∧ x < d + n
    · rw [if_pos h, if_pos ⟨h.1, by omega⟩]
    · rw [if_neg h, if_neg (by omega)]

/-- `alloc_page`: the page returned (`NULL` when the bootstrap pool is used up) and the new
    `next_free`. -/
def allocPage (nextFree : ℕ) : ℕ × ℕ :=
  if add64 nextFree PAGE_SIZE ≥ POOL_END then (0, nextFree)
  else (nextFree, add64 nextFree PAGE_SIZE)

/-- `next_free` after `n` further calls whose results are dropped. -/
def allocPages : ℕ → ℕ → ℕ
  | 0, nextFree => nextFree
  | n + 1, nextFree => allocPages n (allocPage nextFree).2

end TerraOS
