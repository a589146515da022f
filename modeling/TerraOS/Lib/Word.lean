import Mathlib

/-! Fixed-width words as natural numbers.

    A 64-bit register holds a `ℕ` below `2 ^ 64`; sums and differences wrap there and nowhere else, so
    a proof that knows the operands are small reads `add64`/`sub64` as ordinary arithmetic. Masks that
    select a contiguous run of bits become division and remainder, which is the form `omega` decides. -/

namespace Lib.Word

/-- Unsigned 64-bit addition. -/
def add64 (a b : ℕ) : ℕ := (a + b) % 2 ^ 64

/-- Unsigned 64-bit subtraction. -/
def sub64 (a b : ℕ) : ℕ := (a + (2 ^ 64 - b % 2 ^ 64)) % 2 ^ 64

/-- Unsigned 64-bit multiplication. -/
def mul64 (a b : ℕ) : ℕ := (a * b) % 2 ^ 64

@[simp] theorem add64_of_lt {a b : ℕ} (h : a + b < 2 ^ 64) : add64 a b = a + b :=
  Nat.mod_eq_of_lt h

@[simp] theorem mul64_of_lt {a b : ℕ} (h : a * b < 2 ^ 64) : mul64 a b = a * b :=
  Nat.mod_eq_of_lt h

@[simp] theorem sub64_of_le {a b : ℕ} (h : b ≤ a) (ha : a < 2 ^ 64) : sub64 a b = a - b := by
  unfold sub64; omega

theorem add64_lt (a b : ℕ) : add64 a b < 2 ^ 64 := Nat.mod_lt _ (by decide)

theorem sub64_lt (a b : ℕ) : sub64 a b < 2 ^ 64 := Nat.mod_lt _ (by decide)

/-- A 32-bit signed index, kept as its bit pattern, extended to 64 bits. -/
def sext32 (i : ℕ) : ℕ := if i < 2 ^ 31 then i else i + (2 ^ 64 - 2 ^ 32)

theorem sext32_of_lt {i : ℕ} (h : i < 2 ^ 31) : sext32 i = i := if_pos h

/-- A mask of the bits `k .. n-1` keeps the remainder modulo `2 ^ n`, rounded down to `2 ^ k`. -/
theorem and_mask {k n : ℕ} (x : ℕ) (h : k ≤ n) :
    x &&& (2 ^ n - 2 ^ k) = x % 2 ^ n / 2 ^ k * 2 ^ k := by
  apply Nat.eq_of_testBit_eq
  intro i
  have e : 2 ^ n - 2 ^ k = (2 ^ (n - k) - 1) * 2 ^ k := by
    rw [Nat.sub_mul, ← pow_add, Nat.sub_add_cancel h, one_mul]
  rw [Nat.testBit_and, e, Nat.testBit_mul_two_pow, Nat.testBit_mul_two_pow,
    Nat.testBit_two_pow_sub_one, Nat.testBit_div_two_pow, Nat.testBit_mod_two_pow]
  by_cases hk : k ≤ i
  · rcases Nat.lt_or_ge i n with hi | hi
    · have : i - k < n - k := by omega
      simp [hk, hi, this]
    · have : ¬ i - k < n - k := by omega
      simp [hk, hi, this]
  · simp [hk]

/-- Bits below `2 ^ k` joined to a multiple of `2 ^ k` are added to it. -/
theorem or_eq_add {k a b : ℕ} (ha : a % 2 ^ k = 0) (hb : b < 2 ^ k) : a ||| b = a + b := by
  obtain ⟨q, rfl⟩ := Nat.dvd_of_mod_eq_zero ha
  exact (Nat.two_pow_add_eq_or_of_lt hb q).symm

end Lib.Word
