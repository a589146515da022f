import TerraOS.Lib.ByteMem

/-! Bits packed into bytes.

    Bit `i` of a byte array is bit `i % 8` of byte `i / 8`. `test`, `set` and `clear` are written the way
    C computes them, in an `int` wider than the byte and truncated back; `bit_set` and `bit_clear` say
    that each changes the one bit it names. -/

namespace Lib.Bits

/-- Bit `i` of a packed array. -/
def bit (m : Mem) (i : ℕ) : Bool := (m (i / 8)).toNat.testBit (i % 8)

/-- `m[i / 8] & (1 << (i % 8))`. -/
def test (m : Mem) (i : ℕ) : ℕ := (m (i / 8)).toNat &&& (1 <<< (i % 8))

/-- `m[i / 8] |= (1 << (i % 8))`. -/
def set (m : Mem) (i : ℕ) : Mem :=
  m.store8 (i / 8) (UInt8.ofNat ((m (i / 8)).toNat ||| (1 <<< (i % 8))))

/-- `m[i / 8] &= ~(1 << (i % 8))`; the complement is taken in 32 bits. -/
def clear (m : Mem) (i : ℕ) : Mem :=
  m.store8 (i / 8) (UInt8.ofNat ((m (i / 8)).toNat &&& (0xFFFFFFFF ^^^ (1 <<< (i % 8)))))

theorem testBit_mod_256 (n k : ℕ) (hk : k < 8) : (n % 2 ^ 8).testBit k = n.testBit k := by
  rw [Nat.testBit_mod_two_pow]; simp [hk]

theorem test_eq_zero (m : Mem) (i : ℕ) : test m i = 0 ↔ bit m i = false := by
  have key : (m (i / 8)).toNat &&& 2 ^ (i % 8) = 2 ^ (i % 8) * (bit m i).toNat := by
    rw [Nat.and_two_pow, bit, Nat.mul_comm]
  rw [test, Nat.one_shiftLeft, key]
  cases bit m i <;> simp

theorem bit_set (m : Mem) (i j : ℕ) : bit (set m i) j = (decide (j = i) || bit m j) := by
  unfold bit set
  by_cases hb : j / 8 = i / 8
  · rw [hb, Mem.store8_self, UInt8.toNat_ofNat', testBit_mod_256 _ _ (by omega), Nat.testBit_or,
      Nat.one_shiftLeft, Nat.testBit_two_pow]
    have : (i % 8 = j % 8) ↔ j = i := by omega
    simp [this, Bool.or_comm]
  · rw [Mem.store8_out hb]
    have : j ≠ i := by rintro rfl; exact hb rfl
    simp [this]

theorem bit_clear (m : Mem) (i j : ℕ) : bit (clear m i) j = (!decide (j = i) && bit m j) := by
  unfold bit clear
  by_cases hb : j / 8 = i / 8
  · have hones : Nat.testBit 0xFFFFFFFF (j % 8) = true := by
      rw [show (0xFFFFFFFF : ℕ) = 2 ^ 32 - 1 from rfl, Nat.testBit_two_pow_sub_one]
      exact decide_eq_true (by omega)
    rw [hb, Mem.store8_self, UInt8.toNat_ofNat', testBit_mod_256 _ _ (by omega), Nat.testBit_and,
      Nat.testBit_xor, hones, Nat.one_shiftLeft, Nat.testBit_two_pow]
    have : (i % 8 = j % 8) ↔ j = i := by omega
    simp [this, Bool.and_comm]
  · rw [Mem.store8_out hb]
    have : j ≠ i := by rintro rfl; exact hb rfl
    simp [this]

theorem bit_set_ne {m : Mem} {i j : ℕ} (h : j ≠ i) : bit (set m i) j = bit m j := by
  simp [bit_set, h]

theorem bit_clear_ne {m : Mem} {i j : ℕ} (h : j ≠ i) : bit (clear m i) j = bit m j := by
  simp [bit_clear, h]

/-- Arrays with the same bits are the same bytes. -/
theorem ext {m m' : Mem} (h : ∀ i, bit m i = bit m' i) : m = m' := by
  funext a
  refine UInt8.toNat_inj.mp (Nat.eq_of_testBit_eq fun k => ?_)
  by_cases hk : k < 8
  · have := h (8 * a + k)
    simpa [bit, show (8 * a + k) / 8 = a by omega, show (8 * a + k) % 8 = k by omega] using this
  · have hlt (b : UInt8) : b.toNat.testBit k = false :=
      Nat.testBit_eq_false_of_lt (lt_of_lt_of_le b.toNat_lt
        (Nat.pow_le_pow_right (by decide) (by omega)))
    rw [hlt, hlt]

end Lib.Bits
