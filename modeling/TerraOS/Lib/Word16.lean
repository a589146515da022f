import Mathlib

/-! The 16-bit registers of a real-mode processor.

    A register holds a `ℕ` below `2 ^ 16`; `ax`, `cx` and `dx` are also written and read by halves. A
    product takes `dx:ax`, and a quotient is taken of `dx:ax`: it faults when it does not fit in `ax`. -/

namespace Lib.Word16

/-- 16-bit addition. -/
def add16 (a b : ℕ) : ℕ := (a + b) % 2 ^ 16

/-- 16-bit subtraction. -/
def sub16 (a b : ℕ) : ℕ := (a + (2 ^ 16 - b % 2 ^ 16)) % 2 ^ 16

/-- 16-bit shift to the left. -/
def shl16 (a k : ℕ) : ℕ := a * 2 ^ k % 2 ^ 16

/-- The lower half of a register, and the upper half. -/
def low (a : ℕ) : ℕ := a % 256
def high (a : ℕ) : ℕ := a / 256

/-- A register with its lower half replaced, and with its upper half. -/
def withLow (a v : ℕ) : ℕ := a / 256 * 256 + v % 256
def withHigh (a v : ℕ) : ℕ := v % 256 * 256 + a % 256

@[simp] theorem add16_of_lt {a b : ℕ} (h : a + b < 2 ^ 16) : add16 a b = a + b := Nat.mod_eq_of_lt h

@[simp] theorem sub16_of_le {a b : ℕ} (h : b ≤ a) (ha : a < 2 ^ 16) : sub16 a b = a - b := by
  unfold sub16
  omega

theorem add16_lt (a b : ℕ) : add16 a b < 2 ^ 16 := Nat.mod_lt _ (by decide)

@[simp] theorem low_withLow (a v : ℕ) : low (withLow a v) = v % 256 := by
  unfold low withLow
  omega

@[simp] theorem high_withHigh (a v : ℕ) : high (withHigh a v) = v % 256 := by
  unfold high withHigh
  omega

@[simp] theorem high_withLow (a v : ℕ) : high (withLow a v) = high a := by
  unfold high withLow
  omega

/-- The registers. -/
structure Regs where
  ax : ℕ
  bx : ℕ
  cx : ℕ
  dx : ℕ
  si : ℕ
  di : ℕ
  deriving DecidableEq, Repr

/-- `mul v`. -/
def Regs.mul (r : Regs) (v : ℕ) : Regs := { r with ax := r.ax * v % 2 ^ 16, dx := r.ax * v / 2 ^ 16 }

/-- `div v`. -/
def Regs.div (r : Regs) (v : ℕ) : Option Regs :=
  if v = 0 ∨ 2 ^ 16 ≤ (r.dx * 2 ^ 16 + r.ax) / v then none
  else some { r with ax := (r.dx * 2 ^ 16 + r.ax) / v, dx := (r.dx * 2 ^ 16 + r.ax) % v }

/-- A quotient of `ax` alone. -/
theorem Regs.div_ax {ax bx cx si di v : ℕ} (hv : 0 < v) (hax : ax < 2 ^ 16) :
    Regs.div ⟨ax, bx, cx, 0, si, di⟩ v = some ⟨ax / v, bx, cx, ax % v, si, di⟩ := by
  have hle := Nat.div_le_self ax v
  unfold Regs.div
  simp only [Nat.zero_mul, Nat.zero_add]
  rw [if_neg]
  rintro (h | h) <;> omega

end Lib.Word16
