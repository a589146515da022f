import Mathlib

/-! The 8259A interrupt controller.

    A chip latches the rising edges of eight lines, line 0 first in priority. A request that is not masked
    interrupts the processor unless one of the same or a higher priority is being served; the processor
    acknowledges it, and ends it with a command. Two chips are cascaded: the slave has line 2 of the
    master. Rotations, polling and the special modes are left out. -/

namespace Lib.Pic

/-- A chip has lines, so that numerals name them. -/
instance neZero_lines : NeZero 8 := ⟨by decide⟩

/-- What a write to the data port is. -/
inductive Stage where | ready | icw2 | icw3 | icw4
  deriving DecidableEq, Repr

/-- What commands configure. -/
structure Conf where
  imr : Fin 8 → Bool
  base : ℕ
  stage : Stage
  single : Bool
  needsIcw4 : Bool
  autoEoi : Bool

structure Chip where
  conf : Conf
  irr : Fin 8 → Bool
  isr : Fin 8 → Bool

namespace Conf

/-- ICW1 starts an initialization. -/
def icw1 (c : Conf) (b : ℕ) : Conf :=
  { c with imr := fun _ => false, stage := .icw2, single := b.testBit 1, needsIcw4 := b.testBit 0, autoEoi := false }

/-- A write to the data port: ICW2 to ICW4 of an initialization, or else OCW1. -/
def data (c : Conf) (b : ℕ) : Conf :=
  match c.stage with
  | .ready => { c with imr := fun i => b.testBit i }
  | .icw2 => { c with
      base := b / 8 * 8
      stage := if c.single then (if c.needsIcw4 then .icw4 else .ready) else .icw3 }
  | .icw3 => { c with stage := if c.needsIcw4 then .icw4 else .ready }
  | .icw4 => { c with stage := .ready, autoEoi := b.testBit 1 }

end Conf

namespace Chip

/-- A request line goes up. -/
def raise (c : Chip) (i : Fin 8) : Chip := { c with irr := Function.update c.irr i true }

/-- It goes down, before its request is acknowledged or after. -/
def lower (c : Chip) (i : Fin 8) : Chip := { c with irr := Function.update c.irr i false }

/-- The request that interrupts the processor. -/
def next (c : Chip) : Option (Fin 8) :=
  Fin.find? fun i => c.irr i && !c.conf.imr i && decide (∀ j, c.isr j = true → i < j)

/-- The processor acknowledges the request of line `i`. -/
def ack (c : Chip) (i : Fin 8) : Chip :=
  { c with irr := Function.update c.irr i false, isr := Function.update c.isr i (!c.conf.autoEoi) }

/-- The end of the interrupt of line `i`. -/
def specificEoi (c : Chip) (i : Fin 8) : Chip := { c with isr := Function.update c.isr i false }

/-- The end of an interrupt: of the first one that is being served. -/
def eoi (c : Chip) : Chip :=
  match Fin.find? c.isr with
  | some i => c.specificEoi i
  | none => c

/-- A write to the command port: ICW1, OCW3 or OCW2. ICW1 forgets the edges latched. -/
def command (c : Chip) (b : ℕ) : Chip :=
  if b.testBit 4 then { c with conf := c.conf.icw1 b, irr := fun _ => false }
  else if b.testBit 3 then c
  else if b / 32 = 1 then c.eoi
  else if b / 32 = 3 then c.specificEoi ⟨b % 8, Nat.mod_lt _ (by decide)⟩
  else c

def data (c : Chip) (b : ℕ) : Chip := { c with conf := c.conf.data b }

variable {c : Chip} {i j : Fin 8}

@[simp] theorem eoi_conf (c : Chip) : c.eoi.conf = c.conf := by
  unfold eoi
  split <;> rfl

@[simp] theorem eoi_irr (c : Chip) : c.eoi.irr = c.irr := by
  unfold eoi
  split <;> rfl

/-- No open request, no interrupt. -/
theorem next_none (h : ∀ j, c.irr j = true → c.conf.imr j = true) : c.next = none := by
  refine Fin.find?_eq_none_iff.mpr fun j => ?_
  cases hj : c.irr j with
  | false => simp
  | true => simp [h j hj]

/-- With one line open and nothing being served, that line's request is the one that interrupts. -/
theorem next_one (hmask : ∀ j, c.conf.imr j = !decide (j = i)) (hisr : ∀ j, c.isr j = false) (hi : c.irr i = true) :
    c.next = some i := by
  refine Fin.find?_eq_some_iff.mpr ⟨?_, fun j hj => ?_⟩
  · simp [hi, hmask, hisr]
  · simp [hmask, hj.ne]

/-- The end of the one interrupt that is being served. -/
theorem eoi_one (h : ∀ j, c.isr j = decide (j = i)) : ∀ j, c.eoi.isr j = false := by
  have hfind : Fin.find? c.isr = some i := by
    refine Fin.find?_eq_some_iff.mpr ⟨by simp [h], fun j hj => ?_⟩
    simp [h, hj.ne]
  intro j
  rw [eoi, hfind]
  by_cases hj : j = i
  · simp [specificEoi, hj]
  · simp [specificEoi, h, hj]

/-- Only ICW1 on the command port configures. -/
theorem command_conf (c : Chip) (b : ℕ) : (c.command b).conf = if b.testBit 4 then c.conf.icw1 b else c.conf := by
  unfold command
  split_ifs <;> first | rfl | exact eoi_conf c

end Chip

/-! ### Two chips -/

structure Pair where
  master : Chip
  slave : Chip

namespace Pair

/-- The master with the slave's request on line 2. -/
def wired (p : Pair) : Chip := { p.master with irr := Function.update p.master.irr 2 p.slave.next.isSome }

/-- The processor acknowledges an interrupt: its vector, and the chips after it. -/
def ack (p : Pair) : Option (ℕ × Pair) :=
  match p.wired.next with
  | none => none
  | some i =>
    if i = 2 then
      match p.slave.next with
      | some j => some (p.slave.conf.base + j, ⟨p.wired.ack i, p.slave.ack j⟩)
      | none => some (p.slave.conf.base + 7, ⟨p.wired.ack i, p.slave⟩)
    else some (p.master.conf.base + i, ⟨p.wired.ack i, p.slave⟩)

variable {p : Pair} {i : Fin 8}

/-- Where the master has no open request, and the slave none at all, there is no interrupt. -/
theorem ack_none (hslave : p.slave.next = none) (h : ∀ j, p.master.irr j = true → p.master.conf.imr j = true) :
    p.ack = none := by
  have hnext : p.wired.next = none := by
    refine Chip.next_none fun j hj => h j ?_
    simp only [wired, hslave, Option.isSome_none] at hj
    by_cases hj2 : j = 2
    · rw [hj2, Function.update_self] at hj
      cases hj
    · rwa [Function.update_of_ne hj2] at hj
  rw [ack, hnext]

/-- With one line of the master open, its interrupt comes at its vector. -/
theorem ack_one (hi : i ≠ 2) (hmask : ∀ j, p.master.conf.imr j = !decide (j = i))
    (hisr : ∀ j, p.master.isr j = false) (hreq : p.master.irr i = true) :
    p.ack = some (p.master.conf.base + i, ⟨p.wired.ack i, p.slave⟩) := by
  have hnext : p.wired.next = some i := by
    refine Chip.next_one hmask hisr ?_
    simp only [wired]
    rwa [Function.update_of_ne hi]
  rw [ack, hnext]
  exact if_neg hi

end Pair

end Lib.Pic
