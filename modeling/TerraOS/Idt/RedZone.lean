import TerraOS.Idt.Stubs

/-! The red zone.

    The C code is built without `-mno-red-zone`, so a leaf function may keep its locals in the 128 bytes
    below `rsp`. No gate has a stack of its own: an interrupt pushes its words (`laid`) from the aligned
    `rsp` down, across those bytes, and the stub leaves them there (`interrupt_byte`). The stack above is
    as it was. The locals are so only where they are by chance the words that are pushed over them
    (`undisturbed_iff`). -/

namespace TerraOS.Idt
open Lib Lib.Word

/-- What an IRQ on vector `v` has on the stack when its handler is called, the lowest word first. -/
def laid (v : ℕ) (s : Cpu) : List ℕ := restored.map s.gpr ++ v :: 0 :: frame s

def laidByte (v : ℕ) (s : Cpu) (i : ℕ) : UInt8 := UInt8.ofNat ((laid v s).getD (i / 8) 0 / 256 ^ (i % 8))

/-- The bytes of the stack from the lowest of the red zone on. -/
def zone (s : Cpu) (k : ℕ) : ℕ := add64 (sub64 s.rsp 128) k

/-- The red zone and the `m` bytes of stack above it are as they were. -/
def Undisturbed (m : ℕ) (s t : Cpu) : Prop := ∀ k < 128 + m, t.mem (zone s k) = s.mem (zone s k)

/-- Below the aligned `rsp` the red zone has already what an IRQ puts there. -/
def Coincides (v : ℕ) (s : Cpu) : Prop :=
  ∀ k < 128 - s.rsp % 16, s.mem (zone s k) = laidByte v s (48 + s.rsp % 16 + k)

section
variable {s t : Cpu} {addr : Label → ℕ} {idt : ℕ → IdtEntry} {ist : ℕ → ℕ} {h : Handlers} {e ret i m v k : ℕ}

theorem length_laid (v : ℕ) (s : Cpu) : (laid v s).length = 22 := rfl

/-! ### What is left on the stack -/

/-- After the call the stub only pops. -/
theorem interrupt_irq (hint : interrupt idt ist h ret e (.irq i v) s = some t) :
    ∃ u, call h.irqHandler ret
        (saveRegs ((Stub.irq i v).entry (deliver (idt v) ist ((Stub.irq i v).errorCode e) s))) = some u ∧
      t.mem = u.mem := by
  rw [interrupt, Option.map_eq_some_iff] at hint
  obtain ⟨r, hrun, rfl⟩ := hint
  rw [Stub.run, irqCommon, common, Option.map_eq_some_iff] at hrun
  obtain ⟨u, hcall, rfl⟩ := hrun
  refine ⟨u, hcall, ?_⟩
  rw [iretq, restoreRegs, Cpu.release_mem, popAll_mem]

theorem zone_eq (W : s.Wf) (k : ℕ) :
    zone s k = add64 (sub64 (alignDown s.rsp) (8 * (laid v s).length)) (48 + s.rsp % 16 + k) := by
  have hlt := W.rsp
  rw [length_laid]
  unfold zone alignDown add64 sub64
  omega

theorem zone_above (W : s.Wf) (hk : 128 - s.rsp % 16 ≤ k) :
    zone s k = add64 (alignDown s.rsp) (k - (128 - s.rsp % 16)) := by
  have hlt := W.rsp
  unfold zone alignDown add64 sub64
  omega

/-- The bytes of the red zone and of the stack above it after an IRQ. -/
theorem interrupt_byte (W : s.Wf) (haddr : ∀ l, addr l < 2 ^ 64) (hm : m + 200 ≤ 2 ^ 64) (hh : h.SysV (192 + m))
    (hirq : .irq i v ∈ stubs) (hint : interrupt (idtInit addr idt) ist h ret e (.irq i v) s = some t)
    (hk : k < 128 + m) :
    t.mem (zone s k) = if k < 128 - s.rsp % 16 then laidByte v s (48 + s.rsp % 16 + k) else s.mem (zone s k) := by
  obtain ⟨u, hcall, hmem⟩ := interrupt_irq hint
  have hcode := (stubs_code _ hirq).2
  have hnone : (Stub.irq i v).errorCode e = none := by
    rw [Stub.errorCode, hcode]
    rfl
  have hpushed := (@called_pushed s addr idt ist e (16 + m) _ W haddr (by simp [hnone]) hirq
    (by rw [frameBytes]; omega)).1
  rw [hnone] at hpushed hcall
  obtain ⟨hc, habove⟩ : Pushed (alignDown s.rsp) (16 + m) s.mem _ (laid v s) := hpushed
  -- the handler's caller has the red zone in its frame
  have hbyte := hh.irq.call_byte hc.rsp_aligned (by omega) hcall (show 48 + s.rsp % 16 + k < 192 + m by omega)
  have hslot := @zone_eq s v W k
  rw [← hc.rsp] at hslot
  have hu : u.rsp = _ := hh.irq.call_rsp hc.rsp_lt hcall
  have ht : t.mem (zone s k) = u.byte (48 + s.rsp % 16 + k) := by
    rw [hmem, Cpu.byte, hu, hslot]
  rw [ht, hbyte]
  split
  · next hlow =>
    have hw : (48 + s.rsp % 16 + k) / 8 < (laid v s).length := by
      rw [length_laid]
      omega
    rw [hc.byte hw, laidByte, List.getD_eq_getElem _ _ hw]
  · next hhigh =>
    rw [Cpu.byte, ← hslot, zone_above W (by omega)]
    exact habove _ (by omega)

end

/-! ### A leaf function -/

/-- A leaf function that keeps a pointer at `rsp - 24`. -/
def inLeaf : Cpu := { kernelStart fun _ => 0 with
  rsp := 0xFFFFFFFF80020FE0
  mem := Mem.store64 (fun _ => 0) 0xFFFFFFFF80020FC8 0xFFFFFFFFD0001000 }

theorem inLeaf_wf : inLeaf.Wf :=
  ⟨fun _ => Nat.two_pow_pos 64, by decide, by decide, by decide, by decide, by decide⟩

/-- The table and the handlers that `inLeaf` is interrupted under. -/
abbrev timer (s : Cpu) : Option Cpu :=
  interrupt (idtInit (fun _ => 0xFFFFFFFF80011000) fun _ => ⟨0, 0, 0, 0, 0, 0, 0⟩) (fun _ => 0) kernelHandlers
    0xFFFFFFFF80011100 0 (.irq 0 32) s

/-- BUG: an IRQ overwrites the red zone, which is as it was exactly where it holds already what is pushed
    over it. -/
theorem undisturbed_iff {s t : Cpu} {addr : Label → ℕ} {idt : ℕ → IdtEntry} {ist : ℕ → ℕ} {h : Handlers}
    {e ret i m v : ℕ} (W : s.Wf) (haddr : ∀ l, addr l < 2 ^ 64) (hm : m + 200 ≤ 2 ^ 64) (hh : h.SysV (192 + m))
    (hirq : .irq i v ∈ stubs) (hint : interrupt (idtInit addr idt) ist h ret e (.irq i v) s = some t) :
    Undisturbed m s t ↔ Coincides v s := by
  constructor
  · intro hsame k hk
    rw [← hsame k (by omega), interrupt_byte W haddr hm hh hirq hint (by omega), if_pos hk]
  · intro hco k hk
    rw [interrupt_byte W haddr hm hh hirq hint hk]
    split
    · next hlow => exact (hco k hlow).symm
    · rfl

theorem undisturbed_iff_leaf : ∃ t, timer inLeaf = some t ∧ (Undisturbed 0 inLeaf t ↔ Coincides 32 inLeaf) :=
  ⟨_, rfl, undisturbed_iff inLeaf_wf (fun _ => by decide) (by decide) (kernelHandlers_sysV _) (by decide) rfl⟩

/-- The low byte of the pointer is that of the pushed flags. -/
theorem leaf_disturbed : inLeaf.Wf ∧ kernelHandlers.SysV 192 ∧
    ∃ t, timer inLeaf = some t ∧ ¬ Undisturbed 0 inLeaf t := by
  obtain ⟨t, ht⟩ : ∃ t, timer inLeaf = some t := ⟨_, rfl⟩
  refine ⟨inLeaf_wf, kernelHandlers_sysV 192, t, ht, fun hsame => ?_⟩
  have hbefore := hsame 104 (by decide)
  rw [@interrupt_byte _ _ _ _ _ _ _ _ _ 0 _ 104 inLeaf_wf (fun _ => by decide) (by decide) (kernelHandlers_sysV _)
    (by decide) ht (by decide), if_pos (by decide)] at hbefore
  revert hbefore
  decide

end TerraOS.Idt
