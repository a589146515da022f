import TerraOS.Idt.Stubs
import TerraOS.Lib.Runs

/-! Interrupts anywhere.

    Kernel code goes from one instruction to the next, and before each of them an interrupt may come, and
    another one after it. An interrupt writes below the aligned `rsp` only (`interrupt_mem`), so code that
    keeps nothing there (`Code`) never learns of it: whatever comes in between, its registers and the bytes
    it counts on are those of a run without interrupts (`interrupts_invisible`). -/

namespace TerraOS.Idt
open Lib Lib.Word

/-- The registers are the same, and the bytes at `A`. -/
structure Agree (A : Set ℕ) (s t : Cpu) : Prop where
  gpr : t.gpr = s.gpr
  rsp : t.rsp = s.rsp
  rip : t.rip = s.rip
  cs : t.cs = s.cs
  rflags : t.rflags = s.rflags
  ss : t.ss = s.ss
  mem : ∀ a ∈ A, t.mem a = s.mem a

/-- `a` is not among the `n` bytes below the aligned `rsp`. -/
def Clear (n : ℕ) (s : Cpu) (a : ℕ) : Prop := a < 2 ^ 64 ∧ sub64 a (alignDown s.rsp) + n < 2 ^ 64

/-- Code, an instruction at a time. In the states it runs in, it counts on the bytes at `live`: it may read
    no others, nor does it keep any of them where an interrupt writes. -/
structure Code (n : ℕ) where
  step : Cpu → Cpu
  Ok : Cpu → Prop
  live : Cpu → Set ℕ
  wf : ∀ {s}, Ok s → s.Wf
  ok_step : ∀ {s}, Ok s → Ok (step s)
  clear : ∀ {s a}, Ok s → a ∈ live s → Clear n s a
  agree_step : ∀ {s t}, Ok s → Agree (live s) s t → Agree (live (step s)) (step s) (step t)

/-- A C handler writes to the `d` bytes below its stack pointer at most. -/
def Shallow (d : ℕ) (f : Cpu → Option Cpu) : Prop :=
  ∀ s t, f s = some t → ∀ k, k + d < 2 ^ 64 → t.mem (add64 s.rsp k) = s.byte k

/-- Both handlers. -/
structure Handlers.Shallow (d : ℕ) (h : Handlers) : Prop where
  isr : Idt.Shallow d h.isrHandler
  irq : Idt.Shallow d h.irqHandler

/-- The code goes on, or is interrupted on the vector of a stub. -/
inductive Happening where
  | instr
  | interrupt (m : Stub) (ret e : ℕ)
  deriving DecidableEq, Repr

variable {n : ℕ}

/-- An interrupt whose handler does not return ends everything. -/
def Happening.run (C : Code n) (idt : ℕ → IdtEntry) (ist : ℕ → ℕ) (h : Handlers) (s : Cpu) :
    Happening → Except Unit Cpu
  | .instr => .ok (C.step s)
  | .interrupt m ret e =>
    match Idt.interrupt idt ist h ret e m s with
    | some t => .ok t
    | none => .error ()

def Happening.Allowed (_ : Cpu) : Happening → Prop
  | .instr => True
  | .interrupt m _ e => m ∈ stubs ∧ e < 2 ^ 64

/-- What the code does by itself. -/
def Code.steps (C : Code n) (s : Cpu) (as : List Happening) : Cpu := C.step^[as.count .instr] s

section
variable {s t u : Cpu} {A B : Set ℕ} {addr : Label → ℕ} {idt : ℕ → IdtEntry} {ist : ℕ → ℕ} {h : Handlers}
  {e ret d k a : ℕ} {m : Stub} {as : List Happening} {C : Code n}

theorem Agree.refl (A : Set ℕ) (s : Cpu) : Agree A s s := ⟨rfl, rfl, rfl, rfl, rfl, rfl, fun _ _ => rfl⟩

theorem Agree.wf (H : Agree A s t) (W : s.Wf) : t.Wf := by
  refine ⟨?_, ?_, ?_, ?_, ?_, ?_⟩
  · rw [H.gpr]
    exact W.gpr
  · rw [H.rsp]
    exact W.rsp
  · rw [H.rip]
    exact W.rip
  · rw [H.cs]
    exact W.cs
  · rw [H.rflags]
    exact W.rflags
  · rw [H.ss]
    exact W.ss

/-! ### What an interrupt writes -/

/-- A stub calls one of the two handlers, and from then on only pops. -/
theorem run_called (hd : h.Shallow d) (hrun : m.run h ret s = some t) :
    ∃ f, Shallow d f ∧ ∃ u, call f ret (saveRegs (m.entry s)) = some u ∧ t.mem = u.mem := by
  have hcommon : ∀ f : Cpu → Option Cpu, common f ret (m.entry s) = some t →
      ∃ u, call f ret (saveRegs (m.entry s)) = some u ∧ t.mem = u.mem := by
    intro f hf
    rw [common, Option.map_eq_some_iff] at hf
    obtain ⟨u, hcall, rfl⟩ := hf
    refine ⟨u, hcall, ?_⟩
    rw [restoreRegs, Cpu.release_mem, popAll_mem]
  cases m with
  | isrNoerr n => exact ⟨_, hd.isr, hcommon _ hrun⟩
  | isrErr n => exact ⟨_, hd.isr, hcommon _ hrun⟩
  | irq n v => exact ⟨_, hd.irq, hcommon _ hrun⟩

/-- All of it is below the aligned `rsp`. -/
theorem interrupt_mem (W : s.Wf) (haddr : ∀ l, addr l < 2 ^ 64) (hd : h.Shallow d) (he : e < 2 ^ 64) (hm : m ∈ stubs)
    (hint : interrupt (idtInit addr idt) ist h ret e m s = some t) (hk : k + (184 + d) < 2 ^ 64) :
    t.mem (add64 (alignDown s.rsp) k) = s.mem (add64 (alignDown s.rsp) k) := by
  rw [interrupt, Option.map_eq_some_iff] at hint
  obtain ⟨r, hrun, rfl⟩ := hint
  obtain ⟨f, hf, u, hcall, hmem⟩ := run_called hd hrun
  obtain ⟨hc, habove⟩ := (@called_pushed s addr idt ist e (2 ^ 64 - frameBytes) m W haddr (errorCode_lt he) hm
    (by decide)).1
  have habove := habove k (by rw [frameBytes]; omega)
  generalize saveRegs (m.entry (deliver (idtInit addr idt m.vector) ist (m.errorCode e) s)) = c at *
  -- as seen from the handler
  have hlen : (restored.map s.gpr ++ m.vector :: (m.errorCode e).getD 0 :: frame s).length = 22 := rfl
  have hrsp := hc.rsp
  rw [hlen] at hrsp
  have hcalled : add64 (alignDown s.rsp) k = add64 (c.push ret).rsp (k + 176 + 8) := by
    rw [Cpu.push_rsp, hrsp]
    generalize alignDown s.rsp = top
    unfold add64 sub64
    omega
  have hcaller : add64 (alignDown s.rsp) k = add64 c.rsp (k + 176) := by
    rw [hrsp]
    generalize alignDown s.rsp = top
    unfold add64 sub64
    omega
  have hu : u.mem (add64 (c.push ret).rsp (k + 176 + 8)) = (c.push ret).byte (k + 176 + 8) :=
    hf _ _ hcall _ (by omega)
  have hpush : (c.push ret).byte (k + 176 + 8) = c.byte (k + 176) := push_byte hc.rsp_aligned (by omega)
  rw [iretq]
  dsimp only
  calc r.mem (add64 (alignDown s.rsp) k) = (c.push ret).byte (k + 176 + 8) := by rw [hmem, hcalled, hu]
    _ = c.mem (add64 (alignDown s.rsp) k) := by rw [hpush, Cpu.byte, hcaller]
    _ = s.mem (add64 (alignDown s.rsp) k) := habove

/-- Nothing that code counts on. -/
theorem Agree.interrupt (H : Agree A s t) (W : s.Wf) (hclear : ∀ a ∈ A, Clear (184 + d) s a)
    (haddr : ∀ l, addr l < 2 ^ 64) (hh : h.SysV frameBytes) (hd : h.Shallow d) (he : e < 2 ^ 64) (hm : m ∈ stubs)
    (hint : Idt.interrupt (idtInit addr idt) ist h ret e m t = some u) : Agree A s u := by
  obtain ⟨hgpr, hrsp, hrip, hcs, hrflags, hss⟩ := interrupt_transparent (H.wf W) haddr hh he hm hint
  refine ⟨hgpr.trans H.gpr, hrsp.trans H.rsp, hrip.trans H.rip, hcs.trans H.cs, hrflags.trans H.rflags,
    hss.trans H.ss, fun a ha => ?_⟩
  obtain ⟨hlt, hout⟩ := hclear a ha
  rw [← H.rsp] at hout
  have hmem := interrupt_mem (H.wf W) haddr hd he hm hint hout
  have hat : add64 (alignDown t.rsp) (sub64 a (alignDown t.rsp)) = a := by
    generalize alignDown t.rsp = top
    unfold add64 sub64
    omega
  rw [hat] at hmem
  exact hmem.trans (H.mem a ha)

/-! ### Code and interrupts, in any order -/

theorem Code.steps_snoc (C : Code n) (s : Cpu) (as : List Happening) (a : Happening) :
    C.steps s (as ++ [a]) = if a = .instr then C.step (C.steps s as) else C.steps s as := by
  rw [steps, List.count_append]
  cases a with
  | instr =>
    rw [if_pos rfl]
    exact Function.iterate_succ_apply' _ _ _
  | interrupt m ret e => rfl

theorem Code.ok_steps (C : Code n) (hs : C.Ok s) (as : List Happening) : C.Ok (C.steps s as) :=
  Function.Iterate.rec C.Ok hs (fun _ => C.ok_step) _

end

/-- CORRECT: interrupts before any of its instructions, any number of them, on any vectors and with any error
    codes, whose handlers return, are invisible to code that keeps nothing in the bytes below the aligned `rsp` that
    an interrupt may use: it has its registers, its flags and its bytes as if it had run alone. -/
theorem interrupts_invisible {d : ℕ} {C : Code (184 + d)} {s t : Cpu} {addr : Label → ℕ} {idt : ℕ → IdtEntry}
    {ist : ℕ → ℕ} {h : Handlers} {as : List Happening} (haddr : ∀ l, addr l < 2 ^ 64) (hh : h.SysV frameBytes)
    (hd : h.Shallow d) (hs : C.Ok s)
    (hrun : Run Happening.Allowed (Happening.run C (idtInit addr idt) ist h) s as t) :
    Agree (C.live (C.steps s as)) (C.steps s as) t := by
  induction hrun with
  | nil => exact .refl _ _
  | @snoc u v as a _ ha hst ih =>
    have hok : C.Ok (C.steps s as) := C.ok_steps hs as
    rw [C.steps_snoc]
    cases a with
    | instr =>
      obtain rfl := Except.ok.inj hst
      exact C.agree_step hok ih
    | interrupt m ret e =>
      obtain ⟨hm, he⟩ := ha
      rw [Happening.run] at hst
      split at hst
      · next hint =>
        obtain rfl := Except.ok.inj hst
        exact ih.interrupt (C.wf hok) (fun a => C.clear hok) haddr hh hd he hm hint
      · cases hst

/-- A loop that counts in `rax`. -/
def counter (n : ℕ) : Code n where
  step s := { s with gpr := Function.update s.gpr .rax (add64 (s.gpr .rax) 1) }
  Ok s := s.Wf
  live s := {a | Clear n s a}
  wf W := W
  ok_step W := by
    refine ⟨fun r => ?_, W.rsp, W.rip, W.cs, W.rflags, W.ss⟩
    simp only [Function.update_apply]
    split
    · exact add64_lt _ _
    · exact W.gpr r
  clear _ ha := ha
  agree_step _ H := ⟨by rw [H.gpr], H.rsp, H.rip, H.cs, H.rflags, H.ss, H.mem⟩

theorem interrupts_invisible_counter : ∃ t,
    Run Happening.Allowed (Happening.run (counter 184)
      (idtInit (fun _ => 0xFFFFFFFF80011000) fun _ => ⟨0, 0, 0, 0, 0, 0, 0⟩) (fun _ => 0) kernelHandlers)
      (kernelStart fun _ => 0) [.instr, .interrupt (.irq 1 33) 0xFFFFFFFF80011100 0, .instr] t ∧
    t.gpr .rax = 2 := by
  have hrun : Run Happening.Allowed (Happening.run (counter 184)
      (idtInit (fun _ => 0xFFFFFFFF80011000) fun _ => ⟨0, 0, 0, 0, 0, 0, 0⟩) (fun _ => 0) kernelHandlers)
      (kernelStart fun _ => 0) [.instr, .interrupt (.irq 1 33) 0xFFFFFFFF80011100 0, .instr] _ :=
    .cons trivial rfl (.cons ⟨by decide, by decide⟩ rfl (.cons trivial rfl (.nil _)))
  have hagree := interrupts_invisible (d := 0) (fun _ => by decide) (kernelHandlers_sysV _)
    ⟨fun s t h => ?_, fun s t h => ?_⟩ (kernelStart_wf _) hrun
  · exact ⟨_, hrun, by rw [hagree.gpr]; rfl⟩
  · cases h
  · obtain rfl := Option.some.inj h
    exact fun _ _ => rfl

end TerraOS.Idt
