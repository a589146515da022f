import TerraOS.Lib.ByteMem

/-! The stack of a 64-bit processor.

    The stack grows downwards in byte memory, a word of 8 bytes at a time, and `rsp` wraps at `2 ^ 64`.
    `Holds s ws` says what is on it, the word at `rsp` first; each stack operation is a list operation
    there. A procedure is a function on processor states that may not return; one that follows the System
    V calling convention comes back with `rsp`, the registers it must save and its caller's frame as they
    were (`SysV`). -/

namespace Lib
open Word

inductive Reg where
  | rax | rbx | rcx | rdx | rsi | rdi | rbp | r8 | r9 | r10 | r11 | r12 | r13 | r14 | r15
  deriving DecidableEq, Repr

structure Cpu where
  gpr : Reg → ℕ
  rsp : ℕ
  rip : ℕ
  cs : ℕ
  rflags : ℕ
  ss : ℕ
  mem : Mem

namespace Cpu

/-- The registers hold 64 bits. -/
structure Wf (s : Cpu) : Prop where
  gpr : ∀ r, s.gpr r < 2 ^ 64
  rsp : s.rsp < 2 ^ 64
  rip : s.rip < 2 ^ 64
  cs : s.cs < 2 ^ 64
  rflags : s.rflags < 2 ^ 64
  ss : s.ss < 2 ^ 64

def push (s : Cpu) (v : ℕ) : Cpu :=
  { s with rsp := sub64 s.rsp 8, mem := s.mem.store64 (sub64 s.rsp 8) v }

def pop (s : Cpu) (r : Reg) : Cpu :=
  { s with gpr := Function.update s.gpr r (s.mem.load64 s.rsp), rsp := add64 s.rsp 8 }

/-- `add rsp, n`. -/
def release (s : Cpu) (n : ℕ) : Cpu := { s with rsp := add64 s.rsp n }

/-- Byte `k` and word `k` of the stack. -/
def byte (s : Cpu) (k : ℕ) : UInt8 := s.mem (add64 s.rsp k)
def word (s : Cpu) (k : ℕ) : ℕ := s.mem.load64 (add64 s.rsp (8 * k))

@[simp] theorem push_gpr (s : Cpu) (v : ℕ) : (s.push v).gpr = s.gpr := by rw [push]
@[simp] theorem push_rsp (s : Cpu) (v : ℕ) : (s.push v).rsp = sub64 s.rsp 8 := by rw [push]
@[simp] theorem push_mem (s : Cpu) (v : ℕ) : (s.push v).mem = s.mem.store64 (sub64 s.rsp 8) v := by rw [push]
@[simp] theorem pop_rsp (s : Cpu) (r : Reg) : (s.pop r).rsp = add64 s.rsp 8 := by rw [pop]
@[simp] theorem pop_mem (s : Cpu) (r : Reg) : (s.pop r).mem = s.mem := by rw [pop]
@[simp] theorem pop_gpr (s : Cpu) (r : Reg) : (s.pop r).gpr = Function.update s.gpr r (s.mem.load64 s.rsp) := by
  rw [pop]
@[simp] theorem release_gpr (s : Cpu) (n : ℕ) : (s.release n).gpr = s.gpr := by rw [release]
@[simp] theorem release_rsp (s : Cpu) (n : ℕ) : (s.release n).rsp = add64 s.rsp n := by rw [release]
@[simp] theorem release_mem (s : Cpu) (n : ℕ) : (s.release n).mem = s.mem := by rw [release]

-- what they do to `rsp` is from here on read off these lemmas, not off `2 ^ 64`
attribute [irreducible] push pop release

/-- Pushes of registers, one after another, and pops. -/
def pushAll : Cpu → List Reg → Cpu
  | s, [] => s
  | s, r :: rs => (s.push (s.gpr r)).pushAll rs

def popAll : Cpu → List Reg → Cpu
  | s, [] => s
  | s, r :: rs => (s.pop r).popAll rs

end Cpu

/-- The words on the stack, from `rsp` up to `base`. -/
structure Holds (base : ℕ) (s : Cpu) (ws : List ℕ) : Prop where
  aligned : base % 8 = 0
  lt : base < 2 ^ 64
  len : ws.length < 2 ^ 60
  rsp : s.rsp = sub64 base (8 * ws.length)
  word : ∀ k (h : k < ws.length), s.word k = ws[k]

section
variable {s t : Cpu} {base w n : ℕ} {ws : List ℕ} {r : Reg} {rs : List Reg}

theorem holds_nil (hrsp : s.rsp = base) (h8 : base % 8 = 0) (hlt : base < 2 ^ 64) : Holds base s [] := by
  refine ⟨h8, hlt, by simp, ?_, fun k hk => absurd hk (by simp)⟩
  rw [hrsp, List.length_nil, sub64]
  omega

theorem Holds.rsp_aligned (H : Holds base s ws) : s.rsp % 8 = 0 := by
  have h8 := H.aligned
  rw [H.rsp, sub64]
  omega

theorem Holds.rsp_lt (H : Holds base s ws) : s.rsp < 2 ^ 64 := by
  rw [H.rsp]
  exact sub64_lt _ _

theorem Holds.push (H : Holds base s ws) (hw : w < 2 ^ 64) (hlen : ws.length + 1 < 2 ^ 60) :
    Holds base (s.push w) (w :: ws) := by
  have h8 := H.rsp_aligned
  have hlt := H.rsp_lt
  refine ⟨H.aligned, H.lt, hlen, ?_, ?_⟩
  · rw [Cpu.push_rsp, H.rsp, List.length_cons]
    unfold sub64
    omega
  · rintro (_ | k) hk
    · have h0 : add64 (sub64 s.rsp 8) (8 * 0) = sub64 s.rsp 8 := by
        have hlow := sub64_lt s.rsp 8
        unfold add64
        omega
      rw [Cpu.word, Cpu.push_rsp, Cpu.push_mem, h0, Mem.load64_store64 hw]
      rfl
    · -- an old word, in another slot
      have hk' : k < ws.length := by simpa using hk
      have hup : add64 (sub64 s.rsp 8) (8 * (k + 1)) = add64 s.rsp (8 * k) := by
        unfold add64 sub64
        omega
      have hapart : add64 s.rsp (8 * k) + 8 ≤ sub64 s.rsp 8 ∨ sub64 s.rsp 8 + 8 ≤ add64 s.rsp (8 * k) := by
        unfold add64 sub64
        omega
      rw [Cpu.word, Cpu.push_rsp, Cpu.push_mem, hup, Mem.load64_store64_out hapart, List.getElem_cons_succ,
        ← H.word k hk', Cpu.word]

/-- Words are dropped by moving `rsp` past them. -/
theorem Holds.drop (H : Holds base s ws) (hn : n ≤ ws.length) (hrsp : t.rsp = add64 s.rsp (8 * n))
    (hmem : t.mem = s.mem) : Holds base t (ws.drop n) := by
  have hlen := H.len
  refine ⟨H.aligned, H.lt, ?_, ?_, fun k hk => ?_⟩
  · rw [List.length_drop]
    omega
  · rw [hrsp, H.rsp, List.length_drop]
    unfold add64 sub64
    omega
  · rw [List.length_drop] at hk
    have hup : add64 (add64 s.rsp (8 * n)) (8 * k) = add64 s.rsp (8 * (n + k)) := by
      unfold add64
      omega
    rw [List.getElem_drop, ← H.word (n + k) (by omega), Cpu.word, hrsp, hmem, hup, Cpu.word]

/-- Only `rsp` and the memory count. -/
theorem Holds.congr (H : Holds base s ws) (hrsp : t.rsp = s.rsp) (hmem : t.mem = s.mem) : Holds base t ws := by
  refine ⟨H.aligned, H.lt, H.len, hrsp.trans H.rsp, fun k hk => ?_⟩
  rw [← H.word k hk, Cpu.word, hrsp, hmem, Cpu.word]

theorem Holds.release (H : Holds base s ws) (n : ℕ) (hn : n ≤ ws.length) :
    Holds base (s.release (8 * n)) (ws.drop n) :=
  H.drop hn (Cpu.release_rsp s _) (Cpu.release_mem s _)

theorem Holds.pop (H : Holds base s (w :: ws)) (r : Reg) : Holds base (s.pop r) ws :=
  H.drop (n := 1) (by simp) (Cpu.pop_rsp s r) (Cpu.pop_mem s r)

theorem Holds.head (H : Holds base s (w :: ws)) : s.mem.load64 s.rsp = w := by
  have hlt := H.rsp_lt
  have h0 : add64 s.rsp (8 * 0) = s.rsp := by
    unfold add64
    omega
  have hw := H.word 0 (by simp)
  rwa [Cpu.word, h0] at hw

theorem Holds.pop_gpr (H : Holds base s (w :: ws)) (r : Reg) : (s.pop r).gpr = Function.update s.gpr r w := by
  rw [Cpu.pop_gpr, H.head]

/-! ### Saving and restoring -/

theorem Holds.pushAll (H : Holds base s ws) (hs : ∀ r, s.gpr r < 2 ^ 64) (hlen : ws.length + rs.length < 2 ^ 60) :
    Holds base (s.pushAll rs) ((rs.map s.gpr).reverse ++ ws) := by
  induction rs generalizing s ws with
  | nil => exact H
  | cons r rs ih =>
    rw [List.length_cons] at hlen
    have hpush := ih (H.push (hs r) (by omega)) (by rwa [Cpu.push_gpr]) (by rw [List.length_cons]; omega)
    rw [Cpu.push_gpr] at hpush
    rw [Cpu.pushAll, List.map_cons, List.reverse_cons, List.append_assoc]
    exact hpush

/-- Registers popped from the words they were pushed to. -/
theorem Holds.popAll {g : Reg → ℕ} (H : Holds base s (rs.map g ++ ws)) :
    Holds base (s.popAll rs) ws ∧ ∀ r, (s.popAll rs).gpr r = if r ∈ rs then g r else s.gpr r := by
  induction rs generalizing s with
  | nil => exact ⟨H, fun r => rfl⟩
  | cons r rs ih =>
    obtain ⟨hrest, hgpr⟩ := ih (H.pop r)
    rw [Cpu.popAll]
    refine ⟨hrest, fun q => ?_⟩
    rw [hgpr q, H.pop_gpr]
    by_cases hmem : q ∈ rs
    · rw [if_pos hmem, if_pos (List.mem_cons_of_mem _ hmem)]
    · rw [if_neg hmem]
      by_cases hqr : q = r
      · subst hqr
        rw [Function.update_self, if_pos List.mem_cons_self]
      · rw [Function.update_of_ne hqr, if_neg (by simp [hqr, hmem])]

theorem popAll_mem (s : Cpu) (rs : List Reg) : (s.popAll rs).mem = s.mem := by
  induction rs generalizing s with
  | nil => rw [Cpu.popAll]
  | cons r rs ih => rw [Cpu.popAll, ih, Cpu.pop_mem]

/-! ### The bytes of the stack -/

/-- A push leaves alone what is above it, all the way round to the word that is pushed. -/
theorem push_byte (h8 : s.rsp % 8 = 0) {k : ℕ} (hk : k + 8 < 2 ^ 64) : (s.push w).byte (k + 8) = s.byte k := by
  have hup : add64 (sub64 s.rsp 8) (k + 8) = add64 s.rsp k := by
    unfold add64 sub64
    omega
  rw [Cpu.byte, Cpu.push_rsp, Cpu.push_mem, hup, Cpu.byte]
  refine Mem.store64_out ?_
  unfold add64 sub64
  omega

/-- A byte of the stack is that of its word. -/
theorem Holds.byte (H : Holds base s ws) {k : ℕ} (hk : k / 8 < ws.length) :
    s.byte k = UInt8.ofNat (ws[k / 8] / 256 ^ (k % 8)) := by
  have h8 := H.rsp_aligned
  have hslot : add64 s.rsp k = add64 s.rsp (8 * (k / 8)) + k % 8 := by
    unfold add64
    omega
  rw [Cpu.byte, hslot, Mem.byte_of_loadLE s.mem 8 _ _ (by omega), ← H.word _ hk]
  rfl

theorem word_congr (h8 : s.rsp % 8 = 0) (hrsp : t.rsp = s.rsp) {k : ℕ}
    (h : ∀ i < 8, t.byte (8 * k + i) = s.byte (8 * k + i)) : t.word k = s.word k := by
  refine Mem.loadLE_congr fun i hi => ?_
  have hslot : add64 s.rsp (8 * k + i) = add64 s.rsp (8 * k) + i := by
    unfold add64
    omega
  have hbyte := h i hi
  rw [Cpu.byte, Cpu.byte, hrsp, hslot] at hbyte
  rw [hrsp, hbyte]

/-! ### The bytes above -/

/-- The words are on the stack, and the `n` bytes from `base` on are as in `m`. -/
structure Pushed (base n : ℕ) (m : Mem) (s : Cpu) (ws : List ℕ) : Prop where
  holds : Holds base s ws
  above : ∀ k < n, s.mem (add64 base k) = m (add64 base k)

section
variable {m : Mem}

theorem Holds.pushed (H : Holds base s ws) (n : ℕ) : Pushed base n s.mem s ws := ⟨H, fun _ _ => rfl⟩

/-- A push does not come round to what is above `base`. -/
theorem Pushed.push (H : Pushed base n m s ws) (hw : w < 2 ^ 64) (hlen : ws.length + 1 < 2 ^ 60)
    (hn : n + 8 * (ws.length + 1) ≤ 2 ^ 64) : Pushed base n m (s.push w) (w :: ws) := by
  refine ⟨H.holds.push hw hlen, fun k hk => ?_⟩
  rw [← H.above k hk, Cpu.push_mem, H.holds.rsp]
  refine Mem.store64_out ?_
  unfold add64 sub64
  omega

theorem Pushed.pushAll (H : Pushed base n m s ws) (hs : ∀ r, s.gpr r < 2 ^ 64) (hlen : ws.length + rs.length < 2 ^ 60)
    (hn : n + 8 * (ws.length + rs.length) ≤ 2 ^ 64) :
    Pushed base n m (s.pushAll rs) ((rs.map s.gpr).reverse ++ ws) := by
  refine ⟨H.holds.pushAll hs hlen, ?_⟩
  induction rs generalizing s ws with
  | nil => exact H.above
  | cons r rs ih =>
    rw [List.length_cons] at hlen hn
    have hpush := H.push (hs r) (by omega) (by omega)
    rw [Cpu.pushAll]
    refine ih hpush (by rwa [Cpu.push_gpr]) ?_ ?_ <;> rw [List.length_cons] <;> omega

theorem Pushed.congr (H : Pushed base n m s ws) (hrsp : t.rsp = s.rsp) (hmem : t.mem = s.mem) :
    Pushed base n m t ws :=
  ⟨H.holds.congr hrsp hmem, fun k hk => by rw [hmem, H.above k hk]⟩

end

/-! ### Calls -/

/-- The registers that a callee has to bring back as they were. -/
def calleeSaved : List Reg := [.rbx, .rbp, .r12, .r13, .r14, .r15]

/-- `f` follows the System V calling convention, for callers with a frame of at least `n` bytes: entered
    with the return address on the stack, it returns to it, if it returns. -/
structure SysV (n : ℕ) (f : Cpu → Option Cpu) : Prop where
  rsp : ∀ s t, f s = some t → t.rsp = add64 s.rsp 8
  saved : ∀ s t, f s = some t → ∀ r ∈ calleeSaved, t.gpr r = s.gpr r
  frame : ∀ s t, f s = some t → ∀ k < n, t.byte k = s.byte (k + 8)

/-- `call f`, where `ret` is the address of the instruction that follows. -/
def call (f : Cpu → Option Cpu) (ret : ℕ) (s : Cpu) : Option Cpu := f (s.push ret)

variable {ret : ℕ} {f : Cpu → Option Cpu}

theorem SysV.call_rsp (hf : SysV n f) (hlt : s.rsp < 2 ^ 64) (h : call f ret s = some t) : t.rsp = s.rsp := by
  have hrsp := hf.rsp _ _ h
  rw [Cpu.push_rsp] at hrsp
  rw [hrsp]
  unfold add64 sub64
  omega

theorem SysV.call_byte (hf : SysV n f) (h8 : s.rsp % 8 = 0) (hn : n + 8 ≤ 2 ^ 64) (h : call f ret s = some t)
    {k : ℕ} (hk : k < n) : t.byte k = s.byte k :=
  (hf.frame _ _ h k hk).trans (push_byte h8 (by omega))

/-- A callee leaves its caller's words on the stack. -/
theorem Holds.call (H : Holds base s ws) (hf : SysV n f) (hws : 8 * ws.length ≤ n) (hn : n + 8 ≤ 2 ^ 64)
    (h : call f ret s = some t) : Holds base t ws := by
  have hrsp := hf.call_rsp H.rsp_lt h
  refine ⟨H.aligned, H.lt, H.len, hrsp.trans H.rsp, fun k hk => ?_⟩
  rw [← H.word k hk]
  exact word_congr H.rsp_aligned hrsp fun i hi => hf.call_byte H.rsp_aligned hn h (by omega)

end

end Lib
