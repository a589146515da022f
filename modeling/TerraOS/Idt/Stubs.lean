import TerraOS.Idt.Model

/-! The stubs are transparent.

    Every gate leads to the stub of its vector (`idtInit_target`). What is on the stack is a list of words,
    the frame at its end: a stub that pushes a dummy does so exactly where the processor pushes no error
    code (`entry_pushed`), a common part gives the registers back as it found them (`common_holds`), so that
    at `iretq` only the frame is left (`stub_transparent`), and the interrupted code goes on where it was
    (`interrupt_transparent`). -/

namespace TerraOS.Idt
open Lib Lib.Word

/-! ### The table -/

section
variable {addr : Label → ℕ} {idt : ℕ → IdtEntry} {v : ℕ} {l : Label} {gs : List (ℕ × Label)}

theorem idtSetGate_self (idt : ℕ → IdtEntry) (n : ℕ) {handler : ℕ} (h : handler < 2 ^ 64) :
    (idtSetGate idt n handler n).target = handler ∧ (idtSetGate idt n handler n).ist = 0 := by
  have hlow : handler &&& 0xFFFF = handler % 2 ^ 16 := Nat.and_two_pow_sub_one_eq_mod handler 16
  have hmid : (handler >>> 16) &&& 0xFFFF = handler / 2 ^ 16 % 2 ^ 16 := by
    rw [Nat.shiftRight_eq_div_pow]
    exact Nat.and_two_pow_sub_one_eq_mod _ 16
  have hhigh : (handler >>> 32) &&& 0xFFFFFFFF = handler / 2 ^ 32 % 2 ^ 32 := by
    rw [Nat.shiftRight_eq_div_pow]
    exact Nat.and_two_pow_sub_one_eq_mod _ 32
  rw [idtSetGate, Function.update_self, IdtEntry.target]
  refine ⟨?_, rfl⟩
  simp only [hlow, hmid, hhigh]
  omega

theorem idtSetGate_ne {n handler : ℕ} (h : v ≠ n) : idtSetGate idt n handler v = idt v := by
  rw [idtSetGate, Function.update_of_ne h]

theorem foldl_gates_out (hv : v ∉ gs.map Prod.fst) :
    gs.foldl (fun idt g => idtSetGate idt g.1 (addr g.2)) idt v = idt v := by
  induction gs generalizing idt with
  | nil => rfl
  | cons g gs ih =>
    rw [List.map_cons, List.mem_cons, not_or] at hv
    rw [List.foldl_cons, ih hv.2, idtSetGate_ne hv.1]

/-- Of gates that are set once each, every one stays as it is set. -/
theorem foldl_gates_mem (hnodup : (gs.map Prod.fst).Nodup) (hmem : (v, l) ∈ gs) :
    ∃ idt', gs.foldl (fun idt g => idtSetGate idt g.1 (addr g.2)) idt v = idtSetGate idt' v (addr l) v := by
  induction gs generalizing idt with
  | nil => exact absurd hmem (by simp)
  | cons g gs ih =>
    rw [List.map_cons, List.nodup_cons] at hnodup
    rw [List.foldl_cons]
    rcases List.mem_cons.mp hmem with rfl | hmem
    · exact ⟨idt, foldl_gates_out hnodup.1⟩
    · exact ih hnodup.2 hmem

/-- The gate of a stub's vector leads to it, on the stack that is in use. -/
theorem idtInit_target {m : Stub} (hm : m ∈ stubs) (haddr : ∀ l, addr l < 2 ^ 64) :
    (idtInit addr idt m.vector).target = addr m.label ∧ (idtInit addr idt m.vector).ist = 0 := by
  have hgate : ∀ m ∈ stubs, (m.vector, m.label) ∈ gates := by decide
  have hnodup : (gates.map Prod.fst).Nodup := by decide
  obtain ⟨idt', h⟩ := @foldl_gates_mem addr idt _ _ gates hnodup (hgate m hm)
  rw [idtInit, h]
  exact idtSetGate_self idt' m.vector (haddr m.label)

end

/-! ### The words on the stack -/

/-- The frame, as the stack holds it. -/
def frame (s : Cpu) : List ℕ := [s.rip, s.cs, s.rflags, s.rsp, s.ss]

section
variable {s t : Cpu} {mem : Mem} {base e ret n c v : ℕ} {ws : List ℕ} {m : Stub} {f : Cpu → Option Cpu}

theorem alignDown_lt (h : n < 2 ^ 64) : alignDown n < 2 ^ 64 := by
  unfold alignDown
  omega

/-- The frame, and the memory above it. -/
theorem pushFrame_pushed (W : s.Wf) {top : ℕ} (htop : top < 2 ^ 64) (hn : n + 40 ≤ 2 ^ 64) :
    Pushed (alignDown top) n s.mem (pushFrame top s) (frame s) ∧ (pushFrame top s).gpr = s.gpr := by
  have h8 : alignDown top % 8 = 0 := by
    unfold alignDown
    omega
  rw [pushFrame]
  refine ⟨?_, by simp only [Cpu.push_gpr]⟩
  have hnil : Holds (alignDown top) { s with rsp := alignDown top } [] := holds_nil rfl h8 (alignDown_lt htop)
  have H : Pushed (alignDown top) n s.mem { s with rsp := alignDown top } [] := hnil.pushed n
  have H₁ := H.push W.ss (by simp) (by simp; omega)
  have H₂ := H₁.push W.rsp (by simp) (by simp; omega)
  have H₃ := H₂.push W.rflags (by simp) (by simp; omega)
  have H₄ := H₃.push W.cs (by simp) (by simp; omega)
  exact H₄.push W.rip (by simp) (by simp; omega)

/-- The stack that a stub is entered with. -/
theorem deliver_pushed (W : s.Wf) {g : IdtEntry} {ist : ℕ → ℕ} {errorCode : Option ℕ} (hist : g.ist = 0)
    (he : ∀ e, errorCode = some e → e < 2 ^ 64) (hn : n + 48 ≤ 2 ^ 64) :
    Pushed (alignDown s.rsp) n s.mem (deliver g ist errorCode s) (errorCode.toList ++ frame s) ∧
      (deliver g ist errorCode s).gpr = s.gpr := by
  obtain ⟨H, hgpr⟩ := @pushFrame_pushed s n W s.rsp W.rsp (by omega)
  rw [deliver, if_pos hist]
  cases errorCode with
  | none => exact ⟨H.congr rfl rfl, hgpr⟩
  | some e =>
    have He := H.push (he e rfl) (by simp [frame]) (by simp [frame]; omega)
    refine ⟨He.congr rfl rfl, ?_⟩
    simp only [pushCode, Cpu.push_gpr, hgpr]

/-- A stub that leaves the error code to the processor. -/
def Stub.takesCode : Stub → Bool
  | .isrErr _ => true
  | .isrNoerr _ => false
  | .irq _ _ => false

theorem stubs_code : ∀ m ∈ stubs, m.vector < 34 ∧ pushesError m.vector = m.takesCode := by decide

/-- Where the processor pushes no error code, and only there, the stub pushes a 0 in its place. -/
theorem entry_pushed (hm : m ∈ stubs) (hlen : ws.length + 2 < 2 ^ 60) (hn : n + 8 * (ws.length + 2) ≤ 2 ^ 64)
    (H : Pushed base n mem s ((m.errorCode e).toList ++ ws)) :
    Pushed base n mem (m.entry s) (m.vector :: (m.errorCode e).getD 0 :: ws) ∧ (m.entry s).gpr = s.gpr := by
  obtain ⟨hv, hcode⟩ := stubs_code m hm
  have hv64 : m.vector < 2 ^ 64 := by omega
  rw [Stub.errorCode, hcode] at H ⊢
  cases m with
  | isrNoerr k =>
    have Hw : Pushed base n mem s ws := H
    have H₁ := Hw.push (w := 0) (by decide) (by omega) (by omega)
    exact ⟨H₁.push hv64 (by rw [List.length_cons]; omega) (by rw [List.length_cons]; omega),
      by simp only [Stub.entry, Cpu.push_gpr]⟩
  | isrErr k =>
    have He : Pushed base n mem s (e :: ws) := H
    exact ⟨He.push hv64 (by rw [List.length_cons]; omega) (by rw [List.length_cons]; omega),
      by simp only [Stub.entry, Cpu.push_gpr]⟩
  | irq k v =>
    have Hw : Pushed base n mem s ws := H
    have H₁ := Hw.push (w := 0) (by decide) (by omega) (by omega)
    exact ⟨H₁.push hv64 (by rw [List.length_cons]; omega) (by rw [List.length_cons]; omega),
      by simp only [Stub.entry, Cpu.push_gpr]⟩

/-! ### The common parts -/

theorem saveRegs_pushed (hs : ∀ r, s.gpr r < 2 ^ 64) (hlen : ws.length + 17 < 2 ^ 60)
    (hn : n + 8 * (ws.length + 17) ≤ 2 ^ 64) (H : Pushed base n mem s (v :: c :: ws)) :
    Pushed base n mem (saveRegs s) (restored.map s.gpr ++ v :: c :: ws) ∧ (saveRegs s).gpr .rdi = v := by
  have hsaved : saved.length = 15 := rfl
  have hpush : Pushed base n mem (s.pushAll saved) ((saved.map s.gpr).reverse ++ v :: c :: ws) := by
    refine H.pushAll hs ?_ ?_ <;> rw [List.length_cons, List.length_cons, hsaved]
    · exact hlen
    · exact hn
  rw [← List.map_reverse] at hpush
  have hword := hpush.holds.word 15 (by simp [saved])
  rw [saveRegs]
  refine ⟨hpush.congr rfl rfl, ?_⟩
  dsimp only
  rw [Function.update_self, show 120 = 8 * 15 from rfl, ← Cpu.word, hword]
  rfl

theorem restoreRegs_holds {g : Reg → ℕ} (H : Holds base t (restored.map g ++ v :: c :: ws)) :
    Holds base (restoreRegs t) ws ∧ (restoreRegs t).gpr = g := by
  obtain ⟨hpop, hgpr⟩ := H.popAll
  have hall : ∀ r, r ∈ restored := by
    intro r
    cases r <;> decide
  rw [restoreRegs]
  refine ⟨hpop.release 2 (by simp), ?_⟩
  rw [Cpu.release_gpr]
  funext r
  rw [hgpr r, if_pos (hall r)]

/-- What a common part does: the registers are as before, and the two words are gone. -/
theorem common_holds (hf : SysV n f) (hs : ∀ r, s.gpr r < 2 ^ 64) (hn : 8 * (ws.length + 17) ≤ n) (hn' : n < 2 ^ 60)
    (H : Holds base s (v :: c :: ws)) (h : common f ret s = some t) : Holds base t ws ∧ t.gpr = s.gpr := by
  obtain ⟨hsave, -⟩ := saveRegs_pushed hs (by omega) (by omega) (H.pushed 0)
  rw [common, Option.map_eq_some_iff] at h
  obtain ⟨u, hcall, rfl⟩ := h
  refine restoreRegs_holds (hsave.holds.call hf ?_ (by omega) hcall)
  rw [List.length_append, List.length_map, List.length_cons, List.length_cons]
  exact le_trans (by simp [restored]; omega) hn

theorem run_holds {h : Handlers} (hh : h.SysV n) (hs : ∀ r, s.gpr r < 2 ^ 64) (hm : m ∈ stubs)
    (hn : 8 * (ws.length + 17) ≤ n) (hn' : n < 2 ^ 60) (H : Holds base s ((m.errorCode e).toList ++ ws))
    (hrun : m.run h ret s = some t) : Holds base t ws ∧ t.gpr = s.gpr := by
  obtain ⟨⟨Hentry, -⟩, hgpr⟩ := entry_pushed hm (by omega) (by omega) (H.pushed 0)
  have hs' : ∀ r, (m.entry s).gpr r < 2 ^ 64 := by rwa [hgpr]
  rw [← hgpr]
  cases m with
  | isrNoerr n => exact common_holds hh.isr hs' hn hn' Hentry hrun
  | isrErr n => exact common_holds hh.isr hs' hn hn' Hentry hrun
  | irq n v => exact common_holds hh.irq hs' hn hn' Hentry hrun

end

/-! ### The whole way -/

/-- The stack of the interrupted code from `iretq`'s frame down to the saved registers. -/
abbrev frameBytes : ℕ := 176

/-- What is left at `iretq`, of an interrupt of `s` that was delivered as `d`. -/
structure AtIretq (s d t : Cpu) : Prop where
  gpr : t.gpr = s.gpr
  rsp : t.rsp = sub64 (alignDown s.rsp) 40
  words : ∀ k (h : k < (frame s).length), t.word k = (frame s)[k]
  bytes : ∀ k < 40, t.byte k = d.mem (add64 t.rsp k)

theorem atIretq_of_holds {s d t : Cpu} {cs : List ℕ} (hd : Holds (alignDown s.rsp) d (cs ++ frame s))
    (ht : Holds (alignDown s.rsp) t (frame s)) (hgpr : t.gpr = s.gpr) : AtIretq s d t := by
  refine ⟨hgpr, ht.rsp, ht.word, fun k hk => ?_⟩
  have hup : t.rsp = add64 d.rsp (8 * cs.length) := by
    have hlen := hd.len
    rw [List.length_append] at hlen
    rw [ht.rsp, hd.rsp, List.length_append]
    unfold add64 sub64
    omega
  -- the frame as the processor left it
  have hframe : Holds (alignDown s.rsp) { d with rsp := t.rsp } (frame s) := by
    have hdrop := hd.drop (t := { d with rsp := t.rsp }) (by rw [List.length_append]; omega) hup rfl
    rwa [List.drop_left] at hdrop
  have hk' : k / 8 < (frame s).length := by
    rw [frame, List.length_cons, List.length_cons, List.length_cons, List.length_cons, List.length_cons,
      List.length_nil]
    omega
  rw [ht.byte hk', ← hframe.byte hk']
  rfl

section
variable {s t : Cpu} {addr : Label → ℕ} {idt : ℕ → IdtEntry} {ist : ℕ → ℕ} {h : Handlers} {e ret n : ℕ} {m : Stub}

theorem errorCode_lt (he : e < 2 ^ 64) : ∀ w, m.errorCode e = some w → w < 2 ^ 64 := by
  intro w hw
  rw [Stub.errorCode] at hw
  split at hw
  · exact Option.some.inj hw ▸ he
  · cases hw

/-- An interrupt on a stub's vector, as it comes to the stub. -/
theorem delivered_pushed (W : s.Wf) (haddr : ∀ l, addr l < 2 ^ 64) (he : ∀ w, m.errorCode e = some w → w < 2 ^ 64)
    (hm : m ∈ stubs) (hn : n + 48 ≤ 2 ^ 64) :
    Pushed (alignDown s.rsp) n s.mem (deliver (idtInit addr idt m.vector) ist (m.errorCode e) s)
      ((m.errorCode e).toList ++ frame s) ∧
    (deliver (idtInit addr idt m.vector) ist (m.errorCode e) s).gpr = s.gpr :=
  deliver_pushed W (idtInit_target hm haddr).2 he hn

/-- As it comes to the call: the words of the stub are on the stack, and its vector is in `rdi`. -/
theorem called_pushed (W : s.Wf) (haddr : ∀ l, addr l < 2 ^ 64) (he : ∀ w, m.errorCode e = some w → w < 2 ^ 64)
    (hm : m ∈ stubs) (hn : n + frameBytes ≤ 2 ^ 64) :
    Pushed (alignDown s.rsp) n s.mem
      (saveRegs (m.entry (deliver (idtInit addr idt m.vector) ist (m.errorCode e) s)))
      (restored.map s.gpr ++ m.vector :: (m.errorCode e).getD 0 :: frame s) ∧
    (saveRegs (m.entry (deliver (idtInit addr idt m.vector) ist (m.errorCode e) s))).gpr .rdi = m.vector := by
  have hlen : (frame s).length = 5 := rfl
  have hn' : n + 176 ≤ 2 ^ 64 := hn
  obtain ⟨hd, hgpr⟩ := @delivered_pushed s addr idt ist e n m W haddr he hm (by omega)
  obtain ⟨hentry, hgpr'⟩ := entry_pushed hm (by omega) (by omega) hd
  rw [hgpr] at hgpr'
  have hs : ∀ r, (m.entry (deliver (idtInit addr idt m.vector) ist (m.errorCode e) s)).gpr r < 2 ^ 64 := by
    rw [hgpr']
    exact W.gpr
  rw [← hgpr']
  exact saveRegs_pushed hs (by omega) (by omega) hentry

/-- And as it comes to `iretq`. -/
theorem returned_holds (W : s.Wf) (haddr : ∀ l, addr l < 2 ^ 64) (hh : h.SysV n) (hn : frameBytes ≤ n)
    (hn' : n < 2 ^ 60) (he : e < 2 ^ 64) (hm : m ∈ stubs)
    (hrun : m.run h ret (deliver (idtInit addr idt m.vector) ist (m.errorCode e) s) = some t) :
    Holds (alignDown s.rsp) t (frame s) ∧ t.gpr = s.gpr := by
  obtain ⟨hd, hgpr⟩ := @delivered_pushed s addr idt ist e 0 m W haddr (errorCode_lt he) hm (by decide)
  have hs : ∀ r, (deliver (idtInit addr idt m.vector) ist (m.errorCode e) s).gpr r < 2 ^ 64 := by
    rw [hgpr]
    exact W.gpr
  have hn17 : 8 * ((frame s).length + 17) ≤ n := hn
  obtain ⟨ht, hgprt⟩ := run_holds hh hs hm hn17 hn' hd.holds hrun
  exact ⟨ht, hgprt.trans hgpr⟩

/-- Where the handler returns, the interrupted code goes on with all its registers. -/
theorem interrupt_transparent (W : s.Wf) (haddr : ∀ l, addr l < 2 ^ 64) (hh : h.SysV frameBytes) (he : e < 2 ^ 64)
    (hm : m ∈ stubs) (hint : interrupt (idtInit addr idt) ist h ret e m s = some t) :
    t.gpr = s.gpr ∧ t.rsp = s.rsp ∧ t.rip = s.rip ∧ t.cs = s.cs ∧ t.rflags = s.rflags ∧ t.ss = s.ss := by
  rw [interrupt, Option.map_eq_some_iff] at hint
  obtain ⟨u, hrun, rfl⟩ := hint
  obtain ⟨hu, hgpr⟩ := returned_holds W haddr hh le_rfl (by decide) he hm hrun
  have hlen : (frame s).length = 5 := rfl
  have hrip : u.word 0 = s.rip := hu.word 0 (by omega)
  have hcs : u.word 1 = s.cs := hu.word 1 (by omega)
  have hrflags : u.word 2 = s.rflags := hu.word 2 (by omega)
  have hrsp : u.word 3 = s.rsp := hu.word 3 (by omega)
  have hss : u.word 4 = s.ss := hu.word 4 (by omega)
  rw [iretq]
  exact ⟨hgpr, hrsp, hrip, hcs, hrflags, hss⟩

end

/-- CORRECT: on its vector every stub calls its handler with the vector in `rdi` and `rsp` aligned, and if
    the handler returns, the registers and the frame are at `iretq` as they were. -/
theorem stub_transparent {s : Cpu} {addr : Label → ℕ} {h : Handlers} {e : ℕ} {m : Stub} (W : s.Wf)
    (haddr : ∀ l, addr l < 2 ^ 64) (hh : h.SysV frameBytes) (he : e < 2 ^ 64) (hm : m ∈ stubs)
    (idt : ℕ → IdtEntry) (ist : ℕ → ℕ) (ret : ℕ) :
    (deliver (idtInit addr idt m.vector) ist (m.errorCode e) s).rip = addr m.label ∧
    (saveRegs (m.entry (deliver (idtInit addr idt m.vector) ist (m.errorCode e) s))).gpr .rdi = m.vector ∧
    (saveRegs (m.entry (deliver (idtInit addr idt m.vector) ist (m.errorCode e) s))).rsp % 16 = 0 ∧
    ∀ t, m.run h ret (deliver (idtInit addr idt m.vector) ist (m.errorCode e) s) = some t →
      AtIretq s (deliver (idtInit addr idt m.vector) ist (m.errorCode e) s) t := by
  obtain ⟨htarget, -⟩ := @idtInit_target addr idt m hm haddr
  obtain ⟨hsave, hrdi⟩ := @called_pushed s addr idt ist e 0 m W haddr (errorCode_lt he) hm (by decide)
  refine ⟨htarget, hrdi, ?_, fun t hrun => ?_⟩
  · rw [hsave.holds.rsp, sub64, alignDown]
    simp only [restored, frame, List.length_append, List.length_map, List.length_cons, List.length_nil]
    omega
  · obtain ⟨hd, -⟩ := @delivered_pushed s addr idt ist e 0 m W haddr (errorCode_lt he) hm (by decide)
    obtain ⟨ht, hgprt⟩ := returned_holds W haddr hh le_rfl (by decide) he hm hrun
    exact atIretq_of_holds hd.holds ht hgprt

/-! ### The timer and the keyboard -/

/-- The kernel's handlers, as far as a stub sees them: an exception halts, and an IRQ is acknowledged with
    `0x20` in `al` and `dx`. -/
def kernelHandlers : Handlers where
  isrHandler _ := none
  irqHandler s := some { s with
    gpr := Function.update (Function.update s.gpr .rax 0x20) .rdx 0x20
    rsp := add64 s.rsp 8 }

theorem kernelHandlers_sysV (n : ℕ) : kernelHandlers.SysV n := by
  refine ⟨⟨fun s t h => ?_, fun s t h => ?_, fun s t h => ?_⟩, ⟨fun s t h => ?_, fun s t h => ?_, fun s t h => ?_⟩⟩
  · cases h
  · cases h
  · cases h
  · obtain rfl := Option.some.inj h
    rfl
  · obtain rfl := Option.some.inj h
    intro r hr
    have hne : ∀ r ∈ calleeSaved, r ≠ .rax ∧ r ≠ .rdx := by decide
    obtain ⟨hax, hdx⟩ := hne r hr
    simp only [Function.update_of_ne hdx, Function.update_of_ne hax]
  · obtain rfl := Option.some.inj h
    intro k _
    have hup : add64 (add64 s.rsp 8) k = add64 s.rsp (k + 8) := by
      unfold add64
      omega
    rw [Cpu.byte, Cpu.byte, hup]

/-- The kernel, with nothing in its registers, before its first instruction. -/
def kernelStart (mem : Mem) : Cpu where
  gpr _ := 0
  rsp := 0xFFFFFFFF80020FE8
  rip := 0xFFFFFFFF80010000
  cs := 0x18
  rflags := 0x202
  ss := 0x10
  mem := mem

theorem kernelStart_wf (mem : Mem) : (kernelStart mem).Wf :=
  ⟨fun _ => Nat.two_pow_pos 64, by norm_num [kernelStart], by norm_num [kernelStart], by norm_num [kernelStart],
    by norm_num [kernelStart], by norm_num [kernelStart]⟩

theorem stub_transparent_keyboard : ∃ d t,
    deliver (idtInit (fun _ => 0xFFFFFFFF80011000) (fun _ => ⟨0, 0, 0, 0, 0, 0, 0⟩) 33) (fun _ => 0) none
      (kernelStart fun _ => 0) = d ∧
    (Stub.irq 1 33).run kernelHandlers 0xFFFFFFFF80011100 d = some t ∧ AtIretq (kernelStart fun _ => 0) d t := by
  obtain ⟨-, -, -, hret⟩ := @stub_transparent (kernelStart fun _ => 0) (fun _ => 0xFFFFFFFF80011000) kernelHandlers 0
    (.irq 1 33) (kernelStart_wf _) (fun _ => by decide) (kernelHandlers_sysV _) (by decide) (by decide)
    (fun _ => ⟨0, 0, 0, 0, 0, 0, 0⟩) (fun _ => 0) 0xFFFFFFFF80011100
  exact ⟨_, _, rfl, rfl, hret _ rfl⟩

end TerraOS.Idt
