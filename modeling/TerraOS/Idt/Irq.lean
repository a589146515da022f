import TerraOS.Idt.Delivery
import TerraOS.Lib.Objects
import TerraOS.Lib.Pic

/-! The keyboard's interrupt, from the controller to irq_handler.

    `idt_init` runs with interrupts off: it programs the two controllers (`pic_remap`) and sets IF. From then
    on the processor takes what the controllers let through, enters a stub through its gate, and is in
    `irq_handler` until `iretq`, with IF clear. Meanwhile lines go up and down, and the keyboard
    controller holds each byte, with its line up, until the byte is read at port 0x60.

    That is so while the GDT is mapped (`deliverable_bootloader`). Once `paging_init` has loaded CR3, the first
    interrupt that is let through resets the processor (`accept_kernel`). What the kernel does otherwise
    is left out, and so is user mode, where `load_elf` is to clear IF. -/

namespace TerraOS.Idt
open Lib

inductive PortOp where
  | outb (port byte : ℕ)
  | inb (port : ℕ)
  deriving DecidableEq, Repr

/-- The writes of `pic_remap`. -/
def picRemap : List PortOp := [
  .outb 0x20 0x11, .outb 0xA0 0x11,
  .outb 0x21 0x20, .outb 0xA1 0x28,
  .outb 0x21 0x04, .outb 0xA1 0x02,
  .outb 0x21 0x01, .outb 0xA1 0x01,
  .outb 0x21 0xFD, .outb 0xA1 0xFF]

/-- What `irq_handler` does at the ports. -/
def irqHandler (intNo : ℕ) : List PortOp :=
  (if intNo = 33 then [.inb 0x60] else []) ++ (if intNo ≥ 40 then [.outb 0xA0 0x20] else []) ++ [.outb 0x20 0x20]

/-- What the processor is at. IF is set in `kernel` alone. -/
inductive Activity where
  | idtInit (rest : List PortOp)
  | kernel
  | handler (rest : List PortOp)
  | halted
  | reset
  deriving DecidableEq, Repr

/-- The controllers, the output buffer of the keyboard controller, the processor, what `irq_handler` has
    read at port 0x60 (`none` where there was nothing to read), and whether the GDT is mapped. -/
structure Irqs where
  pic : Pic.Pair
  outputBuffer : Option UInt8
  cpu : Activity
  read : List (Option UInt8)
  gdtMapped : Bool

/-- A port operation, at the controllers. -/
def PortOp.pics (p : Pic.Pair) : PortOp → Pic.Pair
  | .outb port b =>
    if port = 0x20 then { p with master := p.master.command b }
    else if port = 0x21 then { p with master := p.master.data b }
    else if port = 0xA0 then { p with slave := p.slave.command b }
    else if port = 0xA1 then { p with slave := p.slave.data b }
    else p
  | .inb port => if port = 0x60 then { p with master := p.master.lower 1 } else p

/-- Reading port 0x60 empties the buffer, and the line of the keyboard goes down. -/
def PortOp.run (w : Irqs) (op : PortOp) : Irqs :=
  if op = .inb 0x60 then { w with pic := op.pics w.pic, outputBuffer := none, read := w.read ++ [w.outputBuffer] }
  else { w with pic := op.pics w.pic }

/-- Where the gate of a vector leads: to irq_handler, or to isr_handler, which halts. Without a gate the
    vector faults, and the fault's gate leads there too. -/
def entered (v : ℕ) : Activity :=
  match gates.lookup v with
  | some (.irq _) => .handler (irqHandler v)
  | _ => .halted

/-- The processor's next instruction that matters here, or a pending interrupt before it. A delivery and
    `iretq` read the GDT. -/
def tick (w : Irqs) : Irqs :=
  match w.cpu with
  | .idtInit (op :: rest) => { op.run w with cpu := .idtInit rest }
  | .idtInit [] => { w with cpu := .kernel } -- `sti`
  | .kernel =>
    match w.pic.ack with
    | some (v, pic) => { w with pic := pic, cpu := if w.gdtMapped then entered v else .reset }
    | none => w
  | .handler (op :: rest) => { op.run w with cpu := .handler rest }
  | .handler [] => { w with cpu := if w.gdtMapped then .kernel else .reset } -- `iretq`
  | .halted => w
  | .reset => w

/-- A key sends a byte, a line of a controller other than the keyboard's changes, the processor goes on, or
    the kernel loads CR3 with tables of its own, which leave the GDT out. -/
inductive Event where
  | key (b : UInt8)
  | raise (slave : Bool) (i : Fin 8)
  | lower (slave : Bool) (i : Fin 8)
  | tick
  | loadCr3
  deriving DecidableEq, Repr

/-- One chip of the two. -/
def onChip (p : Pic.Pair) (slave : Bool) (f : Pic.Chip → Pic.Chip) : Pic.Pair :=
  if slave then { p with slave := f p.slave } else { p with master := f p.master }

def Event.run (w : Irqs) : Event → Except Empty Irqs
  | .key b => .ok { w with pic := { w.pic with master := w.pic.master.raise 1 }, outputBuffer := some b }
  | .raise slave i => .ok { w with pic := onChip w.pic slave fun c => c.raise i }
  | .lower slave i => .ok { w with pic := onChip w.pic slave fun c => c.lower i }
  | .tick => .ok (Idt.tick w)
  | .loadCr3 => .ok { w with gdtMapped := false }

/-- The keyboard controller waits until its buffer is empty; its line is its own. CR3 is loaded in the
    kernel, after `idt_init`. -/
def Event.Allowed (w : Irqs) : Event → Prop
  | .key _ => w.outputBuffer = none
  | .raise slave i => slave = true ∨ i ≠ 1
  | .lower slave i => slave = true ∨ i ≠ 1
  | .tick => True
  | .loadCr3 => w.cpu = .kernel

/-- The bytes that keys send. -/
def keys (evs : List Event) : List UInt8 := evs.filterMap fun
  | .key b => some b
  | _ => none

/-- The first write of `pic_remap`, to controllers in any state, with `buffer` in the keyboard's. -/
def atIcw1 (pic : Pic.Pair) (buffer : Option UInt8) : Irqs := tick ⟨pic, buffer, .idtInit picRemap, [], true⟩

/-! ### What `pic_remap` makes of the controllers -/

/-- The vectors are 32 to 47, every end of an interrupt is commanded, and the one line that is open is the
    keyboard's. -/
structure Remapped (p : Pic.Pair) : Prop where
  master : p.master.conf.base = 32 ∧ p.master.conf.stage = .ready ∧ p.master.conf.autoEoi = false
  slave : p.slave.conf.base = 40 ∧ p.slave.conf.stage = .ready ∧ p.slave.conf.autoEoi = false
  masterMask : ∀ j, p.master.conf.imr j = !decide (j = 1)
  slaveMask : ∀ j, p.slave.conf.imr j = true

/-- The rest of `pic_remap`. -/
def finish (rest : List PortOp) (p : Pic.Pair) : Pic.Pair := rest.foldl PortOp.pics p

/-- The controllers are configured alike. -/
def SameConf (p q : Pic.Pair) : Prop := q.master.conf = p.master.conf ∧ q.slave.conf = p.slave.conf

section
variable {p q : Pic.Pair} {w w' : Irqs} {op : PortOp} {rest : List PortOp} {e : Event}

theorem SameConf.pics (h : SameConf p q) : SameConf (op.pics p) (op.pics q) := by
  obtain ⟨hm, hs⟩ := h
  cases op with
  | outb port b =>
    simp only [PortOp.pics]
    split_ifs
    · exact ⟨by rw [Pic.Chip.command_conf, Pic.Chip.command_conf, hm], hs⟩
    · exact ⟨by rw [Pic.Chip.data, Pic.Chip.data, hm], hs⟩
    · exact ⟨hm, by rw [Pic.Chip.command_conf, Pic.Chip.command_conf, hs]⟩
    · exact ⟨hm, by rw [Pic.Chip.data, Pic.Chip.data, hs]⟩
    · exact ⟨hm, hs⟩
  | inb port =>
    simp only [PortOp.pics]
    split_ifs
    · exact ⟨hm, hs⟩
    · exact ⟨hm, hs⟩

theorem SameConf.finished : ∀ {rest : List PortOp} {p q : Pic.Pair}, SameConf p q →
    SameConf (finish rest p) (finish rest q)
  | [], _, _, h => h
  | op :: rest, p, q, h => by
    have hrest : SameConf (finish rest (op.pics p)) (finish rest (op.pics q)) := SameConf.finished h.pics
    exact hrest

theorem Remapped.same (R : Remapped p) (h : SameConf p q) : Remapped q := by
  obtain ⟨hm, hs⟩ := h
  refine ⟨?_, ?_, ?_, ?_⟩
  · rw [hm]
    exact R.master
  · rw [hs]
    exact R.slave
  · rw [hm]
    exact R.masterMask
  · rw [hs]
    exact R.slaveMask

/-- Whatever state the controllers are in, `pic_remap` configures them. -/
theorem remapped_finish (p : Pic.Pair) : Remapped (finish picRemap p) := by
  refine ⟨⟨rfl, rfl, rfl⟩, ⟨rfl, rfl, rfl⟩, fun j => ?_, fun j => ?_⟩
  · show (0xFD : ℕ).testBit j = _
    revert j
    decide
  · show (0xFF : ℕ).testBit j = _
    revert j
    decide

/-- After ICW1 `pic_remap` touches neither the master's requests nor what it serves. -/
theorem pics_master (h : op ∈ picRemap.tail) :
    (op.pics p).master.irr = p.master.irr ∧ (op.pics p).master.isr = p.master.isr := by
  simp only [picRemap, List.tail_cons, List.mem_cons, List.not_mem_nil, or_false] at h
  rcases h with rfl | rfl | rfl | rfl | rfl | rfl | rfl | rfl | rfl <;> exact ⟨rfl, rfl⟩

theorem not_inb (h : op ∈ picRemap.tail) : op ≠ .inb 0x60 := by
  rintro rfl
  revert h
  decide

/-! ### The invariant -/

/-- The keyboard's line is up as long as there is a byte. -/
def Waiting (w : Irqs) : Prop := w.pic.master.irr 1 = w.outputBuffer.isSome

/-- Nothing is being served. -/
def Idle (w : Irqs) : Prop := ∀ j, w.pic.master.isr j = false

/-- The keyboard is. -/
def Serving (w : Irqs) : Prop := ∀ j, w.pic.master.isr j = decide (j = 1)

/-- The states that are reached when the buffer was empty at ICW1. -/
inductive Inv (w : Irqs) : Prop
  | setup {rest : List PortOp} : w.cpu = .idtInit rest → w.gdtMapped = true → rest <:+ picRemap.tail →
      Remapped (finish rest w.pic) → Waiting w → Idle w → Inv w
  | kernel : w.cpu = .kernel → Remapped w.pic → Waiting w → Idle w → Inv w
  | entered : w.cpu = .handler (irqHandler 33) → w.gdtMapped = true → Remapped w.pic →
      w.outputBuffer.isSome = true → w.pic.master.irr 1 = false → Serving w → Inv w
  | served : w.cpu = .handler [.outb 0x20 0x20] → w.gdtMapped = true → Remapped w.pic → Waiting w → Serving w → Inv w
  | returning : w.cpu = .handler [] → w.gdtMapped = true → Remapped w.pic → Waiting w → Idle w → Inv w
  | reset : w.cpu = .reset → w.gdtMapped = false → Remapped w.pic → Inv w

theorem onChip_same (p : Pic.Pair) (slave : Bool) {f : Pic.Chip → Pic.Chip} (hf : ∀ c, (f c).conf = c.conf) :
    SameConf p (onChip p slave f) := by
  cases slave with
  | false => exact ⟨hf _, rfl⟩
  | true => exact ⟨rfl, hf _⟩

/-- A line other than the keyboard's leaves the keyboard's as it is. -/
theorem raise_keyboard {p : Pic.Pair} {slave : Bool} {i : Fin 8} (h : slave = true ∨ i ≠ 1) :
    (onChip p slave fun c => c.raise i).master.irr 1 = p.master.irr 1 := by
  cases slave with
  | false => exact Function.update_of_ne (h.resolve_left (by simp)).symm _ _
  | true => rfl

theorem lower_keyboard {p : Pic.Pair} {slave : Bool} {i : Fin 8} (h : slave = true ∨ i ≠ 1) :
    (onChip p slave fun c => c.lower i).master.irr 1 = p.master.irr 1 := by
  cases slave with
  | false => exact Function.update_of_ne (h.resolve_left (by simp)).symm _ _
  | true => rfl

/-- Lines other than the keyboard's are masked, and nobody notices them. -/
theorem Inv.lines (I : Inv w) {pic : Pic.Pair} (hconf : SameConf w.pic pic)
    (hirr : pic.master.irr 1 = w.pic.master.irr 1) (hisr : pic.master.isr = w.pic.master.isr) :
    Inv { w with pic := pic } := by
  have hwait : Waiting w → Waiting { w with pic := pic } := fun h => hirr.trans h
  have hidle : Idle w → Idle { w with pic := pic } := fun h j => (congrFun hisr j).trans (h j)
  have hserving : Serving w → Serving { w with pic := pic } := fun h j => (congrFun hisr j).trans (h j)
  cases I with
  | setup hcpu hg hrest R hw hi => exact .setup hcpu hg hrest (R.same hconf.finished) (hwait hw) (hidle hi)
  | kernel hcpu R hw hi => exact .kernel hcpu (R.same hconf) (hwait hw) (hidle hi)
  | entered hcpu hg R hb hr hs => exact .entered hcpu hg (R.same hconf) hb (hirr.trans hr) (hserving hs)
  | served hcpu hg R hw hs => exact .served hcpu hg (R.same hconf) (hwait hw) (hserving hs)
  | returning hcpu hg R hw hi => exact .returning hcpu hg (R.same hconf) (hwait hw) (hidle hi)
  | reset hcpu hg R => exact .reset hcpu hg (R.same hconf)

/-- A byte comes, and its line goes up. -/
theorem Inv.key (I : Inv w) (hnone : w.outputBuffer = none) (b : UInt8) :
    Inv { w with pic := { w.pic with master := w.pic.master.raise 1 }, outputBuffer := some b } := by
  have hconf : SameConf w.pic { w.pic with master := w.pic.master.raise 1 } := ⟨rfl, rfl⟩
  have hwait : Waiting { w with pic := { w.pic with master := w.pic.master.raise 1 }, outputBuffer := some b } := by
    simp [Waiting, Pic.Chip.raise]
  cases I with
  | setup hcpu hg hrest R _ hi => exact .setup hcpu hg hrest (R.same hconf.finished) hwait hi
  | kernel hcpu R _ hi => exact .kernel hcpu (R.same hconf) hwait hi
  | entered _ _ _ hb _ _ =>
    rw [hnone] at hb
    cases hb
  | served hcpu hg R _ hs => exact .served hcpu hg (R.same hconf) hwait hs
  | returning hcpu hg R _ hi => exact .returning hcpu hg (R.same hconf) hwait hi
  | reset hcpu hg R => exact .reset hcpu hg (R.same hconf)

/-- The kernel's tables come into use. -/
theorem Inv.loadCr3 (I : Inv w) (ha : w.cpu = .kernel) : Inv { w with gdtMapped := false } := by
  cases I with
  | kernel hcpu R hw hi => exact .kernel hcpu R hw hi
  | setup hcpu _ _ _ _ _ => exact absurd (hcpu.symm.trans ha) (by simp)
  | entered hcpu _ _ _ _ _ => exact absurd (hcpu.symm.trans ha) (by simp)
  | served hcpu _ _ _ _ => exact absurd (hcpu.symm.trans ha) (by simp)
  | returning hcpu _ _ _ _ => exact absurd (hcpu.symm.trans ha) (by simp)
  | reset hcpu _ _ => exact absurd (hcpu.symm.trans ha) (by simp)

/-- A request of the keyboard is acknowledged at vector 33. -/
theorem ack_keyboard (R : Remapped w.pic) (hw : Waiting w) (hi : Idle w) (hb : w.outputBuffer.isSome = true) :
    w.pic.ack = some (33, ⟨w.pic.wired.ack 1, w.pic.slave⟩) := by
  have hack := Pic.Pair.ack_one (p := w.pic) (i := 1) (by decide) R.masterMask hi (hw.trans hb)
  have hvector : w.pic.master.conf.base + ((1 : Fin 8) : ℕ) = 33 := by rw [R.master.1]; rfl
  rwa [hvector] at hack

/-- What one step of the processor does: it reads the byte that is there, or leaves both lists. -/
inductive Ticked (w w' : Irqs) : Prop
  | read {b : UInt8} : w.outputBuffer = some b → w'.outputBuffer = none → w'.read = w.read ++ [some b] → Ticked w w'
  | same : w'.outputBuffer = w.outputBuffer → w'.read = w.read → Ticked w w'

theorem Inv.tick (I : Inv w) : Inv (tick w) ∧ Ticked w (Idt.tick w) := by
  cases I with
  | @setup rest hcpu hg hrest R hw hi =>
    cases rest with
    | nil =>
      simp only [Idt.tick, hcpu]
      exact ⟨.kernel rfl R hw hi, .same rfl rfl⟩
    | cons op rest =>
      have hmem : op ∈ picRemap.tail := hrest.subset List.mem_cons_self
      obtain ⟨hirr, hisr⟩ := pics_master (p := w.pic) hmem
      simp only [Idt.tick, hcpu, PortOp.run, if_neg (not_inb hmem)]
      refine ⟨.setup rfl hg ((List.suffix_cons op rest).trans hrest) R ?_ fun j => ?_, .same rfl rfl⟩
      · exact (congrFun hirr 1).trans hw
      · exact (congrFun hisr j).trans (hi j)
  | kernel hcpu R hw hi =>
    cases hb : w.outputBuffer with
    | none =>
      have hnone : w.pic.ack = none := by
        refine Pic.Pair.ack_none (Pic.Chip.next_none fun j _ => R.slaveMask j) fun j hj => ?_
        rw [R.masterMask]
        have hne : j ≠ 1 := by
          rintro rfl
          rw [hw, hb] at hj
          cases hj
        simp [hne]
      simp only [Idt.tick, hcpu, hnone]
      exact ⟨.kernel hcpu R hw hi, .same rfl rfl⟩
    | some b =>
      have hack := ack_keyboard R hw hi (by rw [hb]; rfl)
      have R' : Remapped ⟨w.pic.wired.ack 1, w.pic.slave⟩ := R.same ⟨rfl, rfl⟩
      simp only [Idt.tick, hcpu, hack]
      -- where the GDT is not mapped the interrupt is the last thing that happens
      cases w.gdtMapped with
      | false => exact ⟨.reset rfl rfl R', .same rfl rfl⟩
      | true =>
      refine ⟨.entered rfl rfl R' (by simp [hb]) ?_ fun j => ?_, .same rfl rfl⟩
      · simp [Pic.Chip.ack]
      · by_cases hj : j = 1
        · simp [Pic.Chip.ack, hj, Pic.Pair.wired, R.master.2.2]
        · simp [Pic.Chip.ack, hj, Pic.Pair.wired, hi j]
  | entered hcpu hg R hb hr hs =>
    obtain ⟨b, hb⟩ := Option.isSome_iff_exists.mp hb
    have hops : irqHandler 33 = [.inb 0x60, .outb 0x20 0x20] := rfl
    rw [hops] at hcpu
    simp only [Idt.tick, hcpu, PortOp.run, if_pos, PortOp.pics]
    refine ⟨.served rfl hg (R.same ⟨rfl, rfl⟩) ?_ fun j => hs j, .read hb rfl (by rw [hb])⟩
    simp [Waiting, Pic.Chip.lower]
  | served hcpu hg R hw hs =>
    have heoi : w.pic.master.command 0x20 = w.pic.master.eoi := rfl
    simp only [Idt.tick, hcpu, PortOp.run, PortOp.pics, if_pos, heoi]
    refine ⟨.returning rfl hg (R.same ⟨?_, rfl⟩) ?_ fun j => ?_, .same rfl rfl⟩
    · exact Pic.Chip.eoi_conf _
    · exact (congrFun (Pic.Chip.eoi_irr _) 1).trans hw
    · exact Pic.Chip.eoi_one hs j
  | returning hcpu hg R hw hi =>
    simp only [Idt.tick, hcpu, hg, if_true]
    exact ⟨.kernel rfl R hw hi, .same rfl rfl⟩
  | reset hcpu hg R =>
    simp only [Idt.tick, hcpu]
    exact ⟨.reset hcpu hg R, .same rfl rfl⟩

/-- A run's step: the invariant is kept, and every byte sent has been read, in its order, or is in the
    buffer. -/
theorem Inv.step {evs : List Event} (I : Inv w)
    (hsent : w.read ++ w.outputBuffer.toList.map some = (keys evs).map some) (ha : e.Allowed w)
    (h : e.run w = .ok w') :
    Inv w' ∧ w'.read ++ w'.outputBuffer.toList.map some = (keys (evs ++ [e])).map some := by
  cases e with
  | key b =>
    obtain rfl := Except.ok.inj h
    have hnone : w.outputBuffer = none := ha
    refine ⟨I.key hnone b, ?_⟩
    rw [hnone] at hsent
    simpa [keys] using hsent
  | raise slave i =>
    obtain rfl := Except.ok.inj h
    refine ⟨I.lines (onChip_same _ _ fun _ => rfl) (raise_keyboard ha) ?_, by simpa [keys] using hsent⟩
    cases slave <;> rfl
  | lower slave i =>
    obtain rfl := Except.ok.inj h
    refine ⟨I.lines (onChip_same _ _ fun _ => rfl) (lower_keyboard ha) ?_, by simpa [keys] using hsent⟩
    cases slave <;> rfl
  | tick =>
    obtain rfl := Except.ok.inj h
    obtain ⟨I', hticked⟩ := I.tick
    refine ⟨I', ?_⟩
    cases hticked with
    | read hb hb' hr =>
      rw [hb] at hsent
      rw [hb', hr]
      simpa [keys] using hsent
    | same hb hr =>
      rw [hb, hr]
      simpa [keys] using hsent
  | loadCr3 =>
    obtain rfl := Except.ok.inj h
    exact ⟨I.loadCr3 ha, by simpa [keys] using hsent⟩

theorem tick_gdtMapped (w : Irqs) : (Idt.tick w).gdtMapped = w.gdtMapped := by
  have hop : ∀ op : PortOp, (op.run w).gdtMapped = w.gdtMapped := fun op => by
    unfold PortOp.run
    split_ifs <;> rfl
  unfold Idt.tick
  split <;> first | rfl | exact hop _ | skip
  split <;> rfl

/-- Nothing maps the GDT again. -/
theorem gdtMapped_of_step (hg : w'.gdtMapped = true) (h : e.run w = .ok w') : w.gdtMapped = true := by
  cases e <;> obtain rfl := Except.ok.inj h <;> first | exact hg | exact (tick_gdtMapped w).symm.trans hg | cases hg

/-- Only the load of CR3 unmaps it. -/
theorem gdtMapped_of_run {evs : List Event} (hevs : .loadCr3 ∉ evs) (hrun : Run Event.Allowed Event.run w evs w') :
    w'.gdtMapped = w.gdtMapped := by
  induction hrun with
  | nil => rfl
  | @snoc _ _ as a _ _ hst ih =>
    rw [List.mem_append, List.mem_singleton, not_or] at hevs
    rw [← ih hevs.1]
    cases a <;> obtain rfl := Except.ok.inj hst <;>
      first | rfl | exact tick_gdtMapped _ | exact absurd rfl hevs.2

theorem atIcw1_inv (p : Pic.Pair) (hidle : ∀ j, p.master.isr j = false) : Inv (atIcw1 p none) := by
  refine .setup rfl rfl List.suffix_rfl (remapped_finish p) rfl fun j => hidle j

theorem run_inv {evs : List Event} (hidle : ∀ j, p.master.isr j = false)
    (hrun : Run Event.Allowed Event.run (atIcw1 p none) evs w) :
    Inv w ∧ w.read ++ w.outputBuffer.toList.map some = (keys evs).map some := by
  induction hrun with
  | nil => exact ⟨atIcw1_inv p hidle, rfl⟩
  | snoc _ ha hst ih => exact ih.1.step ih.2 ha hst

end

instance (w : Irqs) : ∀ e : Event, Decidable (e.Allowed w)
  | .key _ => inferInstanceAs (Decidable (w.outputBuffer = none))
  | .raise slave i => inferInstanceAs (Decidable (slave = true ∨ i ≠ 1))
  | .lower slave i => inferInstanceAs (Decidable (slave = true ∨ i ≠ 1))
  | .tick => .isTrue trivial
  | .loadCr3 => inferInstanceAs (Decidable (w.cpu = .kernel))

/-- Controllers that nobody has used. -/
def unused : Pic.Pair :=
  let chip : Pic.Chip := ⟨⟨fun _ => false, 0, .ready, false, false, false⟩, fun _ => false, fun _ => false⟩
  ⟨chip, chip⟩

/-- CORRECT: if no interrupt is being served and the keyboard's buffer is empty when `pic_remap` begins, then
    in any order of keys, of other lines going up and down, of the processor's steps and of the load of
    CR3: the controllers are configured before IF is set, no vector without a handler is ever taken, nothing
    is left in service, and of the bytes sent, in their order, each has been read once, or it is the last and
    in the buffer. While the GDT is mapped, no interrupt resets the processor. -/
theorem scancodes_read_once {pic : Pic.Pair} {evs : List Event} {w : Irqs} (hidle : ∀ j, pic.master.isr j = false)
    (hrun : Run Event.Allowed Event.run (atIcw1 pic none) evs w) :
    ((∀ rest, w.cpu ≠ .idtInit rest) → Remapped w.pic) ∧ w.cpu ≠ .halted ∧
      (w.gdtMapped = true → w.cpu ≠ .reset) ∧ (w.cpu = .kernel → ∀ j, w.pic.master.isr j = false) ∧
      w.read ++ w.outputBuffer.toList.map some = (keys evs).map some := by
  obtain ⟨I, hsent⟩ := run_inv hidle hrun
  cases I with
  | setup hcpu _ _ _ _ hi => exact ⟨fun h => absurd hcpu (h _), by simp [hcpu], by simp [hcpu], fun _ => hi, hsent⟩
  | kernel hcpu R _ hi => exact ⟨fun _ => R, by simp [hcpu], by simp [hcpu], fun _ => hi, hsent⟩
  | entered hcpu _ R _ _ _ => exact ⟨fun _ => R, by simp [hcpu], by simp [hcpu], by simp [hcpu], hsent⟩
  | served hcpu _ R _ _ => exact ⟨fun _ => R, by simp [hcpu], by simp [hcpu], by simp [hcpu], hsent⟩
  | returning hcpu _ R _ hi => exact ⟨fun _ => R, by simp [hcpu], by simp [hcpu], by simp [hcpu], hsent⟩
  | reset hcpu hg R => exact ⟨fun _ => R, by simp [hcpu], by simp [hg], by simp [hcpu], hsent⟩

/-- A key is struck before IF is set and let go in `irq_handler`, while the timer's line comes and goes. -/
theorem scancodes_read_once_one_key : ∃ w, Run Event.Allowed Event.run (atIcw1 unused none)
    ([.key 0x1E, .raise false 0] ++ List.replicate 12 .tick ++ [.lower false 0, .key 0x9E] ++
      List.replicate 5 .tick) w ∧
      w.gdtMapped = true ∧ w.cpu ≠ .reset ∧
      w.read ++ w.outputBuffer.toList.map some = [some 0x1E, some 0x9E] := by
  obtain ⟨w, hw⟩ := Option.isSome_iff_exists.mp (by decide : (Run.perform Event.Allowed Event.run (atIcw1 unused none)
    ([.key 0x1E, .raise false 0] ++ List.replicate 12 .tick ++ [.lower false 0, .key 0x9E] ++
      List.replicate 5 .tick)).isSome = true)
  have hrun := Run.of_perform hw
  have h := scancodes_read_once (fun _ => rfl) hrun
  have hmapped : w.gdtMapped = true := gdtMapped_of_run (by decide) hrun
  exact ⟨w, hrun, hmapped, h.2.2.1 hmapped, h.2.2.2.2⟩

/-! ### How soon -/

/-- The processor's steps until the byte in the buffer is read, while the GDT is mapped. -/
def due : Activity → ℕ
  | .idtInit rest => rest.length + 3
  | .kernel => 2
  | .handler rest => if .inb 0x60 ∈ rest then 1 else rest.length + 3
  | .halted => 0
  | .reset => 0

section
variable {w w' : Irqs} {e : Event}

theorem Inv.due_le (I : Inv w) (hg : w.gdtMapped = true) : 0 < due w.cpu ∧ due w.cpu ≤ 12 := by
  cases I with
  | setup hcpu _ hrest _ _ _ =>
    have hlen := hrest.length_le
    simp only [picRemap, List.tail_cons, List.length_cons, List.length_nil] at hlen
    rw [hcpu, due]
    omega
  | kernel hcpu _ _ _ =>
    rw [hcpu]
    decide
  | entered hcpu _ _ _ _ _ =>
    rw [hcpu]
    decide
  | served hcpu _ _ _ _ =>
    rw [hcpu]
    decide
  | returning hcpu _ _ _ _ =>
    rw [hcpu]
    decide
  | reset _ hno _ =>
    rw [hg] at hno
    cases hno

/-- With a byte in the buffer each step of the processor reads it, or brings that nearer. -/
theorem Inv.due_tick (I : Inv w) (hg : w.gdtMapped = true) (hb : w.outputBuffer.isSome = true) :
    (Idt.tick w).outputBuffer = none ∨ due (Idt.tick w).cpu < due w.cpu := by
  cases I with
  | @setup rest hcpu _ hrest _ _ _ =>
    refine .inr ?_
    cases rest with
    | nil =>
      simp only [Idt.tick, hcpu]
      decide
    | cons op rest =>
      simp only [Idt.tick, hcpu, due, List.length_cons]
      omega
  | kernel hcpu R hw hi =>
    refine .inr ?_
    simp only [Idt.tick, hcpu, ack_keyboard R hw hi hb, hg, if_true]
    decide
  | entered hcpu _ _ _ _ _ =>
    have hops : irqHandler 33 = [.inb 0x60, .outb 0x20 0x20] := rfl
    rw [hops] at hcpu
    refine .inl ?_
    simp only [Idt.tick, hcpu, PortOp.run, if_pos]
  | served hcpu _ _ _ _ =>
    refine .inr ?_
    simp only [Idt.tick, hcpu]
    decide
  | returning hcpu _ _ _ _ =>
    refine .inr ?_
    simp only [Idt.tick, hcpu, hg, if_true]
    decide
  | reset _ hno _ =>
    rw [hg] at hno
    cases hno

/-- `n` bytes are read, or all but the last of them, which is in the buffer and has come nearer by `k` steps. -/
def Near (n k : ℕ) (w : Irqs) : Prop :=
  n ≤ w.read.length ∨ n = w.read.length + 1 ∧ w.outputBuffer.isSome = true ∧ due w.cpu + k ≤ 12

theorem Inv.near {bs : List UInt8} (I : Inv w) (hg : w.gdtMapped = true)
    (hsent : w.read ++ w.outputBuffer.toList.map some = bs.map some) : Near bs.length 0 w := by
  have hlen := congrArg List.length hsent
  rw [List.length_append, List.length_map, List.length_map] at hlen
  cases hb : w.outputBuffer with
  | none =>
    rw [hb] at hlen
    exact .inl hlen.ge
  | some b =>
    rw [hb] at hlen
    exact .inr ⟨hlen.symm, by rw [hb]; rfl, (I.due_le hg).2⟩

theorem Near.tick {n k : ℕ} (N : Near n k w) (I : Inv w) (hg : w.gdtMapped = true) : Near n (k + 1) (Idt.tick w) := by
  cases I.tick.2 with
  | read _ _ hr =>
    unfold Near
    rw [hr, List.length_append]
    refine .inl ?_
    rcases N with h | ⟨h, _, _⟩
    · exact h.trans (Nat.le_add_right _ _)
    · exact h.le
  | same hb hr =>
    unfold Near
    rw [hr, hb]
    refine N.imp_right fun ⟨h, hs, hd⟩ => ⟨h, hs, ?_⟩
    rcases I.due_tick hg hs with hnone | hlt
    · rw [← hb, hnone] at hs
      cases hs
    · omega

/-- No key is struck while a byte is in the buffer. -/
theorem Near.step {n k : ℕ} (N : Near n k w) (I : Inv w) (hg : w.gdtMapped = true) (ha : e.Allowed w)
    (hst : e.run w = .ok w') : Near n (k + [e].count .tick) w' := by
  cases e with
  | key b =>
    obtain rfl := Except.ok.inj hst
    have hempty : w.outputBuffer = none := ha
    rcases N with h | ⟨_, hb, _⟩
    · exact .inl h
    · rw [hempty] at hb
      cases hb
  | raise slave i =>
    obtain rfl := Except.ok.inj hst
    exact N
  | lower slave i =>
    obtain rfl := Except.ok.inj hst
    exact N
  | tick =>
    obtain rfl := Except.ok.inj hst
    exact N.tick I hg
  | loadCr3 =>
    obtain rfl := Except.ok.inj hst
    exact N

end

/-- CORRECT: and it reads them soon: once the processor has taken 12 steps, with the GDT still mapped, all bytes
    sent before are read, whatever keys and lines do meanwhile. -/
theorem scancodes_read_soon {pic : Pic.Pair} {evs evs' : List Event} {w w' : Irqs}
    (hidle : ∀ j, pic.master.isr j = false) (hrun : Run Event.Allowed Event.run (atIcw1 pic none) evs w)
    (hrun' : Run Event.Allowed Event.run w evs' w') (hticks : 12 ≤ evs'.count .tick) (hmapped : w'.gdtMapped = true) :
    (keys evs).map some <+: w'.read := by
  obtain ⟨I, hsent⟩ := run_inv hidle hrun
  obtain ⟨I', hsent'⟩ := run_inv hidle (hrun.append hrun')
  -- the bytes sent before are read, or the last of them is in the buffer and comes nearer
  have hnear : Near (keys evs).length (evs'.count .tick) w' := by
    clear hticks I' hsent'
    induction hrun' with
    | nil => exact I.near hmapped hsent
    | snoc hpre ha hst ih =>
      have hg := gdtMapped_of_step hmapped hst
      rw [List.count_append]
      exact (ih hg).step (run_inv hidle (hrun.append hpre)).1 hg ha hst
  have hread : (keys evs).length ≤ w'.read.length := by
    rcases hnear with h | ⟨_, _, h⟩
    · exact h
    · have := (I'.due_le hmapped).1
      omega
  have hkeys : keys (evs ++ evs') = keys evs ++ keys evs' := List.filterMap_append
  rw [hkeys, List.map_append] at hsent'
  refine List.prefix_of_prefix_length_le (List.prefix_append _ ((keys evs').map some)) ?_ (by simpa using hread)
  rw [← hsent']
  exact List.prefix_append _ _

/-- The key is struck right after ICW1, where it takes all 12 steps. -/
theorem scancodes_read_soon_one_key : ∃ w w', Run Event.Allowed Event.run (atIcw1 unused none) [.key 0x1E] w ∧
    Run Event.Allowed Event.run w (List.replicate 12 .tick) w' ∧ [some 0x1E] <+: w'.read := by
  have hrun : Run Event.Allowed Event.run (atIcw1 unused none) [.key 0x1E]
      ⟨{ (atIcw1 unused none).pic with master := (atIcw1 unused none).pic.master.raise 1 }, some 0x1E,
        .idtInit picRemap.tail, [], true⟩ := .cons rfl rfl (.nil _)
  obtain ⟨w', hw'⟩ := Option.isSome_iff_exists.mp (by decide : (Run.perform Event.Allowed Event.run
    ⟨{ (atIcw1 unused none).pic with master := (atIcw1 unused none).pic.master.raise 1 }, some 0x1E,
      .idtInit picRemap.tail, [], true⟩ (List.replicate 12 .tick)).isSome = true)
  have hrun' := Run.of_perform hw'
  exact ⟨_, w', hrun, hrun', scancodes_read_soon (fun _ => rfl) hrun hrun' (by decide)
    (gdtMapped_of_run (by decide) hrun')⟩

/-! ### After the load of CR3 -/

section
variable {w w' : Irqs} {e : Event}

/-- With the GDT unmapped a step of the processor reads nothing, and one with a byte in the buffer is its
    last. -/
theorem Inv.unmapped_tick (I : Inv w) (hg : w.gdtMapped = false) : (Idt.tick w).read = w.read ∧
    (Idt.tick w).outputBuffer = w.outputBuffer ∧ (w.outputBuffer.isSome = true → (Idt.tick w).cpu = .reset) := by
  cases I with
  | kernel hcpu R hw hi =>
    cases hb : w.outputBuffer with
    | none =>
      simp only [Idt.tick, hcpu]
      split <;> exact ⟨rfl, hb, by simp⟩
    | some b =>
      simp only [Idt.tick, hcpu, ack_keyboard R hw hi (by rw [hb]; rfl), hg]
      exact ⟨trivial, hb, fun _ => rfl⟩
  | reset hcpu _ _ =>
    simp only [Idt.tick, hcpu]
    exact ⟨trivial, trivial, fun _ => trivial⟩
  | setup _ hmapped _ _ _ _ => exact absurd (hmapped.symm.trans hg) (by simp)
  | entered _ hmapped _ _ _ _ => exact absurd (hmapped.symm.trans hg) (by simp)
  | served _ hmapped _ _ _ => exact absurd (hmapped.symm.trans hg) (by simp)
  | returning _ hmapped _ _ _ => exact absurd (hmapped.symm.trans hg) (by simp)

/-- Nothing has been read since `r`, and if a byte was in the buffer it still is, and a step has been the
    last. -/
structure Lost (r : List (Option UInt8)) (waiting : Bool) (n : ℕ) (w : Irqs) : Prop where
  unmapped : w.gdtMapped = false
  read : w.read = r
  last : waiting = true → w.outputBuffer.isSome = true ∧ (0 < n → w.cpu = .reset)

theorem Lost.step {r : List (Option UInt8)} {waiting : Bool} {n : ℕ} (L : Lost r waiting n w) (I : Inv w)
    (ha : e.Allowed w) (h : e.run w = .ok w') : Lost r waiting (n + [e].count .tick) w' := by
  cases e with
  | key b =>
    obtain rfl := Except.ok.inj h
    exact ⟨L.unmapped, L.read, fun hw => ⟨rfl, (L.last hw).2⟩⟩
  | raise slave i =>
    obtain rfl := Except.ok.inj h
    exact ⟨L.unmapped, L.read, L.last⟩
  | lower slave i =>
    obtain rfl := Except.ok.inj h
    exact ⟨L.unmapped, L.read, L.last⟩
  | tick =>
    obtain rfl := Except.ok.inj h
    obtain ⟨hread, hbuffer, hcpu⟩ := I.unmapped_tick L.unmapped
    refine ⟨(tick_gdtMapped w).trans L.unmapped, hread.trans L.read, fun hw => ?_⟩
    rw [hbuffer]
    exact ⟨(L.last hw).1, fun _ => hcpu (L.last hw).1⟩
  | loadCr3 =>
    obtain rfl := Except.ok.inj h
    exact ⟨rfl, L.read, L.last⟩

end

/-- BUG: once CR3 is loaded no scancode is read any more, and a byte that is in the buffer then, or later,
    resets the processor at its next step. -/
theorem scancodes_lost {pic : Pic.Pair} {evs evs' : List Event} {w w' : Irqs}
    (hidle : ∀ j, pic.master.isr j = false) (hrun : Run Event.Allowed Event.run (atIcw1 pic none) evs w)
    (hload : w.gdtMapped = false) (hrun' : Run Event.Allowed Event.run w evs' w') : w'.read = w.read ∧
      (w.outputBuffer.isSome = true → 0 < evs'.count .tick → w'.cpu = .reset) := by
  have hlost : Lost w.read w.outputBuffer.isSome (evs'.count .tick) w' := by
    induction hrun' with
    | nil => exact ⟨hload, rfl, fun hw => ⟨hw, by simp⟩⟩
    | snoc hpre ha hst ih =>
      rw [List.count_append]
      exact ih.step (run_inv hidle (hrun.append hpre)).1 ha hst
  exact ⟨hlost.read, fun hw => (hlost.last hw).2⟩

/-! ### A byte that comes too early -/

/-- A byte is in the buffer, and its edge is gone. -/
structure Stuck (b : UInt8) (w : Irqs) : Prop where
  buffer : w.outputBuffer = some b
  read : w.read = []
  irr : w.pic.master.irr 1 = false
  cpu : (∃ rest, w.cpu = .idtInit rest ∧ rest <:+ picRemap.tail ∧ Remapped (finish rest w.pic)) ∨
    (w.cpu = .kernel ∧ Remapped w.pic)

section
variable {b : UInt8} {w w' : Irqs} {e : Event}

theorem Stuck.lines (S : Stuck b w) {pic : Pic.Pair} (hconf : SameConf w.pic pic)
    (hirr : pic.master.irr 1 = w.pic.master.irr 1) : Stuck b { w with pic := pic } := by
  refine ⟨S.buffer, S.read, hirr.trans S.irr, ?_⟩
  rcases S.cpu with ⟨rest, hcpu, hrest, R⟩ | ⟨hcpu, R⟩
  · exact .inl ⟨rest, hcpu, hrest, R.same hconf.finished⟩
  · exact .inr ⟨hcpu, R.same hconf⟩

theorem Stuck.tick (S : Stuck b w) : Stuck b (Idt.tick w) := by
  rcases S.cpu with ⟨rest, hcpu, hrest, R⟩ | ⟨hcpu, R⟩
  · cases rest with
    | nil =>
      simp only [Idt.tick, hcpu]
      exact ⟨S.buffer, S.read, S.irr, .inr ⟨rfl, R⟩⟩
    | cons op rest =>
      have hmem : op ∈ picRemap.tail := hrest.subset List.mem_cons_self
      simp only [Idt.tick, hcpu, PortOp.run, if_neg (not_inb hmem)]
      refine ⟨S.buffer, S.read, ?_, .inl ⟨rest, rfl, (List.suffix_cons op rest).trans hrest, R⟩⟩
      exact (congrFun (pics_master hmem).1 1).trans S.irr
  · have hnone : w.pic.ack = none := by
      refine Pic.Pair.ack_none (Pic.Chip.next_none fun j _ => R.slaveMask j) fun j hj => ?_
      have hne : j ≠ 1 := by
        rintro rfl
        rw [S.irr] at hj
        cases hj
      simp [R.masterMask, hne]
    simp only [Idt.tick, hcpu, hnone]
    exact ⟨S.buffer, S.read, S.irr, .inr ⟨hcpu, R⟩⟩

theorem Stuck.step (S : Stuck b w) (ha : e.Allowed w) (h : e.run w = .ok w') : Stuck b w' ∧ keys [e] = [] := by
  cases e with
  | key b' =>
    have hnone : w.outputBuffer = none := ha
    rw [S.buffer] at hnone
    cases hnone
  | raise slave i =>
    obtain rfl := Except.ok.inj h
    exact ⟨S.lines (onChip_same _ _ fun _ => rfl) (raise_keyboard ha), rfl⟩
  | lower slave i =>
    obtain rfl := Except.ok.inj h
    exact ⟨S.lines (onChip_same _ _ fun _ => rfl) (lower_keyboard ha), rfl⟩
  | tick =>
    obtain rfl := Except.ok.inj h
    exact ⟨S.tick, rfl⟩
  | loadCr3 =>
    obtain rfl := Except.ok.inj h
    exact ⟨⟨S.buffer, S.read, S.irr, S.cpu⟩, rfl⟩

end

/-- BUG: `pic_remap` begins with ICW1, which forgets the edges that came before. If a byte is in the
    keyboard's buffer by then, its line is up and stays up, so that no edge comes any more: the byte is never
    read, and the keyboard never sends another. -/
theorem irq_edge_lost {pic : Pic.Pair} {b : UInt8} {evs : List Event} {w : Irqs}
    (hrun : Run Event.Allowed Event.run (atIcw1 pic (some b)) evs w) :
    w.read = [] ∧ w.outputBuffer = some b ∧ keys evs = [] := by
  have hstuck : Stuck b w ∧ keys evs = [] := by
    induction hrun with
    | nil =>
      have hrest : picRemap.tail <:+ picRemap.tail := List.suffix_rfl
      exact ⟨⟨rfl, rfl, rfl, .inl ⟨_, rfl, hrest, remapped_finish pic⟩⟩, rfl⟩
    | @snoc _ _ as a _ ha hst ih =>
      obtain ⟨S, hkeys⟩ := ih.1.step ha hst
      refine ⟨S, ?_⟩
      have happ : keys (as ++ [a]) = keys as ++ keys [a] := List.filterMap_append
      rw [happ, ih.2, hkeys, List.nil_append]
  exact ⟨hstuck.1.read, hstuck.1.buffer, hstuck.2⟩

/-- A key struck while the kernel is loaded: long after `pic_remap` nobody has read it. -/
theorem irq_edge_lost_one_key : ∃ w, Run Event.Allowed Event.run (atIcw1 unused (some 0x1E))
    (List.replicate 30 .tick) w ∧ w.read = [] ∧ w.outputBuffer = some 0x1E := by
  obtain ⟨w, hw⟩ := Option.isSome_iff_exists.mp (by decide : (Run.perform Event.Allowed Event.run
    (atIcw1 unused (some 0x1E)) (List.replicate 30 .tick)).isSome = true)
  have hrun := Run.of_perform hw
  have h := irq_edge_lost hrun
  exact ⟨w, hrun, h.1, h.2.1⟩

end TerraOS.Idt
