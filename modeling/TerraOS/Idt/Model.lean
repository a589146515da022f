import TerraOS.Lib.Stack

/-! idt.c and isr_stubs.asm: how an interrupt gets to its C handler and back.

    Kernel code is interrupted between two instructions. The processor goes through the gate of the vector:
    it aligns `rsp`, pushes a frame of five words, and on some vectors an error code, and enters the stub
    of the gate. A stub pushes its vector, over a dummy error code where there is none, and falls into
    one of two common parts, which save the registers, call the C handler, restore them, drop the two
    words and end in `iretq`.

      call ->  r15 .. rax | vector | error code | RIP | CS | RFLAGS | RSP | SS    <- aligned rsp

    The C handlers are compiled code: procedures that follow the calling convention, and may not return.
    What the flags are while one of them runs is left out; nothing here reads them.

    At a delivery the processor reads the gate's descriptor in the GDT, through the page tables that are in
    use then. `deliver` is a delivery that succeeds; `accept` says when one does. -/

namespace TerraOS.Idt
open Lib Lib.Word

/-! ### The gates -/

structure IdtEntry where
  offsetLow : ℕ
  selector : ℕ
  ist : ℕ
  typeAttr : ℕ
  offsetMid : ℕ
  offsetHigh : ℕ
  zero : ℕ
  deriving DecidableEq, Repr

/-- The labels of isr_stubs.asm. -/
inductive Label where
  | isr (n : ℕ)
  | irq (n : ℕ)
  deriving DecidableEq, Repr

def idtSetGate (idt : ℕ → IdtEntry) (n handler : ℕ) : ℕ → IdtEntry := Function.update idt n
  { offsetLow := handler &&& 0xFFFF
    selector := 0x18
    ist := 0
    typeAttr := 0x8E
    offsetMid := (handler >>> 16) &&& 0xFFFF
    offsetHigh := (handler >>> 32) &&& 0xFFFFFFFF
    zero := 0 }

/-- The calls of `idt_set_gate` that `idt_init` makes, in their order. -/
def gates : List (ℕ × Label) :=
  (List.range 32).map (fun n => (n, .isr n)) ++ [(32, .irq 0), (33, .irq 1)]

def idtInit (addr : Label → ℕ) (idt : ℕ → IdtEntry) : ℕ → IdtEntry :=
  gates.foldl (fun idt g => idtSetGate idt g.1 (addr g.2)) idt

/-! ### The processor -/

/-- Where a gate leads. -/
def IdtEntry.target (g : IdtEntry) : ℕ := g.offsetLow + 2 ^ 16 * g.offsetMid + 2 ^ 32 * g.offsetHigh

/-- The vectors with an error code. -/
def pushesError (v : ℕ) : Bool := v = 8 ∨ 10 ≤ v ∧ v ≤ 14 ∨ v = 17 ∨ v = 21

def alignDown (n : ℕ) : ℕ := n - n % 16

/-- The frame of an interrupt, pushed from `top` down. -/
def pushFrame (top : ℕ) (s : Cpu) : Cpu :=
  let t := { s with rsp := alignDown top }
  ((((t.push s.ss).push s.rsp).push s.rflags).push s.cs).push s.rip

def pushCode (errorCode : Option ℕ) (s : Cpu) : Cpu :=
  match errorCode with
  | some e => s.push e
  | none => s

/-- The eight bytes of the gate's descriptor in the GDT at `gdt` are mapped. -/
def Deliverable (mapped : ℕ → Bool) (gdt : ℕ) (g : IdtEntry) : Prop := ∀ i < 8, mapped (gdt + g.selector + i) = true

instance (mapped : ℕ → Bool) (gdt : ℕ) (g : IdtEntry) : Decidable (Deliverable mapped gdt g) :=
  inferInstanceAs (Decidable (∀ i < 8, _))

/-- An interrupt in kernel mode, where it is deliverable: the stack is the current one, unless the gate has
    one of its own. -/
def deliver (g : IdtEntry) (ist : ℕ → ℕ) (errorCode : Option ℕ) (s : Cpu) : Cpu :=
  let t := pushCode errorCode (pushFrame (if g.ist = 0 then s.rsp else ist g.ist) s)
  { t with rip := g.target, cs := g.selector }

/-- An interrupt comes. Where the descriptor is not mapped, reading it is a page fault, and so is each fault
    after that, as all gates name one selector: the processor resets. -/
def accept (mapped : ℕ → Bool) (gdt : ℕ) (g : IdtEntry) (ist : ℕ → ℕ) (errorCode : Option ℕ) (s : Cpu) : Option Cpu :=
  if Deliverable mapped gdt g then some (deliver g ist errorCode s) else none

def iretq (s : Cpu) : Cpu :=
  { s with rip := s.word 0, cs := s.word 1, rflags := s.word 2, rsp := s.word 3, ss := s.word 4 }

/-! ### The stubs -/

/-- The three macros of isr_stubs.asm. -/
inductive Stub where
  | isrNoerr (n : ℕ)
  | isrErr (n : ℕ)
  | irq (n v : ℕ)
  deriving DecidableEq, Repr

/-- The uses of the macros, in their order. -/
def stubs : List Stub := [
  .isrNoerr 0, .isrNoerr 1, .isrNoerr 2, .isrNoerr 3, .isrNoerr 4, .isrNoerr 5, .isrNoerr 6, .isrNoerr 7,
  .isrErr 8, .isrNoerr 9, .isrErr 10, .isrErr 11, .isrErr 12, .isrErr 13, .isrErr 14, .isrNoerr 15,
  .isrNoerr 16, .isrErr 17, .isrNoerr 18, .isrNoerr 19, .isrNoerr 20, .isrErr 21, .isrNoerr 22, .isrNoerr 23,
  .isrNoerr 24, .isrNoerr 25, .isrNoerr 26, .isrNoerr 27, .isrNoerr 28, .isrNoerr 29, .isrNoerr 30, .isrNoerr 31,
  .irq 0 32, .irq 1 33]

namespace Stub

def label : Stub → Label
  | isrNoerr n => .isr n
  | isrErr n => .isr n
  | irq n _ => .irq n

/-- The vector of the gate that the stub is for. -/
def vector : Stub → ℕ
  | isrNoerr n => n
  | isrErr n => n
  | irq _ v => v

/-- The error code that is pushed on the stub's vector, when it is `e`. -/
def errorCode (m : Stub) (e : ℕ) : Option ℕ := if pushesError m.vector then some e else none

/-- A stub as far as its jump. -/
def entry : Stub → Cpu → Cpu
  | isrNoerr n, s => (s.push 0).push n
  | isrErr n, s => s.push n
  | irq _ v, s => (s.push 0).push v

end Stub

/-- The registers in the order in which they are pushed. -/
def saved : List Reg :=
  [.rax, .rbx, .rcx, .rdx, .rsi, .rdi, .rbp, .r8, .r9, .r10, .r11, .r12, .r13, .r14, .r15]

/-- The registers in the order in which they are popped. -/
def restored : List Reg :=
  [.r15, .r14, .r13, .r12, .r11, .r10, .r9, .r8, .rbp, .rdi, .rsi, .rdx, .rcx, .rbx, .rax]

/-- A common part up to its call: the registers are pushed, and the vector goes to `rdi`. -/
def saveRegs (s : Cpu) : Cpu :=
  let t := s.pushAll saved
  { t with gpr := Function.update t.gpr .rdi (t.mem.load64 (add64 t.rsp 120)) }

/-- And from there to `iretq`. -/
def restoreRegs (s : Cpu) : Cpu := (s.popAll restored).release 16

/-- The two common parts, one for each handler. -/
def common (handler : Cpu → Option Cpu) (ret : ℕ) (s : Cpu) : Option Cpu :=
  (call handler ret (saveRegs s)).map restoreRegs

/-- The C handlers. -/
structure Handlers where
  isrHandler : Cpu → Option Cpu
  irqHandler : Cpu → Option Cpu

/-- Both follow the calling convention, with a caller whose frame takes `n` bytes. -/
structure Handlers.SysV (n : ℕ) (h : Handlers) : Prop where
  isr : Lib.SysV n h.isrHandler
  irq : Lib.SysV n h.irqHandler

def isrCommon (h : Handlers) : ℕ → Cpu → Option Cpu := common h.isrHandler
def irqCommon (h : Handlers) : ℕ → Cpu → Option Cpu := common h.irqHandler

/-- A stub up to its `iretq`; `ret` is what its call pushes. -/
def Stub.run (h : Handlers) (ret : ℕ) : Stub → Cpu → Option Cpu
  | isrNoerr n, s => isrCommon h ret ((isrNoerr n).entry s)
  | isrErr n, s => isrCommon h ret ((isrErr n).entry s)
  | irq n v, s => irqCommon h ret ((irq n v).entry s)

/-- An interrupt on a stub's vector, from the instruction before which it comes and back to it. -/
def interrupt (idt : ℕ → IdtEntry) (ist : ℕ → ℕ) (h : Handlers) (ret e : ℕ) (m : Stub) (s : Cpu) : Option Cpu :=
  (m.run h ret (deliver (idt m.vector) ist (m.errorCode e) s)).map iretq

end TerraOS.Idt
