import TerraOS.Idt.Stubs
import TerraOS.Vmm.Leftover

/-! When an interrupt gets to its stub at all.

    Every gate names selector 0x18 of the bootloader's GDT, in page 7. The bootloader's tables map that page
    (`deliverable_bootloader`). Those of `paging_init` do not, and nothing loads another GDT: from the load of
    CR3 on, no exception and no interrupt is delivered (`accept_kernel`). -/

namespace TerraOS.Idt
open Lib Lib.Word Pmm Vmm

/-- The addresses that the tables under the PML4 in page `root` map. -/
def mappedBy (m : Mem) (root : ℕ) (va : ℕ) : Bool := (lookup m root va).isSome

section
variable {addr : Label → ℕ} {idt : ℕ → IdtEntry} {gdt : ℕ} {stub : Stub}

/-- Every gate names the one selector. -/
theorem idtInit_selector (hstub : stub ∈ stubs) : (idtInit addr idt stub.vector).selector = 0x18 := by
  have hgate : ∀ m ∈ stubs, (m.vector, m.label) ∈ gates := by decide
  have hnodup : (gates.map Prod.fst).Nodup := by decide
  obtain ⟨idt', h⟩ := @foldl_gates_mem addr idt _ _ gates hnodup (hgate stub hstub)
  rw [idtInit, h, idtSetGate, Function.update_self]

theorem mappedBy_bootloader (m : Mem) {va : ℕ} (h : va / 4096 = 7) : mappedBy (initPt m) 1 va = true := by
  have B := initPt_tables m
  have hi : (index 12 va : ℕ) = 7 := by rw [index_val]; omega
  have hl : Link (ents (initPt m) 8 (index 12 va)) 7 := by
    rw [B.pt2, if_neg (by omega), if_pos hi]
    exact link_three (g := 7) (by decide)
  rw [mappedBy, B.lookup_2mib (by omega), descend_leaf hl]
  rfl

/-- CORRECT: under the bootloader's tables every exception and interrupt is delivered. -/
theorem deliverable_bootloader (m : Mem) (hstub : stub ∈ stubs) (h1 : 0x7000 ≤ gdt) (h2 : gdt + 0x20 ≤ 0x8000) :
    Deliverable (mappedBy (initPt m) 1) gdt (idtInit addr idt stub.vector) := by
  intro i hi
  rw [idtInit_selector hstub]
  exact mappedBy_bootloader m (by omega)

/-- BUG: under the tables of `paging_init` none is, with the GDT where the bootloader has it: whichever comes
    first resets the processor. -/
theorem accept_kernel {m bm : Mem} {mmap : List MmapEntry} {s : Machine} (hboot : boot m bm mmap = some s)
    (hstub : stub ∈ stubs) (hgdt : gdt + 0x20 ≤ KERNEL_BASE) (ist : ℕ → ℕ) (errorCode : Option ℕ) (c : Cpu) :
    accept (mappedBy s.phys s.root) gdt (idtInit addr idt stub.vector) ist errorCode c = none := by
  obtain ⟨n, _, hroot, _, _, h511, T, _⟩ := boot_spec hboot
  refine if_neg fun h => ?_
  have hfirst := h 0 (by decide)
  rw [idtInit_selector hstub, mappedBy, hroot, T.lookup_none (by omega) (by omega)] at hfirst
  cases hfirst

end

end TerraOS.Idt
