import TerraOS.Vmm.Task

/-! elf_parser.c: the loader.

    `load_elf` checks four things about the file header, maps and fills the pages of each `PT_LOAD`
    header, gives the program a page of stack and leaves for user mode. It runs in the task's address
    space: the file is read, and the segments written, through the page tables that it edits.

    A page range is worked out from the sum of two fields of the file, in 64 bits. It ends with the page
    that the first address after the segment lies in. -/

namespace TerraOS.Elf
open Lib Lib.Word Pmm Vmm

/-! ### elf.h -/

abbrev EI_CLASS : ℕ := 4
abbrev EI_DATA : ℕ := 5
abbrev ELFCLASS64 : ℕ := 2
abbrev ELFDATA2LSB : ℕ := 1
abbrev EM_X86_64 : ℕ := 62
abbrev PT_LOAD : ℕ := 1
abbrev PF_W : ℕ := 2

/-- A field of `n` bytes. -/
def field (s : Machine) (va : ℕ) : ℕ → Except Stop ℕ
  | 0 => .ok 0
  | n + 1 => do
    let b ← s.load8 va
    let rest ← field s (add64 va 1) n
    .ok (b.toNat + 256 * rest)

/-- `Elf64_Phdr`, less the two fields no code reads. -/
structure Phdr where
  pType : ℕ
  pFlags : ℕ
  pOffset : ℕ
  pVaddr : ℕ
  pFilesz : ℕ
  pMemsz : ℕ
  deriving DecidableEq, Repr

/-! ### elf_parser.c -/

def magic : List UInt8 := [0x7F, 0x45, 0x4C, 0x46]

/-- The loop over the first bytes of `e_ident`. -/
def magicMatches (s : Machine) (elfData : ℕ) : ℕ → List UInt8 → Except Stop Bool
  | _, [] => .ok true
  | i, c :: cs => do
    let b ← s.load8 (add64 elfData i)
    if b ≠ c then .ok false else magicMatches s elfData (i + 1) cs

/-- A frame, whatever `pmm_alloc` returns for one, mapped into the task. -/
def mapFrame (task : Task) (s : Machine) (virtualAddress flags : ℕ) : Except Stop Machine :=
  let physAddr := pmmAlloc s.pmm
  mapPage { s with pmm := physAddr.2 } task.pml4t virtualAddress physAddr.1 flags

/-- The page loop from page `j`, with `n` pages left. -/
def mapPages (task : Task) (start flags : ℕ) : ℕ → ℕ → Machine → Except Stop Machine
  | 0, _, s => .ok s
  | n + 1, j, s => do
    let s ← mapFrame task s (add64 start (mul64 0x1000 j)) flags
    mapPages task start flags n (j + 1) s

/-- `page_flags`. -/
def pageFlags (p : Phdr) : ℕ := if p.pFlags &&& PF_W ≠ 0 then 0x5 ||| 0x2 else 0x5

/-- The body of the segment loop for a `PT_LOAD` header. -/
def loadSegment (task : Task) (elfData : ℕ) (s : Machine) (p : Phdr) : Except Stop Machine := do
  let start := p.pVaddr &&& 0xFFFFFFFFFFFFF000
  let stop := add64 (add64 p.pVaddr p.pMemsz &&& 0xFFFFFFFFFFFFF000) PAGE_SIZE
  let pageCount := sub64 stop start / 4096
  let s ← mapPages task start (pageFlags p) pageCount 0 s
  memcpy pagedBus s p.pVaddr (add64 elfData p.pOffset) p.pFilesz

/-- One round of the segment loop, for the header at `ph`; only a `PT_LOAD` header is read further than
    its type. -/
def loadHeader (task : Task) (elfData ph : ℕ) (s : Machine) : Except Stop Machine := do
  let pType ← field s ph 4
  if pType = PT_LOAD then do
    let pFlags ← field s (add64 ph 4) 4
    let pOffset ← field s (add64 ph 8) 8
    let pVaddr ← field s (add64 ph 16) 8
    let pFilesz ← field s (add64 ph 32) 8
    let pMemsz ← field s (add64 ph 40) 8
    loadSegment task elfData s ⟨pType, pFlags, pOffset, pVaddr, pFilesz, pMemsz⟩
  else .ok s

/-- The segment loop from header `i`. `e_phnum` has 16 bits, so that `2 ^ 16` rounds are more than it
    takes. -/
def segmentLoop (task : Task) (elfData phdrs : ℕ) : ℕ → ℕ → Machine → Except Stop Machine
  | 0, _, s => .ok s
  | fuel + 1, i, s => do
    let ePhnum ← field s (add64 elfData 56) 2
    if i < ePhnum then do
      let s ← loadHeader task elfData (add64 phdrs (mul64 i 56)) s
      segmentLoop task elfData phdrs fuel (i + 1) s
    else .ok s

/-- What the asm statements that close `load_elf` are to load: `sysret` takes `rip` from `rcx` and `rflags`
    from `r11`. -/
structure UserStart where
  rsp : ℕ
  rbp : ℕ
  rcx : ℕ
  r11 : ℕ
  deriving DecidableEq, Repr

/-- `load_elf` returns an error code, or gets to the asm statements before its `sysret`. -/
inductive Outcome where
  | code (c : ℕ)
  | sysret (u : UserStart)
  deriving DecidableEq, Repr

abbrev userStack : ℕ := 0x700000000000

/-- `load_elf` after its checks. -/
def loadProgram (task : Task) (elfData : ℕ) (s : Machine) : Except Stop (Machine × Outcome) := do
  let ePhoff ← field s (add64 elfData 32) 8
  let s ← segmentLoop task elfData (add64 elfData ePhoff) (2 ^ 16) 0 s
  let entry ← field s (add64 elfData 24) 8
  let s ← mapFrame task s userStack 0x7
  .ok (s, .sysret ⟨userStack, userStack, entry, 0⟩)

/-- `load_elf`. -/
def loadElf (task : Task) (elfData : ℕ) (s : Machine) : Except Stop (Machine × Outcome) := do
  if !(← magicMatches s elfData 0 magic) then .ok (s, .code 0x10)
  else if (← field s (add64 elfData EI_CLASS) 1) ≠ ELFCLASS64 then .ok (s, .code 0x11)
  else if (← field s (add64 elfData EI_DATA) 1) ≠ ELFDATA2LSB then .ok (s, .code 0x12)
  else if (← field s (add64 elfData 18) 2) ≠ EM_X86_64 then .ok (s, .code 0x13)
  else loadProgram task elfData s

end TerraOS.Elf
