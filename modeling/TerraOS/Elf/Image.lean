import TerraOS.Elf.Model

/-! The file that `load_elf` reads.

    The file is part of the kernel, so that it lies in the window, in pages that hold no page table. As
    long as it stays there what `load_elf` reads are the fields of the file (`field_eq`), and its loop
    over the program headers is a fold over their list (`segmentLoop_eq`). -/

namespace TerraOS.Elf
open Lib Lib.Word Pmm Vmm

/-! ### The fields of a file -/

/-- The bytes of a file, zero past its end. -/
def bytes (img : List UInt8) : Mem := fun k => img.getD k 0

def ePhoff (img : List UInt8) : ℕ := (bytes img).loadLE 32 8
def ePhnum (img : List UInt8) : ℕ := (bytes img).loadLE 56 2
def eEntry (img : List UInt8) : ℕ := (bytes img).loadLE 24 8

/-- The program header at offset `a`. -/
def phdrAt (img : List UInt8) (a : ℕ) : Phdr where
  pType := (bytes img).loadLE a 4
  pFlags := (bytes img).loadLE (a + 4) 4
  pOffset := (bytes img).loadLE (a + 8) 8
  pVaddr := (bytes img).loadLE (a + 16) 8
  pFilesz := (bytes img).loadLE (a + 32) 8
  pMemsz := (bytes img).loadLE (a + 40) 8

/-- The program headers. -/
def phdrs (img : List UInt8) : List Phdr :=
  (List.range (ePhnum img)).map fun i => phdrAt img (ePhoff img + 56 * i)

/-- The `PT_LOAD` headers. -/
def loads (img : List UInt8) : List Phdr := (phdrs img).filter (·.pType = PT_LOAD)

/-- The file has its headers, and passes the checks of `load_elf`. -/
structure Accepted (img : List UInt8) : Prop where
  header : 64 ≤ img.length
  table : ePhoff img + 56 * ePhnum img ≤ img.length
  ident : ∀ i (h : i < magic.length), bytes img i = magic[i]
  eiClass : (bytes img).loadLE EI_CLASS 1 = ELFCLASS64
  eiData : (bytes img).loadLE EI_DATA 1 = ELFDATA2LSB
  eMachine : (bytes img).loadLE 18 2 = EM_X86_64

/-- `user_program_elf`, as far as it is read: the file header, one program header and the segment. -/
def userProgramElf : List UInt8 := [
  0x7F, 0x45, 0x4C, 0x46, 0x02, 0x01, 0x01, 0x00, 0x00, 0x00, 0x00, 0x00, 0x00, 0x00, 0x00, 0x00,
  0x02, 0x00, 0x3E, 0x00, 0x01, 0x00, 0x00, 0x00, 0x78, 0x00, 0x40, 0x00, 0x00, 0x00, 0x00, 0x00,
  0x40, 0x00, 0x00, 0x00, 0x00, 0x00, 0x00, 0x00, 0xE0, 0x01, 0x00, 0x00, 0x00, 0x00, 0x00, 0x00,
  0x00, 0x00, 0x00, 0x00, 0x40, 0x00, 0x38, 0x00, 0x01, 0x00, 0x40, 0x00, 0x07, 0x00, 0x06, 0x00,
  0x01, 0x00, 0x00, 0x00, 0x05, 0x00, 0x00, 0x00, 0x00, 0x00, 0x00, 0x00, 0x00, 0x00, 0x00, 0x00,
  0x00, 0x00, 0x40, 0x00, 0x00, 0x00, 0x00, 0x00, 0x00, 0x00, 0x40, 0x00, 0x00, 0x00, 0x00, 0x00,
  0xC0, 0x00, 0x00, 0x00, 0x00, 0x00, 0x00, 0x00, 0xC0, 0x00, 0x00, 0x00, 0x00, 0x00, 0x00, 0x00,
  0x00, 0x10, 0x00, 0x00, 0x00, 0x00, 0x00, 0x00, 0x55, 0x48, 0x89, 0xE5, 0x0F, 0x05, 0xB8, 0x00,
  0x00, 0x00, 0x00, 0x5D, 0xC3, 0x00, 0x00, 0x00, 0x14, 0x00, 0x00, 0x00, 0x00, 0x00, 0x00, 0x00,
  0x01, 0x7A, 0x52, 0x00, 0x01, 0x78, 0x10, 0x01, 0x1B, 0x0C, 0x07, 0x08, 0x90, 0x01, 0x00, 0x00,
  0x1C, 0x00, 0x00, 0x00, 0x1C, 0x00, 0x00, 0x00, 0xD0, 0xFF, 0xFF, 0xFF, 0x0D, 0x00, 0x00, 0x00,
  0x00, 0x41, 0x0E, 0x10, 0x86, 0x02, 0x43, 0x0D, 0x06, 0x48, 0x0C, 0x07, 0x08, 0x00, 0x00, 0x00]

theorem length_userProgramElf : userProgramElf.length = 0xC0 := by decide +kernel

theorem accepted_userProgramElf : Accepted userProgramElf :=
  ⟨by rw [length_userProgramElf]; decide, by rw [length_userProgramElf]; decide, by decide, by decide, by decide,
    by decide⟩

theorem loads_userProgramElf : loads userProgramElf = [⟨1, 5, 0, 0x400000, 0xC0, 0xC0⟩] := by decide

/-! ### Reading it -/

/-- The file is in memory at `elfData`, in the window, apart from page 0 and from the page tables. -/
structure Carries (s : Machine) (elfData : ℕ) (img : List UInt8) : Prop where
  above : KERNEL_BASE + 0x1000 ≤ elfData
  below : elfData + img.length ≤ TEMP_PAGE
  byte : ∀ k < img.length, s.phys (elfData - KERNEL_BASE + k) = bytes img k
  apart : ∀ k < img.length, ∀ p, p.length ≤ 3 → s.table p ≠ some ((elfData - KERNEL_BASE + k) / 4096)

section
variable {s : Machine} {task : Task} {elfData pdpt pd pt : ℕ} {img : List UInt8}

/-- Where a byte of the file is. -/
theorem Carries.translate (C : Carries s elfData img) (W : Window s pdpt pd pt) {k : ℕ} (hk : k < img.length) :
    s.translate (elfData + k) = some (elfData - KERNEL_BASE + k) := by
  have h1 := C.above
  have h2 := C.below
  simp only [KERNEL_BASE, TEMP_PAGE] at h1 h2 ⊢
  have h := W.translate (x := elfData - KERNEL_BASE + k) (by simp only [KERNEL_BASE]; omega)
  rwa [show KERNEL_BASE + (elfData - KERNEL_BASE + k) = elfData + k by simp only [KERNEL_BASE]; omega] at h

/-- Any file of at most 64 KiB can be there, in the machine with 64 MiB, when `load_elf` is called. -/
theorem started_carries {img : List UInt8} (h : img.length ≤ 0x10000) : ∃ s task pdpt pd pt,
    Started s task pdpt pd pt ∧ Carries s (KERNEL_BASE + 0x10000) img ∧ 15000 ≤ s.pmm.freeCount := by
  obtain ⟨_, _, s, task, pdpt, pd, pt, _, _, _, _, _, S, hfree, hlow⟩ :=
    started_smallMap (fun x => bytes img (x - 0x10000)) fun _ => 0
  have hpage : ∀ k < img.length, (KERNEL_BASE + 0x10000 - KERNEL_BASE + k) / 4096 < 32 := fun k hk => by
    simp only [KERNEL_BASE]
    omega
  refine ⟨s, task, pdpt, pd, pt, S, ⟨?_, ?_, fun k hk => ?_, fun k hk => (hlow _ (hpage k hk)).2⟩, hfree⟩
  · simp only [KERNEL_BASE]
    omega
  · simp only [KERNEL_BASE, TEMP_PAGE]
    omega
  · rw [(hlow _ (hpage k hk)).1, show KERNEL_BASE + 0x10000 - KERNEL_BASE + k - 0x10000 = k by
      simp only [KERNEL_BASE]; omega]

/-- `user_program_elf` is. -/
theorem started_userProgram : ∃ s task pdpt pd pt, Started s task pdpt pd pt ∧
    Carries s (KERNEL_BASE + 0x10000) userProgramElf ∧ 15000 ≤ s.pmm.freeCount :=
  started_carries (by rw [length_userProgramElf]; decide)

theorem Carries.load8 (C : Carries s elfData img) (W : Window s pdpt pd pt) {k : ℕ} (hk : k < img.length) :
    s.load8 (elfData + k) = .ok (bytes img k) := by
  rw [Machine.load8, C.translate W hk]
  exact congrArg Except.ok (C.byte k hk)

theorem Carries.end_lt (C : Carries s elfData img) : elfData + img.length < 2 ^ 64 := by
  have h := C.below
  simp only [TEMP_PAGE] at h
  omega

/-- What `load_elf` reads of the file. -/
theorem field_eq (C : Carries s elfData img) (W : Window s pdpt pd pt) : ∀ {n off : ℕ},
    off + n ≤ img.length → field s (add64 elfData off) n = .ok ((bytes img).loadLE off n)
  | 0, _, _ => rfl
  | n + 1, off, h => by
    have hlt := C.end_lt
    have hnext : add64 (elfData + off) 1 = add64 elfData (off + 1) := by unfold add64; omega
    rw [field, add64_of_lt (by omega), C.load8 W (by omega), ok_bind, hnext, field_eq C W (by omega), ok_bind,
      Mem.loadLE]

theorem magicMatches_eq (C : Carries s elfData img) (W : Window s pdpt pd pt) : ∀ {cs : List UInt8} {i : ℕ},
    i + cs.length ≤ img.length → (∀ j (h : j < cs.length), bytes img (i + j) = cs[j]) →
    magicMatches s elfData i cs = .ok true
  | [], _, _, _ => rfl
  | c :: cs, i, hlen, hb => by
    have hlt := C.end_lt
    rw [List.length_cons] at hlen
    have hc : bytes img i = c := hb 0 (by simp)
    rw [magicMatches, add64_of_lt (by omega), C.load8 W (by omega), ok_bind, if_neg (not_not.mpr hc)]
    refine magicMatches_eq C W (by omega) fun j hj => ?_
    have h := hb (j + 1) (by simp; omega)
    rwa [show i + (j + 1) = i + 1 + j by omega] at h

/-- A file that passes the checks is loaded. -/
theorem loadElf_accepted (A : Accepted img) (C : Carries s elfData img) (W : Window s pdpt pd pt) :
    loadElf task elfData s = loadProgram task elfData s := by
  have hlen := A.header
  have hm : magicMatches s elfData 0 magic = .ok true :=
    magicMatches_eq C W (by simp [magic]; omega) fun j hj => by rw [Nat.zero_add]; exact A.ident j hj
  unfold loadElf
  rw [hm, field_eq C W (by simp only [EI_CLASS]; omega), field_eq C W (by simp only [EI_DATA]; omega),
    field_eq C W (by omega), A.eiClass, A.eiData, A.eMachine]
  rfl

/-- Where its segment loop ends, the stack is still to be mapped. -/
theorem loadElf_of_loop {s' : Machine} (A : Accepted img) (C : Carries s elfData img) (W : Window s pdpt pd pt)
    (hloop : segmentLoop task elfData (add64 elfData (ePhoff img)) (2 ^ 16) 0 s = .ok s')
    (C' : Carries s' elfData img) (W' : Window s' pdpt pd pt) : loadElf task elfData s = (do
      let s ← mapFrame task s' userStack 0x7
      .ok (s, .sysret ⟨userStack, userStack, eEntry img, 0⟩)) := by
  have hhead := A.header
  rw [loadElf_accepted A C W]
  unfold loadProgram
  rw [field_eq C W (by omega), ok_bind, show (bytes img).loadLE 32 8 = ePhoff img from rfl, hloop, ok_bind,
    field_eq C' W' (by omega), ok_bind]
  rfl

/-! ### The loop over the program headers -/

/-- What the loop does with a header. -/
def segment (task : Task) (elfData : ℕ) (s : Machine) (p : Phdr) : Except Stop Machine :=
  if p.pType = PT_LOAD then loadSegment task elfData s p else .ok s

theorem loadHeader_eq (C : Carries s elfData img) (W : Window s pdpt pd pt) {a : ℕ} (ha : a + 56 ≤ img.length) :
    loadHeader task elfData (add64 elfData a) s = segment task elfData s (phdrAt img a) := by
  have hlt := C.end_lt
  have hoff : ∀ k ≤ 56, add64 (add64 elfData a) k = add64 elfData (a + k) := fun k hk => by unfold add64; omega
  unfold loadHeader segment
  rw [field_eq C W (by omega), ok_bind]
  refine if_congr Iff.rfl ?_ rfl
  rw [hoff 4 (by omega), hoff 8 (by omega), hoff 16 (by omega), hoff 32 (by omega), hoff 40 (by omega)]
  rw [field_eq C W (by omega), field_eq C W (by omega), field_eq C W (by omega), field_eq C W (by omega),
    field_eq C W (by omega)]
  rfl

end

/-- The loop is a fold over the headers, for any invariant under which the file stays where it is; `I i`
    holds when `i` headers are done. -/
theorem segmentLoop_eq {I : ℕ → Machine → Prop} {task : Task} {elfData pdpt pd pt : ℕ} {img : List UInt8}
    (A : Accepted img) (hI : ∀ i s, I i s → Carries s elfData img ∧ Window s pdpt pd pt)
    (hstep : ∀ i (hi : i < (phdrs img).length) s s', I i s → segment task elfData s (phdrs img)[i] = .ok s' →
      I (i + 1) s') :
    ∀ (fuel i : ℕ) (s : Machine), I i s → ePhnum img ≤ i + fuel →
      segmentLoop task elfData (add64 elfData (ePhoff img)) fuel i s
        = ((phdrs img).drop i).foldlM (segment task elfData) s
  | 0, i, s, _, h => by
    rw [List.drop_eq_nil_of_le (by simp [phdrs]; omega)]
    rfl
  | fuel + 1, i, s, hs, h => by
    obtain ⟨C, W⟩ := hI i s hs
    have hhead := A.header
    have htab := A.table
    have hlt := C.end_lt
    rw [segmentLoop, field_eq C W (by omega), ok_bind, show (bytes img).loadLE 56 2 = ePhnum img from rfl]
    by_cases hi : i < ePhnum img
    · have hlen : i < (phdrs img).length := by simpa [phdrs] using hi
      have hget : (phdrs img)[i] = phdrAt img (ePhoff img + 56 * i) := by simp [phdrs]
      have haddr : add64 (add64 elfData (ePhoff img)) (mul64 i 56) = add64 elfData (ePhoff img + 56 * i) := by
        rw [mul64_of_lt (by omega)]
        unfold add64
        omega
      rw [if_pos hi, List.drop_eq_getElem_cons hlen, List.foldlM_cons, haddr, loadHeader_eq C W (by omega), ← hget]
      cases hseg : segment task elfData s (phdrs img)[i] with
      | error e => rfl
      | ok s' => exact segmentLoop_eq A hI hstep fuel (i + 1) s' (hstep i hlen s s' hs hseg) (by omega)
    · rw [if_neg hi, List.drop_eq_nil_of_le (by simp [phdrs]; omega)]
      rfl

theorem ePhnum_lt (img : List UInt8) : ePhnum img < 2 ^ 16 := Mem.loadLE_lt (bytes img) 2 56

end TerraOS.Elf
