import TerraOS.Elf.UserMode
import TerraOS.Kernel.Memory
import TerraOS.Kernel.Screen

/-! From the BIOS to the end of `load_elf`.

    The whole way in one piece: the bootloader asks the BIOS for the memory map and builds its tables, and
    `kernel_main` takes its pages from the pool, builds its own tables, the frame allocator and the heap,
    clears the screen, and loads the program that lies in its image. Each stage works in the memory that
    the ones before have left. What the later ones need of it, they find: a change to pages that hold no
    table is as if memory had been so from the start (`boot_again`).

    The way ends where the registers for user mode are to be loaded. What the processor makes of `sysret`
    is not followed: `enable_syscall` writes 0 to STAR, and no interrupt is taken on the way. -/

namespace TerraOS.Kernel
open Lib Lib.Word Pmm Vmm Boot Elf

/-- `kernel_main` up to the closing asm statements of `load_elf`, on memory `m` with the bootloader's memory
    map (`bm` where the bitmap will lie). `idt_init`, `sse_init` and `enable_syscall` write registers of the
    processor and of the interrupt controllers, and no memory but the `idt`. -/
def kernelMain (m bm : Mem) (mmapCount userProgram : ℕ) : Option (Machine × Outcome) := do
  let s ← bootFrom m bm mmapCount
  let r ← Vmm.kernelMain (readMmap s.phys mmapCount)
  let k ← (heapInit s r).toOption
  let s ← (memset pagedBus k.session.cpu.machine VGA_MEMORY 0 (80 * 25 * 2)).toOption
  (Elf.kernelMain userProgram s).toOption

section
variable {m m' bm : Mem} {mmap : List MmapEntry} {s₀ : Machine} {k : ℕ}

theorem toOption_bind {ε α β : Type} {x : Except ε α} {a : α} (h : x = .ok a) (f : α → Option β) :
    x.toOption.bind f = f a := by
  rw [h, Except.toOption, Option.bind_some]

/-- A run of `kernel_main`, stage by stage. -/
theorem kernelMain_eq {mmapCount userProgram : ℕ} {r : Regions} {h : State} {s : Machine} {o : Machine × Outcome}
    (hboot : bootFrom m bm mmapCount = some s₀) (hr : Vmm.kernelMain (readMmap s₀.phys mmapCount) = some r)
    (hheap : heapInit s₀ r = .ok h)
    (hscreen : memset pagedBus h.session.cpu.machine VGA_MEMORY 0 (80 * 25 * 2) = .ok s)
    (htask : Elf.kernelMain userProgram s = .ok o) : kernelMain m bm mmapCount userProgram = some o := by
  rw [kernelMain, hboot, Option.bind_eq_bind, Option.bind_some, hr, Option.bind_eq_bind, Option.bind_some,
    Option.bind_eq_bind, toOption_bind hheap, toOption_bind hscreen, htask, Except.toOption]

/-! ### Boot -/

/-- A memory map that the pool holds is booted from. -/
theorem boot_pool (hcount : mmap.length < 2 ^ 16) (hp : Physical mmap) (hpool : PoolHolds mmap) (m bm : Mem) :
    ∃ s nextFree, boot m bm mmap = some s ∧ s.pmm = (pmmInit nextFree bm mmap).pmm := by
  obtain ⟨_, hnext⟩ := bootNextFree_pool hcount
  obtain ⟨hn, _, hsize, _, _⟩ := pages_bounds hcount hp
  obtain ⟨_, hroom⟩ := hpool
  have hbits : ∀ nextFree, (pmmInit nextFree bm mmap).pmm.memBitmapSize = bitmapSize mmap := fun _ => by
    rw [pmmInit, bitmapSize]
  have hptr : ∀ nextFree, (pmmInit nextFree bm mmap).memBitmapPtr = (allocPage nextFree).1 := fun _ => by
    rw [pmmInit]
  generalize pagesUp (24 * mmap.length) = n at hn hnext hroom
  generalize pagesUp (bitmapSize mmap) = b at hsize hroom
  obtain ⟨t, ht, _, hfree, _⟩ := @pagingInit_pool m (1 + n) (by omega)
  rw [← hnext] at ht
  have hgiven : (allocPage t.nextFree).1 = poolPage (1 + n + 4) := by
    rw [hfree, allocPage_poolPage (by omega), if_pos (by omega)]
  have hfit : (pmmInit t.nextFree bm mmap).memBitmapPtr ≠ 0 ∧
      (pmmInit t.nextFree bm mmap).memBitmapPtr + (pmmInit t.nextFree bm mmap).pmm.memBitmapSize ≤ POOL_END := by
    rw [hbits, hptr, hgiven]
    refine ⟨poolPage_ne _, ?_⟩
    rw [poolPage_eq]
    simp only [POOL_END]
    omega
  refine ⟨⟨t.phys, v2p t.pml4t, t.pml4t, (pmmInit t.nextFree bm mmap).pmm⟩, t.nextFree, ?_, by dsimp only⟩
  rw [boot, ht, Option.bind_eq_bind, Option.bind_some]
  dsimp only
  rw [if_pos hfit]

/-! ### The heap and the screen -/

/-- The screen is reached through the window, and holds no table. -/
theorem screen_steady (hboot : boot m bm mmap = some s₀) (hcount : mmap.length < 2 ^ 16)
    (hbefore : BeforeScreen mmap) :
    Steady s₀ VGA_MEMORY (80 * 25 * 2) (0xB8000 + ·) (0xB8000 + ·) (80 * 25 * 2) := by
  obtain ⟨n, hn, htables⟩ := boot_tables hboot hcount
  obtain ⟨_, P, _⟩ := boot_spec hboot
  unfold BeforeScreen at hbefore
  generalize pagesUp (24 * mmap.length) = n' at hn hbefore
  refine steady_of_spared (fun k hk => ?_) fun k hk q hq hf => ?_
  · rw [VGA_MEMORY, Nat.add_assoc]
    exact P.toWindow.translate (by omega)
  · have := (htables q _ hq hf).2
    omega

/-- Up to the task, with the pages of the tables and below as `paging_init` left them. -/
theorem heap_and_screen (hboot : boot m bm mmap = some s₀) (hcount : mmap.length < 2 ^ 16) (hp : Physical mmap)
    (hpool : PoolHolds mmap) (hbefore : BeforeScreen mmap) : ∃ r k m', Vmm.kernelMain mmap = some r ∧
      heapInit s₀ r = .ok k ∧
      memset pagedBus k.session.cpu.machine VGA_MEMORY 0 (80 * 25 * 2) = .ok { s₀ with phys := m' } ∧
      ∀ x, x / 4096 < 37 + pagesUp (24 * mmap.length) → m' x = s₀.phys x := by
  obtain ⟨r, hr, hsound⟩ := regions_of_pool hcount hp hpool
  obtain ⟨b, hb, _, L⟩ := boot_placed hboot hcount hr hsound
  obtain ⟨h, _, hrun, hbytes⟩ := heapInit_ran s₀ rfl rfl L
  have hkeep : ∀ x, x / 4096 < 37 + pagesUp (24 * mmap.length) → outWindow h.mem x = s₀.phys x := by
    intro x hx
    exact hbytes x (.inl (hb ▸ hx))
  have hsteady := screen_steady (boot_again hboot hcount hkeep) hcount hbefore
  have hset := memset_paged (c := 0) (by simp only [VGA_MEMORY, KERNEL_BASE]; omega) hsteady
  unfold BeforeScreen at hbefore
  refine ⟨r, _, _, hr, hrun, hset, fun x hx => ?_⟩
  have hlow := hkeep x hx
  generalize pagesUp (24 * mmap.length) = n at hbefore hx
  rw [fillBytes, if_neg (by omega)]
  exact hlow

/-! ### Frames and the file -/

/-- The frames that entries free are free after boot. -/
theorem card_le_freeCount {nextFree : ℕ} {F : Finset ℕ} (hp : Physical mmap)
    (hF : ∀ i ∈ F, 512 ≤ i ∧ ∃ e ∈ mmap, e.Frees i) : F.card ≤ (pmmInit nextFree bm mmap).pmm.freeCount := by
  refine Finset.card_le_card fun i hi => ?_
  obtain ⟨h512, e, he, hfree⟩ := hF i hi
  have hlt := frees_lt hp nextFree bm he hfree
  exact Finset.mem_filter.mpr ⟨Finset.mem_range.mpr hlt, (pmmInit_free hp nextFree bm hlt).mpr ⟨h512, e, he, hfree⟩⟩

/-- The first frame that is allocated is none above a free one. -/
theorem first_frame (hboot : boot m bm mmap = some s₀) {j : ℕ} (hj : j < s₀.pmm.memBitmapBitSize)
    (hfree : s₀.pmm.used j = false) : ∃ i, (pmmAlloc s₀.pmm).1 = i * 4096 ∧ 0 < i ∧ i ≤ j := by
  obtain ⟨_, P, _⟩ := boot_spec hboot
  rcases P.toFrames.ok.alloc with ⟨hall, _⟩ | ⟨i, h0, _, _, hleast, ha⟩
  · rw [hall j hj] at hfree
    cases hfree
  · refine ⟨i, by rw [ha], h0, ?_⟩
    by_contra hlt
    rw [hleast j (by omega)] at hfree
    cases hfree

/-- The tables of the bootloader lie below the kernel. -/
theorem initPt_out {x : ℕ} (h : 0x10000 ≤ x) : initPt m x = m x :=
  bytes_of_ents ((initPt_tables m).rest (x / 4096) (by omega)) rfl

end

/-- CORRECT: from the BIOS to the end of `load_elf`. If the BIOS delivers a memory map that ends at or below
    `2^52` and whose regions lie before the screen, and its usable entries free enough frames above the
    window, one of them below 2 GiB, then the bootloader and `kernel_main` run to the asm statements that
    close `load_elf`. For a well-formed program in the kernel's image, no header of which has on its pages a
    file byte of an earlier one, these are to load the stack and the entry point, every byte of the file
    is in its place, and the tables give user mode its pages and nothing else. -/
theorem user_program_starts {int15 : Int15} {es : List (List UInt8)} {fuel : ℕ} {s : MmapState} {bm : Mem}
    {elfData : ℕ} {img : List UInt8} {F : Finset ℕ} (hes : Delivers int15 s.firstEbx es) (hlen : es.length ≤ 2730)
    (hsize : ∀ e ∈ es, 20 ≤ e.length ∧ e.length ≤ 24) (hcount : s.mmapEntryCount = 0) (hfuel : es.length < fuel)
    (hp : Physical (es.map decode)) (hscreen : BeforeScreen (es.map decode))
    (hF : ∀ i ∈ F, 512 ≤ i ∧ ∃ e ∈ es.map decode, e.Frees i) (hlow : ∃ i ∈ F, i < 2 ^ 19)
    (K : InKernel s.mem elfData img) (hload : KERNEL_BASE + 0x10000 ≤ elfData) (A : Accepted img)
    (hwf : ∀ p ∈ loads img, p.WellFormed img) (hclear : (loads img).Pairwise Phdr.Clear)
    (hframes : demand (programPages img) + 4 ≤ F.card) :
    ∃ t s', getMmap int15 fuel s = some t ∧
      kernelMain (initPt t.mem) bm t.mmapEntryCount elfData
        = some (s', .sysret ⟨userStack, userStack, eEntry img, 0⟩) ∧
      Places img s' ∧ ∀ va, Canonical va → (effective s' va 2 = true ↔ va / 4096 ∈ programPages img) := by
  have hlength : (es.map decode).length < 2 ^ 16 := by
    rw [List.length_map]
    omega
  -- the memory map
  obtain ⟨t, ht, hn, hst, hout⟩ := mmapLoop_collects hes (s := { s with di := 0, ebx := s.firstEbx }) (k := 0) rfl
    rfl hcount (by omega) (fun e he => (hsize e he).2) hfuel
  rw [Nat.zero_add] at hn
  obtain ⟨hbootFrom, hread⟩ := bootFrom_stored bm hst hlen hsize
  obtain ⟨j, hj, hj19⟩ := hlow
  obtain ⟨h512, e, he, hfree⟩ := hF j hj
  have hpool : PoolHolds (es.map decode) := by
    have hstop := (lastUsableEnd_spec hp).2 e he hfree.1
    have hlast := hfree.2.2
    unfold BeforeScreen at hscreen
    unfold MmapEntry.stopPage at hlast
    exact ⟨by omega, by omega⟩
  -- the tables, the allocator, the heap and the screen
  obtain ⟨s₀, nextFree, hboot, hpmm⟩ := boot_pool hlength hp hpool (initPt t.mem) bm
  obtain ⟨r, k, m', hr, hk, hset, hkeep⟩ := heap_and_screen hboot hlength hp hpool hscreen
  have hboot' := boot_again hboot hlength hkeep
  obtain ⟨i, hi, h0, hij⟩ : ∃ i, (pmmAlloc s₀.pmm).1 = i * 4096 ∧ 0 < i ∧ i ≤ j := by
    have hlt := frees_lt hp nextFree bm he hfree
    refine first_frame hboot ?_ ?_ <;> rw [hpmm]
    · exact hlt
    · exact (pmmInit_free hp nextFree bm hlt).mpr ⟨h512, e, he, hfree⟩
  -- the file is where it was
  have K' : InKernel m' elfData img := by
    refine ⟨K.above, K.below, fun c hc => ?_⟩
    have hbelow := K.below
    obtain ⟨n, _, _, _, _, _, _, h32, hbytes⟩ := boot_spec hboot
    have hpage : (elfData - KERNEL_BASE + c) / 4096 < 32 := by omega
    rw [hkeep _ (by omega), hbytes _ (by omega), initPt_out (by omega), hout _ (by omega)]
    exact K.byte c hc
  have hcard : F.card ≤ s₀.pmm.freeCount := by
    rw [hpmm]
    exact card_le_freeCount hp hF
  obtain ⟨s', hs', hplaces, hreach⟩ := kernelMain_starts hboot' hi h0 (by omega) K' A hwf hclear
    (hframes.trans hcard)
  refine ⟨t, s', ht, ?_, hplaces, hreach⟩
  rw [hn]
  exact kernelMain_eq (hbootFrom.trans hboot) (by rw [hread s₀ hboot, hr]) hk hset hs'

/-- The machine with 64 MiB loads the kernel's own program. -/
theorem user_program_starts_userProgram : ∃ t s',
    getMmap smallBios 3 ⟨0, 0, 0, withFile userProgramElf⟩ = some t ∧
    kernelMain (initPt t.mem) (fun _ => 0) t.mmapEntryCount (KERNEL_BASE + 0x10000)
      = some (s', .sysret ⟨userStack, userStack, 0x400078, 0⟩) ∧
    Places userProgramElf s' := by
  have hp : Physical (smallEntries.map decode) := by
    rw [decode_smallEntries]
    unfold Physical
    decide
  have hscreen : BeforeScreen (smallEntries.map decode) := by
    rw [decode_smallEntries]
    unfold BeforeScreen
    decide
  have hF : ∀ i ∈ Finset.Ico 512 16384, 512 ≤ i ∧ ∃ e ∈ smallEntries.map decode, e.Frees i := by
    intro i hi
    rw [decode_smallEntries]
    obtain ⟨h1, h2⟩ := Finset.mem_Ico.mp hi
    refine ⟨h1, ⟨0x100000, 0x3F00000, 1⟩, by simp, rfl, ?_, ?_⟩
    · exact le_trans (by decide) h1
    · exact lt_of_lt_of_le h2 (by decide)
  have hcard : (Finset.Ico 512 16384).card = 15872 := by simp
  have hdemand := demand_programPages
  have hclear : (loads userProgramElf).Pairwise Phdr.Clear := by
    rw [loads_userProgramElf]
    exact List.pairwise_singleton _ _
  obtain ⟨s, hs⟩ : ∃ s : MmapState, s = ⟨0, 0, 0, withFile userProgramElf⟩ := ⟨_, rfl⟩
  have K : InKernel s.mem (KERNEL_BASE + 0x10000) userProgramElf := by
    have hlength : userProgramElf.length ≤ 0x10000 := by
      rw [length_userProgramElf]
      omega
    have hmem : s.mem = withFile userProgramElf := by rw [hs]
    rw [hmem]
    exact inKernel_withFile hlength
  have hdelivers : Delivers smallBios s.firstEbx smallEntries := by
    rw [hs]
    exact smallBios_delivers
  rw [← hs]
  obtain ⟨t, s', ht, hs', hplaces, _⟩ := @user_program_starts _ _ 3 s (fun _ => 0) _ _ _
    hdelivers (by decide) (by decide) (by rw [hs]) (by decide) hp hscreen hF
    ⟨512, Finset.mem_Ico.mpr ⟨le_rfl, by decide⟩, by decide⟩ K le_rfl accepted_userProgramElf
    wellFormed_userProgramElf hclear (by omega)
  have hentry : eEntry userProgramElf = 0x400078 := by decide
  rw [hentry] at hs'
  exact ⟨t, s', ht, hs', hplaces⟩

end TerraOS.Kernel
