import TerraOS.Boot.Model
import TerraOS.Vmm.Handover

/-! get_mmap.asm: the memory map, from the BIOS to the allocator.

    `get_mmap` asks the BIOS for one entry after another and stores them from 0x21000 on, 24 bytes apart;
    the kernel reads them there as `bios_mmap_entry`s, after `init_pt` and `paging_init` have written page
    tables. The BIOS is a parameter: `int 0x15` is asked with the continuation value in `ebx`, and answers
    with carry set or with `eax`, the next value and the bytes of an entry.

    Before the loop `bx` alone is cleared, so that the first request has the caller's upper half of `ebx`,
    and `di` wraps after 2730 entries. If the BIOS delivers from that value on and no more entries than
    that, the allocator is built from its list (`mmap_reaches_pmm`). -/

namespace TerraOS.Boot
open Lib Lib.Word Lib.Word16 Pmm Vmm

abbrev SMAP : ℕ := 0x534D4150

/-- An answer of `int 0x15` with carry clear. -/
structure E820 where
  eax : ℕ
  ebx : ℕ
  entry : List UInt8

/-- `int 0x15` with `eax` = 0xE820; `none` is carry set. -/
abbrev Int15 := ℕ → Option E820

structure MmapState where
  ebx : ℕ
  di : ℕ
  mmapEntryCount : ℕ
  mem : Mem

/-- `ebx` after `xor bx, bx`: the upper half is what it was. -/
def MmapState.firstEbx (s : MmapState) : ℕ := s.ebx / 2 ^ 16 * 2 ^ 16

/-- The BIOS's bytes at `es:di`. -/
def poke (m : Mem) (es : ℕ) : ℕ → List UInt8 → Mem
  | _, [] => m
  | di, b :: bs => poke (m.store8 (es * 16 + di) b) es (add16 di 1) bs

/-- The loop `mmap_loop`, for at most `fuel` rounds. -/
def mmapLoop (int15 : Int15) : ℕ → MmapState → Option MmapState
  | 0, _ => none
  | fuel + 1, s =>
    match int15 s.ebx with
    | none => some s
    | some a =>
      let s := { s with ebx := a.ebx, mem := poke s.mem 0x2100 s.di a.entry }
      if a.eax ≠ SMAP then some s
      else
        let s := { s with di := add16 s.di 24 }
        let s := { s with mmapEntryCount := add16 s.mmapEntryCount 1 }
        if s.ebx ≠ 0 then mmapLoop int15 fuel s else some s

/-- `get_mmap`. -/
def getMmap (int15 : Int15) (fuel : ℕ) (s : MmapState) : Option MmapState :=
  mmapLoop int15 fuel { s with di := 0, ebx := s.firstEbx }

/-- The BIOS has the entries `es` from the continuation value `ebx` on. The list ends with the value 0, or
    with carry. -/
inductive Delivers (int15 : Int15) : ℕ → List (List UInt8) → Prop
  | last {ebx : ℕ} {e : List UInt8} : int15 ebx = some ⟨SMAP, 0, e⟩ → Delivers int15 ebx [e]
  | more {ebx ebx' : ℕ} {e : List UInt8} {es : List (List UInt8)} : int15 ebx = some ⟨SMAP, ebx', e⟩ → ebx' ≠ 0 →
      Delivers int15 ebx' es → Delivers int15 ebx (e :: es)
  | carry {ebx : ℕ} : int15 ebx = none → Delivers int15 ebx []

/-! ### The loop -/

section
variable {int15 : Int15} {ebx fuel k : ℕ} {es : List (List UInt8)} {s : MmapState}

/-- Short of the end of the segment, the bytes are those of the list. -/
theorem poke_apply (x : ℕ) : ∀ {l : List UInt8} {m : Mem} {es di : ℕ}, di + l.length ≤ 2 ^ 16 →
    poke m es di l x
      = if es * 16 + di ≤ x ∧ x < es * 16 + di + l.length then l.getD (x - (es * 16 + di)) 0 else m x
  | [], m, es, di, _ => by rw [poke, List.length_nil, if_neg (by omega)]
  | b :: bs, m, es, di, h => by
    rw [List.length_cons] at h ⊢
    have hself : x = es * 16 + di → (b :: bs).getD (x - (es * 16 + di)) 0 = b := fun hx => by
      rw [hx, Nat.sub_self, List.getD_cons_zero]
    have hrest : poke (m.store8 (es * 16 + di) b) es (add16 di 1) bs x
        = if es * 16 + (di + 1) ≤ x ∧ x < es * 16 + (di + 1) + bs.length then bs.getD (x - (es * 16 + (di + 1))) 0
          else m.store8 (es * 16 + di) b x := by
      cases bs with
      | nil => rw [poke, List.length_nil, if_neg (by omega)]
      | cons c cs =>
        rw [List.length_cons] at h
        rw [add16_of_lt (by omega), poke_apply x (by rw [List.length_cons]; omega)]
    rw [poke, hrest]
    by_cases hx : x = es * 16 + di
    · rw [if_neg (by omega), if_pos (by omega), hself hx, hx, Mem.store8_self]
    · by_cases hin : es * 16 + (di + 1) ≤ x ∧ x < es * 16 + (di + 1) + bs.length
      · rw [if_pos hin, if_pos (by omega), show x - (es * 16 + di) = x - (es * 16 + (di + 1)) + 1 by omega,
          List.getD_cons_succ]
      · rw [if_neg hin, if_neg (by omega), Mem.store8_out hx]

/-- An entry stored, and the registers moved on. -/
def MmapState.store (s : MmapState) (ebx : ℕ) (e : List UInt8) : MmapState :=
  ⟨ebx, add16 s.di 24, add16 s.mmapEntryCount 1, poke s.mem 0x2100 s.di e⟩

theorem mmapLoop_round {e : List UInt8} (h : int15 s.ebx = some ⟨SMAP, ebx, e⟩) :
    mmapLoop int15 (fuel + 1) s = if ebx ≠ 0 then mmapLoop int15 fuel (s.store ebx e) else some (s.store ebx e) := by
  simp only [mmapLoop, h, ne_eq, not_true_eq_false, if_false]
  rfl

/-- The entries `es` are in memory from entry `k` on. -/
def Stored (m : Mem) (es : List (List UInt8)) (k : ℕ) : Prop :=
  ∀ i (hi : i < es.length) j (hj : j < (es[i]).length), m (0x21000 + 24 * (k + i) + j) = (es[i])[j]

/-- What storing entry `k` changes. -/
theorem store_mem {e : List UInt8} (hdi : s.di = 24 * k) (hk : k + 1 ≤ 2730) (he : e.length ≤ 24) (x : ℕ) :
    (s.store ebx e).mem x = if 0x21000 + 24 * k ≤ x ∧ x < 0x21000 + 24 * k + e.length then
      e.getD (x - (0x21000 + 24 * k)) 0 else s.mem x := by
  show poke s.mem 0x2100 s.di e x = _
  rw [poke_apply x (by omega), hdi]

theorem store_entry {e : List UInt8} (hdi : s.di = 24 * k) (hk : k + 1 ≤ 2730) (he : e.length ≤ 24) {j : ℕ}
    (hj : j < e.length) : (s.store ebx e).mem (0x21000 + 24 * k + j) = e[j] := by
  rw [store_mem hdi hk he, if_pos (by omega), Nat.add_sub_cancel_left, List.getD_eq_getElem _ _ hj]

theorem store_regs {e : List UInt8} (hdi : s.di = 24 * k) (hcount : s.mmapEntryCount = k) (hk : k + 1 ≤ 2730) :
    (s.store ebx e).di = 24 * (k + 1) ∧ (s.store ebx e).mmapEntryCount = k + 1 := by
  rw [MmapState.store, hdi, hcount, add16_of_lt (by omega), add16_of_lt (by omega)]
  exact ⟨(Nat.mul_succ 24 k).symm, rfl⟩

/-- The loop stores the rest of the list behind the `k` entries there are. -/
theorem mmapLoop_collects (h : Delivers int15 ebx es) : ∀ {fuel k : ℕ} {s : MmapState}, s.ebx = ebx →
    s.di = 24 * k → s.mmapEntryCount = k → k + es.length ≤ 2730 → (∀ e ∈ es, e.length ≤ 24) → es.length < fuel →
    ∃ t, mmapLoop int15 fuel s = some t ∧ t.mmapEntryCount = k + es.length ∧ Stored t.mem es k ∧
      ∀ x, (x < 0x21000 + 24 * k ∨ 0x21000 + 24 * (k + es.length) ≤ x) → t.mem x = s.mem x := by
  induction h with
  | last hb =>
    rename_i e
    rintro (_ | fuel) k s rfl hdi hcount hk hes hfuel
    · exact absurd hfuel (Nat.not_lt_zero _)
    have hlen := hes e List.mem_cons_self
    rw [List.length_singleton] at hk ⊢
    refine ⟨s.store 0 e, mmapLoop_round hb, (store_regs hdi hcount hk).2, fun i hi j hj => ?_, fun x hx => ?_⟩
    · obtain rfl := Nat.lt_one_iff.mp hi
      exact store_entry hdi hk hlen hj
    · rw [store_mem hdi hk hlen, if_neg (by omega)]
  | more hb hne _ ih =>
    rename_i b' e es _
    rintro (_ | fuel) k s rfl hdi hcount hk hes hfuel
    · exact absurd hfuel (Nat.not_lt_zero _)
    have hlen := hes e List.mem_cons_self
    rw [List.length_cons] at hk hfuel
    obtain ⟨hdi', hcount'⟩ : (s.store b' e).di = 24 * (k + 1) ∧ (s.store b' e).mmapEntryCount = k + 1 :=
      store_regs hdi hcount (by omega)
    obtain ⟨t, ht, hn, hst, hout⟩ := @ih fuel (k + 1) (s.store b' e) rfl hdi' hcount' (by omega)
      (fun e he => hes e (List.mem_cons_of_mem _ he)) (by omega)
    refine ⟨t, ?_, by rw [hn, List.length_cons]; omega, fun i hi j hj => ?_, fun x hx => ?_⟩
    · rw [mmapLoop_round hb, if_pos hne]
      exact ht
    · cases i with
      | zero =>
        rw [List.getElem_cons_zero] at hj
        rw [hout _ (by omega)]
        exact store_entry hdi (by omega) hlen hj
      | succ i =>
        rw [List.length_cons] at hi
        rw [List.getElem_cons_succ] at hj
        have hval := hst i (by omega) j hj
        rw [show k + 1 + i = k + (i + 1) by omega] at hval
        simpa using hval
    · rw [List.length_cons] at hx
      rw [hout x (by omega), store_mem hdi (by omega) hlen, if_neg (by omega)]
  | carry hb =>
    rintro (_ | fuel) k s rfl hdi hcount hk hes hfuel
    · exact absurd hfuel (Nat.not_lt_zero _)
    exact ⟨s, by simp only [mmapLoop, hb], hcount, fun i hi => absurd hi (Nat.not_lt_zero _), fun x _ => rfl⟩

end

/-- CORRECT: of a BIOS that delivers, from the first continuation value on, at most 2730 entries of at
    most 24 bytes, `get_mmap` stores all of them, in order and 24 bytes apart, counts them, returns, and
    writes nowhere else. -/
theorem getMmap_collects {int15 : Int15} {es : List (List UInt8)} {fuel : ℕ} {s : MmapState}
    (hes : Delivers int15 s.firstEbx es) (hlen : es.length ≤ 2730) (hsize : ∀ e ∈ es, e.length ≤ 24)
    (hcount : s.mmapEntryCount = 0) (hfuel : es.length < fuel) :
    ∃ t, getMmap int15 fuel s = some t ∧ t.mmapEntryCount = es.length ∧ Stored t.mem es 0 ∧
      ∀ x, (x < 0x21000 ∨ 0x21000 + 24 * es.length ≤ x) → t.mem x = s.mem x := by
  obtain ⟨t, ht, hn, hst, hout⟩ := mmapLoop_collects hes (s := { s with di := 0, ebx := s.firstEbx }) (k := 0) rfl
    rfl hcount (by omega) hsize hfuel
  exact ⟨t, ht, by rw [hn, Nat.zero_add], hst, fun x hx => hout x (by omega)⟩

/-! ### The kernel's side -/

/-- `bios_mmap_entry`, less the field no code reads. -/
def entryAt (m : Mem) (a : ℕ) : MmapEntry := ⟨m.load64 a, m.load64 (a + 8), m.loadLE (a + 16) 4⟩

/-- The array at `mmap`; the window has it at 0x21000. -/
def readMmap (m : Mem) (mmapCount : ℕ) : List MmapEntry :=
  (List.range mmapCount).map fun i => entryAt m (0x21000 + 24 * i)

/-- What the BIOS's bytes say. -/
def decode (e : List UInt8) : MmapEntry := entryAt (fun k => e.getD k 0) 0

/-- `kernel_main` through `paging_init` and `pmm_init`, with the memory map where the bootloader has
    left it. -/
def bootFrom (m bm : Mem) (mmapCount : ℕ) : Option Machine := do
  let tables ← pagingInit m (allocPages (pagesUp (24 * mmapCount)) (allocPage POOL_START).2)
  let b := pmmInit tables.nextFree bm (readMmap tables.phys mmapCount)
  if b.memBitmapPtr ≠ 0 ∧ b.memBitmapPtr + b.pmm.memBitmapSize ≤ POOL_END then
    some ⟨tables.phys, v2p tables.pml4t, tables.pml4t, b.pmm⟩
  else none

/-- Bytes of pages whose entries stay. -/
theorem bytes_of_ents {m m' : Mem} {n x : ℕ} (h : ∀ i : Fin 512, ents m' n i = ents m n i) (hx : x / 4096 = n) :
    m' x = m x := by
  have hents := h ⟨x % 4096 / 8, by omega⟩
  simp only [ents, Mem.load64] at hents
  have h' := Mem.byte_of_loadLE m' 8 (n * 4096 + 8 * (x % 4096 / 8)) (x % 8) (by omega)
  rw [hents, ← Mem.byte_of_loadLE m 8 _ _ (by omega), show n * 4096 + 8 * (x % 4096 / 8) + x % 8 = x by omega] at h'
  exact h'

/-- The page tables that are built meanwhile lie elsewhere. -/
theorem tables_spare_mmap {m : Mem} {mmap : List MmapEntry} {t : PagingTables} (hlen : mmap.length ≤ 2730)
    (h : pagingInit (initPt m) (bootNextFree mmap) = some t) {x : ℕ} (h1 : 0x21000 ≤ x)
    (h2 : x < 0x21000 + 24 * mmap.length) : t.phys x = m x := by
  obtain ⟨n₀, _, _, hptr, _, _, hbytes⟩ := pagingInit_spec (bootNextFree_inPool mmap) h
  obtain ⟨n, hn, hpages, hnext⟩ := bootNextFree_eq (show mmap.length < 2 ^ 16 by omega)
  obtain ⟨t', ht', hptr'⟩ := pagingInit_poolPage (m := initPt m) (k := 1 + n) (by omega)
  rw [hnext, ht'] at h
  rw [← Option.some.inj h, hptr'] at hptr
  simp only [poolPage, POOL_START, KERNEL_BASE] at hptr
  rw [hbytes x (by omega)]
  exact bytes_of_ents ((initPt_tables m).rest (x / 4096) (by omega)) rfl

/-- The kernel reads the entries as the BIOS wrote them. -/
theorem readMmap_stored {m : Mem} {es : List (List UInt8)} (h : Stored m es 0)
    (hsize : ∀ e ∈ es, 20 ≤ e.length) : readMmap m es.length = es.map decode := by
  refine List.ext_getElem (by simp [readMmap]) fun i hi _ => ?_
  have hi : i < es.length := by simpa [readMmap] using hi
  have hlen := hsize _ (List.getElem_mem hi)
  have hbyte : ∀ j < 20, m (0x21000 + 24 * i + j) = (es[i]).getD j 0 := fun j hj => by
    have hval := h i hi j (by omega)
    rw [Nat.zero_add] at hval
    rw [hval, List.getD_eq_getElem _ _ (by omega)]
  have hload : ∀ a n, a + n ≤ 20 →
      m.loadLE (0x21000 + 24 * i + a) n = Mem.loadLE (fun k => (es[i]).getD k 0) a n := fun a n ha =>
    Mem.loadLE_congr fun j hj => by rw [Nat.add_assoc, hbyte (a + j) (by omega)]
  have hread : entryAt m (0x21000 + 24 * i) = decode es[i] := by
    have hbase := hload 0 8 (by omega)
    have hlength := hload 8 8 (by omega)
    have htype := hload 16 4 (by omega)
    rw [Nat.add_zero] at hbase
    simp only [entryAt, decode, Mem.load64, hbase, hlength, htype, Nat.zero_add]
  simpa [readMmap] using hread

/-- Where the BIOS's list is stored, the kernel boots from it. -/
theorem bootFrom_stored {m : Mem} (bm : Mem) {es : List (List UInt8)} (h : Stored m es 0) (hlen : es.length ≤ 2730)
    (hsize : ∀ e ∈ es, 20 ≤ e.length ∧ e.length ≤ 24) :
    bootFrom (initPt m) bm es.length = boot (initPt m) bm (es.map decode) ∧
      ∀ s, boot (initPt m) bm (es.map decode) = some s → readMmap s.phys es.length = es.map decode := by
  have hnext : allocPages (pagesUp (24 * es.length)) (allocPage POOL_START).2 = bootNextFree (es.map decode) := by
    rw [bootNextFree, List.length_map]
  have hread : ∀ tables, pagingInit (initPt m) (bootNextFree (es.map decode)) = some tables →
      readMmap tables.phys es.length = es.map decode := by
    intro tables hp
    have hkeep : Stored tables.phys es 0 := fun i hi j hj => by
      have he := (hsize _ (List.getElem_mem hi)).2
      rw [tables_spare_mmap (by rw [List.length_map]; exact hlen) hp (by omega) (by rw [List.length_map]; omega)]
      exact h i hi j hj
    exact readMmap_stored hkeep fun e he => (hsize e he).1
  constructor
  · rw [bootFrom, boot, hnext]
    cases hp : pagingInit (initPt m) (bootNextFree (es.map decode)) with
    | none => simp only [Option.bind_eq_bind, Option.bind_none]
    | some tables => simp only [Option.bind_eq_bind, Option.bind_some, hread tables hp]
  · intro s hs
    obtain ⟨tables, hp, _, rfl⟩ := boot_cases hs
    exact hread tables hp

/-- CORRECT: the list that the BIOS delivers is the list that the allocator is built from: `get_mmap`,
    the page tables of the bootloader and those of `paging_init` hand it on unchanged. -/
theorem mmap_reaches_pmm {int15 : Int15} {es : List (List UInt8)} {fuel : ℕ} {s : MmapState}
    (hes : Delivers int15 s.firstEbx es) (hlen : es.length ≤ 2730)
    (hsize : ∀ e ∈ es, 20 ≤ e.length ∧ e.length ≤ 24) (hcount : s.mmapEntryCount = 0) (hfuel : es.length < fuel) :
    ∃ t, getMmap int15 fuel s = some t ∧
      ∀ bm, bootFrom (initPt t.mem) bm t.mmapEntryCount = boot (initPt t.mem) bm (es.map decode) := by
  obtain ⟨t, ht, hn, hst, _⟩ := mmapLoop_collects hes (s := { s with di := 0, ebx := s.firstEbx }) (k := 0) rfl
    rfl hcount (by omega) (fun e he => (hsize e he).2) hfuel
  rw [Nat.zero_add] at hn
  refine ⟨t, ht, fun bm => ?_⟩
  rw [hn]
  exact (bootFrom_stored bm hst hlen hsize).1

/-- The entries of a machine with 64 MiB, as a BIOS has them: 640 KiB, and what lies above 1 MiB. -/
def smallBios : Int15
  | 0 => some ⟨SMAP, 1, [0, 0, 0, 0, 0, 0, 0, 0, 0, 0xFC, 9, 0, 0, 0, 0, 0, 1, 0, 0, 0]⟩
  | 1 => some ⟨SMAP, 0, [0, 0, 0x10, 0, 0, 0, 0, 0, 0, 0, 0xF0, 3, 0, 0, 0, 0, 1, 0, 0, 0, 1, 0, 0, 0]⟩
  | _ => none

/-- What it delivers. -/
def smallEntries : List (List UInt8) := [
  [0, 0, 0, 0, 0, 0, 0, 0, 0, 0xFC, 9, 0, 0, 0, 0, 0, 1, 0, 0, 0],
  [0, 0, 0x10, 0, 0, 0, 0, 0, 0, 0, 0xF0, 3, 0, 0, 0, 0, 1, 0, 0, 0, 1, 0, 0, 0]]

theorem smallBios_delivers : Delivers smallBios 0 smallEntries :=
  .more rfl (by decide) (.last rfl)

theorem decode_smallEntries : smallEntries.map decode = [⟨0, 0x9FC00, 1⟩, ⟨0x100000, 0x3F00000, 1⟩] := by decide

theorem getMmap_collects_smallBios : ∃ t, getMmap smallBios 3 ⟨0, 0, 0, fun _ => 0⟩ = some t ∧
    t.mmapEntryCount = 2 ∧ t.mem 0x2101A = 0x10 := by
  obtain ⟨t, ht, hn, hst, _⟩ := getMmap_collects (s := ⟨0, 0, 0, fun _ => 0⟩) smallBios_delivers (by decide)
    (by decide) rfl (show _ < 3 by decide)
  exact ⟨t, ht, hn, hst 1 (by decide) 2 (by decide)⟩

theorem mmap_reaches_pmm_smallBios : ∃ t, getMmap smallBios 3 ⟨0, 0, 0, fun _ => 0⟩ = some t ∧
    ∀ bm, bootFrom (initPt t.mem) bm t.mmapEntryCount
      = boot (initPt t.mem) bm [⟨0, 0x9FC00, 1⟩, ⟨0x100000, 0x3F00000, 1⟩] := by
  rw [← decode_smallEntries]
  exact mmap_reaches_pmm (s := ⟨0, 0, 0, fun _ => 0⟩) smallBios_delivers (by decide) (by decide) rfl (by decide)

end TerraOS.Boot
