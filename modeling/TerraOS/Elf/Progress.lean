import TerraOS.Elf.Account

/-! The loader at work.

    `Progress` is the invariant from the call of `load_elf` to `sysret`, as long as no frame is asked
    for in vain: the account of the frames, which leaf each page has, and what its bytes are. A byte of a
    page is one that was copied there since the page was mapped, or what the frame held before the
    call: `B` says which. Mapping a page adds to the log and forgets the bytes of the page
    (`Progress.map`); copying fills in bytes (`Progress.copy`). -/

namespace TerraOS.Elf
open Lib Lib.Word Pmm Vmm

/-- The leaf `map_page` wrote. -/
def Leaf.entry (l : Leaf) : ℕ := l.frame * 4096 ||| l.flags

/-- The last mapping of page `v`. -/
def leafOf (log : List Leaf) (v : ℕ) : Option Leaf := log.find? fun l => l.page = v

theorem leafOf_cons_self (l : Leaf) (log : List Leaf) : leafOf (l :: log) l.page = some l := by
  simp [leafOf]

theorem leafOf_cons_ne {l : Leaf} {log : List Leaf} {v : ℕ} (h : l.page ≠ v) :
    leafOf (l :: log) v = leafOf log v := by
  simp [leafOf, h]

theorem leafOf_eq_some {log : List Leaf} {v : ℕ} {l : Leaf} (h : leafOf log v = some l) : l ∈ log ∧ l.page = v :=
  ⟨List.mem_of_find?_eq_some h, by simpa using List.find?_some h⟩

theorem leafOf_isSome {log : List Leaf} {v : ℕ} : (∃ l, leafOf log v = some l) ↔ v ∈ pagesOf log := by
  rw [← Option.isSome_iff_exists, leafOf, List.find?_isSome, pagesOf, List.mem_map]
  simp

/-- What is known of a page's bytes once it is mapped again. -/
def forget (B : ℕ → Option UInt8) (v : ℕ) : ℕ → Option UInt8 := fun va => if va / 4096 = v then none else B va

/-- `load_elf` has come from `s₀` to `s` by mapping the pages of the log; `B` has the bytes copied. -/
structure Progress (s₀ : Machine) (task : Task) (pdpt pd pt : ℕ) (log : List Leaf) (B : ℕ → Option UInt8)
    (s : Machine) : Prop extends Account s₀ log s where
  ready : Ready s task pdpt pd pt
  flags : ∀ l ∈ log, l.flags = 0x5 ∨ l.flags = 0x7
  leaf : ∀ v < userPages, s.entry (pageKey v).1 (pageKey v).2 = (leafOf log v).map Leaf.entry
  reached : ∀ l ∈ log, ∃ n, s.table (path (l.page * 4096)) = some n
  bytes : ∀ x, (∀ p, p.length ≤ 3 → s.table p ≠ some (x / 4096)) → (∀ l ∈ log, l.frame ≠ x / 4096) →
    s.phys x = s₀.phys x
  content : ∀ va l, leafOf log (va / 4096) = some l →
    s.phys (l.frame * 4096 + va % 4096) = (B va).getD (s₀.phys (l.frame * 4096 + va % 4096))

section
variable {s₀ s s' : Machine} {task : Task} {pdpt pd pt v flags : ℕ} {log : List Leaf}
  {B : ℕ → Option UInt8}

theorem Progress.start (S : Started s task pdpt pd pt) (B : ℕ → Option UInt8) :
    Progress s task pdpt pd pt [] B s where
  toAccount := .start S.toPaged
  ready := S.toReady
  flags := by simp
  leaf v hv := entry_none_of_table
    (table_none_below (Started.no_table S hv) ⟨[index 30 (v * 4096), index 21 (v * 4096)], rfl⟩)
  reached := by simp
  bytes _ _ _ := rfl
  content _ _ h := by simp [leafOf] at h

theorem leaf_lt {f : ℕ} (hf : f < 2 ^ 40) (hfl : flags = 0x5 ∨ flags = 0x7) : f * 4096 ||| flags < 2 ^ 64 := by
  rcases hfl with rfl | rfl <;> exact entry_lt (by omega) (by decide)

theorem leaf_present {f : ℕ} (hfl : flags = 0x5 ∨ flags = 0x7) : (f * 4096 ||| flags) &&& 0x1 ≠ 0 := by
  rcases hfl with rfl | rfl <;> exact or_present (by decide)

theorem leaf_flagBits (hfl : flags = 0x5 ∨ flags = 0x7) : FlagBits flags := by
  rcases hfl with rfl | rfl <;> exact flagBits_of_lt (by decide)

/-- A page of the program mapped leaves the task ready. -/
theorem ready_mapped (R : Ready s task pdpt pd pt) (htop : index 39 task.pml4t = 511) (hv : v < userPages)
    {leaf : ℕ} (hleaf : leaf < 2 ^ 64) (M : Mapped flags (v * 4096) leaf s s' pdpt pd pt) :
    Ready s' task pdpt pd pt := by
  refine R.of_paged M.paged M.cr3 M.pml4t
    (M.entry_ne hleaf (p := path task.pml4t) (i := index 12 task.pml4t) rfl (fun he => ?_) ?_)
  · have h := (List.cons.inj (Prod.mk.inj he).1).1
    exact pageKey_top hv (h.symm.trans htop)
  · rw [← path_temp]
    exact page_ne canonical_temp R.ctx_canonical R.ctx_page_ne_temp

section
variable (S : Started s₀ task pdpt pd pt) (Q : Progress s₀ task pdpt pd pt log B s)
include S Q

/-- Every frame taken lies above the kernel's 2 MiB. -/
theorem Progress.frame_bounds {l : Leaf} (hl : l ∈ log) : 512 ≤ l.frame ∧ l.frame < 2 ^ 40 := by
  have hsize := S.size
  obtain ⟨hlt, hu⟩ := Q.frame l hl
  refine ⟨?_, by omega⟩
  by_contra h
  rw [S.reserved l.frame (by omega)] at hu
  cases hu

omit S in
/-- All the tables that the pages of the log need are there. -/
theorem Progress.made_eq : Q.toAccount.made = tablesFor (pagesOf log) := by
  refine Finset.filter_true_of_mem fun p hp => ?_
  obtain ⟨v, hv, _, hpre⟩ := mem_tablesFor.mp hp
  obtain ⟨l, hl, rfl⟩ := List.mem_map.mp hv
  obtain ⟨n, hn⟩ := Q.reached l hl
  by_contra hno
  rw [table_none_below (by simpa using hno) hpre] at hn
  cases hn

/-- The frames taken are what the pages of the log demand. -/
theorem Progress.count : s.pmm.freeCount + demand (pagesOf log) = s₀.pmm.freeCount := by
  have h := Q.toAccount.count S Q.ready.toPaged
  rw [Q.made_eq] at h
  rw [demand, pagesOf, List.length_map]
  exact h

/-- One page: it is mapped to a frame that was free; or there is no frame for a table on the way to it;
    or none for the page itself. -/
theorem Progress.map (hv : v < userPages) (hfl : flags = 0x5 ∨ flags = 0x7) :
    (∃ f s', mapFrame task s (v * 4096) flags = .ok s' ∧
      Progress s₀ task pdpt pd pt (⟨v, f, flags⟩ :: log) (forget B v) s') ∨
    ((∃ stop, mapFrame task s (v * 4096) flags = .error stop) ∧
      s₀.pmm.freeCount < demand (v :: pagesOf log)) ∨
    ((∀ j < s.pmm.memBitmapBitSize, s.pmm.used j = true) ∧ s₀.pmm.freeCount < demand (v :: pagesOf log)) := by
  have R := Q.ready
  have hflags := leaf_flagBits hfl
  rcases R.toFrames.ok.alloc with ⟨hall, _⟩ | ⟨f, _, hlt, hu, _, halloc⟩
  · have hcount := Q.count S
    rw [freeCount_eq_zero hall] at hcount
    have := demand_cons v (pagesOf log)
    exact .inr (.inr ⟨hall, by omega⟩)
  -- the allocator with the page's frame taken
  generalize ha : ({ s.pmm with memBitmap := Bits.set s.pmm.memBitmap f } : Pmm) = a at halloc
  have hsize : a.memBitmapBitSize = s.pmm.memBitmapBitSize := by rw [← ha]
  have hset : ∀ n, a.used n = (decide (n = f) || s.pmm.used n) := fun n => by
    rw [← ha]
    exact Bits.bit_set _ _ _
  have R₁ : Ready { s with pmm := a } task pdpt pd pt :=
    R.of_paged (R.toPaged.withPmm hsize fun n hn => by rw [hset, hn, Bool.or_true]) rfl rfl rfl
  have h40 : f < 2 ^ 40 := (R.toPaged.free hlt hu).2.2
  have hmap : mapFrame task s (v * 4096) flags
      = mapPage { s with pmm := a } task.pml4t (v * 4096) (f * 4096) flags := by rw [mapFrame, halloc]
  rw [hmap]
  rcases mapPage_outcome R₁.toPaged (R₁.reaches (index 39 (v * 4096))) (pageKey_ne_window hv) hflags
    (show f * 4096 < 2 ^ 64 by omega) with ⟨s', hs', M, _⟩ | ⟨g, hg, Pg, G, _, hfull, hno⟩
  · have hleaf := leaf_lt h40 hfl
    obtain ⟨g, G, hent, htab, hpmm⟩ := M.upper hleaf
    have A := (Q.toAccount.grow R.toPaged hv hflags hsize hset hlt hu G).congr htab hpmm
    have hkept : ∀ p n, p.length ≤ 3 → s.table p = some n → s'.table p = some n := fun p n hp h => by
      rw [htab p hp]
      exact G.table (s := { s with pmm := a }) hp h
    have hself : s'.entry (path (v * 4096)) (index 12 (v * 4096)) = some (f * 4096 ||| flags) :=
      M.entry_self hleaf (leaf_present hfl)
    have hbytes : ∀ x, (∀ p, p.length ≤ 3 → s'.table p ≠ some (x / 4096)) → s'.phys x = s.phys x := fun x hx =>
      M.bytes hleaf hx
    refine .inl ⟨f, s', hs', A, ready_mapped R₁ S.ctx_top hv hleaf M, ?_, fun w hw => ?_, ?_, fun x hx hl => ?_,
      fun va l hl => ?_⟩
    · rw [List.forall_mem_cons]
      exact ⟨hfl, Q.flags⟩
    · by_cases hwv : v = w
      · rw [← hwv, leafOf_cons_self ⟨v, f, flags⟩]
        exact hself
      · rw [leafOf_cons_ne (show Leaf.page ⟨v, f, flags⟩ ≠ w from hwv), ← Q.leaf w hw]
        exact M.entry_ne hleaf rfl (fun he => hwv (pageKey_inj hw hv he).symm)
          (fun he => pageKey_ne_window hw (Prod.mk.inj he).1)
    · rw [List.forall_mem_cons]
      refine ⟨table_of_present hself, fun l hl => ?_⟩
      obtain ⟨n, hn⟩ := Q.reached l hl
      exact ⟨n, hkept _ n (by simp [path]) hn⟩
    · rw [List.forall_mem_cons] at hl
      rw [hbytes x hx]
      exact Q.bytes x (fun p hp h => hx p hp (hkept p _ hp h)) hl.2
    · obtain ⟨hmem, hpage⟩ := leafOf_eq_some hl
      have hdiv : (l.frame * 4096 + va % 4096) / 4096 = l.frame := by omega
      have hspare : ∀ p, p.length ≤ 3 → s'.table p ≠ some l.frame := fun p hp =>
        A.spare S.toPaged hmem hp
      rw [hbytes _ (by rw [hdiv]; exact hspare)]
      by_cases hva : v = va / 4096
      · -- the frame is new: it has what it held before the call
        rw [← hva, leafOf_cons_self ⟨v, f, flags⟩] at hl
        obtain rfl := Option.some.inj hl
        obtain ⟨_, hlog, htbl⟩ := Q.free hu
        rw [forget, if_pos hva.symm, Option.getD_none]
        exact Q.bytes _ (by rw [hdiv]; exact htbl) (by rw [hdiv]; exact hlog)
      · rw [leafOf_cons_ne (show Leaf.page ⟨v, f, flags⟩ ≠ va / 4096 from hva)] at hl
        rw [forget, if_neg (Ne.symm hva)]
        exact Q.content va l hl
  · -- the panic: everything is used, and the last table of the page is missing
    have A := Q.toAccount.grow R.toPaged hv hflags hsize hset hlt hu G
    have hcount := A.count S Pg
    have hlast : path (v * 4096) ∈ tablesFor (pagesOf (⟨v, f, flags⟩ :: log)) :=
      mem_tablesFor.mpr ⟨v, by simp [pagesOf], by simp [path], List.prefix_refl _⟩
    have hmiss : path (v * 4096) ∉ A.made := fun h => by
      have := (Finset.mem_filter.mp h).2
      rw [hno] at this
      cases this
    have hless : A.made.card < (tablesFor (pagesOf (⟨v, f, flags⟩ :: log))).card :=
      Finset.card_lt_card ((Finset.ssubset_iff_of_subset (Finset.filter_subset _ _)).mpr ⟨_, hlast, hmiss⟩)
    rw [freeCount_eq_zero hfull, List.length_cons] at hcount
    refine .inr (.inl ⟨⟨_, hg⟩, ?_⟩)
    have hd : demand (v :: pagesOf log) =
        (pagesOf log).length + 1 + (tablesFor (pagesOf (⟨v, f, flags⟩ :: log))).card := rfl
    rw [hd, pagesOf, List.length_map]
    omega

/-! ### Translations and bytes -/

/-- An address of the lower half is where the last mapping of its page put it. -/
theorem Progress.translate {va : ℕ} (hva : va < 2 ^ 47) :
    s.translate va = (leafOf log (va / 4096)).map fun l => l.frame * 4096 + va % 4096 := by
  have hkey := @pageKey_div va
  have hwalk : walk s.phys s.root va = (leafOf log (va / 4096)).map Leaf.entry := by
    have h := Q.leaf (va / 4096) (by simp only [userPages]; omega)
    rw [hkey] at h
    exact h
  rw [Machine.translate, if_pos (.inl hva), hwalk, Option.map_map]
  cases h : leafOf log (va / 4096) with
  | none => rfl
  | some l =>
    obtain ⟨hl, _⟩ := leafOf_eq_some h
    have hf := (Q.frame_bounds S hl).2
    have hpart := (@leaf_parts (l.frame * 4096) l.flags (by omega) (by omega)
      (by rcases Q.flags l hl with h | h <;> omega)).1
    simp only [Option.map_some, Function.comp, Leaf.entry, hpart]

/-- The file stays where it is. -/
theorem Progress.carries {elfData : ℕ} {img : List UInt8} (C : Carries s₀ elfData img) :
    Carries s elfData img := by
  have habove := C.above
  have hbelow := C.below
  simp only [KERNEL_BASE, TEMP_PAGE] at habove hbelow
  have hpage : ∀ k < img.length, (elfData - KERNEL_BASE + k) / 4096 < 512 := fun k hk => by
    simp only [KERNEL_BASE]
    omega
  have hapart : ∀ k < img.length, ∀ p, p.length ≤ 3 → s.table p ≠ some ((elfData - KERNEL_BASE + k) / 4096) :=
    fun k hk p hp ht => by
      rcases Q.tables p _ hp ht with h | ⟨_, hu, _⟩
      · exact C.apart k hk p hp h
      · rw [S.reserved _ (hpage k hk)] at hu
        cases hu
  refine ⟨C.above, C.below, fun k hk => ?_, hapart⟩
  rw [Q.bytes _ (hapart k hk) fun l hl he => ?_]
  · exact C.byte k hk
  · have := (Q.frame_bounds S hl).1
    have := hpage k hk
    omega

/-- Bytes of mapped pages written. -/
theorem Progress.write {m : Mem} {B' : ℕ → Option UInt8}
    (hm : ∀ x, (∀ l ∈ log, l.frame ≠ x / 4096) → m x = s.phys x)
    (hB : ∀ va l, leafOf log (va / 4096) = some l →
      m (l.frame * 4096 + va % 4096) = (B' va).getD (s₀.phys (l.frame * 4096 + va % 4096))) :
    Progress s₀ task pdpt pd pt log B' { s with phys := m } := by
  have R := Q.ready
  have hk := R.low.1
  have htbl : ∀ q n, q.length ≤ 3 → s.table q = some n → ∀ x, x / 4096 = n → m x = s.phys x :=
    fun q n hq hn x hx => hm x fun l hl he => Q.spare S.toPaged hl hq (by rw [hn, ← hx, he])
  have htab : ∀ p, p.length ≤ 3 → Machine.table { s with phys := m } p = s.table p := fun p hp =>
    table_of_bytes hp fun q n hq hn => htbl q n (by omega) hn
  have hent : ∀ p i, p.length ≤ 3 → Machine.entry { s with phys := m } p i = s.entry p i := fun p i hp =>
    entry_of_bytes hp htbl
  have P := R.toPaged.of_bytes htbl fun x hx => hm x fun l hl he => by
    have := (Q.frame_bounds S hl).1
    omega
  refine ⟨Q.toAccount.congr htab rfl,
    R.of_paged P rfl rfl (hent (path task.pml4t) (index 12 task.pml4t) (by simp [path])), Q.flags,
    fun v hv => ?_, fun l hl => ?_, fun x hx hl => ?_, hB⟩
  · rw [hent _ _ (show (pageKey v).1.length ≤ 3 by simp [pageKey, path])]
    exact Q.leaf v hv
  · rw [htab _ (by simp [path])]
    exact Q.reached l hl
  · show m x = _
    rw [hm x hl]
    exact Q.bytes x (fun p hp => by rw [← htab p hp]; exact hx p hp) hl

theorem Progress.write_any {m : Mem} (hm : ∀ x, (∀ l ∈ log, l.frame ≠ x / 4096) → m x = s.phys x) :
    ∃ B', Progress s₀ task pdpt pd pt log B' { s with phys := m } :=
  ⟨fun va => (leafOf log (va / 4096)).map fun l => m (l.frame * 4096 + va % 4096),
    Q.write S hm fun va l hl => by rw [hl]; rfl⟩

end

end

/-! ### Copying -/

/-- The bytes of a segment that are in the file, over those that were there. -/
def fill (img : List UInt8) (B : ℕ → Option UInt8) (p : Phdr) : ℕ → Option UInt8 := fun va =>
  if p.pVaddr ≤ va ∧ va < p.pVaddr + p.pFilesz then some (bytes img (p.pOffset + (va - p.pVaddr))) else B va

/-- Where the log has an address. -/
def place (log : List Leaf) (va : ℕ) : ℕ := (leafOf log (va / 4096)).elim 0 fun l => l.frame * 4096 + va % 4096

section
variable {s₀ s s' : Machine} {task : Task} {pdpt pd pt : ℕ} {log : List Leaf} {B : ℕ → Option UInt8}
  (S : Started s₀ task pdpt pd pt) (Q : Progress s₀ task pdpt pd pt log B s)
include S Q

omit S Q in
theorem place_of_leaf {va : ℕ} {l : Leaf} (h : leafOf log (va / 4096) = some l) :
    place log va = l.frame * 4096 + va % 4096 := by rw [place, h, Option.elim_some]

omit S in
theorem Progress.place_inj {a b : ℕ} {l l' : Leaf} (hl : leafOf log (a / 4096) = some l)
    (hl' : leafOf log (b / 4096) = some l') (h : place log a = place log b) : a = b := by
  obtain ⟨hm, hp⟩ := leafOf_eq_some hl
  obtain ⟨hm', hp'⟩ := leafOf_eq_some hl'
  rw [place_of_leaf hl, place_of_leaf hl'] at h
  have he : l = l' := List.inj_on_of_nodup_map Q.nodup hm hm' (by omega)
  rw [he] at hp
  omega

/-- The copy of a segment whose file bytes are in the file, onto mapped pages. -/
theorem Progress.copy {elfData : ℕ} {img : List UInt8} {p : Phdr} (C : Carries s₀ elfData img)
    (hpages : ∀ k < p.pFilesz, (p.pVaddr + k) / 4096 ∈ pagesOf log) (hend : p.pVaddr + p.pFilesz ≤ 2 ^ 47)
    (hfile : p.pOffset + p.pFilesz ≤ img.length) (hsize : p.pFilesz ≤ 2 ^ 31) :
    ∃ s', memcpy pagedBus s p.pVaddr (add64 elfData p.pOffset) p.pFilesz = .ok s' ∧ s'.pmm = s.pmm ∧
      Progress s₀ task pdpt pd pt log (fill img B p) s' := by
  have C' := Q.carries S C
  have hlt := C.end_lt
  have habove := C.above
  have hbelow := C.below
  simp only [KERNEL_BASE, TEMP_PAGE] at habove hbelow
  have hleaf : ∀ k < p.pFilesz, ∃ l, leafOf log ((p.pVaddr + k) / 4096) = some l := fun k hk =>
    leafOf_isSome.mpr (hpages k hk)
  have hdst : ∀ k < p.pFilesz, s.translate (p.pVaddr + k) = some (place log (p.pVaddr + k)) := fun k hk => by
    obtain ⟨l, hl⟩ := hleaf k hk
    rw [Q.translate S (by omega), place_of_leaf hl, hl, Option.map_some]
  have hsrc : ∀ k < p.pFilesz, s.translate (elfData + p.pOffset + k)
      = some (elfData - KERNEL_BASE + (p.pOffset + k)) := fun k hk => by
    rw [Nat.add_assoc]
    exact C'.translate Q.ready.toWindow (by omega)
  have hframe : ∀ k < p.pFilesz, ∃ l ∈ log, place log (p.pVaddr + k) / 4096 = l.frame := fun k hk => by
    obtain ⟨l, hl⟩ := hleaf k hk
    exact ⟨l, (leafOf_eq_some hl).1, by rw [place_of_leaf hl]; omega⟩
  have hspare : ∀ k < p.pFilesz, ∀ q : List (Fin 512), q.length ≤ 3 →
      s.table q ≠ some (place log (p.pVaddr + k) / 4096) := fun k hk q hq => by
    obtain ⟨l, hl, he⟩ := hframe k hk
    rw [he]
    exact Q.spare S.toPaged hl hq
  have hcopy := @memcpy_paged s p.pVaddr (elfData + p.pOffset) p.pFilesz (fun k => place log (p.pVaddr + k))
    (fun k => elfData - KERNEL_BASE + (p.pOffset + k)) (by omega) (by omega) hsize
    (steady_of_spared hdst hspare) (steady_of_spared hsrc hspare) fun k hk j hj => by
      -- the file lies below page 512, the frames above
      obtain ⟨l, hl, he⟩ := hframe j hj
      have := (Q.frame_bounds S hl).1
      show place log (p.pVaddr + j) ≠ elfData - KERNEL_BASE + (p.pOffset + k)
      simp only [KERNEL_BASE]
      omega
  rw [add64_of_lt (by omega)]
  refine ⟨_, hcopy, rfl, Q.write S (fun x hx => ?_) fun va l hl => ?_⟩
  · refine copied_out fun k hk he => ?_
    obtain ⟨l, hl, hf⟩ := hframe k hk
    refine hx l hl ?_
    rw [← hf]
    exact congrArg (· / 4096) he
  · rw [← place_of_leaf hl, fill]
    by_cases hva : p.pVaddr ≤ va ∧ va < p.pVaddr + p.pFilesz
    · have hat := @copied_at s.phys (fun k => place log (p.pVaddr + k))
        (fun k => elfData - KERNEL_BASE + (p.pOffset + k)) p.pFilesz (va - p.pVaddr) (by omega)
        fun j hj hne he => by
          obtain ⟨l', hl'⟩ := hleaf j hj
          obtain ⟨l'', hl''⟩ := hleaf (va - p.pVaddr) (by omega)
          have := Q.place_inj hl' hl'' he
          omega
      have hva' : p.pVaddr + (va - p.pVaddr) = va := by omega
      simp only [hva'] at hat
      rw [hat, if_pos hva, Option.getD_some]
      exact C'.byte _ (by omega)
    · rw [if_neg hva, copied_out fun k hk he => ?_, place_of_leaf hl]
      · exact Q.content va l hl
      · obtain ⟨l', hl'⟩ := hleaf k hk
        have := Q.place_inj hl' hl he
        omega

omit Q in
/-- Any other copy that does not fault writes to mapped pages only. With a larger `count` the index
    would go on once it is negative. -/
theorem Progress.copyLoop_any {dest source count : ℕ} (hd : dest ≤ 2 ^ 47) (hc : count ≤ 2 ^ 64 - 2 ^ 31) :
    ∀ {fuel i : ℕ} {B : ℕ → Option UInt8} {s s' : Machine}, Progress s₀ task pdpt pd pt log B s → i ≤ 2 ^ 31 →
    memcpyLoop pagedBus dest source count fuel i s = .ok s' →
    ∃ B', Progress s₀ task pdpt pd pt log B' s'
  | 0, i, B, s, s', Q, _, h => ⟨B, Except.ok.inj h ▸ Q⟩
  | fuel + 1, i, B, s, s', Q, hi, h => by
    rw [memcpyLoop] at h
    by_cases hlt : sext32 i < count
    · have hi31 : i < 2 ^ 31 := by
        by_contra hge
        rw [sext32, if_neg hge] at hlt
        omega
      rw [if_pos hlt, sext32_of_lt hi31, bind_eq_ok] at h
      obtain ⟨b, _, h⟩ := h
      rw [bind_eq_ok] at h
      obtain ⟨s₁, hwr, h⟩ := h
      rw [Nat.mod_eq_of_lt (by omega)] at h
      rw [show add64 dest i = dest + i from add64_of_lt (by omega)] at hwr
      have hstore : ∃ x, s.translate (dest + i) = some x ∧ s₁ = { s with phys := s.phys.store8 x b } := by
        unfold pagedBus Machine.store8 at hwr
        dsimp only at hwr
        split at hwr
        · exact ⟨_, ‹_›, (Except.ok.inj hwr).symm⟩
        · cases hwr
      obtain ⟨x, hx, rfl⟩ := hstore
      have hva : dest + i < 2 ^ 47 := by
        have := canonical_of_translate hx
        unfold Canonical at this
        omega
      rw [Q.translate S hva] at hx
      obtain ⟨l, hl, rfl⟩ := Option.map_eq_some_iff.mp hx
      have hmem := (leafOf_eq_some hl).1
      obtain ⟨B', Q'⟩ := Q.write_any S (m := s.phys.store8 (l.frame * 4096 + (dest + i) % 4096) b) fun y hy =>
        Mem.store8_out fun he => hy l hmem (by rw [he]; omega)
      exact Progress.copyLoop_any hd hc Q' (by omega) h
    · rw [if_neg hlt] at h
      exact ⟨B, Except.ok.inj h ▸ Q⟩

end

end TerraOS.Elf
