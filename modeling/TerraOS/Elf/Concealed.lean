import TerraOS.Elf.Scarce

/-! What a program finds, with or without frames to spare.

    `Stage` joins `Progress`, while there are frames, to `Short`. By it `load_elf` comes to `sysret` exactly
    if the frames last for the tables (`loadElf_ends`), and what it leaves at an address is known from the
    file, the number of free frames and frame 0, or is what a free frame held (`shown`). So no program with
    frames for all of its pages is kept from what the free frames held: no byte of its stack page is ever
    written (`not_concealed`). With fewer it is, if and only if it is not started or its pages are
    `Concealed` (`loadElf_private_iff`). -/

namespace TerraOS.Elf
open Lib Lib.Word Pmm Vmm

/-! ### Both phases -/

/-- The pages of the list were mapped, in this order: each to a frame of its own, or the first `r` of them
    and the others are lost. `B` has the bytes copied to pages, `Z r` those copied to frame 0. -/
inductive Stage (s₀ : Machine) (task : Task) (pdpt pd pt elfData : ℕ) (img : List UInt8) (l : List ℕ)
    (B : ℕ → Option UInt8) (Z : ℕ → ℕ → Option UInt8) (s : Machine) : Prop
  | supplied (log : List Leaf) (O : Orderly s task pdpt pd pt elfData img)
      (Q : Progress s₀ task pdpt pd pt log B s) (hp : pagesOf log = l.reverse)
      (hZ : ∀ r, l.length ≤ r → Z r = fun _ => none)
  | short (log : List Leaf) (r : ℕ) (hr : r ≤ l.length) (hp : pagesOf log = (l.take r).reverse)
      (hd : demand (l.take r) = s₀.pmm.freeCount) (ht : tablesFor l = tablesFor (l.take r))
      (H : Short s₀ task pdpt pd pt elfData img log (l.drop r) B (Z r) s)

section
variable {s₀ s : Machine} {task : Task} {pdpt pd pt elfData v flags : ℕ} {img : List UInt8} {l : List ℕ}
  {B : ℕ → Option UInt8} {Z : ℕ → ℕ → Option UInt8}

theorem Stage.orderly (G : Stage s₀ task pdpt pd pt elfData img l B Z s) : Orderly s task pdpt pd pt elfData img := by
  cases G with
  | supplied _ O => exact O
  | short _ _ _ _ _ _ H => exact H.toOrderly

/-- Each page is mapped one way or the other. -/
theorem mem_take_drop (r : ℕ) {w : ℕ} : w ∈ l ↔ w ∈ l.drop r ∨ w ∈ (l.take r).reverse := by
  rw [List.mem_reverse, or_comm, ← List.mem_append, List.take_append_drop]

variable (S : Started s₀ task pdpt pd pt)
include S

/-- One page in the second phase. -/
theorem Short.mapNext {log : List Leaf} {r : ℕ} {Z : ℕ → Option UInt8} (hv : v < userPages)
    (hfl : flags = 0x5 ∨ flags = 0x7) (hpre : l ++ [v] <+: programPages img) (hr : r ≤ l.length)
    (hp : pagesOf log = (l.take r).reverse) (hd : demand (l.take r) = s₀.pmm.freeCount)
    (ht : tablesFor l = tablesFor (l.take r)) (H : Short s₀ task pdpt pd pt elfData img log (l.drop r) B Z s) :
    Ends (fun s' => Short s₀ task pdpt pd pt elfData img log ((l ++ [v]).drop r) (forget B v) Z s' ∧
        tablesFor (l ++ [v]) = tablesFor ((l ++ [v]).take r))
      (fun _ => ¬ Fed img s₀.pmm.freeCount) (mapFrame task s (v * 4096) flags) := by
  have hlog : tablesFor (pagesOf log) = tablesFor l := by rw [hp, tablesFor_reverse, ht]
  refine (H.map S hv hfl).imp (fun s' ⟨H', hmem⟩ => ?_) fun _ hno hfed => ?_
  · rw [List.drop_append_of_le_length hr, List.take_append_of_le_length hr, ← ht]
    exact ⟨H', tablesFor_snoc (hlog ▸ hmem)⟩
  · rw [hlog] at hno
    refine hno (hfed.table hpre ?_)
    have := Finset.card_le_card (tablesFor_mono (List.subset_append_left l [v]))
    rw [← hd]
    unfold demand
    rw [← ht, List.length_append, List.length_take]
    simp only [List.length_singleton]
    omega

/-- One page: mapped, or the frames do not last for the tables. -/
theorem Stage.map (hv : v < userPages) (hfl : flags = 0x5 ∨ flags = 0x7) (hpre : l ++ [v] <+: programPages img)
    (G : Stage s₀ task pdpt pd pt elfData img l B Z s) :
    Ends (Stage s₀ task pdpt pd pt elfData img (l ++ [v]) (forget B v) Z)
      (fun _ => ¬ Fed img s₀.pmm.freeCount) (mapFrame task s (v * 4096) flags) := by
  have hle : ∀ {r}, r ≤ l.length → r ≤ (l ++ [v]).length := fun h => by
    rw [List.length_append]
    omega
  cases G with
  | supplied log O Q hp hZ =>
    have hrev : demand (v :: pagesOf log) = demand (l ++ [v]) := by
      rw [hp, ← demand_reverse (l ++ [v]), List.reverse_append]
      rfl
    rcases Q.map S hv hfl with ⟨f, s', hs', Q'⟩ | ⟨⟨stop, herr⟩, hlt⟩ | ⟨F, _⟩
    · obtain ⟨f', a, T, h⟩ := mapFrame_outcome O.toReady hv hfl
      rw [hs'] at h ⊢
      refine .ok (.supplied _ (O.mapped T hv hfl (h.of_ok rfl)) Q' ?_ fun r hr => hZ r ?_)
      · rw [pagesOf, List.map_cons, ← pagesOf, hp, List.reverse_append]
        rfl
      · rw [List.length_append] at hr
        omega
    · -- the call panics, so that its table is missing
      rw [herr]
      refine .error fun hfed => ?_
      have hmem := hfed.table hpre (hrev ▸ hlt)
      rw [← tablesFor_reverse, ← hp] at hmem
      obtain ⟨w, hw, _, hpath⟩ := mem_tablesFor.mp hmem
      obtain ⟨x, hx, rfl⟩ := List.mem_map.mp hw
      obtain ⟨n, hn⟩ := Q.reached x hx
      rw [← hpath.eq_of_length (by simp [path])] at hn
      obtain ⟨s', hs'⟩ := mapFrame_again Q.ready hv hfl hn
      rw [herr] at hs'
      cases hs'
    · have hcount := Q.count S
      rw [freeCount_eq_zero F, hp, demand_reverse, Nat.zero_add] at hcount
      have H := Q.short S O F
      rw [← hZ l.length (le_refl _), ← List.drop_length (l := l)] at H
      have htake : l.take l.length = l := List.take_length
      have hnext := Short.mapNext S hv hfl hpre (le_refl _) (by rw [htake, hp]) (by rw [htake, hcount])
        (by rw [htake]) H
      refine hnext.imp (fun s' h' => ?_) fun _ h => h
      obtain ⟨H', ht'⟩ := h'
      have htake' : (l ++ [v]).take l.length = l := by rw [List.take_append_of_le_length (le_refl _), htake]
      exact .short log l.length (hle (le_refl _)) (by rw [htake', hp]) (by rw [htake', hcount]) ht' H'
  | short log r hr hp hd ht H =>
    refine (Short.mapNext S hv hfl hpre hr hp hd ht H).imp (fun s' h' => ?_) fun _ h => h
    obtain ⟨H', ht'⟩ := h'
    have htake : (l ++ [v]).take r = l.take r := List.take_append_of_le_length hr
    exact .short log r (hle hr) (by rw [htake, hp]) (by rw [htake, hd]) ht' H'

/-- A segment's file bytes. -/
theorem Stage.copy {p : Phdr} (C : Carries s₀ elfData img) (W : p.WellFormed img)
    (hpages : ∀ k < p.pFilesz, (p.pVaddr + k) / 4096 ∈ l) (G : Stage s₀ task pdpt pd pt elfData img l B Z s) :
    ∃ s', memcpy pagedBus s p.pVaddr (add64 elfData p.pOffset) p.pFilesz = .ok s' ∧
      Stage s₀ task pdpt pd pt elfData img l (fill img B p)
        (fun r => spillBytes img (l.drop r) (Z r) p p.pFilesz) s' := by
  have h1 := W.below
  have h2 := W.sizes
  have h3 := W.small
  simp only [userStack] at h1
  cases G with
  | supplied log O Q hp hZ =>
    have hlog : ∀ k < p.pFilesz, (p.pVaddr + k) / 4096 ∈ pagesOf log := fun k hk => by
      rw [hp, List.mem_reverse]
      exact hpages k hk
    obtain ⟨s', hs', _, Q'⟩ := Q.copy S C hlog (by omega) W.inFile (by omega)
    have hcopied : Copied s task pdpt pd pt elfData img s := ⟨O, written_refl s⟩
    obtain ⟨O', _⟩ := (hcopied.copyLoop (by omega) (by omega) (by omega)).of_ok hs'
    refine ⟨s', hs', .supplied log O' Q' hp fun r hr => ?_⟩
    rw [List.drop_eq_nil_of_le hr, spillBytes_nil, hZ r hr]
  | short log r hr hp hd ht H =>
    have hmem : ∀ k < p.pFilesz, (p.pVaddr + k) / 4096 ∈ l.drop r ∨ (p.pVaddr + k) / 4096 ∈ pagesOf log :=
      fun k hk => hp ▸ (mem_take_drop r).mp (hpages k hk)
    obtain ⟨s', hs', H'⟩ : ∃ s', memcpyLoop pagedBus p.pVaddr (add64 elfData p.pOffset) p.pFilesz (2 ^ 32) 0 s
        = .ok s' ∧ Short s₀ task pdpt pd pt elfData img log (l.drop r) (fill img B p)
          (spillBytes img (l.drop r) (Z r) p p.pFilesz) s' :=
      Short.copyLoop S W hmem (Nat.zero_le _) (by omega) (by rw [fill_zero]; exact H)
    exact ⟨s', hs', .short log r hr hp hd ht H'⟩

/-- A segment: its pages, and then its bytes. -/
theorem Stage.segment {p : Phdr} (C : Carries s₀ elfData img) (ht : p.pType = PT_LOAD) (W : p.WellFormed img)
    (hpre : l ++ p.pages <+: programPages img) (G : Stage s₀ task pdpt pd pt elfData img l B Z s) :
    Ends (Stage s₀ task pdpt pd pt elfData img (l ++ p.pages) (placeSegment img B p)
        fun r => spillBytes img ((l ++ p.pages).drop r) (Z r) p p.pFilesz)
      (fun _ => ¬ Fed img s₀.pmm.freeCount) (segment task elfData s p) := by
  have hmem := W.lower.mem
  rw [Elf.segment, if_pos ht, loadSegment_pages hmem]
  have hmap := foldlM_ends (E := fun _ => ¬ Fed img s₀.pmm.freeCount)
    (f := fun s v => mapFrame task s (v * 4096) (pageFlags p)) (l := p.pages)
    (I := fun j s => Stage s₀ task pdpt pd pt elfData img (l ++ p.pages.take j) (forgetAll B (p.pages.take j)) Z s)
    (fun j hj s Gj => by
      have hpre' : l ++ p.pages.take (j + 1) <+: programPages img :=
        (List.prefix_append_right_inj l |>.mpr (List.take_prefix _ _)).trans hpre
      rw [List.take_succ_eq_append_getElem hj, ← List.append_assoc] at hpre' ⊢
      rw [← forgetAll_snoc]
      exact Gj.map S (Phdr.Lower.pages hmem _ (List.getElem_mem hj)) (pageFlags_cases p) hpre')
    (by simpa [forgetAll_nil] using G)
  refine hmap.bind fun s' G' => ?_
  rw [List.take_length] at G'
  have h2 := W.sizes
  obtain ⟨s'', hs'', G''⟩ := G'.copy S C W fun k hk => by
    rw [List.mem_append, Phdr.mem_pages]
    exact .inr ⟨by omega, by omega⟩
  rw [hs'']
  exact .ok G''

end

/-! ### What `load_elf` leaves -/

theorem allPages_prefix (img : List UInt8) (i : ℕ) : allPages ((phdrs img).take i) <+: programPages img := by
  refine List.IsPrefix.trans ?_ (List.prefix_append _ _)
  conv_rhs => rw [← List.take_append_drop i (phdrs img), allPages_append]
  exact List.prefix_append _ _

theorem programPages_lt {img : List UInt8} (hwf : ∀ p ∈ loads img, p.WellFormed img) :
    ∀ v ∈ programPages img, v ≤ userStack / 4096 := fun v hv => by
  rcases List.mem_append.mp hv with hv | hv
  · obtain ⟨p, hp, hv⟩ := List.mem_flatMap.mp hv
    have := (hwf p hp).below
    rw [Phdr.mem_pages] at hv
    omega
  · rw [List.mem_singleton.mp hv]

/-- The file byte last copied to an address of a page with a frame of its own; the stack has none. -/
def copiedTo (img : List UInt8) : ℕ → Option UInt8 := forget (placed img (phdrs img)) (userStack / 4096)

/-- What frame 0 holds in the end: file bytes over what it held. -/
def frameZero (img : List UInt8) (s₀ : Machine) (o : ℕ) : UInt8 :=
  (spilled img (ownPages img s₀.pmm.freeCount) (phdrs img) o).getD (s₀.phys o)

/-- What is left at an address of a page of the program, where that does not depend on the free frames. -/
def shown (img : List UInt8) (s₀ : Machine) (va : ℕ) : Option UInt8 :=
  if va / 4096 ∈ lostPages img s₀.pmm.freeCount then some (frameZero img s₀ (va % 4096)) else copiedTo img va

/-- The address reads as this byte, or as one that a free frame held. -/
inductive Shows (s₀ s : Machine) (va : ℕ) : Option UInt8 → Prop
  | known (b : UInt8) (h : s.load8 va = .ok b) : Shows s₀ s va (some b)
  | old (x : ℕ) (hx : x / 4096 < s₀.pmm.memBitmapBitSize) (hu : s₀.pmm.used (x / 4096) = false)
      (h : s.load8 va = .ok (s₀.phys x)) : Shows s₀ s va none

/-- Pages with frames of their own are file bytes throughout, and past the file's part of a segment there
    are zeros: file bytes that are zero, or zeros in frame 0. -/
structure Concealed (img : List UInt8) (s₀ : Machine) : Prop where
  filled : ∀ va, va / 4096 ∈ programPages img → va / 4096 ∉ lostPages img s₀.pmm.freeCount → (copiedTo img va).isSome
  zero_own : ∀ p ∈ loads img, ∀ va, p.pVaddr + p.pFilesz ≤ va → va < p.pVaddr + p.pMemsz →
    va / 4096 ∉ lostPages img s₀.pmm.freeCount → copiedTo img va = some 0
  zero_lost : ∀ p ∈ loads img, ∀ va, p.pVaddr + p.pFilesz ≤ va → va < p.pVaddr + p.pMemsz →
    va / 4096 ∈ lostPages img s₀.pmm.freeCount → frameZero img s₀ (va % 4096) = 0

theorem Concealed.isSome {img : List UInt8} {s₀ : Machine} {va : ℕ} (h : Concealed img s₀)
    (hmem : va / 4096 ∈ programPages img) : (shown img s₀ va).isSome := by
  unfold shown
  split
  · rfl
  · exact h.filled va hmem ‹_›

theorem Concealed.zero {img : List UInt8} {s₀ : Machine} {p : Phdr} {va : ℕ} (h : Concealed img s₀)
    (hp : p ∈ loads img) (h1 : p.pVaddr + p.pFilesz ≤ va) (h2 : va < p.pVaddr + p.pMemsz) :
    shown img s₀ va = some 0 := by
  unfold shown
  split
  · rw [h.zero_lost p hp va h1 h2 ‹_›]
  · exact h.zero_own p hp va h1 h2 ‹_›

theorem concealed_of_shown {img : List UInt8} {s₀ : Machine}
    (hsome : ∀ va, va / 4096 ∈ programPages img → (shown img s₀ va).isSome)
    (hzero : ∀ p ∈ loads img, ∀ va, p.pVaddr + p.pFilesz ≤ va → va < p.pVaddr + p.pMemsz → shown img s₀ va = some 0) :
    Concealed img s₀ := by
  refine ⟨fun va hmem hl => ?_, fun p hp va h1 h2 hl => ?_, fun p hp va h1 h2 hl => ?_⟩
  · have h := hsome va hmem
    rwa [shown, if_neg hl] at h
  · have h := hzero p hp va h1 h2
    rwa [shown, if_neg hl] at h
  · have h := hzero p hp va h1 h2
    rw [shown, if_pos hl] at h
    exact Option.some.inj h

theorem lostPages_eq_nil {img : List UInt8} {frames : ℕ} (h : demand (programPages img) ≤ frames) :
    lostPages img frames = [] := by
  unfold demand at h
  exact List.drop_eq_nil_of_le (by unfold ownPages; omega)

/-- With frames for everything the stack page shows what its frame held. -/
theorem shown_stack {img : List UInt8} {s₀ : Machine} (h : demand (programPages img) ≤ s₀.pmm.freeCount) :
    shown img s₀ userStack = none := by
  rw [shown, lostPages_eq_nil h, if_neg List.not_mem_nil, copiedTo, forget, if_pos rfl]

section
variable {s₀ s : Machine} {task : Task} {elfData pdpt pd pt : ℕ} {img : List UInt8} {l : List ℕ}
  {B : ℕ → Option UInt8} {Z : ℕ → ℕ → Option UInt8}

theorem shows_of_load {va x : ℕ} {o : Option UInt8} (hx : x / 4096 < s₀.pmm.memBitmapBitSize)
    (hu : s₀.pmm.used (x / 4096) = false) (h : s.load8 va = .ok (o.getD (s₀.phys x))) : Shows s₀ s va o := by
  cases o with
  | none => exact .old x hx hu h
  | some b => exact .known b h

variable (S : Started s₀ task pdpt pd pt)
include S

theorem Stage.mem_mappedPages (G : Stage s₀ task pdpt pd pt elfData img l B Z s) {v : ℕ} :
    v ∈ mappedPages s ↔ v < 2 ^ 35 ∧ v ∈ l := by
  cases G with
  | supplied log O Q hp hZ => rw [Q.mem_mappedPages S, hp, List.mem_reverse]
  | short log r hr hp hd ht H =>
    refine and_congr_right fun hv => ?_
    have hpage : v * 4096 / 4096 = v := Nat.mul_div_cancel _ (by decide)
    rw [mem_take_drop r, ← hp]
    by_cases hl : v ∈ l.drop r
    · rw [H.translate_lost (by omega) (by rw [hpage]; exact hl)]
      exact iff_of_true rfl (.inl hl)
    · rw [H.translate S (by omega) (by rw [hpage]; exact hl), Option.isSome_map, hpage, Option.isSome_iff_exists,
        leafOf_isSome, or_iff_right hl]

/-- At the end the frames have lasted for the tables, and each page shows what it is to show. -/
theorem Stage.shows (G : Stage s₀ task pdpt pd pt elfData img (programPages img) (copiedTo img)
      (fun r => spilled img r (phdrs img)) s) :
    Fed img s₀.pmm.freeCount ∧ ∀ va < 2 ^ 47, va / 4096 ∈ programPages img → Shows s₀ s va (shown img s₀ va) := by
  cases G with
  | supplied log O Q hp hZ =>
    have hcount := Q.count S
    rw [hp, demand_reverse] at hcount
    have hframes : demand (programPages img) ≤ s₀.pmm.freeCount := by omega
    refine ⟨fed_of_demand hframes, fun va hva hmem => ?_⟩
    rw [shown, lostPages_eq_nil hframes, if_neg List.not_mem_nil]
    obtain ⟨x, hx, hu, hload⟩ := Q.load8 S hva (by rw [hp, List.mem_reverse]; exact hmem)
    exact shows_of_load hx hu hload
  | short log r hr hp hd ht H =>
    obtain ⟨hfed, hown⟩ := fed_of_take hd hr ht
    refine ⟨hfed, fun va hva hmem => ?_⟩
    rw [shown, frameZero, lostPages, hown]
    by_cases hl : va / 4096 ∈ (programPages img).drop r
    · rw [if_pos hl, ← H.zero _ (Nat.mod_lt _ (by decide))]
      refine .known _ ?_
      rw [Machine.load8, H.translate_lost hva hl]
    · rw [if_neg hl]
      obtain ⟨x, hx⟩ := leafOf_isSome.mpr (hp ▸ ((mem_take_drop r).mp hmem).resolve_left hl)
      obtain ⟨s₁, B₁, Q⟩ := H.prior
      obtain ⟨hlt, hu⟩ := Q.frame x (leafOf_eq_some hx).1
      have hdiv : (x.frame * 4096 + va % 4096) / 4096 = x.frame := by omega
      refine shows_of_load (x := x.frame * 4096 + va % 4096) (by rw [hdiv]; exact hlt) (by rw [hdiv]; exact hu) ?_
      rw [← H.content va x hl hx, Machine.load8, H.translate S hva hl, hx]
      rfl

variable (C : Carries s₀ elfData img) (A : Accepted img) (hwf : ∀ p ∈ loads img, p.WellFormed img)
include C A hwf

/-- `load_elf` of a well-formed file: the program is started, with every page mapped, or the frames do not
    last for the tables. -/
theorem loadElf_ends : Ends
    (fun o => ∃ s, o = (s, .sysret ⟨userStack, userStack, eEntry img, 0⟩) ∧
      Stage s₀ task pdpt pd pt elfData img (programPages img) (copiedTo img)
        (fun r => spilled img r (phdrs img)) s)
    (fun _ => ¬ Fed img s₀.pmm.freeCount) (loadElf task elfData s₀) := by
  have hhead := A.header
  have hstart : Stage s₀ task pdpt pd pt elfData img (allPages ((phdrs img).take 0)) (placed img ((phdrs img).take 0))
      (fun r => spilled img r ((phdrs img).take 0)) s₀ :=
    .supplied [] (Started.orderly S C) (.start S _) rfl fun _ _ => rfl
  have hstep : ∀ i (hi : i < (phdrs img).length) s,
      Stage s₀ task pdpt pd pt elfData img (allPages ((phdrs img).take i)) (placed img ((phdrs img).take i))
        (fun r => spilled img r ((phdrs img).take i)) s →
      Ends (Stage s₀ task pdpt pd pt elfData img (allPages ((phdrs img).take (i + 1)))
          (placed img ((phdrs img).take (i + 1))) fun r => spilled img r ((phdrs img).take (i + 1)))
        (fun _ => ¬ Fed img s₀.pmm.freeCount) (Elf.segment task elfData s (phdrs img)[i]) := fun i hi s G => by
    have hpre := allPages_prefix img (i + 1)
    simp only [spilled_take hi]
    rw [allPages_take hi, placed_take hi] at *
    by_cases ht : (phdrs img)[i].pType = PT_LOAD
    · simp only [if_pos ht] at hpre ⊢
      exact G.segment S C ht (hwf _ (List.mem_filter.mpr ⟨List.getElem_mem hi, by simpa using ht⟩)) hpre
    · simp only [if_neg ht, List.append_nil]
      rw [Elf.segment, if_neg ht]
      exact .ok G
  rw [loadElf_accepted A C S.toWindow, loadProgram, field_eq C S.toWindow (by omega), ok_bind,
    show (bytes img).loadLE 32 8 = ePhoff img from rfl,
    segmentLoop_eq A (I := fun i s => Stage s₀ task pdpt pd pt elfData img (allPages ((phdrs img).take i))
      (placed img ((phdrs img).take i)) (fun r => spilled img r ((phdrs img).take i)) s)
      (fun i s G => ⟨G.orderly.carries, G.orderly.toWindow⟩) (fun i hi s s' G h => (hstep i hi s G).of_ok h)
      (2 ^ 16) 0 s₀ hstart (by have := ePhnum_lt img; omega), List.drop_zero]
  refine (foldlM_ends hstep hstart).bind fun s₁ G => ?_
  rw [List.take_length] at G
  rw [field_eq G.orderly.carries G.orderly.toWindow (by omega), ok_bind]
  have hv : userStack / 4096 < userPages := by decide
  have hfl : (0x7 : ℕ) = 0x5 ∨ (0x7 : ℕ) = 0x7 := .inr rfl
  have hmap := G.map S hv hfl (List.prefix_refl _)
  exact hmap.bind fun s₂ G' => .ok ⟨s₂, rfl, G'⟩

theorem loadElf_fed (hfed : Fed img s₀.pmm.freeCount) : ∃ s u, loadElf task elfData s₀ = .ok (s, .sysret u) := by
  have hends := loadElf_ends S C A hwf
  cases h : loadElf task elfData s₀ with
  | ok o =>
    obtain ⟨s, rfl, _⟩ := hends.of_ok h
    exact ⟨s, _, rfl⟩
  | error stop => exact absurd hfed (hends.of_error h)

theorem loadElf_shows {u : UserStart} (h : loadElf task elfData s₀ = .ok (s, .sysret u)) :
    Fed img s₀.pmm.freeCount ∧ (∀ v, v ∈ mappedPages s ↔ v ∈ programPages img) ∧
      ∀ va, va / 4096 ∈ programPages img → Shows s₀ s va (shown img s₀ va) := by
  obtain ⟨s', heq, G⟩ := (loadElf_ends S C A hwf).of_ok h
  obtain ⟨rfl, -⟩ := Prod.mk.inj heq
  obtain ⟨hfed, hshows⟩ := G.shows S
  have hlow : ∀ v ∈ programPages img, v < 2 ^ 35 := fun v hv => by
    have := programPages_lt hwf v hv
    simp only [userStack] at this
    omega
  refine ⟨hfed, fun v => ?_, fun va hmem => hshows va ?_ hmem⟩
  · rw [G.mem_mappedPages S]
    exact and_iff_right_of_imp (hlow v)
  · have := hlow _ hmem
    omega

end

/-- With four frames free the empty segment's page takes them all, and frame 0 is all that the program sees. -/
theorem concealed_stackPage {s₀ : Machine} (hfour : s₀.pmm.freeCount = 4) :
    Fed stackPageElf s₀.pmm.freeCount ∧ Concealed stackPageElf s₀ := by
  have hpages : programPages stackPageElf = [userStack / 4096, userStack / 4096] := by
    rw [programPages, allPages_stackPageElf]
    rfl
  have htables : tablesFor [userStack / 4096, userStack / 4096] = tablesFor [userStack / 4096] := by simp [tablesFor]
  have hcard : (tablesFor [userStack / 4096]).card = 3 := by
    have := demand_single (userStack / 4096)
    rw [demand, List.length_singleton] at this
    omega
  have hown : ownPages stackPageElf 4 = 1 := by rw [ownPages, hpages, htables, hcard]
  have hlost : lostPages stackPageElf 4 = [userStack / 4096] := by rw [lostPages, hown, hpages]; rfl
  rw [hfour]
  refine ⟨⟨by rw [hpages, htables, hcard]; decide, by rw [hown, hpages, htables]; rfl⟩, fun va hmem hl => ?_, ?_, ?_⟩
  · rw [hfour, hlost] at hl
    exact absurd (by simpa [hpages] using hmem) hl
  · rw [loads_stackPageElf, List.forall_mem_singleton]
    intro va h1 h2
    simp only at h1 h2
    omega
  · rw [loads_stackPageElf, List.forall_mem_singleton]
    intro va h1 h2
    simp only at h1 h2
    omega

section
variable {s₀ s : Machine} {task : Task} {elfData pdpt pd pt : ℕ} {img : List UInt8} {va : ℕ}

theorem Shows.of_known {o : Option UInt8} {b : UInt8} (h : Shows s₀ s va o) (ho : o = some b) :
    s.load8 va = .ok b := by
  cases h with
  | known _ h => rw [h, Option.some.inj ho]
  | old => cases ho

/-- What is shown depends on used frames only. -/
theorem shown_congr {s₁ : Machine} (S : Started s₀ task pdpt pd pt) (F : SameButFree s₀ s₁) :
    shown img s₁ va = shown img s₀ va := by
  have hzero : s₁.phys (va % 4096) = s₀.phys (va % 4096) := F.used (by
    rw [Nat.div_eq_of_lt (Nat.mod_lt _ (by decide))]
    exact S.reserved 0 (by decide))
  unfold shown frameZero
  rw [F.freeCount, hzero]

variable (S : Started s₀ task pdpt pd pt) (C : Carries s₀ elfData img) (A : Accepted img)
  (hwf : ∀ p ∈ loads img, p.WellFormed img)
include S C A hwf

/-- A byte that is not known: filling the free frames changes it. -/
theorem loadElf_unknown (hfed : Fed img s₀.pmm.freeCount) (hmem : va / 4096 ∈ programPages img)
    (hno : shown img s₀ va = none) : ∃ s₁ s s' u u', SameButFree s₀ s₁ ∧
      loadElf task elfData s₀ = .ok (s, .sysret u) ∧ loadElf task elfData s₁ = .ok (s', .sysret u') ∧
      va / 4096 ∈ mappedPages s \ mappedPages s₀ ∧ s.load8 va ≠ s'.load8 va := by
  obtain ⟨s, u, hs⟩ := loadElf_fed S C A hwf hfed
  obtain ⟨_, hpages, hshows⟩ := loadElf_shows S C A hwf hs
  have h := hshows va hmem
  rw [hno] at h
  cases h with
  | old x _ _ hload =>
    have hbyte := byte_succ_ne (s₀.phys x)
    generalize hc : s₀.phys x + 1 = c at hbyte
    have F := sameButFree_fillFree s₀ c
    have S₁ := F.started S
    have C₁ := F.carries S C
    obtain ⟨s', u', hs'⟩ := loadElf_fed S₁ C₁ A hwf (F.freeCount.symm ▸ hfed)
    have h' := (loadElf_shows S₁ C₁ A hwf hs').2.2 va hmem
    rw [shown_congr S F, hno] at h'
    cases h' with
    | old y hy hu hload' =>
      refine ⟨_, s, s', u, u', F, hs, hs', ?_, fun he => ?_⟩
      · rw [mappedPages_started S, Set.sdiff_empty]
        exact (hpages _).mpr hmem
      rw [hload, hload', @fillFree_free s₀ c y hy hu] at he
      exact hbyte (Except.ok.inj he).symm

end

section
variable {s₀ : Machine} {img : List UInt8}

/-- With frames for everything, no program is kept from what they held. -/
theorem not_concealed (h : demand (programPages img) ≤ s₀.pmm.freeCount) : ¬ Concealed img s₀ := fun hc => by
  have hstack := @Concealed.isSome img s₀ userStack hc (List.mem_append_right _ (by simp))
  rw [shown_stack h] at hstack
  cases hstack

/-- Below the page of the stack nothing needs the tables of the stack: a program is started only with frames
    for everything. -/
theorem fed_iff_of_below (hbelow : ∀ p ∈ loads img, p.pVaddr + p.pMemsz < userStack) {frames : ℕ} :
    Fed img frames ↔ demand (programPages img) ≤ frames := by
  refine ⟨fun h => ?_, fed_of_demand⟩
  by_contra hlt
  have hown : ownPages img frames ≤ (allPages (phdrs img)).length := by
    have hlen : (programPages img).length = (allPages (phdrs img)).length + 1 := by
      rw [programPages, List.length_append, List.length_singleton]
    have := h.1
    unfold demand at hlt
    unfold ownPages
    omega
  have hmem : path (userStack / 4096 * 4096) ∈ tablesFor (allPages (phdrs img)) := by
    refine tablesFor_mono (l := (programPages img).take (ownPages img frames)) ?_ ?_
    · rw [programPages, List.take_append_of_le_length hown]
      exact List.take_subset _ _
    · rw [h.2]
      exact mem_tablesFor.mpr ⟨_, List.mem_append_right _ (by simp), by simp [path], List.prefix_refl _⟩
  obtain ⟨v, hv, _, hpath⟩ := mem_tablesFor.mp hmem
  obtain ⟨p, hp, hv⟩ := List.mem_flatMap.mp hv
  have hend := hbelow p hp
  rw [Phdr.mem_pages] at hv
  have hkey := congrArg Fin.val (List.cons.inj (hpath.eq_of_length (by simp [path]))).1
  rw [index_val, index_val] at hkey
  simp only [userStack] at hend hkey
  omega

/-- An image that stays below the stack's page is kept from the free frames only by not being started. -/
theorem concealed_iff_of_below (hbelow : ∀ p ∈ loads img, p.pVaddr + p.pMemsz < userStack) :
    (Fed img s₀.pmm.freeCount → Concealed img s₀) ↔ s₀.pmm.freeCount < demand (programPages img) := by
  refine ⟨fun h => ?_, fun h hfed => ?_⟩
  · by_contra hle
    exact not_concealed (not_lt.mp hle) (h (fed_of_demand (not_lt.mp hle)))
  · have := (fed_iff_of_below hbelow).mp hfed
    omega

end

end TerraOS.Elf
