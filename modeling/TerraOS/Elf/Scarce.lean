import TerraOS.Elf.Supply

/-! Past the last free frame.

    From the page on that there is no frame for, all pages lie in frame 0, if their tables are there, and
    the file bytes copied to them go to frame 0, over one another (`spilled`). The frames last for the
    tables (`Fed`) if the pages that get frames of their own need all of them. `Short` is the invariant:
    mapping a page loses it or panics (`Short.map`), and a byte goes to a page's own frame or to frame 0
    (`Short.store`). -/

namespace TerraOS.Elf
open Lib Lib.Word Pmm Vmm

/-! ### Bytes that go to frame 0 -/

/-- The first `n` bytes of a segment copied, with the lost pages in frame 0. -/
def spillBytes (img : List UInt8) (lost : List ℕ) (Z : ℕ → Option UInt8) (p : Phdr) : ℕ → ℕ → Option UInt8
  | 0 => Z
  | n + 1 =>
    if (p.pVaddr + n) / 4096 ∈ lost then
      Function.update (spillBytes img lost Z p n) ((p.pVaddr + n) % 4096) (some (bytes img (p.pOffset + n)))
    else spillBytes img lost Z p n

/-- One more header; of the pages mapped all but the first `r` are lost. -/
def spillSegment (img : List UInt8) (r : ℕ) (d : List ℕ × (ℕ → Option UInt8)) (p : Phdr) :
    List ℕ × (ℕ → Option UInt8) :=
  (d.1 ++ p.pages, spillBytes img ((d.1 ++ p.pages).drop r) d.2 p p.pFilesz)

/-- The bytes that `PT_LOAD` headers leave in frame 0. -/
def spilled (img : List UInt8) (r : ℕ) (ps : List Phdr) : ℕ → Option UInt8 :=
  ((ps.filter (·.pType = PT_LOAD)).foldl (spillSegment img r) ([], fun _ => none)).2

theorem spillBytes_nil (img : List UInt8) (Z : ℕ → Option UInt8) (p : Phdr) : ∀ n, spillBytes img [] Z p n = Z
  | 0 => rfl
  | n + 1 => by rw [spillBytes, if_neg List.not_mem_nil, spillBytes_nil]

theorem spillSegment_pages (img : List UInt8) (r : ℕ) : ∀ (ps : List Phdr) (d : List ℕ × (ℕ → Option UInt8)),
    (ps.foldl (spillSegment img r) d).1 = d.1 ++ ps.flatMap Phdr.pages
  | [], d => by simp
  | p :: ps, d => by
    rw [List.foldl_cons, spillSegment_pages img r ps, List.flatMap_cons, ← List.append_assoc]
    rfl

theorem spilled_take {img : List UInt8} {r : ℕ} {ps : List Phdr} {i : ℕ} (h : i < ps.length) :
    spilled img r (ps.take (i + 1)) = if ps[i].pType = PT_LOAD then
        spillBytes img ((allPages (ps.take i) ++ ps[i].pages).drop r) (spilled img r (ps.take i)) ps[i] ps[i].pFilesz
      else spilled img r (ps.take i) := by
  unfold spilled
  rw [List.take_succ_eq_append_getElem h, List.filter_append, List.foldl_append]
  by_cases ht : ps[i].pType = PT_LOAD
  · have hpages := spillSegment_pages img r ((ps.take i).filter (·.pType = PT_LOAD)) ([], fun _ => none)
    rw [List.nil_append] at hpages
    rw [List.filter_singleton, if_pos ht]
    simp only [ht, decide_true, cond_true, List.foldl_cons, List.foldl_nil, spillSegment]
    rw [hpages]
    rfl
  · rw [List.filter_singleton, if_neg ht]
    simp only [ht, decide_false, cond_false, List.foldl_nil]

/-- One byte more of a segment. -/
theorem fill_succ (img : List UInt8) (B : ℕ → Option UInt8) (p : Phdr) (n : ℕ) :
    fill img B { p with pFilesz := n + 1 }
      = Function.update (fill img B { p with pFilesz := n }) (p.pVaddr + n) (some (bytes img (p.pOffset + n))) := by
  funext va
  by_cases hva : va = p.pVaddr + n
  · rw [hva, Function.update_self, fill, if_pos ⟨by simp, by simp⟩]
    simp
  · rw [Function.update_of_ne hva]
    have hiff : (p.pVaddr ≤ va ∧ va < p.pVaddr + (n + 1)) ↔ (p.pVaddr ≤ va ∧ va < p.pVaddr + n) := by omega
    simp only [fill, hiff]

theorem fill_zero (img : List UInt8) (B : ℕ → Option UInt8) (p : Phdr) : fill img B { p with pFilesz := 0 } = B := by
  funext va
  exact if_neg (by simp only; omega)

theorem forgetAll_snoc (B : ℕ → Option UInt8) (vs : List ℕ) (v : ℕ) :
    forget (forgetAll B vs) v = forgetAll B (vs ++ [v]) := by
  funext va
  simp only [forgetAll, forget, List.mem_append, List.mem_singleton]
  by_cases h : va / 4096 = v <;> simp [h]

/-! ### Frames for the tables -/

/-- A page whose table is there needs no other. -/
theorem tablesFor_snoc {l : List ℕ} {v : ℕ} (h : path (v * 4096) ∈ tablesFor l) :
    tablesFor (l ++ [v]) = tablesFor l := by
  refine Finset.Subset.antisymm (fun p hp => ?_) (tablesFor_mono (List.subset_append_left _ _))
  obtain ⟨w, hw, hne, hpre⟩ := mem_tablesFor.mp hp
  rcases List.mem_append.mp hw with hw | hw
  · exact mem_tablesFor.mpr ⟨w, hw, hne, hpre⟩
  · obtain rfl := List.mem_singleton.mp hw
    obtain ⟨u, hu, _, hu'⟩ := mem_tablesFor.mp h
    exact mem_tablesFor.mpr ⟨u, hu, hne, hpre.trans hu'⟩

theorem tablesFor_reverse (l : List ℕ) : tablesFor l.reverse = tablesFor l := by
  rw [tablesFor, tablesFor, List.toFinset_reverse]

/-- So many pages get frames of their own, where the tables get theirs. -/
def ownPages (img : List UInt8) (frames : ℕ) : ℕ := frames - (tablesFor (programPages img)).card

/-- The pages that are mapped to frame 0. -/
def lostPages (img : List UInt8) (frames : ℕ) : List ℕ := (programPages img).drop (ownPages img frames)

/-- The frames last for the tables: the pages that get frames of their own need all of them. -/
def Fed (img : List UInt8) (frames : ℕ) : Prop :=
  (tablesFor (programPages img)).card ≤ frames ∧
    tablesFor ((programPages img).take (ownPages img frames)) = tablesFor (programPages img)

section
variable {img : List UInt8} {frames v : ℕ} {l : List ℕ}

/-- A page there is no frame for finds its table. -/
theorem Fed.table (h : Fed img frames) (hpre : l ++ [v] <+: programPages img) (hlt : frames < demand (l ++ [v])) :
    path (v * 4096) ∈ tablesFor l := by
  have hl : l <+: programPages img := (List.prefix_append _ _).trans hpre
  have hcard := Finset.card_le_card (tablesFor_mono hpre.subset)
  have hown : ownPages img frames ≤ l.length := by
    unfold demand at hlt
    rw [List.length_append, List.length_singleton] at hlt
    unfold ownPages
    omega
  have htake : (programPages img).take (ownPages img frames) ⊆ l := by
    rw [List.prefix_iff_eq_take.mp hl]
    exact (List.take_prefix_take_left hown).subset
  refine tablesFor_mono htake ?_
  rw [h.2]
  exact mem_tablesFor.mpr ⟨v, hpre.subset (by simp), by simp [path], List.prefix_refl _⟩

/-- Frames for everything are enough. -/
theorem fed_of_demand (h : demand (programPages img) ≤ frames) : Fed img frames := by
  unfold demand at h
  refine ⟨by omega, ?_⟩
  rw [List.take_of_length_le (by unfold ownPages; omega)]

/-- And so are frames for some of the pages that have all tables. -/
theorem fed_of_take {r : ℕ} (hr : demand ((programPages img).take r) = frames) (hle : r ≤ (programPages img).length)
    (ht : tablesFor (programPages img) = tablesFor ((programPages img).take r)) :
    Fed img frames ∧ ownPages img frames = r := by
  have hown : ownPages img frames = r := by
    rw [ownPages, ← hr, demand, ← ht, List.length_take, min_eq_left hle, Nat.add_sub_cancel]
  refine ⟨⟨?_, by rw [hown, ht]⟩, hown⟩
  rw [← hr, demand, ← ht]
  omega

end

/-! ### From the last frame on -/

/-- No frame is left: the pages of the log have frames of their own, but for the lost ones, which lie in
    frame 0. `B` has the bytes copied to the former, `Z` those copied to frame 0. -/
structure Short (s₀ : Machine) (task : Task) (pdpt pd pt elfData : ℕ) (img : List UInt8) (log : List Leaf)
    (lost : List ℕ) (B Z : ℕ → Option UInt8) (s : Machine) : Prop extends Orderly s task pdpt pd pt elfData img where
  full : Full s
  prior : ∃ s₁ B₁, Progress s₀ task pdpt pd pt log B₁ s₁
  lostLeaf : ∀ v < userPages, v ∈ lost → ∃ flags, (flags = 0x5 ∨ flags = 0x7) ∧
    s.entry (pageKey v).1 (pageKey v).2 = some flags
  ownLeaf : ∀ v < userPages, v ∉ lost → s.entry (pageKey v).1 (pageKey v).2 = (leafOf log v).map Leaf.entry
  reached : ∀ v < userPages, (∃ n, s.table (path (v * 4096)) = some n) ↔ path (v * 4096) ∈ tablesFor (pagesOf log)
  content : ∀ va l, va / 4096 ∉ lost → leafOf log (va / 4096) = some l →
    s.phys (l.frame * 4096 + va % 4096) = (B va).getD (s₀.phys (l.frame * 4096 + va % 4096))
  zero : ∀ o < 4096, s.phys o = (Z o).getD (s₀.phys o)

section
variable {s₀ s s' : Machine} {task : Task} {pdpt pd pt elfData v f flags : ℕ} {img : List UInt8} {log : List Leaf}
  {lost : List ℕ} {B Z : ℕ → Option UInt8} {a : Pmm}

/-- With no frame left no table is made. -/
theorem Full.table (F : Full s) (R : Ready s task pdpt pd pt) (T : Taken s f a) (hfl : flags = 0x5 ∨ flags = 0x7)
    (M : Mapped flags (v * 4096) (f * 4096 ||| flags) { s with pmm := a } s' pdpt pd pt) {p : List (Fin 512)}
    (hp : p.length ≤ 3) : s'.table p = s.table p := by
  obtain ⟨g, G, _, htab, _⟩ := M.upper (leaf_lt T.lt hfl)
  rw [htab p hp]
  cases hs : s.table p with
  | some n => exact G.table (s := { s with pmm := a }) hp hs
  | none =>
    cases hg : g.table p with
    | none => rfl
    | some n =>
      rcases G.table_or_free (T.size ▸ R.size) (leaf_flagBits hfl) hp hg with h | ⟨hlt, hu⟩
      · exact absurd (hs.symm.trans h) (by simp)
      · rw [T.used (F n (T.size ▸ hlt))] at hu
        cases hu

theorem Written.table (w : Written s s') {p : List (Fin 512)} (hp : p.length ≤ 3) : s'.table p = s.table p := by
  rcases List.eq_nil_or_concat p with rfl | ⟨q, i, rfl⟩
  · rw [Machine.table_nil, Machine.table_nil, w.same]
    rfl
  · rw [List.concat_eq_append] at hp ⊢
    rw [List.length_append, List.length_singleton] at hp
    rw [table_snoc, table_snoc, w.entry q i (by omega)]

section
variable (S : Started s₀ task pdpt pd pt)
include S

/-- Where the frames are used up. -/
theorem Progress.short (Q : Progress s₀ task pdpt pd pt log B s) (O : Orderly s task pdpt pd pt elfData img)
    (F : Full s) : Short s₀ task pdpt pd pt elfData img log [] B (fun _ => none) s where
  toOrderly := O
  full := F
  prior := ⟨s, B, Q⟩
  lostLeaf _ _ h := absurd h List.not_mem_nil
  ownLeaf v hv _ := Q.leaf v hv
  reached v hv := by
    constructor
    · rintro ⟨n, hn⟩
      rcases Q.tables _ n (by simp [path]) hn with h | ⟨_, _, _, h⟩
      · rw [table_none_below (q := path (v * 4096)) (Started.no_table S hv) ⟨_, rfl⟩] at h
        cases h
      · exact h
    · intro h
      obtain ⟨w, hw, _, hpre⟩ := mem_tablesFor.mp h
      obtain ⟨l, hl, rfl⟩ := List.mem_map.mp hw
      rw [hpre.eq_of_length (by simp [path])]
      exact Q.reached l hl
  content va l _ hl := Q.content va l hl
  zero o ho := by
    refine Q.bytes o (fun p hp => ?_) fun l hl he => ?_
    · rw [Nat.div_eq_of_lt ho]
      exact O.nonzero p hp
    · have := (Q.frame_bounds S hl).1
      omega

variable (H : Short s₀ task pdpt pd pt elfData img log lost B Z s)
include H

/-- A frame of a page lies above the kernel, and is no table. -/
theorem Short.own {l : Leaf} (hv : v ∉ lost) (hl : leafOf log v = some l) :
    512 ≤ l.frame ∧ l.frame < 2 ^ 40 ∧ ∃ e, s.entry (pageKey v).1 (pageKey v).2 = some e ∧ Vmm.frame e = l.frame ∧
      Backed s e := by
  obtain ⟨s₁, B₁, Q⟩ := H.prior
  obtain ⟨hmem, rfl⟩ := leafOf_eq_some hl
  obtain ⟨h512, h40⟩ := Q.frame_bounds S hmem
  have hlt := Q.page l hmem
  have he := H.ownLeaf _ hlt hv
  rw [hl, Option.map_some] at he
  refine ⟨h512, h40, _, he, ?_, H.backed _ hlt _ he⟩
  rw [Leaf.entry, frame_or (leaf_flagBits (Q.flags l hmem)).2, frame_page h40]

omit S in
theorem Short.translate_lost {va : ℕ} (hva : va < 2 ^ 47) (hl : va / 4096 ∈ lost) :
    s.translate va = some (va % 4096) := by
  obtain ⟨flags, hfl, he⟩ := H.lostLeaf (va / 4096) (by simp only [userPages]; omega) hl
  rw [pageKey_div] at he
  rw [translate_of_walk (.inl hva) he, frame_eq]
  rcases hfl with rfl | rfl <;> simp

theorem Short.translate {va : ℕ} (hva : va < 2 ^ 47) (hl : va / 4096 ∉ lost) :
    s.translate va = (leafOf log (va / 4096)).map fun l => l.frame * 4096 + va % 4096 := by
  have hwalk : walk s.phys s.root va = (leafOf log (va / 4096)).map Leaf.entry := by
    have h := H.ownLeaf (va / 4096) (by simp only [userPages]; omega) hl
    rw [pageKey_div] at h
    exact h
  cases h : leafOf log (va / 4096) with
  | none => rw [Machine.translate, if_pos (.inl hva), hwalk, h]; rfl
  | some l =>
    obtain ⟨_, _, e, he, hf, _⟩ := H.own S hl h
    rw [pageKey_div] at he
    rw [translate_of_walk (.inl hva) he, hf]
    rfl

/-- A page mapped with no frame left is lost, or its table is missing and the call panics. -/
theorem Short.map (hv : v < userPages) (hfl : flags = 0x5 ∨ flags = 0x7) :
    Ends (fun s' => Short s₀ task pdpt pd pt elfData img log (lost ++ [v]) (forget B v) Z s' ∧
        path (v * 4096) ∈ tablesFor (pagesOf log))
      (fun _ => path (v * 4096) ∉ tablesFor (pagesOf log)) (mapFrame task s (v * 4096) flags) := by
  obtain ⟨f, a, T, h⟩ := mapFrame_outcome H.toReady hv hfl
  refine h.imp (fun s' M => ?_) fun stop ⟨_, G, hno⟩ hmem => ?_
  · have hleaf := leaf_lt T.lt hfl
    have htab := fun p hp => H.full.table H.toReady T hfl M (p := p) hp
    have O := H.toOrderly.mapped T hv hfl M
    have hnew := Mapped.leaf_new T hfl M
    rw [T.none H.full, Nat.zero_mul, Nat.zero_or] at hnew
    have hbytes : ∀ x, (∀ p, p.length ≤ 3 → s.table p ≠ some (x / 4096)) → s'.phys x = s.phys x := fun x hx =>
      M.bytes hleaf fun p hp => by rw [htab p hp]; exact hx p hp
    refine ⟨⟨O, H.full.mapped T hfl M, H.prior, fun w hw hl => ?_, fun w hw hl => ?_, fun w hw => ?_,
      fun va l hl hlog => ?_, fun o ho => ?_⟩, ?_⟩
    · by_cases hwv : w = v
      · exact ⟨flags, hfl, hwv ▸ hnew⟩
      · rw [Mapped.leaf_old T hv hfl M hw hwv]
        exact H.lostLeaf w hw (by simpa [hwv] using hl)
    · simp only [List.mem_append, List.mem_singleton, not_or] at hl
      rw [Mapped.leaf_old T hv hfl M hw hl.2]
      exact H.ownLeaf w hw hl.1
    · rw [htab _ (by simp [path])]
      exact H.reached w hw
    · simp only [List.mem_append, List.mem_singleton, not_or] at hl
      obtain ⟨_, _, e, _, hf, b⟩ := H.own S hl.1 hlog
      rw [forget, if_neg hl.2, hbytes]
      · exact H.content va l hl.1 hlog
      · rw [show (l.frame * 4096 + va % 4096) / 4096 = l.frame by omega, ← hf]
        exact b.spare
    · rw [hbytes o (by rw [Nat.div_eq_of_lt ho]; exact H.nonzero)]
      exact H.zero o ho
    · refine (H.reached v hv).mp ?_
      obtain ⟨n, hn⟩ := table_of_present (Mapped.leaf_new T hfl M)
      exact ⟨n, by rw [← htab _ (by simp [path])]; exact hn⟩
  · obtain ⟨n, hn⟩ := (H.reached v hv).mpr hmem
    rw [G.table (s := { s with pmm := a }) (by simp [path]) hn] at hno
    cases hno

/-- Where a mapped page's byte is. -/
theorem Short.spot {va : ℕ} (hva : va < 2 ^ 47) (hmem : va / 4096 ∈ lost ∨ va / 4096 ∈ pagesOf log) :
    ∃ x, s.translate va = some x ∧ (va / 4096 ∈ lost → x = va % 4096) ∧
      (va / 4096 ∉ lost → ∃ l, leafOf log (va / 4096) = some l ∧ x = l.frame * 4096 + va % 4096) := by
  by_cases hl : va / 4096 ∈ lost
  · exact ⟨_, H.translate_lost hva hl, fun _ => rfl, fun h => absurd hl h⟩
  · obtain ⟨l, hlog⟩ := leafOf_isSome.mpr (hmem.resolve_left hl)
    exact ⟨_, by rw [H.translate S hva hl, hlog, Option.map_some], fun h => absurd h hl, fun _ => ⟨l, hlog, rfl⟩⟩

/-- A byte stored. -/
theorem Short.store {va : ℕ} (hva : va < 2 ^ 47) (hmem : va / 4096 ∈ lost ∨ va / 4096 ∈ pagesOf log) (b : UInt8) :
    ∃ s', s.store8 va b = .ok s' ∧ Short s₀ task pdpt pd pt elfData img log lost (Function.update B va (some b))
      (if va / 4096 ∈ lost then Function.update Z (va % 4096) (some b) else Z) s' := by
  obtain ⟨s₁, B₁, Q⟩ := H.prior
  obtain ⟨x, hx, hlost, hown⟩ := H.spot S hva hmem
  have hstore : s.store8 va b = .ok { s with phys := s.phys.store8 x b } := by
    unfold Machine.store8
    rw [hx]
  have hcopied : Copied s task pdpt pd pt elfData img s := ⟨H.toOrderly, written_refl s⟩
  obtain ⟨O, w⟩ := (hcopied.store8 (by omega) b).of_ok hstore
  refine ⟨_, hstore, O, H.full, H.prior, fun w' hw hl => ?_, fun w' hw hl => ?_, fun w' hw => ?_,
    fun va' l' hl' hlog' => ?_, fun o ho => ?_⟩
  · rw [w.entry _ _ (by simp [pageKey, path])]
    exact H.lostLeaf w' hw hl
  · rw [w.entry _ _ (by simp [pageKey, path])]
    exact H.ownLeaf w' hw hl
  · rw [w.table (by simp [path])]
    exact H.reached w' hw
  · have h512 := (H.own S hl' hlog').1
    by_cases he : va' = va
    · obtain ⟨l, hlog, hxl⟩ := hown (he ▸ hl')
      rw [he, hlog] at hlog'
      obtain rfl := Option.some.inj hlog'
      rw [he, Function.update_self, ← hxl]
      exact Mem.store8_self _ _ _
    · rw [Function.update_of_ne he, ← H.content va' l' hl' hlog']
      refine Mem.store8_out fun hxe => ?_
      by_cases hl : va / 4096 ∈ lost
      · have := hlost hl
        omega
      · obtain ⟨l, hlog, hxl⟩ := hown hl
        refine he (Q.place_inj hlog' hlog ?_)
        rw [place_of_leaf hlog', place_of_leaf hlog, ← hxl]
        exact hxe
  · by_cases hl : va / 4096 ∈ lost
    · rw [if_pos hl, hlost hl]
      by_cases he : o = va % 4096
      · rw [he, Function.update_self]
        exact Mem.store8_self _ _ _
      · rw [Function.update_of_ne he, ← H.zero o ho]
        exact Mem.store8_out he
    · rw [if_neg hl, ← H.zero o ho]
      obtain ⟨l, hlog, hxl⟩ := hown hl
      have h512 := (H.own S hl hlog).1
      exact Mem.store8_out (by omega)

omit H in
/-- The rest of a segment's file bytes copied, onto mapped pages. -/
theorem Short.copyLoop {p : Phdr} (W : p.WellFormed img)
    (hpages : ∀ k < p.pFilesz, (p.pVaddr + k) / 4096 ∈ lost ∨ (p.pVaddr + k) / 4096 ∈ pagesOf log) :
    ∀ {fuel i : ℕ} {s : Machine}, i ≤ p.pFilesz → p.pFilesz ≤ i + fuel →
    Short s₀ task pdpt pd pt elfData img log lost (fill img B { p with pFilesz := i }) (spillBytes img lost Z p i) s →
    ∃ s', memcpyLoop pagedBus p.pVaddr (add64 elfData p.pOffset) p.pFilesz fuel i s = .ok s' ∧
      Short s₀ task pdpt pd pt elfData img log lost (fill img B p) (spillBytes img lost Z p p.pFilesz) s'
  | 0, i, s, hi, hf, H => by
    obtain rfl : i = p.pFilesz := by omega
    exact ⟨s, rfl, H⟩
  | fuel + 1, i, s, hi, hf, H => by
    have h1 := W.below
    have h2 := W.sizes
    have h3 := W.small
    have h4 := W.inFile
    have hlt := H.carries.end_lt
    simp only [userStack] at h1
    rw [memcpyLoop, sext32_of_lt (by omega)]
    by_cases hc : i < p.pFilesz
    · have hsrc : add64 (add64 elfData p.pOffset) i = elfData + (p.pOffset + i) := by
        rw [add64_of_lt (show elfData + p.pOffset < 2 ^ 64 by omega), add64_of_lt (by omega), Nat.add_assoc]
      have hva : p.pVaddr + i < 2 ^ 47 := by omega
      obtain ⟨s₁, hs₁, H₁⟩ := H.store S hva (hpages i hc) (bytes img (p.pOffset + i))
      have hread : pagedBus.rd s (add64 (add64 elfData p.pOffset) i) = .ok (bytes img (p.pOffset + i)) := by
        rw [hsrc]
        exact H.carries.load8 H.toWindow (by omega)
      have hwrite : pagedBus.wr s (add64 p.pVaddr i) (bytes img (p.pOffset + i)) = .ok s₁ := by
        rw [add64_of_lt (by omega)]
        exact hs₁
      rw [if_pos hc, hread, ok_bind, hwrite, ok_bind, Nat.mod_eq_of_lt (by omega)]
      refine Short.copyLoop W hpages hc (by omega) ?_
      rw [fill_succ]
      exact H₁
    · obtain rfl : i = p.pFilesz := by omega
      exact ⟨s, if_neg hc, H⟩

end

end

end TerraOS.Elf
