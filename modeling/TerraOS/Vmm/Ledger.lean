import TerraOS.Vmm.Places

/-! Where the frames are.

    `pmm_alloc`, `map_page` and `unmap_page` keep no list of the frames they hand out; the page tables and
    the callers are the only record. As long as no page table is emptied the record is complete: a frame
    in use was in use at boot, is held by a caller, or stands in the tree (`frames_accounted`). -/

namespace TerraOS.Vmm
open Lib Lib.Word Pmm

/-- The frames in use are those of `base`, the held ones and those in the tree. No frame of `base` is
    held, or mapped as a page. -/
structure Ledger (base : ℕ → Prop) (s : Session) : Prop where
  kept : ∀ n, base n → s.machine.pmm.used n = true
  known : ∀ n, s.machine.pmm.used n = true →
    base n ∨ n * 4096 ∈ s.held ∨ ∃ p, Place p ∧ s.machine.table p = some n
  held : ∀ n, n * 4096 ∈ s.held → ¬ base n
  pages : ∀ p n, p.length = 4 → Place p → s.machine.table p = some n → ¬ base n

section
variable {base : ℕ → Prop} {s s' : Session} {va e : ℕ}

theorem Ledger.alloc (L : Ledger base s) (S : Sound s) (h : Op.run s .alloc = .ok s') : Ledger base s' := by
  obtain ⟨_, _, _, P, _⟩ := S.running
  obtain rfl := Except.ok.inj h
  rcases P.toFrames.ok.alloc with ⟨_, ha⟩ | ⟨k, h0, hlt, hu, _, ha⟩
  · simp only [ha]
    exact L
  have hne : ¬ k * 4096 = 0 := by omega
  simp only [ha, if_neg hne]
  have hset : ∀ n, Pmm.used { s.machine.pmm with memBitmap := Bits.set s.machine.pmm.memBitmap k } n
      = (decide (n = k) || s.machine.pmm.used n) := fun n => Bits.bit_set _ _ _
  have hfresh : ¬ base k := fun hb => by
    rw [L.kept k hb] at hu
    cases hu
  refine ⟨fun n hn => ?_, fun n hn => ?_, fun n hn => ?_, L.pages⟩
  · rw [hset, L.kept n hn, Bool.or_true]
  · rw [hset, Bool.or_eq_true, decide_eq_true_iff] at hn
    rcases hn with rfl | hn
    · exact .inr (.inl List.mem_cons_self)
    · exact (L.known n hn).imp_right (Or.imp_left (List.mem_cons_of_mem _))
  · rcases List.mem_cons.mp hn with hnk | hn
    · rw [show n = k by omega]
      exact hfresh
    · exact L.held n hn

theorem Ledger.map {c : MapCall} (L : Ledger base s) (S : Sound s) (A : MapsHeld s c)
    (hno : walk s.machine.phys s.machine.root c.va = none) (h : Op.run s (.map c) = .ok s') :
    Ledger base s' := by
  have S' := map_sound S A h
  obtain ⟨_, _, _, P, _⟩ := S.running
  obtain ⟨A, hheld⟩ := A
  obtain ⟨m, held'⟩ := s'
  obtain ⟨hm, rfl⟩ := map_run h
  obtain ⟨k, hk, _, _, hku, _⟩ := S.held _ hheld
  have M := A.mapped P hm
  have hleaf := A.leaf_lt
  have hpres : (c.pa ||| c.flags) &&& 0x1 ≠ 0 := or_present A.flags_present
  have hfr := A.frame_leaf hk
  have hfl : FlagBits c.flags := flagBits_of_lt (by have := A.flags_lt; omega)
  have hw := path_ne_window A.canonical A.outside
  have hpage : Place (path c.va ++ [index 12 c.va]) := place_leaf rfl hw _
  have hself : m.table (path c.va ++ [index 12 c.va]) = some k := by
    rw [table_snoc, M.entry_self hleaf hpres, Option.map_some, hfr]
  -- every place keeps what stood there
  have hkeep : ∀ p n, Place p → s.machine.table p = some n → m.table p = some n := fun p n hp hn => by
    rcases hp.cases with hp3 | ⟨q, i, rfl, hq, hqw⟩
    · obtain ⟨g, G, _, htab, _⟩ := M.upper hleaf
      rw [htab p hp3]
      exact G.table hp3 hn
    · by_cases he : (q, i) = (path c.va, index 12 c.va)
      · obtain ⟨rfl, rfl⟩ := Prod.mk.inj he
        obtain ⟨x, hx, _⟩ := Option.map_eq_some_iff.mp ((table_snoc _ _ _).symm.trans hn)
        rw [show s.machine.entry (path c.va) (index 12 c.va) = none from hno] at hx
        cases hx
      · rw [table_snoc, M.entry_ne hleaf hq he fun h => hqw (Prod.mk.inj h).1, ← table_snoc]
        exact hn
  refine ⟨fun n hn => M.used hleaf (L.kept n hn), fun n hn => ?_, fun n hn => L.held n (List.mem_of_mem_erase hn),
    fun p n hp hpl hn => ?_⟩
  · obtain ⟨g, G, _, htab, hpmm⟩ := M.upper hleaf
    have hn : m.pmm.used n = true := hn
    rw [hpmm, G.bits] at hn
    rcases hn with hu | ⟨_, p, hp, hpn⟩
    · rcases L.known n hu with hb | hh | ⟨p, hp, hpn⟩
      · exact .inl hb
      · by_cases hnk : n * 4096 = c.pa
        · rw [show n = k by omega]
          exact .inr (.inr ⟨_, hpage, hself⟩)
        · exact .inr (.inl ((List.mem_erase_of_ne hnk).mpr hh))
      · exact .inr (.inr ⟨p, hp, hkeep p n hp hpn⟩)
    · exact .inr (.inr ⟨p, place_of_le hp, (htab p hp).trans hpn⟩)
  · rcases M.place hleaf hpres hfr P.size hfl hpl hn with ⟨_, h'⟩ | ⟨hp3, _⟩ | ⟨_, rfl⟩
    · exact L.pages p n hp hpl h'
    · omega
    · exact L.held n (hk ▸ hheld)

theorem Ledger.unmap {ctx : ℕ} (L : Ledger base s) (S : Sound s) (hu : Unmaps s.machine ctx va)
    (he : walk s.machine.phys s.machine.root va = some e)
    (hother : ∃ j, j ≠ index 12 va ∧ (s.machine.entry (path va) j).isSome)
    (h : Op.run s (.unmap ctx va) = .ok s') : Ledger base s' := by
  obtain ⟨f, g, pdpt, pd, pt, U⟩ := S.unmapping hu he
  obtain ⟨j, hj, hsome⟩ := hother
  have hrel : released s.machine f (index 12 va) = pmmFree s.machine.pmm (frame e * 4096) := by
    refine released_of_other U.entry hj fun hc => ?_
    rw [entry_of_table U.table, if_pos (child_eq_none.mp hc)] at hsome
    cases hsome
  simp only [Op.run, U.run, ok_bind, hrel] at h
  obtain rfl := Except.ok.inj h
  have hpage : Place (path va ++ [index 12 va]) := place_leaf rfl U.outside _
  have hhigh := S.high _ _ hpage (fun hp => by have := hp.length_le; simp [path] at this) U.leaf
  have hbase : ¬ base (frame e) := L.pages _ _ (by simp [path]) hpage U.leaf
  refine ⟨fun n hn => ?_, fun n hn => ?_, L.held, fun p n hp hpl hn => ?_⟩
  · have hne : n ≠ frame e := by
      rintro rfl
      exact hbase hn
    exact (pmmFree_used_ne hne).trans (L.kept n hn)
  · have hn : (pmmFree s.machine.pmm (frame e * 4096)).used n = true := hn
    -- the frame freed is marked free; every other stays where it was
    have hne : n ≠ frame e := fun heq => by
      rw [heq, pmmFree_used hhigh.2] at hn
      simp at hn
    rw [pmmFree_used_ne hne] at hn
    refine (L.known n hn).imp_right (Or.imp_right ?_)
    rintro ⟨p, hp, hpn⟩
    refine ⟨p, hp, ?_⟩
    show (cleared s.machine pt f g (index 12 va)).table p = some n
    rw [U.place hp, if_neg, hpn]
    rintro rfl
    rw [U.leaf] at hpn
    exact hne (Option.some.inj hpn).symm
  · have hn : (cleared s.machine pt f g (index 12 va)).table p = some n := hn
    rw [U.place hpl] at hn
    split at hn
    · cases hn
    · exact L.pages p n hp hpl hn

theorem boot_ledger {m bm : Mem} {mmap : List MmapEntry} {s₀ : Machine} (h : boot m bm mmap = some s₀) :
    Ledger (fun n => s₀.pmm.used n = true) ⟨s₀, []⟩ := by
  refine ⟨fun n hn => hn, fun n hn => .inl hn, fun n hn => ?_, fun p n hp hpl hn => ?_⟩
  · cases hn
  · obtain ⟨n', _, hr, _, _, _, T, _⟩ := boot_spec h
    rcases hpl.cases with hp3 | ⟨q, i, rfl, hq, hqw⟩
    · omega
    · obtain ⟨x, hx, _⟩ := Option.map_eq_some_iff.mp ((table_snoc _ _ _).symm.trans hn)
      obtain ⟨f, hf⟩ := table_of_present hx
      rcases T.table_cases (by omega) hr (by omega) hf with ⟨rfl, _⟩ | ⟨rfl, _⟩ | ⟨rfl, _⟩ | ⟨rfl, _⟩
      · simp at hq
      · simp at hq
      · simp at hq
      · exact absurd rfl hqw

/-- CORRECT: after boot and any run of such calls in which no page table is emptied, no frame is lost and
    none is made up: those in use are those in use at boot, those held by a caller and those that
    stand in the tree as a table or a page. -/
theorem frames_accounted {m bm : Mem} {mmap : List MmapEntry} {s₀ : Machine} {s : Session} {ops : List Op}
    (hboot : boot m bm mmap = some s₀) (hrun : Run (fun s a => Allowed s a ∧ LeavesOther s a) Op.run ⟨s₀, []⟩ ops s)
    (n : ℕ) : s.machine.pmm.used n = true ↔
      s₀.pmm.used n = true ∨ n * 4096 ∈ s.held ∨ ∃ p, Place p ∧ s.machine.table p = some n := by
  have hinv : Sound s ∧ Ledger (fun n => s₀.pmm.used n = true) s := by
    refine hrun.invariant (I := fun s => Sound s ∧ Ledger (fun n => s₀.pmm.used n = true) s)
      ⟨boot_sound hboot, boot_ledger hboot⟩ fun s a s' hI ha hst => ⟨hI.1.step ha.1 ha.2 hst, ?_⟩
    obtain ⟨S, L⟩ := hI
    obtain ⟨ha, hl⟩ := ha
    cases a with
    | alloc => exact L.alloc S hst
    | map c => exact L.map S ha.1 ha.2 hst
    | unmap ctx va =>
      obtain ⟨e, he⟩ := Option.isSome_iff_exists.mp ha.2
      exact L.unmap S ha.1 he hl hst
  obtain ⟨S, L⟩ := hinv
  refine ⟨L.known n, ?_⟩
  rintro (hb | hh | ⟨p, hp, hpn⟩)
  · exact L.kept n hb
  · obtain ⟨k, hk, _, _, hku, _⟩ := S.held _ hh
    rw [show n = k by omega]
    exact hku
  · exact S.used p n hp hpn

/-- The one page at 4 MiB: its frame, and the tables above it, are in use. -/
theorem frames_accounted_one_page : ∃ s₀ c s, boot (fun _ => 0) (fun _ => 0) smallMap = some s₀ ∧
    Run (fun s a => Allowed s a ∧ LeavesOther s a) Op.run ⟨s₀, []⟩ [.alloc, .map c] s ∧
    ∀ n, s.machine.pmm.used n = true ↔
      s₀.pmm.used n = true ∨ n * 4096 ∈ s.held ∨ ∃ p, Place p ∧ s.machine.table p = some n := by
  obtain ⟨s₀, k, s₁, s₂, hboot, h₁, A, hno, h₂, _⟩ := session_smallMap
  have hrun : Run (fun s a => Allowed s a ∧ LeavesOther s a) Op.run ⟨s₀, []⟩
      [.alloc, .map ⟨s₁.pml4t, 0x400000, k * 4096, 0x3⟩] ⟨s₂, []⟩ :=
    .cons ⟨trivial, trivial⟩ h₁ (.cons ⟨⟨A, walk_none_of_table hno⟩, trivial⟩ h₂ (.nil _))
  exact ⟨s₀, _, _, hboot, hrun, frames_accounted hboot hrun⟩

end

end TerraOS.Vmm
