import TerraOS.Vmm.Stale
import TerraOS.Lib.Objects

/-! Virtual memory is memory.

    What the page tables are for: the pages mapped outside the kernel window are objects of 4096 bytes,
    each apart from every other, under their page numbers. `map_page` makes one, `unmap_page` drops one,
    a store through a mapped address writes one byte of one. That the bytes lie in frames, next to the
    tables that find them, and that the calls move `TEMP_PAGE` and write tables on the way, does not
    show.

    An access goes by any translation that is cached, or by the tables. As `unmap_page` invalidates nothing,
    the page that it is given must have no translation cached any more: CR3 has been loaded again since
    the last access to it. -/

namespace TerraOS.Vmm
open Lib Lib.Word Pmm

/-- A canonical address outside the kernel window. -/
def Outside (va : ℕ) : Prop := Canonical va ∧ ¬ (KERNEL_BASE ≤ va ∧ va < KERNEL_END)

instance (va : ℕ) : Decidable (Outside va) := inferInstanceAs (Decidable (_ ∧ _))

/-- The bytes of page frame `n`. -/
def pageBytes (m : Mem) (n : ℕ) : List UInt8 := m.bytes (n * 4096) 4096

/-- What the page tables show: the pages mapped outside the window, and their bytes. -/
def pages (s : Machine) : Objects.Store ℕ := fun v =>
  if Outside (v * 4096) then (walk s.phys s.root (v * 4096)).map fun e => pageBytes s.phys (frame e) else none

/-- The translations that an access to `va` may go by: those cached, and the one of the tables. -/
def Cpu.Uses (c : Cpu) (va e : ℕ) : Prop :=
  (va / 4096, e) ∈ c.tlb ∨ Canonical va ∧ walk c.machine.phys c.machine.root va = some e

/-- A store by the kernel, by translation `e`. `CR0.WP` stays clear: it needs no write right. -/
def Cpu.storeBy (c : Cpu) (va e : ℕ) (b : UInt8) : Cpu :=
  ⟨{ c.machine with phys := c.machine.phys.store8 (frame e * 4096 + va % 4096) b }, (va / 4096, e) :: c.tlb⟩

/-- A load of `va` reads `b`, by whichever translation it goes. -/
def Cpu.Reads (c : Cpu) (va : ℕ) (b : UInt8) : Prop :=
  (∃ e, c.Uses va e) ∧ ∀ e, c.Uses va e → c.machine.phys (frame e * 4096 + va % 4096) = b

/-- A call as it runs with the cache. -/
def Op.cached : Op → CachedOp
  | .alloc => .alloc
  | .map c => .map c
  | .unmap ctx va => .unmap ctx va

/-- A call, a load or a store, a reload of `CR3`, or translations that the cache drops by itself. -/
inductive Access where
  | call (op : Op)
  | read (va : ℕ)
  | write (va e : ℕ) (b : UInt8)
  | reload
  | drop (page : ℕ)

def Access.run (s : CachedSession) : Access → Except Stop CachedSession
  | .call op => op.cached.run s
  | .read va => CachedOp.run s (.read va)
  | .write va e b => .ok ⟨s.cpu.storeBy va e b, s.held⟩
  | .reload => CachedOp.run s .reload
  | .drop page => CachedOp.run s (.drop page)

/-- Nothing is cached of the page that is unmapped, and the PML4 is reached through another one. -/
def Uncached (s : CachedSession) : Op → Prop
  | .unmap ctx va => va ≠ ctx ∧ ∀ x ∈ s.cpu.tlb, x.1 ≠ va / 4096
  | _ => True

/-- Calls as before, at pages that are not cached, and stores outside the window. -/
def Access.Fair (s : CachedSession) : Access → Prop
  | .call op => Allowed s.plain op ∧ LeavesOther s.plain op ∧ Uncached s op
  | .write va e _ => ¬ (KERNEL_BASE ≤ va ∧ va < KERNEL_END) ∧ s.cpu.Uses va e
  | _ => True

/-- What an access does to the pages. -/
def Access.act : Access → Objects.Act ℕ
  | .call .alloc => .skip
  | .call (.map c) => .make (c.va / 4096) 4096
  | .call (.unmap _ va) => .drop (va / 4096)
  | .write va _ b => .put (va / 4096) (va % 4096) b
  | _ => .skip

section
variable {s : Session} {m : Mem} {va v e n : ℕ}

/-! ### Pages and frames -/

theorem outside_page : Outside (va / 4096 * 4096) ↔ Outside va := by
  unfold Outside Canonical
  simp only [KERNEL_BASE, KERNEL_END]
  omega

theorem walk_page (m : Mem) (root va : ℕ) : walk m root (va / 4096 * 4096) = walk m root va := by
  have h := @walk_add m root (va / 4096 * 4096) (va % 4096) (by omega) (by omega)
  rw [← h]
  congr 1
  omega

theorem pages_of_walk (hv : Outside va) (he : walk s.machine.phys s.machine.root va = some e) :
    pages s.machine (va / 4096) = some (pageBytes s.machine.phys (frame e)) := by
  rw [pages, if_pos (outside_page.mpr hv), walk_page, he, Option.map_some]

theorem Outside.path_ne (h : Outside va) : path va ≠ windowPath := path_ne_window h.1 h.2

/-- The place of a page's leaf. -/
theorem Outside.place (h : Outside va) : Place (path va ++ [index 12 va]) := place_leaf rfl h.path_ne _

/-- No table is in the frame of a page. -/
theorem Sound.leaf_apart (S : Sound s) (hv : Outside va) (he : walk s.machine.phys s.machine.root va = some e)
    {p : List (Fin 512)} (hp : p.length ≤ 3) : s.machine.table p ≠ some (frame e) := by
  intro h
  have heq := S.inj p _ _ (place_of_le hp) hv.place h (table_of_entry he)
  rw [heq] at hp
  simp [path] at hp

/-- Different pages have different frames. -/
theorem Sound.leaf_inj (S : Sound s) {va' e' : ℕ} (hv : Outside va) (hv' : Outside va')
    (he : walk s.machine.phys s.machine.root va = some e) (he' : walk s.machine.phys s.machine.root va' = some e')
    (h : frame e = frame e') : va / 4096 = va' / 4096 := by
  have heq := S.inj _ _ _ hv.place hv'.place (table_of_entry he) (by rw [h]; exact table_of_entry he')
  by_contra hne
  refine page_ne hv'.1 hv.1 hne ?_
  obtain ⟨h1, h2⟩ := List.append_inj heq (by simp [path])
  exact Prod.ext h1 (List.cons.inj h2).1

theorem pageBytes_congr {m' : Mem} (h : ∀ x, x / 4096 = n → m' x = m x) : pageBytes m' n = pageBytes m n :=
  Mem.bytes_congr fun i hi => h _ (by omega)

/-- Other pages keep what they show when their leaves and the bytes of their frames stay. -/
theorem pages_eq {t : Session} (hwalk : ∀ va, Outside va → va / 4096 = v →
      walk t.machine.phys t.machine.root va = walk s.machine.phys s.machine.root va)
    (hbytes : ∀ va e, Outside va → va / 4096 = v → walk s.machine.phys s.machine.root va = some e →
      ∀ x, x / 4096 = frame e → t.machine.phys x = s.machine.phys x) :
    pages t.machine v = pages s.machine v := by
  by_cases hv : Outside (v * 4096)
  · have hdiv : v * 4096 / 4096 = v := Nat.mul_div_cancel _ (by omega)
    simp only [pages, if_pos hv]
    rw [hwalk _ hv hdiv]
    cases he : walk s.machine.phys s.machine.root (v * 4096) with
    | none => simp only [Option.map_none]
    | some e => rw [Option.map_some, Option.map_some, pageBytes_congr (hbytes _ e hv hdiv he)]
  · simp only [pages, if_neg hv]

/-! ### The calls -/

theorem pages_alloc {s' : Session} (h : Op.run s .alloc = .ok s') : pages s'.machine = pages s.machine := by
  rw [← Except.ok.inj h]
  rfl

/-- `map_page` makes the page mapped, and spares the others. -/
theorem pages_map {s' : Session} {c : MapCall} (S : Sound s) (ha : Allowed s (.map c))
    (h : Op.run s (.map c) = .ok s') :
    Objects.Step (pages s.machine) (.make (c.va / 4096) 4096) (pages s'.machine) := by
  obtain ⟨hA, hno⟩ := ha
  have A := hA.1
  have S' := map_sound S hA h
  obtain ⟨pdpt, pd, pt, P, _⟩ := S.running
  have M := A.mapped P (map_run h).1
  have hleaf := A.leaf_lt
  have hout : Outside c.va := ⟨A.canonical, A.outside⟩
  have hself : walk s'.machine.phys s'.machine.root c.va = some (c.pa ||| c.flags) :=
    M.entry_self hleaf (or_present A.flags_present)
  have hupd : pages s'.machine = Function.update (pages s.machine) (c.va / 4096)
      (some (pageBytes s'.machine.phys (frame (c.pa ||| c.flags)))) := by
    funext v
    by_cases hv : v = c.va / 4096
    · rw [hv, Function.update_self]
      exact pages_of_walk hout hself
    · rw [Function.update_of_ne hv]
      have hwalk : ∀ va, Outside va → va / 4096 = v →
          walk s'.machine.phys s'.machine.root va = walk s.machine.phys s.machine.root va := fun va hva hd => by
        refine M.walk_eq hleaf A.canonical hva.1 (by omega) fun ht => hva.2 ?_
        simp only [TEMP_PAGE, KERNEL_BASE, KERNEL_END] at ht ⊢
        omega
      refine pages_eq hwalk fun va e hva hd he x hx => M.bytes hleaf fun p hp => ?_
      rw [hx]
      exact S'.leaf_apart hva ((hwalk va hva hd).trans he) hp
  rw [hupd]
  refine .make ?_ (by rw [pageBytes, Mem.length_bytes])
  rw [pages, if_pos (outside_page.mpr hout), walk_page, hno, Option.map_none]

theorem cleared_bytes {s : Machine} {pt f g x : ℕ} {i : Fin 512} (hf : x / 4096 ≠ f) (hpt : x / 4096 ≠ pt) :
    (cleared s pt f g i).phys x = s.phys x := by
  rw [cleared, withTemp_bytes _ _ _ hpt]
  exact (Mem.store64_out (by omega)).trans (withTemp_bytes _ _ _ hpt)

/-- `unmap_page` drops the page unmapped, and spares the others. -/
theorem pages_unmap {s' : Session} {ctx va : ℕ} (S : Sound s) (ha : Allowed s (.unmap ctx va))
    (h : Op.run s (.unmap ctx va) = .ok s') :
    Objects.Step (pages s.machine) (.drop (va / 4096)) (pages s'.machine) := by
  obtain ⟨hu, hsome⟩ := ha
  obtain ⟨e, he⟩ := Option.isSome_iff_exists.mp hsome
  obtain ⟨f, g, pdpt, pd, pt, U⟩ := S.unmapping hu he
  have hout : Outside va := ⟨hu.canonical, hu.outside⟩
  simp only [Op.run, U.run, ok_bind] at h
  obtain rfl := Except.ok.inj h
  have hentry : ∀ va', Outside va' → Machine.entry (cleared s.machine pt f g (index 12 va)) (path va') (index 12 va')
      = if (path va', index 12 va') = (path va, index 12 va) then none
        else s.machine.entry (path va') (index 12 va') := fun va' hva' =>
    cleared_entry U.paged U.table rfl U.outside U.f_lt U.g_lt (by simp [path])
      fun ht => hva'.path_ne (Prod.mk.inj ht).1
  have hupd : pages { cleared s.machine pt f g (index 12 va) with pmm := released s.machine f (index 12 va) }
      = Function.update (pages s.machine) (va / 4096) none := by
    funext v
    by_cases hv : v = va / 4096
    · have hnone : walk (cleared s.machine pt f g (index 12 va)).phys (cleared s.machine pt f g (index 12 va)).root va
          = none := (hentry va hout).trans (if_pos rfl)
      rw [hv, Function.update_self, pages, if_pos (outside_page.mpr hout), walk_page]
      exact congrArg (Option.map _) hnone
    · rw [Function.update_of_ne hv]
      refine pages_eq (t := ⟨{ cleared s.machine pt f g (index 12 va) with
        pmm := released s.machine f (index 12 va) }, s.held⟩) (fun va' hva' hd => ?_)
        fun va' e' hva' hd he' x hx => cleared_bytes (fun hxf => ?_) fun hxp => ?_
      · exact (hentry va' hva').trans (if_neg (page_ne hout.1 hva'.1 (by omega)))
      · exact S.leaf_apart hva' he' (show (path va).length ≤ 3 by simp [path]) (by rw [← hx, hxf]; exact U.table)
      · exact S.leaf_apart hva' he' (show windowPath.length ≤ 3 by simp)
          (by rw [← hx, hxp]; exact U.paged.table_window)
  rw [hupd]
  exact .drop

/-! ### Stores -/

/-- A store writes its byte, of its page alone, and leaves the tables. -/
theorem pages_write (S : Sound s) (hout : Outside va) (he : walk s.machine.phys s.machine.root va = some e)
    (b : UInt8) (hm : m = s.machine.phys.store8 (frame e * 4096 + va % 4096) b) :
    Sound ⟨{ s.machine with phys := m }, s.held⟩ ∧
      (∀ va', walk m s.machine.root va' = walk s.machine.phys s.machine.root va') ∧
      Objects.Step (pages s.machine) (.put (va / 4096) (va % 4096) b) (pages { s.machine with phys := m }) := by
  have hframe : (frame e * 4096 + va % 4096) / 4096 = frame e := by omega
  have hout' : ∀ x, x ≠ frame e * 4096 + va % 4096 → m x = s.machine.phys x := fun x hx => by
    rw [hm]
    exact Mem.store8_out hx
  have hspare : ∀ q n, q.length ≤ 3 → s.machine.table q = some n → ∀ x, x / 4096 = n → m x = s.machine.phys x :=
    fun q n hq hn x hx => hout' x fun hxe => S.leaf_apart hout he hq (by rw [hn, ← hx, hxe, hframe])
  have hwalk : ∀ va', walk m s.machine.root va' = walk s.machine.phys s.machine.root va' := fun va' =>
    entry_of_bytes (p := path va') (by simp [path]) hspare
  refine ⟨S.of_bytes hspare, hwalk, ?_⟩
  have hupd : pages { s.machine with phys := m } = Function.update (pages s.machine) (va / 4096)
      (some ((pageBytes s.machine.phys (frame e)).set (va % 4096) b)) := by
    funext v
    by_cases hv : v = va / 4096
    · rw [hv, Function.update_self, pages, if_pos (outside_page.mpr hout), walk_page]
      dsimp only [Machine.root]
      rw [show walk m (frame s.machine.cr3) va = _ from hwalk va, he, Option.map_some, pageBytes, hm,
        Mem.bytes_store8 _ _ b (by omega)]
      rfl
    · rw [Function.update_of_ne hv]
      refine pages_eq (t := ⟨{ s.machine with phys := m }, s.held⟩) (fun va' _ _ => hwalk va')
        fun va' e' hva' hd he' x hx => hout' x fun hxe => ?_
      exact absurd (S.leaf_inj hva' hout he' he (by rw [← hx, hxe, hframe])) (by omega)
  rw [hupd]
  exact .put b (pages_of_walk hout he) (by rw [pageBytes, Mem.length_bytes]; omega)

end

/-! ### With the cache -/

section
variable {s s' : CachedSession} {c : Cpu} {va e : ℕ} {op : Op} {a : Access}

theorem canonical_page_iff : Canonical (va / 4096 * 4096) ↔ Canonical va := by
  unfold Canonical
  omega

/-- A cache that agrees with the tables gives no other translations than they do. -/
theorem Coherent.uses (C : Coherent c) (h : c.Uses va e) :
    Canonical va ∧ walk c.machine.phys c.machine.root va = some e := by
  rcases h with h | h
  · obtain ⟨hc, he⟩ := C _ h
    rw [walk_page] at he
    exact ⟨canonical_page_iff.mp hc, he⟩
  · exact h

/-- Nothing is cached of a page that is not mapped. -/
theorem Access.Fair.harmless (C : Coherent s.cpu) (hf : (Access.call op).Fair s) : Harmless s op.cached := by
  obtain ⟨ha, hl, hu⟩ := hf
  cases op with
  | alloc => trivial
  | map d =>
    obtain ⟨hA, hno⟩ := ha
    refine ⟨hA, fun x hx hpage => ?_⟩
    have he := (C x hx).2
    rw [hpage, walk_page] at he
    cases hno.symm.trans he
  | unmap ctx va => exact ⟨ha.1, hu.1, ha.2, hl, hu.2⟩

/-- The call does to the machine what it does without the cache. -/
theorem cached_plain (h : op.cached.run s = .ok s') : op.run s.plain = .ok s'.plain := by
  cases op with
  | alloc =>
    obtain rfl := Except.ok.inj h
    rfl
  | map d =>
    simp only [Op.cached, CachedOp.run, bind_eq_ok] at h
    obtain ⟨cpu, hcpu, h⟩ := h
    obtain rfl := Except.ok.inj h
    have hrun := (erased_mapPage _ _ _ _ _).eq_ok hcpu
    simp only [Op.run, MapCall.run, CachedSession.plain, hrun, ok_bind]
  | unmap ctx va =>
    simp only [Op.cached, CachedOp.run, bind_eq_ok] at h
    obtain ⟨cpu, hcpu, h⟩ := h
    obtain rfl := Except.ok.inj h
    have hrun := (erased_unmapPage _ _ _).eq_ok hcpu
    simp only [Op.run, CachedSession.plain, hrun, ok_bind]

/-- What is mapped after any access, and what the access did. -/
theorem pages_access (S : Sound s.plain) (C : Coherent s.cpu) (hf : a.Fair s) (h : a.run s = .ok s') :
    (Sound s'.plain ∧ Coherent s'.cpu) ∧ Objects.Step (pages s.cpu.machine) a.act (pages s'.cpu.machine) := by
  cases a with
  | call op =>
    refine ⟨coherent_step S C (hf.harmless C) h, ?_⟩
    have hplain := cached_plain h
    show Objects.Step (pages s.plain.machine) _ (pages s'.plain.machine)
    cases op with
    | alloc =>
      rw [pages_alloc hplain]
      exact .skip _
    | map d =>
      have hstep := pages_map S hf.1 hplain
      exact hstep
    | unmap ctx va =>
      have hstep := pages_unmap S hf.1 hplain
      exact hstep
  | write va e b =>
    obtain ⟨hw, huse⟩ := hf
    obtain ⟨hc, he⟩ := C.uses huse
    obtain rfl := Except.ok.inj h
    obtain ⟨S', hwalk, hstep⟩ := pages_write S ⟨hc, hw⟩ he b rfl
    refine ⟨⟨S', fun x hx => ?_⟩, hstep⟩
    rcases List.mem_cons.mp hx with rfl | hx
    · exact ⟨canonical_page_iff.mpr hc, by rw [walk_page]; exact (hwalk va).trans he⟩
    · exact ⟨(C x hx).1, (hwalk _).trans (C x hx).2⟩
  | read va =>
    have hst := coherent_step S C (show Harmless s (.read va) from trivial) h
    obtain rfl := Except.ok.inj h
    rw [fill_machine]
    exact ⟨hst, .skip _⟩
  | reload =>
    have hst := coherent_step S C (show Harmless s .reload from trivial) h
    obtain rfl := Except.ok.inj h
    exact ⟨hst, .skip _⟩
  | drop page =>
    have hst := coherent_step S C (show Harmless s (.drop page) from trivial) h
    obtain rfl := Except.ok.inj h
    exact ⟨hst, .skip _⟩

/-- A load reads the byte that the pages show. -/
theorem Coherent.reads {o : List UInt8} {b : UInt8} (C : Coherent c) (hv : Outside va)
    (ho : pages c.machine (va / 4096) = some o) (hb : o[va % 4096]? = some b) : c.Reads va b := by
  rw [pages, if_pos (outside_page.mpr hv), walk_page] at ho
  obtain ⟨e, he, rfl⟩ := Option.map_eq_some_iff.mp ho
  rw [pageBytes, Mem.getElem?_bytes _ _ (by omega)] at hb
  refine ⟨⟨e, .inr ⟨hv.1, he⟩⟩, fun e' hu => ?_⟩
  obtain rfl := Option.some.inj ((C.uses hu).2.symm.trans he)
  exact Option.some.inj hb

end

/-! ### Runs -/

theorem boot_pages {m bm : Mem} {mmap : List MmapEntry} {s₀ : Machine} (h : boot m bm mmap = some s₀) :
    pages s₀ = fun _ => none := by
  funext v
  unfold pages
  split
  · rename_i hv
    rw [walk_none_of_table (boot_unmapped h hv.path_ne), Option.map_none]
  · rfl

/-- CORRECT: after boot, in any run of calls that respect the callers' rules, at pages that are not cached, and
    of loads, stores outside the window and reloads of `CR3`, the page tables implement a store of pages:
    each access makes, drops or writes the page it names and no other. A byte once stored is read
    back, by any translation that the processor may use, until its page is unmapped or the byte is stored
    over, whatever is mapped, unmapped or stored elsewhere meanwhile. -/
theorem pages_are_memory {m bm : Mem} {mmap : List MmapEntry} {s₀ : Machine} {s : CachedSession} {as : List Access}
    (hboot : boot m bm mmap = some s₀) (hrun : Run Access.Fair Access.run ⟨⟨s₀, []⟩, []⟩ as s) :
    Trace Objects.Step (fun _ => none) (as.map Access.act) (pages s.cpu.machine) ∧
      ∀ va b, Outside va → Objects.known (as.map Access.act) (va / 4096) (va % 4096) = some b →
        s.cpu.Reads va b := by
  obtain ⟨⟨_, C⟩, htrace⟩ := hrun.trace_map (I := fun s => Sound s.plain ∧ Coherent s.cpu) (f := Access.act)
    (fun s => pages s.cpu.machine) ⟨boot_sound hboot, fun x hx => absurd hx List.not_mem_nil⟩
    fun _ _ _ hI hf hst => pages_access hI.1 hI.2 hf hst
  rw [boot_pages hboot] at htrace
  refine ⟨htrace, fun va b hv hb => ?_⟩
  obtain ⟨o, ho, hob⟩ := Objects.trace_agrees htrace _ _ _ hb
  exact C.reads hv ho hob

/-- A byte stored to a page mapped after boot. -/
theorem pages_are_memory_one_page : ∃ s₀ c e s, boot (fun _ => 0) (fun _ => 0) smallMap = some s₀ ∧
    Run Access.Fair Access.run ⟨⟨s₀, []⟩, []⟩ [.call .alloc, .call (.map c), .write 0x400005 e 7, .reload] s ∧
    s.cpu.Reads 0x400005 7 := by
  obtain ⟨s₀, hboot, _⟩ := boot_smallMap (fun _ => 0) (fun _ => 0)
  obtain ⟨k, s₁, s₂, cpu, _, A, _, hno, _, hwalk, hm, h₁, h₂⟩ := cachedSession_boot hboot
  have huse : cpu.Uses 0x400005 (k * 4096 ||| 0x3) := by
    rw [← hm] at hwalk
    exact .inr ⟨by decide, (walk_page _ _ 0x400005).symm.trans hwalk⟩
  have houtside : ¬ (KERNEL_BASE ≤ 0x400005 ∧ 0x400005 < KERNEL_END) := by decide
  generalize k * 4096 ||| 0x3 = e at huse
  obtain ⟨w, hw⟩ : ∃ w, Access.run ⟨cpu, []⟩ (.write 0x400005 e 7) = .ok w := ⟨_, rfl⟩
  obtain ⟨s, hs⟩ : ∃ s, Access.run w .reload = .ok s := ⟨_, rfl⟩
  have hrun : Run Access.Fair Access.run ⟨⟨s₀, []⟩, []⟩ [.call .alloc,
      .call (.map ⟨s₁.pml4t, 0x400000, k * 4096, 0x3⟩), .write 0x400005 e 7, .reload] s :=
    .cons ⟨trivial, trivial, trivial⟩ h₁ (.cons ⟨⟨A, walk_none_of_table hno⟩, trivial, trivial⟩ h₂
      (.cons ⟨houtside, huse⟩ hw (.cons trivial hs (.nil _))))
  exact ⟨s₀, _, _, _, hboot, hrun, (pages_are_memory hboot hrun).2 0x400005 7 (by decide) (by
    simp [Objects.known, Access.act, Objects.Act.learn])⟩

end TerraOS.Vmm
