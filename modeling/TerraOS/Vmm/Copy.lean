import TerraOS.Vmm.PointUpdate

/-! `memcpy` through the page tables.

    Copying is only as good as the translations it goes through, and the bytes written are themselves in
    the memory that holds the tables. `memcpy_paged` asks that the translations of both ranges survive
    any change to the bytes copied to; it then says byte by byte what the copy leaves. -/

namespace TerraOS.Vmm
open Lib Lib.Word Pmm

/-- Memory after `i` bytes are copied, byte `k` from `src k` to `dst k`. -/
def copied (m : Mem) (dst src : ℕ → ℕ) : ℕ → Mem
  | 0 => m
  | i + 1 => (copied m dst src i).store8 (dst i) (m (src i))

theorem copied_out {m : Mem} {dst src : ℕ → ℕ} {x : ℕ} : ∀ {i : ℕ}, (∀ k < i, dst k ≠ x) →
    copied m dst src i x = m x
  | 0, _ => rfl
  | i + 1, h => by
    rw [copied, Mem.store8_out (fun he => h i (by omega) he.symm)]
    exact copied_out fun k hk => h k (by omega)

theorem copied_at {m : Mem} {dst src : ℕ → ℕ} : ∀ {i k : ℕ}, k < i →
    (∀ j < i, j ≠ k → dst j ≠ dst k) → copied m dst src i (dst k) = m (src k)
  | i + 1, k, hk, hinj => by
    rw [copied]
    rcases eq_or_ne k i with rfl | hne
    · rw [Mem.store8_self]
    · rw [Mem.store8_out (fun he => hinj i (by omega) (Ne.symm hne) he.symm)]
      exact copied_at (by omega) fun j hj => hinj j (by omega)

/-- `[va, va + n)` translates to `phys 0, phys 1, ..` whatever the bytes at `dst` are. -/
def Steady (s : Machine) (va n : ℕ) (phys dst : ℕ → ℕ) (count : ℕ) : Prop :=
  ∀ m : Mem, (∀ x, (∀ k < count, dst k ≠ x) → m x = s.phys x) →
    ∀ k < n, Machine.translate { s with phys := m } (va + k) = some (phys k)

theorem memcpyLoop_paged {s : Machine} {dest source count : ℕ} {dst src : ℕ → ℕ}
    (hd : dest + count ≤ 2 ^ 64) (hs : source + count ≤ 2 ^ 64) (hc : count ≤ 2 ^ 31)
    (hdst : Steady s dest count dst dst count) (hsrc : Steady s source count src dst count)
    (hdis : ∀ k < count, ∀ j < count, dst j ≠ src k) : ∀ (fuel i : ℕ), i ≤ count → count < i + fuel →
    memcpyLoop pagedBus dest source count fuel i { s with phys := copied s.phys dst src i }
      = .ok { s with phys := copied s.phys dst src count }
  | 0, _, h1, h2 => by omega
  | fuel + 1, i, h1, h2 => by
    have hout : ∀ x, (∀ k < count, dst k ≠ x) → copied s.phys dst src i x = s.phys x := fun x hx =>
      copied_out fun k hk => hx k (by omega)
    rw [memcpyLoop]
    by_cases hi : i < count
    · have hrd := hsrc _ hout i hi
      have hwr := hdst _ hout i hi
      rw [sext32_of_lt (by omega), if_pos hi, add64_of_lt (by omega), add64_of_lt (by omega),
        Nat.mod_eq_of_lt (by omega)]
      simp only [pagedBus, Machine.load8, Machine.store8, hrd, hwr, ok_bind]
      rw [hout _ fun k hk => hdis i hi k hk]
      exact memcpyLoop_paged hd hs hc hdst hsrc hdis fuel (i + 1) (by omega) (by omega)
    · obtain rfl : i = count := by omega
      rw [if_neg (by unfold sext32; split <;> omega)]

/-- A copy whose translations are steady and whose ranges are apart. -/
theorem memcpy_paged {s : Machine} {dest source count : ℕ} {dst src : ℕ → ℕ}
    (hd : dest + count ≤ 2 ^ 64) (hs : source + count ≤ 2 ^ 64) (hc : count ≤ 2 ^ 31)
    (hdst : Steady s dest count dst dst count) (hsrc : Steady s source count src dst count)
    (hdis : ∀ k < count, ∀ j < count, dst j ≠ src k) :
    memcpy pagedBus s dest source count = .ok { s with phys := copied s.phys dst src count } :=
  memcpyLoop_paged hd hs hc hdst hsrc hdis (2 ^ 32) 0 (by omega) (by omega)

theorem memsetLoop_paged {s : Machine} {dest count d : ℕ} {b : UInt8} (hd : dest + count ≤ 2 ^ 64)
    (hdst : Steady s dest count (d + ·) (d + ·) count) : ∀ (n i : ℕ), i + n = count →
    memsetLoop pagedBus dest b n i { s with phys := fillBytes s.phys d i b }
      = .ok { s with phys := fillBytes s.phys d count b }
  | 0, i, h => by
    obtain rfl : i = count := h
    rfl
  | n + 1, i, h => by
    have hout : ∀ x, (∀ k < count, d + k ≠ x) → fillBytes s.phys d i b x = s.phys x := fun x hx => by
      refine if_neg fun hin => hx (x - d) (by omega) (by omega)
    have hwr := hdst _ hout i (by omega)
    rw [memsetLoop, add64_of_lt (by omega)]
    simp only [pagedBus, Machine.store8, hwr, ok_bind, store8_fillBytes]
    exact memsetLoop_paged hd hdst n (i + 1) (by omega)

/-- A range with steady translations, one after another, is filled. -/
theorem memset_paged {s : Machine} {dest count c d : ℕ} (hd : dest + count ≤ 2 ^ 64)
    (hdst : Steady s dest count (d + ·) (d + ·) count) :
    memset pagedBus s dest c count = .ok { s with phys := fillBytes s.phys d count (UInt8.ofNat c) } := by
  have hnone : fillBytes s.phys d 0 (UInt8.ofNat c) = s.phys := by
    funext x
    exact if_neg (by omega)
  have hloop := memsetLoop_paged (b := UInt8.ofNat c) hd hdst count 0 (Nat.zero_add _)
  rw [hnone] at hloop
  exact hloop

-- counts are page-sized literals from here on: nothing should unfold a copy byte by byte
attribute [irreducible] copied

/-! ### What translations rest on -/

/-- Changing bytes of pages that are tables of no path leaves the tree. -/
theorem table_of_bytes {s : Machine} {m : Mem} {p : List (Fin 512)} (hp : p.length ≤ 3)
    (hm : ∀ q n, q.length ≤ 2 → s.table q = some n → ∀ x, x / 4096 = n → m x = s.phys x) :
    Machine.table { s with phys := m } p = s.table p := by
  refine Radix.node_congr child fun q j n hq hn => ?_
  have hlen := hq.length_le
  rw [List.length_append, List.length_singleton] at hlen
  rw [ents_congr (hm q n (by omega) hn)]

theorem entry_of_bytes {s : Machine} {m : Mem} {p : List (Fin 512)} {i : Fin 512} (hp : p.length ≤ 3)
    (hm : ∀ q n, q.length ≤ 3 → s.table q = some n → ∀ x, x / 4096 = n → m x = s.phys x) :
    Machine.entry { s with phys := m } p i = s.entry p i :=
  entry_congr (table_of_bytes hp fun q n hq => hm q n (by omega)) fun n hn =>
    ents_congr (hm p n hp hn) i

theorem translate_of_bytes {s : Machine} {m : Mem} {va : ℕ}
    (hm : ∀ q n, q.length ≤ 3 → s.table q = some n → ∀ x, x / 4096 = n → m x = s.phys x) :
    Machine.translate { s with phys := m } va = s.translate va := by
  have h : walk m s.root va = walk s.phys s.root va := entry_of_bytes (p := path va) (le_refl _) hm
  unfold Machine.translate
  rw [show Machine.root { s with phys := m } = s.root from rfl, h]

/-- A range whose translations are known is steady under writes that spare the tables. -/
theorem steady_of_spared {s : Machine} {va n count : ℕ} {phys dst : ℕ → ℕ}
    (ht : ∀ k < n, s.translate (va + k) = some (phys k))
    (hd : ∀ k < count, ∀ q, q.length ≤ 3 → s.table q ≠ some (dst k / 4096)) :
    Steady s va n phys dst count := fun m hm k hk => by
  rw [translate_of_bytes fun q c hq hc x hx => hm x fun j hj he => hd j hj q hq (by rw [he, hx, hc])]
  exact ht k hk

end TerraOS.Vmm
