import TerraOS.Boot.Locate

/-! What the BIOS is asked for.

    `int 0x13` takes a cylinder, a head and a sector, packed in `ch`, `cl` and `dh`. `ToCHS` divides for two
    heads, whatever the disk has, and `start` passes the lower 8 bits of the cylinder: the sector that is
    read is the one of the number exactly if neither matters there (`inverts_iff`). -/

namespace TerraOS.Boot
open Lib Lib.Word16

/-! ### The packed address -/

def cylinder (r : Regs) : ℕ := high r.cx + 256 * (low r.cx / 64)
def head (r : Regs) : ℕ := high r.dx
def sector (r : Regs) : ℕ := low r.cx % 64

/-- The registers name sector `lba` of the disk. -/
structure Inverts (b : Bpb) (lba : ℕ) (r : Regs) : Prop where
  head_lt : head r < b.numHeads
  sector_pos : 1 ≤ sector r
  sector_le : sector r ≤ b.sectorsPerTrack
  lba : (cylinder r * b.numHeads + head r) * b.sectorsPerTrack + (sector r - 1) = lba

/-- The first track if there is one head. Otherwise, with `lba / sectorsPerTrack` the number of the track:
    the first two tracks; below track 512 any if there are two heads; and from there on those where the
    heads that are not counted make up for the cylinders that are cut off. -/
def Addressed (b : Bpb) (lba : ℕ) : Prop :=
  b.numHeads = 1 ∧ lba < b.sectorsPerTrack ∨
  2 ≤ b.numHeads ∧ lba / b.sectorsPerTrack / 2 % 256 * (b.numHeads - 2) = 512 * (lba / b.sectorsPerTrack / 512)

section
variable {b : Bpb} {s : State} {lba : ℕ}

theorem ToCHS_eq (h0 : 0 < b.sectorsPerTrack) (h63 : b.sectorsPerTrack ≤ 63) (hax : s.regs.ax < 2 ^ 16) :
    ∃ t, ToCHS b s = .ok t ∧ t.buffer = s.buffer ∧
      t.vars = { s.vars with
        trackVar := s.regs.ax / b.sectorsPerTrack / 2
        headVar := s.regs.ax / b.sectorsPerTrack % 2
        sectorVar := s.regs.ax % b.sectorsPerTrack + 1 } := by
  have hshl : shl16 b.sectorsPerTrack 1 = b.sectorsPerTrack * 2 := by
    unfold shl16
    omega
  have hrem := Nat.mod_lt s.regs.ax (Nat.mul_pos h0 Nat.two_pos)
  have hhead : s.regs.ax % (b.sectorsPerTrack * 2) / b.sectorsPerTrack = s.regs.ax / b.sectorsPerTrack % 2 :=
    Nat.mod_mul_right_div_self _ _ _
  have hsector : s.regs.ax % (b.sectorsPerTrack * 2) % b.sectorsPerTrack = s.regs.ax % b.sectorsPerTrack :=
    Nat.mod_mul_right_mod _ _ _
  have hlt := Nat.mod_lt s.regs.ax h0
  unfold ToCHS
  simp only [hshl]
  rw [div_ax (by omega) hax, ok_bind]
  dsimp only
  rw [div_ax h0 (by omega), ok_bind]
  simp only [hhead, hsector, ← Nat.div_div_eq_div_mul]
  rw [add16_of_lt (by omega)]
  exact ⟨_, rfl, rfl, rfl⟩

theorem cylinder_diskRegs (count : ℕ) (s : State) (h : s.vars.sectorVar < 64) :
    cylinder (diskRegs count s) = s.vars.trackVar % 256 := by
  unfold cylinder diskRegs
  simp only [high_withLow, high_withHigh, low_withLow]
  omega

theorem head_diskRegs (count : ℕ) (s : State) : head (diskRegs count s) = s.vars.headVar % 256 := by
  unfold head diskRegs
  simp only [high_withLow, high_withHigh]

theorem sector_diskRegs (count : ℕ) (s : State) : sector (diskRegs count s) = s.vars.sectorVar % 64 := by
  unfold sector diskRegs
  simp only [low_withLow]
  omega

/-- The read is to the start of the buffer. -/
theorem diskRegs_bx (count : ℕ) (s : State) : (diskRegs count s).bx = 0 := rfl

/-- What is asked for, with a sector number in `ax`. -/
theorem asked_eq (count : ℕ) (h0 : 1 ≤ b.sectorsPerTrack) (h63 : b.sectorsPerTrack ≤ 63)
    (hax : s.regs.ax < 2 ^ 16) :
    ∃ t, ToCHS b s = .ok t ∧ cylinder (diskRegs count t) = s.regs.ax / b.sectorsPerTrack / 2 % 256 ∧
      head (diskRegs count t) = s.regs.ax / b.sectorsPerTrack % 2 ∧
      sector (diskRegs count t) = s.regs.ax % b.sectorsPerTrack + 1 := by
  obtain ⟨t, ht, -, hvars⟩ := @ToCHS_eq b s h0 h63 hax
  have hlt := Nat.mod_lt s.regs.ax h0
  have hsec : t.vars.sectorVar = s.regs.ax % b.sectorsPerTrack + 1 := by rw [hvars]
  refine ⟨t, ht, ?_, ?_, ?_⟩
  · rw [cylinder_diskRegs _ _ (by omega), hvars]
  · rw [head_diskRegs, hvars]
    dsimp only
    omega
  · rw [sector_diskRegs, hsec]
    omega

/-- The track of the number, split into the two heads that are counted. -/
theorem track_iff {c n q : ℕ} (hn : 1 ≤ n) (hc : c = q / 2 % 256) :
    q % 2 < n ∧ c * n + q % 2 = q ↔ n = 1 ∧ q = 0 ∨ 2 ≤ n ∧ c * (n - 2) = 512 * (q / 512) := by
  rcases Nat.lt_or_ge n 2 with h | h
  · obtain rfl : n = 1 := by omega
    omega
  · obtain ⟨m, rfl⟩ := Nat.exists_eq_add_of_le h
    have hexp : c * (2 + m) = 2 * c + c * m := by ring
    rw [hexp, Nat.add_sub_cancel_left]
    generalize c * m = p
    omega

/-- The place of a sector on its track drops out. -/
theorem lba_iff {t n lba : ℕ} (hn : 0 < n) : t * n + lba % n = lba ↔ t = lba / n := by
  have hdiv := Nat.div_add_mod lba n
  constructor
  · intro h
    have hmul : t * n = lba / n * n := by
      rw [Nat.mul_comm (lba / n) n]
      omega
    exact Nat.eq_of_mul_eq_mul_right hn hmul
  · rintro rfl
    rw [Nat.mul_comm]
    exact hdiv

section
variable {r : Regs} (h0 : 1 ≤ b.sectorsPerTrack) (hheads : 1 ≤ b.numHeads)
  (hcyl : cylinder r = lba / b.sectorsPerTrack / 2 % 256) (hhead : head r = lba / b.sectorsPerTrack % 2)
  (hsector : sector r = lba % b.sectorsPerTrack + 1)
include h0 hheads hcyl hhead hsector

theorem inverts_asked : Inverts b lba r ↔ Addressed b lba := by
  have hlt := Nat.mod_lt lba h0
  have hfirst : lba < b.sectorsPerTrack ↔ lba / b.sectorsPerTrack = 0 := by
    rw [Nat.div_eq_zero_iff]
    omega
  unfold Addressed
  rw [hfirst, ← track_iff hheads rfl, ← lba_iff h0]
  constructor
  · intro I
    have hlba := I.lba
    rw [hcyl, hhead, hsector, Nat.add_sub_cancel] at hlba
    exact ⟨hhead ▸ I.head_lt, hlba⟩
  · rintro ⟨hh, hlba⟩
    refine ⟨hhead ▸ hh, by omega, by omega, ?_⟩
    rw [hcyl, hhead, hsector, Nat.add_sub_cancel, hlba]

end

end

/-- BUG: `ToCHS` and the loads of `start` name the sector that they are given exactly if it is addressed
    by two heads and 256 cylinders. -/
theorem inverts_iff {b : Bpb} {s : State} (count : ℕ) (hspt : 1 ≤ b.sectorsPerTrack)
    (h63 : b.sectorsPerTrack ≤ 63) (hheads : 1 ≤ b.numHeads) (hax : s.regs.ax < 2 ^ 16) :
    ∃ t, ToCHS b s = .ok t ∧ (Inverts b s.regs.ax (diskRegs count t) ↔ Addressed b s.regs.ax) := by
  obtain ⟨t, ht, hcyl, hhead, hsector⟩ := @asked_eq b s count hspt h63 hax
  exact ⟨t, ht, inverts_asked hspt hheads hcyl hhead hsector⟩

/-- The first sector of the data area of the built image, 34. -/
theorem inverts_iff_floppy : ∃ s t, s.regs.ax = floppy.dataStart ∧ ToCHS floppy s = .ok t ∧
    Inverts floppy s.regs.ax (diskRegs 127 t) := by
  obtain ⟨t, ht, hiff⟩ := @inverts_iff floppy ⟨⟨34, 0, 0, 0, 0, 0⟩, ⟨0, 0, 0, 0, 0, 0, 0⟩, fun _ => 0⟩ 127
    (by decide) (by decide) (by decide) (by decide)
  exact ⟨_, t, rfl, ht, hiff.mpr (.inr (by decide))⟩

/-- On the hard disk sector 126, the first of head 2, is looked for on the second cylinder. -/
theorem hard_disk_missed : ∃ s t, s.regs.ax / (hardDisk.sectorsPerTrack * hardDisk.numHeads) < 1024 ∧
    ToCHS hardDisk s = .ok t ∧ ¬ Inverts hardDisk s.regs.ax (diskRegs 127 t) := by
  obtain ⟨t, ht, hcyl, hhead, hsector⟩ := @asked_eq hardDisk
    ⟨⟨126, 0, 0, 0, 0, 0⟩, ⟨0, 0, 0, 0, 0, 0, 0⟩, fun _ => 0⟩ 127 (by decide) (by decide) (by decide)
  refine ⟨_, t, ?_, ht, fun I => ?_⟩
  · decide
  · have hlba := I.lba
    rw [hcyl, hhead, hsector] at hlba
    exact absurd hlba (by decide)

/-! ### The read of the kernel -/

theorem kernelSector_buffer (s : State) : (kernelSector s).buffer = s.buffer := by rw [kernelSector]

theorem readDisk_eq {int13 : Int13} {r : Regs} {s t : State} (h : readDisk int13 r s = .ok t) :
    t.vars = s.vars ∧ t.regs.bx = r.bx := by
  unfold readDisk at h
  split at h
  · obtain rfl := Except.ok.inj h
    exact ⟨rfl, rfl⟩
  · cases h

/-- On a plain volume, at a geometry that addresses the sector, what the BIOS is asked for when the kernel
    is read is the first sector of the cluster that the directory names. -/
theorem start_asks_kernel {b : Bpb} {int13 : Int13} {s u : State} {c : ℕ} (hbps : 0 < b.bytesPerSector)
    (hspt : 1 ≤ b.sectorsPerTrack) (h63 : b.sectorsPerTrack ≤ 63) (hheads : 1 ≤ b.numHeads) (hc : 2 ≤ c)
    (F : b.Fits c) (P : b.Plain c) (hsec : Addressed b (b.clusterSector c)) (h : findKernel b int13 s = .ok u)
    (hclus : u.buffer.loadLE 0x3A 2 = c) :
    ∃ t, ToCHS b u = .ok t ∧ Inverts b (b.clusterSector c) (diskRegs 127 t) := by
  unfold findKernel at h
  obtain ⟨s₁, -, h⟩ := bind_eq_ok.mp h
  obtain ⟨s₂, hdata, h⟩ := bind_eq_ok.mp h
  obtain ⟨s₃, hroot, h⟩ := bind_eq_ok.mp h
  obtain rfl := Except.ok.inj h
  rw [kernelSector_buffer] at hclus
  unfold readRootDir at hroot
  obtain ⟨s', hs', hread⟩ := bind_eq_ok.mp hroot
  have hax₂ : s₂.vars.rootDirStart < 2 ^ 16 := by
    rw [(P.located hbps hc F hdata (hclus ▸ Mem.loadLE_lt _ 2 _)).start]
    exact F.start
  obtain ⟨s'', hs'', -, hvars⟩ :=
    @ToCHS_eq b { s₂ with regs := { s₂.regs with ax := s₂.vars.rootDirStart } } hspt h63 hax₂
  obtain rfl := Except.ok.inj (hs''.symm.trans hs')
  obtain ⟨hv, hbx⟩ := readDisk_eq hread
  have hax : (kernelSector s₃).regs.ax = b.clusterSector c := by
    refine (P.located hbps hc F hdata (hclus ▸ Mem.loadLE_lt _ 2 _)).sector s₃ (by rw [hv, hvars]) ?_
    have hentry : s₃.regs.bx + 0x3A = 0x3A := by rw [hbx, diskRegs_bx]
    rw [hentry]
    exact hclus
  obtain ⟨t, ht, hcyl, hhead, hsector⟩ := @asked_eq b (kernelSector s₃) 127 hspt h63 (by rw [hax]; exact F.cluster)
  rw [hax] at hcyl hhead hsector
  exact ⟨t, ht, (inverts_asked hspt hheads hcyl hhead hsector).mpr hsec⟩

end TerraOS.Boot
