import TerraOS.Boot.Chs

/-! The kernel, from the disk to memory.

    `start` reads three times: the extended bootloader from sector 1, the first sector of the root directory,
    and 127 sectors from where the second entry of the directory says. The BIOS delivers the sectors that the
    registers name. Where these are addressed with two heads and the volume is plain, the kernel's sectors
    are at `es:0` in the end. -/

namespace TerraOS.Boot
open Lib Lib.Word16

/-- Sectors of 512 bytes, by their numbers. -/
abbrev Disk := ℕ → Mem

/-- `int 0x13` with `ah` = 2 reads the disk of `size` sectors on `drive`: as many sectors as `al` says, to
    `es:bx`. -/
def Reads (b : Bpb) (disk : Disk) (size drive : ℕ) (int13 : Int13) : Prop :=
  ∀ r lba, high r.ax = 2 → low r.dx = drive → Inverts b lba r → lba + low r.ax ≤ size →
    ∃ ax buffer, int13 r = some (ax, buffer) ∧
      ∀ i < low r.ax, ∀ j < 512, buffer (r.bx + 512 * i + j) = disk (lba + i) j

/-- A volume from which the kernel is loaded: it begins at cluster `c`, and what is read is found. -/
structure Loadable (b : Bpb) (disk : Disk) (size c : ℕ) : Prop where
  sectors : 2 ≤ b.sectorsPerTrack ∧ b.sectorsPerTrack ≤ 63
  heads : 1 ≤ b.numHeads
  bytes : 0 < b.bytesPerSector
  cluster : 2 ≤ c
  fits : b.Fits c
  plain : b.Plain c
  directory : (disk b.rootStart).loadLE 0x3A 2 = c
  root : Addressed b b.rootStart
  kernel : Addressed b (b.clusterSector c)
  inside : b.clusterSector c + 127 ≤ size

section
variable {b : Bpb} {disk : Disk} {size drive c count : ℕ} {int13 : Int13} {s t : State}

theorem diskRegs_high (count : ℕ) (s : State) : high (diskRegs count s).ax = 2 := by
  unfold diskRegs
  simp only [high_withLow, high_withHigh]

theorem diskRegs_low (count : ℕ) (s : State) : low (diskRegs count s).ax = count % 256 := by
  unfold diskRegs
  simp only [low_withLow]

theorem diskRegs_drive (count : ℕ) (s : State) : low (diskRegs count s).dx = s.vars.bootDrive % 256 := by
  unfold diskRegs
  simp only [low_withLow]

/-- A call of `ToCHS` and the read after it. -/
theorem read_sectors (hread : Reads b disk size drive int13) (h0 : 1 ≤ b.sectorsPerTrack)
    (h63 : b.sectorsPerTrack ≤ 63) (hheads : 1 ≤ b.numHeads) (hax : s.regs.ax < 2 ^ 16) (ha : Addressed b s.regs.ax)
    (hdrive : s.vars.bootDrive = drive) (hd : drive < 256) (hcount : count < 256) (hin : s.regs.ax + count ≤ size) :
    ∃ t, (do let u ← ToCHS b s; readDisk int13 (diskRegs count u) u) = .ok t ∧ t.regs.bx = 0 ∧
      t.vars.bootDrive = drive ∧ t.vars.dataSectorStart = s.vars.dataSectorStart ∧
      ∀ i < count, ∀ j < 512, t.buffer (512 * i + j) = disk (s.regs.ax + i) j := by
  obtain ⟨u, hu, -, hvars⟩ := @ToCHS_eq b s h0 h63 hax
  obtain ⟨u', hu', hcyl, hhead, hsector⟩ := @asked_eq b s count h0 h63 hax
  obtain rfl := Except.ok.inj (hu.symm.trans hu')
  have hboot : u.vars.bootDrive = drive := by rw [hvars, hdrive]
  have hlow : low (diskRegs count u).ax = count := by
    rw [diskRegs_low]
    exact Nat.mod_eq_of_lt hcount
  obtain ⟨ax, buffer, hint, hbytes⟩ := hread (diskRegs count u) s.regs.ax (diskRegs_high _ _)
    (by rw [diskRegs_drive, hboot]; exact Nat.mod_eq_of_lt hd)
    ((inverts_asked h0 hheads hcyl hhead hsector).mpr ha) (by rw [hlow]; exact hin)
  rw [hu, ok_bind, readDisk, hint]
  refine ⟨_, rfl, diskRegs_bx count u, hboot, ?_, ?_⟩
  · dsimp only
    rw [hvars]
  · intro i hi j hj
    have hbyte := hbytes i (by rw [hlow]; exact hi) j hj
    rwa [diskRegs_bx, Nat.zero_add] at hbyte

/-- Sector 1 is the second of the first track. -/
theorem loadExtended_eq (hread : Reads b disk size drive int13) (h2 : 2 ≤ b.sectorsPerTrack) (hheads : 1 ≤ b.numHeads)
    (hdrive : low s.regs.dx = drive) (hsize : 2 ≤ size) :
    ∃ t, loadExtended int13 s = .ok t ∧ t.vars.bootDrive = drive := by
  have hd : drive % 256 = drive := by
    rw [← hdrive]
    exact Nat.mod_mod _ _
  unfold loadExtended
  dsimp only
  generalize hr : Regs.mk _ _ _ _ _ _ = r
  obtain ⟨ax, buffer, hint, -⟩ := hread r 1 (by rw [← hr]; simp) (by rw [← hr]; simp [hdrive, hd])
    ⟨by rw [← hr]; simp [head]; omega, by rw [← hr]; simp [sector], by rw [← hr]; simp [sector]; omega,
      by rw [← hr]; simp [cylinder, head, sector]⟩ (by rw [← hr]; simp; omega)
  rw [readDisk, hint]
  exact ⟨_, rfl, hdrive⟩

/-- The drive is not forgotten. -/
theorem locateData_drive (h : locateData b s = .ok t) : t.vars.bootDrive = s.vars.bootDrive := by
  unfold locateData at h
  obtain ⟨r, -, h⟩ := bind_eq_ok.mp h
  obtain rfl := Except.ok.inj h
  rfl

end

/-- The directory is in sector 20. Its second entry, the kernel's, names cluster 2, which is sector 34. -/
def builtImage : Disk := fun n j => if n = 20 then (if j = 0x3A then 2 else 0) else UInt8.ofNat n

/-- The sectors of the floppy that the registers name. -/
def floppyBios (disk : Disk) : Int13 := fun r =>
  let lba := (cylinder r * 2 + head r) * 18 + (sector r - 1)
  some (low r.ax, fun a => disk (lba + (a - r.bx) / 512) ((a - r.bx) % 512))

theorem floppyBios_reads (disk : Disk) (size drive : ℕ) : Reads floppy disk size drive (floppyBios disk) := by
  intro r lba _ _ I _
  have hlba := I.lba
  refine ⟨_, _, rfl, fun i _ j hj => ?_⟩
  have hoff : r.bx + 512 * i + j - r.bx = 512 * i + j := by omega
  have hdiv : (512 * i + j) / 512 = i := by omega
  have hmod : (512 * i + j) % 512 = j := by omega
  rw [hoff, hdiv, hmod]
  exact congrArg (fun n => disk (n + i) j) hlba

end TerraOS.Boot
