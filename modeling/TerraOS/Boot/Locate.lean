import TerraOS.Boot.Model

/-! Where the bootloader looks for the kernel.

    On a FAT volume the root directory follows the FATs, the data area follows the root directory, and
    cluster 2 is the first of the data area. `locateData` computes this in 16 bits: it drops the upper half
    of the directory's size in bytes, multiplies by the number of FATs with what the size has left in `ah`,
    and `kernelSector` takes a cluster for a sector. What it finds is right exactly when none of the three
    makes a difference (`locates_iff`). -/

namespace TerraOS.Boot
open Lib Lib.Word16

/-! ### The volume -/

namespace Bpb

/-- The sectors of the root directory, rounded up. -/
def rootSize (b : Bpb) : ℕ := (b.rootEntries * 32 + b.bytesPerSector - 1) / b.bytesPerSector

def rootStart (b : Bpb) : ℕ := b.reservedSectors + b.numFats * b.numberOfSectorsPerFat

def dataStart (b : Bpb) : ℕ := b.rootStart + b.rootSize

/-- The first sector of cluster `c`. -/
def clusterSector (b : Bpb) (c : ℕ) : ℕ := b.dataStart + (c - 2) * b.sectorsPerCluster

/-- The sector numbers up to that of cluster `c` have 16 bits. -/
structure Fits (b : Bpb) (c : ℕ) : Prop where
  size : b.rootSize < 2 ^ 16
  start : b.rootStart < 2 ^ 16
  data : b.dataStart < 2 ^ 16
  cluster : b.clusterSector c < 2 ^ 16

/-- The directory's bytes, rounded up, have 16 bits; what its size has in the upper half drops out of the
    product; a cluster is a sector, or the first one is asked for. -/
structure Plain (b : Bpb) (c : ℕ) : Prop where
  bytes : b.rootEntries * 32 + b.bytesPerSector - 1 < 2 ^ 16
  carry : 256 ∣ b.rootSize / 256 * b.numberOfSectorsPerFat
  unit : b.sectorsPerCluster = 1 ∨ c = 2

end Bpb

/-- The stored numbers are those of the volume, and with cluster `c` in the directory so is the sector
    number that `ToCHS` is called with. -/
structure Located (b : Bpb) (c : ℕ) (s : State) : Prop where
  size : s.vars.rootDirSize = b.rootSize
  start : s.vars.rootDirStart = b.rootStart
  data : s.vars.dataSectorStart = b.dataStart
  sector : ∀ t : State, t.vars.dataSectorStart = s.vars.dataSectorStart →
    t.buffer.loadLE (t.regs.bx + 0x3A) 2 = c → (kernelSector t).regs.ax = b.clusterSector c

/-! ### What is computed -/

section
variable {b : Bpb} {s : State} {c : ℕ}

/-- The size that is computed. -/
def foundSize (b : Bpb) : ℕ := (b.rootEntries * 32 % 2 ^ 16 + (b.bytesPerSector - 1)) % 2 ^ 16 / b.bytesPerSector

/-- The start that is computed. -/
def foundStart (b : Bpb) : ℕ :=
  ((foundSize b / 256 * 256 + b.numFats) * b.numberOfSectorsPerFat % 2 ^ 16 + b.reservedSectors) % 2 ^ 16

theorem locateData_eq (hbps : 0 < b.bytesPerSector) : ∃ t, locateData b s = .ok t ∧
    t.vars.rootDirSize = foundSize b ∧ t.vars.rootDirStart = foundStart b ∧
    t.vars.dataSectorStart = add16 (foundStart b) (foundSize b) := by
  have hfats := b.numFats_lt
  have hdec : sub16 b.bytesPerSector 1 = b.bytesPerSector - 1 := sub16_of_le hbps b.bytesPerSector_lt
  have hal : withLow (foundSize b) b.numFats = foundSize b / 256 * 256 + b.numFats := by
    unfold withLow
    rw [show b.numFats % 256 = b.numFats from Nat.mod_eq_of_lt hfats]
  unfold locateData
  simp only [Regs.mul, hdec]
  rw [div_ax hbps (add16_lt _ _)]
  refine ⟨_, rfl, rfl, ?_, ?_⟩
  · show add16 (withLow (foundSize b) b.numFats * _ % 2 ^ 16) _ = _
    rw [hal]
    rfl
  · show add16 (add16 (withLow (foundSize b) b.numFats * _ % 2 ^ 16) _) _ = _
    rw [hal]
    rfl

/-- A size with its upper half dropped is a smaller one. -/
theorem foundSize_iff (hbps : 0 < b.bytesPerSector) :
    foundSize b = b.rootSize ↔ b.rootEntries * 32 + b.bytesPerSector - 1 < 2 ^ 16 := by
  have hsum : (b.rootEntries * 32 % 2 ^ 16 + (b.bytesPerSector - 1)) % 2 ^ 16
      = (b.rootEntries * 32 + b.bytesPerSector - 1) % 2 ^ 16 := by omega
  unfold foundSize Bpb.rootSize
  rw [hsum]
  generalize b.rootEntries * 32 + b.bytesPerSector - 1 = x
  constructor
  · intro h
    by_contra hge
    have hle : x % 2 ^ 16 + b.bytesPerSector ≤ x := by
      have := b.bytesPerSector_lt
      omega
    have hdiv := Nat.div_le_div_right (c := b.bytesPerSector) hle
    rw [Nat.add_div_right _ hbps] at hdiv
    omega
  · intro h
    rw [Nat.mod_eq_of_lt h]

theorem foundStart_iff (hsize : foundSize b = b.rootSize) (hstart : b.rootStart < 2 ^ 16) :
    foundStart b = b.rootStart ↔ 256 ∣ b.rootSize / 256 * b.numberOfSectorsPerFat := by
  unfold foundStart
  rw [hsize, Nat.add_mul, Nat.mul_right_comm]
  unfold Bpb.rootStart at hstart ⊢
  generalize b.rootSize / 256 * b.numberOfSectorsPerFat = x
  generalize b.numFats * b.numberOfSectorsPerFat = y at hstart ⊢
  rw [Nat.dvd_iff_mod_eq_zero]
  omega

/-- The sector of a cluster, when the data area is where it is. -/
theorem kernelSector_eq {t : State} (hc : 2 ≤ c) (hclus : t.buffer.loadLE (t.regs.bx + 0x3A) 2 = c) :
    (kernelSector t).regs.ax = (c - 2 + t.vars.dataSectorStart) % 2 ^ 16 := by
  have hc16 : c < 2 ^ 16 := hclus ▸ Mem.loadLE_lt _ 2 _
  unfold kernelSector
  simp only [hclus, sub16_of_le hc hc16]
  rfl

/-- The buffer may hold a directory that names cluster `c`. -/
theorem exists_directory (t : State) (hc16 : c < 2 ^ 16) :
    ∃ u : State, u.vars = t.vars ∧ u.buffer.loadLE (u.regs.bx + 0x3A) 2 = c := by
  refine ⟨{ t with buffer := Mem.storeLE (fun _ => 0) (t.regs.bx + 0x3A) 2 c }, rfl, ?_⟩
  rw [Mem.loadLE_storeLE]
  exact Nat.mod_eq_of_lt hc16

theorem cluster_iff (hc : 2 ≤ c) (hc16 : c < 2 ^ 16) (F : b.Fits c) :
    (c - 2 + b.dataStart) % 2 ^ 16 = b.clusterSector c ↔ b.sectorsPerCluster = 1 ∨ c = 2 := by
  have hfit := F.cluster
  have hdata := F.data
  unfold Bpb.clusterSector at hfit ⊢
  obtain ⟨k, rfl⟩ := Nat.exists_eq_add_of_le hc
  rw [Nat.add_sub_cancel_left] at hfit ⊢
  rcases Nat.lt_trichotomy b.sectorsPerCluster 1 with h | h | h
  · obtain h0 : b.sectorsPerCluster = 0 := by omega
    rw [h0, Nat.mul_zero] at hfit ⊢
    omega
  · rw [h, Nat.mul_one] at hfit ⊢
    omega
  · rcases Nat.eq_zero_or_pos k with rfl | hk
    · rw [Nat.zero_mul] at hfit ⊢
      omega
    obtain ⟨q, hq⟩ := Nat.exists_eq_add_of_le h
    have hexp : k * b.sectorsPerCluster = k + (k + k * q) := by
      rw [hq]
      ring
    rw [hexp] at hfit ⊢
    generalize k * q = p at hfit ⊢
    omega

section
variable {t : State} (hbps : 0 < b.bytesPerSector) (hc : 2 ≤ c) (F : b.Fits c) (ht : locateData b s = .ok t)
include hbps hc F ht

theorem Bpb.Plain.located (P : b.Plain c) (hc16 : c < 2 ^ 16) : Located b c t := by
  obtain ⟨t', ht', hsize, hstart, hdata⟩ := @locateData_eq b s hbps
  obtain rfl := Except.ok.inj (ht'.symm.trans ht)
  have hfound := (foundSize_iff hbps).mpr P.bytes
  have hroot := (foundStart_iff hfound F.start).mpr P.carry
  have hstored : t'.vars.dataSectorStart = b.dataStart := by
    rw [hdata, hfound, hroot]
    exact add16_of_lt F.data
  refine ⟨hsize.trans hfound, hstart.trans hroot, hstored, fun u hu hclus => ?_⟩
  rw [kernelSector_eq hc hclus, hu, hstored]
  exact (cluster_iff hc hc16 F).mpr P.unit

theorem Located.plain (L : Located b c t) (hc16 : c < 2 ^ 16) : b.Plain c := by
  obtain ⟨t', ht', hsize, hstart, -⟩ := @locateData_eq b s hbps
  obtain rfl := Except.ok.inj (ht'.symm.trans ht)
  have hfound : foundSize b = b.rootSize := hsize.symm.trans L.size
  refine ⟨(foundSize_iff hbps).mp hfound, (foundStart_iff hfound F.start).mp (hstart.symm.trans L.start), ?_⟩
  obtain ⟨u, hu, hclus⟩ := exists_directory t' hc16
  have hsector := L.sector u (by rw [hu]) hclus
  rw [kernelSector_eq hc hclus, hu, L.data] at hsector
  exact (cluster_iff hc hc16 F).mp hsector

end

end

/-- BUG: the stored numbers are those of the volume, and the kernel is looked for where its first cluster
    is, exactly on the plain volumes. -/
theorem locates_iff {b : Bpb} {c : ℕ} (s : State) (hbps : 0 < b.bytesPerSector) (hc : 2 ≤ c)
    (hc16 : c < 2 ^ 16) (F : b.Fits c) : ∃ t, locateData b s = .ok t ∧ (Located b c t ↔ b.Plain c) := by
  obtain ⟨t, ht, -⟩ := @locateData_eq b s hbps
  exact ⟨t, ht, fun L => L.plain hbps hc F ht hc16, fun P => P.located hbps hc F ht hc16⟩

theorem locates_iff_floppy : ∃ s t, locateData floppy s = .ok t ∧ Located floppy 2 t := by
  obtain ⟨t, ht, hiff⟩ := locates_iff (b := floppy) (c := 2)
    ⟨⟨0, 0, 0, 0, 0, 0⟩, ⟨0, 0, 0, 0, 0, 0, 0⟩, fun _ => 0⟩ (by decide) le_rfl (by decide)
    ⟨by decide, by decide, by decide, by decide⟩
  exact ⟨_, t, ht, hiff.mpr ⟨by decide, by decide, .inl rfl⟩⟩

/-- On the large floppy a kernel whose first cluster is 3 is looked for a sector too early. -/
theorem large_floppy_missed : ∃ s t, largeFloppy.Fits 3 ∧ locateData largeFloppy s = .ok t ∧
    ¬ Located largeFloppy 3 t := by
  have hbps : 0 < largeFloppy.bytesPerSector := by decide
  obtain ⟨t, ht, -, -, -⟩ := @locateData_eq largeFloppy ⟨⟨0, 0, 0, 0, 0, 0⟩, ⟨0, 0, 0, 0, 0, 0, 0⟩, fun _ => 0⟩ hbps
  refine ⟨_, t, ⟨by decide, by decide, by decide, by decide⟩, ht, fun L => ?_⟩
  obtain ⟨u, hu, hclus⟩ := @exists_directory 3 t (by decide)
  have hsector := L.sector u (by rw [hu]) hclus
  rw [kernelSector_eq (by decide) hclus, hu, L.data] at hsector
  exact absurd hsector (by decide)

end TerraOS.Boot
