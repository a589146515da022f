import TerraOS.Lib.ByteMem
import TerraOS.Lib.Word16

/-! bootloader.asm and tochs.asm: the real-mode code that finds the kernel on the disk.

    The code reads the BIOS parameter block of the volume, keeps its results in words of its data section
    and computes in 16-bit registers. A line of it is a line here. The BIOS is a parameter: `int 0x13` is
    asked with the registers, and answers with carry set or with what it has read to `es:bx`, and with
    `ax` changed. The variables are words apart from the buffers it fills, so that it does not touch them. -/

namespace TerraOS.Boot
open Lib Lib.Word16

/-- The fields of the BIOS parameter block that are read, each as wide as it is. -/
structure Bpb where
  bytesPerSector : ℕ
  sectorsPerCluster : ℕ
  reservedSectors : ℕ
  numFats : ℕ
  rootEntries : ℕ
  numberOfSectorsPerFat : ℕ
  sectorsPerTrack : ℕ
  numHeads : ℕ
  bytesPerSector_lt : bytesPerSector < 2 ^ 16 := by decide
  sectorsPerCluster_lt : sectorsPerCluster < 2 ^ 8 := by decide
  reservedSectors_lt : reservedSectors < 2 ^ 16 := by decide
  numFats_lt : numFats < 2 ^ 8 := by decide
  rootEntries_lt : rootEntries < 2 ^ 16 := by decide
  numberOfSectorsPerFat_lt : numberOfSectorsPerFat < 2 ^ 16 := by decide
  sectorsPerTrack_lt : sectorsPerTrack < 2 ^ 16 := by decide
  numHeads_lt : numHeads < 2 ^ 16 := by decide

/-- The volume that the Makefile builds, of 1.44 MB. -/
def floppy : Bpb where
  bytesPerSector := 512
  sectorsPerCluster := 1
  reservedSectors := 2
  numFats := 2
  rootEntries := 224
  numberOfSectorsPerFat := 9
  sectorsPerTrack := 18
  numHeads := 2

/-- A floppy of 2.88 MB, which has two sectors to a cluster. -/
def largeFloppy : Bpb where
  bytesPerSector := 512
  sectorsPerCluster := 2
  reservedSectors := 2
  numFats := 2
  rootEntries := 240
  numberOfSectorsPerFat := 9
  sectorsPerTrack := 36
  numHeads := 2

/-- A hard disk of 16 heads and 63 sectors to a track. -/
def hardDisk : Bpb where
  bytesPerSector := 512
  sectorsPerCluster := 1
  reservedSectors := 1
  numFats := 2
  rootEntries := 512
  numberOfSectorsPerFat := 9
  sectorsPerTrack := 63
  numHeads := 16

/-- The words of the data section. -/
structure Vars where
  bootDrive : ℕ
  rootDirStart : ℕ
  rootDirSize : ℕ
  dataSectorStart : ℕ
  headVar : ℕ
  trackVar : ℕ
  sectorVar : ℕ
  deriving DecidableEq, Repr

/-- `buffer` is what is at `es:0`. -/
structure State where
  regs : Regs
  vars : Vars
  buffer : Mem

inductive Halt where
  | divide
  | disk_error
  deriving DecidableEq, Repr

/-- `int 0x13`: `none` is carry set. -/
abbrev Int13 := Regs → Option (ℕ × Mem)

/-- A quotient, or the fault. -/
def div (r : Regs) (v : ℕ) : Except Halt Regs :=
  match r.div v with
  | some r => .ok r
  | none => .error .divide

theorem div_ax {ax bx cx si di v : ℕ} (hv : 0 < v) (hax : ax < 2 ^ 16) :
    div ⟨ax, bx, cx, 0, si, di⟩ v = .ok ⟨ax / v, bx, cx, ax % v, si, di⟩ := by
  rw [div, Regs.div_ax hv hax]

/-- `ToCHS`, with the sector number in `ax`. -/
def ToCHS (b : Bpb) (s : State) : Except Halt State := do
  let r := { s.regs with bx := b.sectorsPerTrack }
  let r := { r with bx := shl16 r.bx 1 }
  let r := { r with dx := 0 }
  let r ← div r r.bx
  let r := { r with si := r.ax }
  let r := { r with ax := r.dx }
  let r := { r with bx := b.sectorsPerTrack }
  let r := { r with dx := 0 }
  let r ← div r r.bx
  let r := { r with di := r.ax }
  let r := { r with ax := r.dx }
  let r := { r with ax := add16 r.ax 1 }
  .ok { s with regs := r, vars := { s.vars with sectorVar := r.ax, headVar := r.di, trackVar := r.si } }

/-- The registers for `int 0x13`, which is to read `count` sectors from where `ToCHS` has found. -/
def diskRegs (count : ℕ) (s : State) : Regs :=
  let r := { s.regs with ax := withHigh s.regs.ax 0x2 }
  let r := { r with ax := withLow r.ax count }
  let r := { r with cx := withHigh r.cx s.vars.trackVar }
  let r := { r with cx := withLow r.cx s.vars.sectorVar }
  let r := { r with dx := withHigh r.dx s.vars.headVar }
  let r := { r with dx := withLow r.dx s.vars.bootDrive }
  { r with bx := 0 }

/-- `int 0x13` and the jump on carry. -/
def readDisk (int13 : Int13) (r : Regs) (s : State) : Except Halt State :=
  match int13 r with
  | some (ax, buffer) => .ok { s with regs := { r with ax := ax }, buffer := buffer }
  | none => .error .disk_error

/-- `start` up to where the extended bootloader is in memory, which is at `0:0x7E00`. -/
def loadExtended (int13 : Int13) (s : State) : Except Halt State := do
  let s := { s with vars := { s.vars with bootDrive := low s.regs.dx } }
  let r := { s.regs with ax := withHigh 0 0x2 }
  let r := { r with ax := withLow r.ax 1 }
  let r := { r with cx := withHigh r.cx 0 }
  let r := { r with cx := withLow r.cx 2 }
  let r := { r with dx := withHigh r.dx 0 }
  let r := { r with dx := withLow r.dx s.vars.bootDrive }
  let t ← readDisk int13 { r with bx := 0x7E00 } s
  .ok { t with buffer := s.buffer }

/-- `start`, where it computes the root directory and the first data sector. -/
def locateData (b : Bpb) (s : State) : Except Halt State := do
  let r := { s.regs with ax := 0x1000 }
  -- calculate root directory sectors
  let r := { r with ax := b.rootEntries }
  let r := { r with bx := 32 }
  let r := r.mul r.bx
  let r := { r with bx := b.bytesPerSector }
  let r := { r with bx := sub16 r.bx 1 }
  let r := { r with ax := add16 r.ax r.bx }
  let r := { r with dx := 0 }
  let r ← div r b.bytesPerSector
  let v := { s.vars with rootDirSize := r.ax }
  -- calculate first data sector
  let r := { r with ax := withLow r.ax b.numFats }
  let r := r.mul b.numberOfSectorsPerFat
  let r := { r with ax := add16 r.ax b.reservedSectors }
  let v := { v with rootDirStart := r.ax }
  let r := { r with ax := add16 r.ax v.rootDirSize }
  let v := { v with dataSectorStart := r.ax }
  .ok { s with regs := r, vars := v }

/-- `start`, where it reads the root directory. -/
def readRootDir (b : Bpb) (int13 : Int13) (s : State) : Except Halt State := do
  let s ← ToCHS b { s with regs := { s.regs with ax := s.vars.rootDirStart } }
  readDisk int13 (diskRegs 1 s) s

/-- `start`, from the starting cluster in the directory to the sector number. -/
def kernelSector (s : State) : State :=
  let r := { s.regs with ax := s.buffer.loadLE (s.regs.bx + 0x3A) 2 }
  let r := { r with ax := sub16 r.ax 2 }
  { s with regs := { r with ax := add16 r.ax s.vars.dataSectorStart } }

/-- `start` as far as its second call of `ToCHS`. -/
def findKernel (b : Bpb) (int13 : Int13) (s : State) : Except Halt State := do
  let s ← loadExtended int13 s
  let s ← locateData b s
  let s ← readRootDir b int13 s
  .ok (kernelSector s)

/-- `start` until the kernel is in memory. -/
def start (b : Bpb) (int13 : Int13) (s : State) : Except Halt State := do
  let s ← findKernel b int13 s
  let s ← ToCHS b s
  readDisk int13 (diskRegs 127 s) s

end TerraOS.Boot
