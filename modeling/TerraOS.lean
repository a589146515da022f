import TerraOS.Lib.Word
import TerraOS.Lib.Word16
import TerraOS.Lib.ByteMem
import TerraOS.Lib.Bits
import TerraOS.Lib.Runs
import TerraOS.Lib.Radix
import TerraOS.Lib.Stack
import TerraOS.Lib.Objects
import TerraOS.Utils
import TerraOS.Kheap.Model
import TerraOS.Kheap.Chunks
import TerraOS.Kheap.Lists
import TerraOS.Kheap.Refine
import TerraOS.Kheap.Edits
import TerraOS.Kheap.Client
import TerraOS.Kheap.Layout
import TerraOS.Kheap.Tiling
import TerraOS.Kheap.Realloc
import TerraOS.Kheap.Merging
import TerraOS.Kheap.Requests
import TerraOS.Kheap.FirstFit
import TerraOS.Kheap.Release
import TerraOS.Kheap.Twice
import TerraOS.Kheap.Store
import TerraOS.Kheap.Frame
import TerraOS.Pmm.Model
import TerraOS.Pmm.Frames
import TerraOS.Pmm.Init
import TerraOS.Pmm.Usable
import TerraOS.Vmm.Model
import TerraOS.Vmm.Window
import TerraOS.Vmm.Tree
import TerraOS.Vmm.MapPage
import TerraOS.Vmm.Boot
import TerraOS.Vmm.PointUpdate
import TerraOS.Vmm.Unmap
import TerraOS.Vmm.Places
import TerraOS.Vmm.Undo
import TerraOS.Vmm.Absent
import TerraOS.Vmm.Copy
import TerraOS.Vmm.Task
import TerraOS.Vmm.Memory
import TerraOS.Vmm.Ledger
import TerraOS.Vmm.Spaces
import TerraOS.Vmm.Rights
import TerraOS.Vmm.Tlb
import TerraOS.Vmm.Stale
import TerraOS.Vmm.Regions
import TerraOS.Vmm.InitPt
import TerraOS.Vmm.Handover
import TerraOS.Vmm.Leftover
import TerraOS.Elf.Model
import TerraOS.Elf.Image
import TerraOS.Elf.Pages
import TerraOS.Elf.Account
import TerraOS.Elf.Progress
import TerraOS.Elf.Load
import TerraOS.Elf.Placed
import TerraOS.Elf.Exact
import TerraOS.Elf.Contents
import TerraOS.Elf.Orderly
import TerraOS.Elf.Supply
import TerraOS.Elf.Scarce
import TerraOS.Elf.Concealed
import TerraOS.Elf.Guard
import TerraOS.Elf.Stack
import TerraOS.Elf.UserMode
import TerraOS.Boot.Model
import TerraOS.Boot.Locate
import TerraOS.Boot.Chs
import TerraOS.Boot.Load
import TerraOS.Boot.Mmap
import TerraOS.Idt.Model
import TerraOS.Idt.Stubs
import TerraOS.Idt.RedZone
import TerraOS.Idt.Delivery
import TerraOS.Idt.Report
import TerraOS.Idt.Anywhere
import TerraOS.Idt.Irq
import TerraOS.Kernel.Memory
import TerraOS.Kernel.Screen
import TerraOS.Kernel.Start
