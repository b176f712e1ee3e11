import Makedumpfile.Flat.Proof.RoundTrip
import Makedumpfile.Erase.Proof.Reach
import Makedumpfile.Elf.Proof.Data
import Makedumpfile.Readmem.Readmem
import Makedumpfile.Kdump.Proof.Stream
import Makedumpfile.Readmem.Proof.Agree
import Makedumpfile.Kdump.Proof.Written
import Makedumpfile.Kdump.Proof.RoundTrip
import Makedumpfile.Readmem.Proof.Unmap
import Makedumpfile.Flat.Perl
import Makedumpfile.Flat.Proof.Agree
import Makedumpfile.Bitmap.File
import Makedumpfile.Bitmap.Proof.File
import Makedumpfile.Bitmap.Memhole
import Makedumpfile.Bitmap.Proof.Memhole
import Makedumpfile.Sadump.Read
import Makedumpfile.Sadump.Proof.Lookup
import Makedumpfile.Erase.Text
import Makedumpfile.Elf.Header
import Makedumpfile.Elf.Proof.Layout
import Makedumpfile.Erase.Proof.Text
import Makedumpfile.Bitmap.Exclude
import Makedumpfile.Lib.Path
import Makedumpfile.Dmesg.DetectCycle
import Makedumpfile.Dmesg.Proof.DetectCycle
import Makedumpfile.Dmesg.Records
import Makedumpfile.Dmesg.Lockless
import Makedumpfile.Dmesg.Proof.Lockless
import Makedumpfile.Dmesg.Proof.Records
import Makedumpfile.Vmemmap.Proof.Save
import Makedumpfile.Lib.Exchange
import Makedumpfile.Split.Info
import Makedumpfile.Split.Block
import Makedumpfile.Split.Proof.Sort
import Makedumpfile.Bitmap.Proof.Count
import Makedumpfile.Readmem.Page
import Makedumpfile.Readmem.Proof.Page
import Makedumpfile.Kcore.Exclude
import Makedumpfile.Kcore.Proof.Exclude
import Makedumpfile.Bitmap.FreeList
import Makedumpfile.Bitmap.Proof.FreeList
import Makedumpfile.Dmesg.Proof.Reads
import Makedumpfile.Bitmap.Proof.Nodata
import Makedumpfile.Split.Proof.Block
import Makedumpfile.Bitmap.Proof.Refilter
import Makedumpfile.Bitmap.Plan
import Makedumpfile.Bitmap.Proof.Plan
import Makedumpfile.Split.Proof.Ends
import Makedumpfile.Split.Proof.Lost
import Makedumpfile.Bitmap.Proof.Orders
import Makedumpfile.Memmap.Discontig
import Makedumpfile.Memmap.Proof.Discontig
import Makedumpfile.Erase.Proof.Lines
import Makedumpfile.Bitmap.Proof.Exclude
import Makedumpfile.Dmesg.Proof.Render
import Makedumpfile.Output.DryRun
import Makedumpfile.Arch.X8664
import Makedumpfile.Arch.Proof.X8664
import Makedumpfile.Arch.Arm64
import Makedumpfile.Arch.Proof.Arm64
import Makedumpfile.Arch.Ppc64
import Makedumpfile.Arch.Proof.Ppc64
import Makedumpfile.Arch.S390x
import Makedumpfile.Arch.Proof.S390x
import Makedumpfile.Xen.P2m
import Makedumpfile.Xen.Proof.P2m
import Makedumpfile.Sadump.Header
import Makedumpfile.Sadump.Proof.Header
import Makedumpfile.Arch.Proof.Riscv64
import Makedumpfile.Arch.Proof.Sparc64
import Makedumpfile.Output.Calls
import Makedumpfile.Lib.DList
import Makedumpfile.Readmem.Cache
import Makedumpfile.Readmem.Proof.Cache
import Makedumpfile.Bitmap.PageArray
import Makedumpfile.Bitmap.Proof.PageArray
import Makedumpfile.Erase.Config
import Makedumpfile.Erase.Proof.Config
import Makedumpfile.Erase.Commands
import Makedumpfile.Erase.Proof.Commands
import Makedumpfile.Erase.Proof.Sections
import Makedumpfile.Bitmap.Proof.Windows
import Makedumpfile.Bitmap.Proof.Cycles
import Makedumpfile.Bitmap.Proof.Levels
import Makedumpfile.Bitmap.Proof.Failed
import Makedumpfile.Lib.Ring
import Makedumpfile.Parallel.Writer
import Makedumpfile.Parallel.Proof.Order
import Makedumpfile.Parallel.Proof.Data
import Makedumpfile.Parallel.Dump
import Makedumpfile.Parallel.Proof.Dump
import Makedumpfile.Parallel.Proof.Live
import Makedumpfile.Kdump.Proof.Complete
import Makedumpfile.Bitmap.Proof.Buffer
import Makedumpfile.Dumpfile.Create
import Makedumpfile.Dumpfile.Proof.Create
