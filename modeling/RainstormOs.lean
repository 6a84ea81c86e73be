import RainstormOs.KernelEntry
import RainstormOs.Proof.Address
import RainstormOs.Proof.PmmSpec
import RainstormOs.Proof.PmmInit
import RainstormOs.Proof.PmmClients
import RainstormOs.Lib.Trie
import RainstormOs.Proof.PageTable
import RainstormOs.Proof.Tables
import RainstormOs.Proof.NextTable
import RainstormOs.Proof.PagingOps
import RainstormOs.Proof.Spaces
import RainstormOs.Proof.PagingInit
import RainstormOs.Mmu
import RainstormOs.Proof.Translate
import RainstormOs.Proof.System
import RainstormOs.Proof.KernelLayout
import RainstormOs.Proof.Boot
import RainstormOs.Proof.Ownership
import RainstormOs.Lib.SharedMap
import RainstormOs.Proof.AddressSpaces
import RainstormOs.Proof.Permissions
import RainstormOs.Proof.Teardown
import RainstormOs.Proof.DirectMap
import RainstormOs.Lib.Interleave
import RainstormOs.Tlb
import RainstormOs.Proof.Coherence
import RainstormOs.Cpu.Isr
import RainstormOs.Lib.WordStack
import RainstormOs.Proof.Isr
import RainstormOs.Proof.PmmAccounting
import RainstormOs.Proof.PmmExact
import RainstormOs.Proof.Sink
import RainstormOs.Drivers.Framebuffer
import RainstormOs.Lib.WordArray
import RainstormOs.Proof.Framebuffer
import RainstormOs.Proof.DrawImage
import RainstormOs.Proof.Ranges
import RainstormOs.Proof.Screen
import RainstormOs.Lib.BlockCopy
import RainstormOs.Proof.Memory
import RainstormOs.Proof.Memcpy
import RainstormOs.Proof.Walkers
import RainstormOs.Drivers.Serial
import RainstormOs.Proof.Serial
import RainstormOs.Proof.Bss
import RainstormOs.Lib.Scan
import RainstormOs.Proof.PrintfBuffer
import RainstormOs.Proof.PrintfNumber
import RainstormOs.Proof.Klog
import RainstormOs.Proof.Panic
import RainstormOs.Cpu.Descriptors
import RainstormOs.Cpu.Gdt
import RainstormOs.Cpu.Idt
import RainstormOs.Cpu.IsrHandler
import RainstormOs.Proof.Descriptors
import RainstormOs.Proof.Dispatch
import RainstormOs.Proof.Exception
import RainstormOs.Lib.Interrupt
import RainstormOs.Proof.Interrupts
import RainstormOs.Proof.Pictures
import RainstormOs.Proof.Protection
