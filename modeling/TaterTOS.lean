import TaterTOS.Pmm.Range
import TaterTOS.Pmm.Exact
import TaterTOS.Vm.Refine
import TaterTOS.Vm.Atomic
import TaterTOS.Sched.Tick
import TaterTOS.Sched.Futex
import TaterTOS.Fd.Pipes
import TaterTOS.Fd.Dup
import TaterTOS.Fat32.Consistency
import TaterTOS.Net.Ending
import TaterTOS.Net.Guards
import TaterTOS.Net.Handles
import TaterTOS.Wifi.Receive
import TaterTOS.Libc.Streams
import TaterTOS.Libc.Mutex
import TaterTOS.Vmm.Destroy
import TaterTOS.Http.Cookies
import TaterTOS.Dom.Runs
import TaterTOS.Linux.Stack
import TaterTOS.Heap.Kernel
import TaterTOS.Path.Calls
import TaterTOS.Fd.Timer
import TaterTOS.Linux.Getdents
import TaterTOS.Part.Gpt
import TaterTOS.Vfs.Resolve
import TaterTOS.Vfs.Ramdisk
import TaterTOS.Ntfs.Fixup
import TaterTOS.Ntfs.Read
import TaterTOS.Wifi.Link
import TaterTOS.Net.Dhcp
import TaterTOS.Libc.Aligned
import TaterTOS.Linux.Segments
import TaterTOS.Process.Buffers
import TaterTOS.Elf.Crc
