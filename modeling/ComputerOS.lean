import ComputerOS.Cfs.Permissions
import ComputerOS.Linux.PipeData
import ComputerOS.Linux.Sockets
import ComputerOS.Linux.FileArray
import ComputerOS.Linux.Isolation
import ComputerOS.Tasks.Parents
import ComputerOS.Cfs.FsckChecksum
import ComputerOS.Cfs.Recover
import ComputerOS.Cfs.Resolution
import ComputerOS.Cfs.DirRuns
import ComputerOS.Vfs.ReadAt
import ComputerOS.Kheap.Wrap
import ComputerOS.Vmm.Teardown
import ComputerOS.Tar.Faithful
import ComputerOS.Fat32.ReadAt
import ComputerOS.Fat32.Rmdir
import ComputerOS.Fat32.Rename
import ComputerOS.Fat32.Turns
import ComputerOS.Fat32.Undo
import ComputerOS.Inflate.Safe
import ComputerOS.Fat32.Geometry
import ComputerOS.Linux.Getdents
import ComputerOS.Linux.Sigreturn
import ComputerOS.Ext2.Careful
import ComputerOS.Ext2.ReadRange
import ComputerOS.Malloc.Sizes
import ComputerOS.Loader.Stack
import ComputerOS.Cfs.FirstFree
import ComputerOS.Cfs.Pushes
import ComputerOS.Fbcon.Scrollback
import ComputerOS.Editor.Files
import ComputerOS.Net.Dns
import ComputerOS.Net.Send
import ComputerOS.Rtc.Dates
import ComputerOS.Inflate.Member
