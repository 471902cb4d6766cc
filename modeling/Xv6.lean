import Xv6.Shared
import Xv6.Log.CrashSafe
import Xv6.Fs.IcacheSound
import Xv6.Files.FileTable
import Xv6.Process.Kill
import Xv6.Sync.Pipe
import Xv6.Mkfs.Mounted
import Xv6.Guard
import Xv6.Offset
import Xv6.Ofile
import Xv6.Fs.ByteArray
import Xv6.Fs.DirMap
import Xv6.Fs.Paths
import Xv6.Fs.Reserve
import Xv6.Copyout
import Xv6.Sync.Console
import Xv6.Sync.Ide
import Xv6.Dealloc
import Xv6.Mappages
import Xv6.Userland.Grep
import Xv6.Userland.Memmove
import Xv6.Mp
import Xv6.Separation
