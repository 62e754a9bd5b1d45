import Xv6.Buf.CommitRoom
import Xv6.Dev.Console
import Xv6.Dev.Printint
import Xv6.Dev.VirtioSafety
import Xv6.File.PipeWakeup
import Xv6.File.Shared
import Xv6.Fs.Accounting
import Xv6.Fs.Ireclaim
import Xv6.Fs.PathBalance
import Xv6.Fs.WriteLog
import Xv6.Lock.PushOff
import Xv6.Lock.SleepLock
import Xv6.Lock.Spinlock
import Xv6.Log.Space
import Xv6.Log.Sync
import Xv6.Mem.CopyCalls
import Xv6.Mem.CopyRange
import Xv6.Mem.Copyinstr
import Xv6.Mem.Copyout
import Xv6.Mem.KallocConc
import Xv6.Mem.Memmove
import Xv6.Mem.Sv39Map
import Xv6.Mkfs.Image
import Xv6.Proc.Alarm
import Xv6.Proc.Allocproc
import Xv6.Proc.Kill
import Xv6.Proc.Wait
import Xv6.User.MallocBreak
import Xv6.User.ShellGrammar
import Xv6.User.Xargs
