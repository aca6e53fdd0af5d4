import RandomRepo.Alu.Unit
import RandomRepo.Collision.Regions
import RandomRepo.Gear.Rpm
import RandomRepo.Gear.Shift
import RandomRepo.Hyperspectral.KMeans
import RandomRepo.Shell.Tokenize
import RandomRepo.Trajectory.Integrate
import RandomRepo.Xv6.Ancestry
import RandomRepo.Xv6.BufCacheInv
import RandomRepo.Xv6.Console
import RandomRepo.Xv6.DeallocPlain
import RandomRepo.Xv6.DirMap
import RandomRepo.Xv6.ExecArgs
import RandomRepo.Xv6.FsCalls
import RandomRepo.Xv6.Grep
import RandomRepo.Xv6.Isolation
import RandomRepo.Xv6.LogSpace
import RandomRepo.Xv6.Memmove
import RandomRepo.Xv6.MkfsBuilt
import RandomRepo.Xv6.Mp
import RandomRepo.Xv6.OwnedMemory
import RandomRepo.Xv6.PageCount
import RandomRepo.Xv6.Path
import RandomRepo.Xv6.PipeWakeup
import RandomRepo.Xv6.ProcKill
import RandomRepo.Xv6.ShRun
import RandomRepo.Xv6.SharedWrite
import RandomRepo.Xv6.SizeLimit
import RandomRepo.Xv6.SleepLockSafe
import RandomRepo.Xv6.SpinLock
import RandomRepo.Xv6.UmallocBreak
import RandomRepo.Xv6.VolumeCalls
