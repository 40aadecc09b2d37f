import Plan9.Venti.BlockOwner
import Plan9.Venti.Bloom
import Plan9.Venti.SyncArena
import Plan9.Venti.UnwhackSafe
import Plan9.Venti.CigRuns
import Plan9.Venti.AMap
import Plan9.Venti.IcacheWrite
import Plan9.Venti.SortEntry
import Plan9.Venti.LumpCheck
import Plan9.LibVenti.Rpc
import Plan9.LibVenti.Send
import Plan9.Fossil.CacheOwner
import Plan9.Fossil.MetaEdit
import Plan9.Fossil.MetaRound
import Plan9.Fossil.AllocBlock
import Plan9.Fossil.Rollback
import Plan9.Fossil.DiskQueue
import Plan9.Mp.Div
import Plan9.Cc.Switch
import Plan9.Libc.RuneLen
import Plan9.Libc.Stat
import Plan9.Libc.PoolRuns
import Plan9.Libc.CleanNameRuns
import Plan9.Libc.FcallSafe
import Plan9.Kernel.Timer
import Plan9.Kernel.Alarm
import Plan9.Kernel.Edf
import Plan9.Kernel.MntWire
import Plan9.Kernel.MntRpc
import Plan9.Kernel.QioStream
import Plan9.Kernel.QlockRuns
import Plan9.Ip.Checksum
import Plan9.Ip.Advertise
import Plan9.Ip.LimboPass
