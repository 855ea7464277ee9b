import W7PS4.AddressSpace.LegacySplit
import W7PS4.Common.LruCache
import W7PS4.Fiber.StackCheck
import W7PS4.FileSys.Rename
import W7PS4.Kernel.Equeue
import W7PS4.Kernel.EqueueDelivery
import W7PS4.Kernel.EventFlag
import W7PS4.Kernel.HrTimer
import W7PS4.Kernel.SemaphoreCount
import W7PS4.Kernel.SemaphoreTokens
import W7PS4.Kernel.Sleepq
import W7PS4.Kernel.WakeOrder
import W7PS4.Memory.AddressSearch
import W7PS4.Memory.Capacity
import W7PS4.Memory.DirectMap
import W7PS4.Memory.FreeFrame
import W7PS4.Memory.MappedRanges
import W7PS4.Memory.MemoryTypes
import W7PS4.Memory.Partition
import W7PS4.Memory.PoolCommit
import W7PS4.Memory.ProtectEffect
import W7PS4.Memory.UnmapEffect
import W7PS4.NpSignaling.ActivationBudget
import W7PS4.NpSignaling.Tables
import W7PS4.NpSignaling.Timers
import W7PS4.Rtc.Tick
import W7PS4.Rtc.DosTime
import W7PS4.Rtc.FormatRoundTrip
import W7PS4.Rtc.Queries
import W7PS4.Rtc.TickAdd
import W7PS4.ShadNet.Blobs
import W7PS4.ShadNet.Framing
import W7PS4.VideoCore.CacheStorage
import W7PS4.VideoCore.ComputeQueue
import W7PS4.VideoCore.StreamBuffer
import W7PS4.VideoCore.RegisterWrites
import W7PS4.Memory.Queries
import W7PS4.Http.PercentCoding
