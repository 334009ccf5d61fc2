import CodalMicrobit.Theorems.CacheCoherence
import CodalMicrobit.Theorems.LogLock
import CodalMicrobit.Theorems.LogAppend
import CodalMicrobit.Theorems.CsvRoundTrip
import CodalMicrobit.Theorems.CommentEnd
import CodalMicrobit.Theorems.HeadingReload
import CodalMicrobit.Theorems.Regions
import CodalMicrobit.Theorems.EraseCoherence
import CodalMicrobit.Theorems.FullFlag
import CodalMicrobit.Theorems.UARTFifo
import CodalMicrobit.Theorems.FlashBurn
import CodalMicrobit.Theorems.OpenFiles
import CodalMicrobit.Theorems.FlashWrite
import CodalMicrobit.Theorems.DatagramRoundTrip
import CodalMicrobit.Theorems.EventRequirements
import CodalMicrobit.Theorems.RegionErase
import CodalMicrobit.Theorems.UARTIndications
import CodalMicrobit.Theorems.RadioReceive
import CodalMicrobit.Theorems.Replacement
import CodalMicrobit.Theorems.EffectPointer
import CodalMicrobit.Theorems.BufferSize
import CodalMicrobit.Theorems.RowResult
import CodalMicrobit.Theorems.CrashRecovery
import CodalMicrobit.Theorems.TimeStamp
import CodalMicrobit.Theorems.EraseFailures
import CodalMicrobit.Theorems.EraseRequests
import CodalMicrobit.Theorems.ChunkedWrite
import CodalMicrobit.Theorems.ConfigRoundTrip
import CodalMicrobit.Theorems.EndOfTransmission
import CodalMicrobit.Theorems.FreePage
import CodalMicrobit.Theorems.Recycling
import CodalMicrobit.Theorems.TableRecycling
import CodalMicrobit.Theorems.FreeBlock
import CodalMicrobit.Theorems.EntryPlaces
import CodalMicrobit.Theorems.NewEntries
import CodalMicrobit.Theorems.Overwrite
import CodalMicrobit.Theorems.WriteCache
import CodalMicrobit.Theorems.FlushEntries
import CodalMicrobit.Theorems.OpenFileText
import CodalMicrobit.Theorems.Removal
import CodalMicrobit.Theorems.Mounting
import CodalMicrobit.Theorems.DatagramQueue
import CodalMicrobit.Theorems.SoundRanges
import CodalMicrobit.Theorems.DeepSleep
import CodalMicrobit.Theorems.UARTReadUntil
import CodalMicrobit.Theorems.UARTMemory
import CodalMicrobit.Theorems.CompassCentre
import CodalMicrobit.Theorems.Spherify
import CodalMicrobit.Theorems.LayoutRecords
import CodalMicrobit.Theorems.PinWrites
import CodalMicrobit.Theorems.EddystoneURL
import CodalMicrobit.Theorems.FriendlyName
import CodalMicrobit.Theorems.SamplePeriod
import CodalMicrobit.Theorems.LedMatrix
import CodalMicrobit.Theorems.RadioNetwork
import CodalMicrobit.Theorems.Mixer2
