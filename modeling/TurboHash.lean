import TurboHash.Table
import TurboHash.BucketMap
import TurboHash.Iteration
import TurboHash.Lib.LinearProbe
import TurboHash.MapRefinement
import TurboHash.RehashExit
import TurboHash.DeleteAtomic
import TurboHash.DeleteReturns
import TurboHash.Epoche
import TurboHash.EpocheClient
import TurboHash.Agreement
import TurboHash.Lib.Bytes
import TurboHash.Lib.LineMemory
import TurboHash.Pmem
import TurboHash.PmemAtomic
import TurboHash.PmemFlat
import TurboHash.PmemRecord
import TurboHash.PmemPmdk
import TurboHash.BucketMetaPmem
import TurboHash.SearchReturns
import TurboHash.Occupancy
import TurboHash.RehashStaged
import TurboHash.PinnedSafe
import TurboHash.FindRehash
import TurboHash.ReleasedOnce
import TurboHash.LookupBound
import TurboHash.LookupPresent
import TurboHash.IterationWords
import TurboHash.StringHash
import TurboHash.BucketWord
import TurboHash.BucketLock
import TurboHash.WholeTable
import TurboHash.ConstructSizes
import TurboHash.Capacity
import TurboHash.UserHash
import TurboHash.Lib.LinkedList
import TurboHash.DeletionLabels
import TurboHash.RecordSafe
import TurboHash.RecordsOnce
import TurboHash.TableLookup
import TurboHash.TableQuiet
import TurboHash.PmemRehashSteps
import TurboHash.Lib.SharedMemory
import TurboHash.PmemBucket
import TurboHash.PmemRace
import TurboHash.PmemRaceSound
import TurboHash.PmemRaceMap
