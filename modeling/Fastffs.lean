import Fastffs.OwnershipRun
import Fastffs.Recovery
import Fastffs.ReplayFold
import Fastffs.Capacity
import Fastffs.RotationFaults
import Fastffs.Backends
import Fastffs.ReadErrors
import Fastffs.Geometry
import Fastffs.HashTable
import Fastffs.AbsentNames
import Fastffs.Reformat
import Fastffs.FreeWindow
import Fastffs.ReadEnds
import Fastffs.ReadSync
import Fastffs.AlignedProgram
import Fastffs.Handles
import Fastffs.Estimates
import Fastffs.WriteCache
import Fastffs.CacheBounds
import Fastffs.Offsets
import Fastffs.RecordBytes
import Fastffs.SectorRecords
import Fastffs.SectorRuns
import Fastffs.Entries
import Fastffs.Lib.Slots
import Fastffs.Listing
import Fastffs.StoreAlloc
import Fastffs.StoreWrite
import Fastffs.StoreRun
