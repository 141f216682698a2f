import OsAssignments.Interceptor.Restore
import OsAssignments.Interceptor.PidSets
import OsAssignments.Interceptor.Locks
import OsAssignments.Interceptor.ExitGroup
import OsAssignments.Interceptor.AllPids
import OsAssignments.Interceptor.Interleavings
import OsAssignments.Paging.FlatMemory
import OsAssignments.Paging.OptVictim
import OsAssignments.Paging.Lru
import OsAssignments.Paging.Trace
import OsAssignments.Paging.HashTableRun
import OsAssignments.Paging.OptBuckets
import OsAssignments.Paging.LruVictim
import OsAssignments.Paging.FifoRun
import OsAssignments.Paging.ClockRun
import OsAssignments.Paging.DirtyHistory
import OsAssignments.Paging.ListRemove
import OsAssignments.Paging.SwapSlots
import OsAssignments.Ext2.SourcePath
import OsAssignments.Ext2.Overwrite
import OsAssignments.Ext2.InodeReuse
import OsAssignments.Ext2.LinkIdentity
import OsAssignments.Ext2.Listing
import OsAssignments.Ext2.LinkCounts
import OsAssignments.Ext2.EntryTypes
import OsAssignments.Ext2.RoundTrip
import OsAssignments.Ext2.CorruptBlock
import OsAssignments.Ext2.MappedAllocation
import OsAssignments.Paging.FastSlim
import OsAssignments.Paging.Competitiveness
import OsAssignments.Ext2.ListRun
import OsAssignments.Ext2.Abstraction
import OsAssignments.Ext2.Success
