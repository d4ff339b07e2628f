import ObjectCache.Bench.IhtRun
import ObjectCache.Btree.BlockCalls
import ObjectCache.Btree.Inorder
import ObjectCache.Btree.TreeCalls
import ObjectCache.Cache.FreeAll
import ObjectCache.Cache.Priority
import ObjectCache.Ebr.Accompany
import ObjectCache.Ebr.Epochs
import ObjectCache.Ebr.Travel
import ObjectCache.Iht.LocalMap
import ObjectCache.Iht.RdmaLookup
import ObjectCache.Iht.RdmaSizes
import ObjectCache.Iht.TunedMap
import ObjectCache.LockFree.Entries
import ObjectCache.LockFree.Retired
import ObjectCache.Rdmask.Conserved
import ObjectCache.Rpc.Partition
import ObjectCache.Rpc.ServiceCalls
import ObjectCache.Sherman.IndexSearch
import ObjectCache.Sherman.SlotLines
import ObjectCache.Sherman.Split
import ObjectCache.Sherman.Validity
