import AtmCache.Runs
import AtmCache.KeyMaps
import AtmCache.ListSets
import AtmCache.Machine
import AtmCache.DictModel
import AtmCache.DictRehash
import AtmCache.DictMap
import AtmCache.DictMoves
import AtmCache.DictRep
import AtmCache.DictOwn
import AtmCache.DictPace
import AtmCache.DictLook
import AtmCache.DictFill
import AtmCache.DictLate
import AtmCache.DictKeys
import AtmCache.DictFatal
import AtmCache.DictClear
import AtmCache.CStrings
import AtmCache.StrModel
import AtmCache.StrHeader
import AtmCache.StrSplit
import AtmCache.Links
import AtmCache.Quotes
import AtmCache.StrTokens
import AtmCache.StrConcat
import AtmCache.ConfigModel
import AtmCache.ConfigComments
import AtmCache.ConfigRead
import AtmCache.ConfigWrite
import AtmCache.BufModel
import AtmCache.BufBlocks
import AtmCache.BufFifo
import AtmCache.BufWorld
import AtmCache.Lines
import AtmCache.BufLines
import AtmCache.SessModel
import AtmCache.SessLines
import AtmCache.SessArity
import AtmCache.ConnModel
import AtmCache.ConnSteps
import AtmCache.ConnRead
import AtmCache.ConnWrite
import AtmCache.ConnSweep
import AtmCache.ConnSingle
import AtmCache.ConnHear
import AtmCache.EventModel
import AtmCache.ConnDead
import AtmCache.ConnFree
import AtmCache.PipeWake
import AtmCache.TaskModel
import AtmCache.TaskPool
import AtmCache.WorkerModel
import AtmCache.WorkerRecycle
import AtmCache.WorkerRuns
import AtmCache.Slices
import AtmCache.ArrModel
import AtmCache.ArrWords
import AtmCache.ArrSeq
import AtmCache.PipeModel
import AtmCache.SessReply
import AtmCache.SlotReads
import AtmCache.SlotRuns
import AtmCache.SlotRecycle
import AtmCache.SlotModel
import AtmCache.SlotView
import AtmCache.ListModel
import AtmCache.ListLinks
import AtmCache.ListSeq
import AtmCache.SipModel
import AtmCache.SipCase
import AtmCache.SipSpec
import AtmCache.ObjKeys
import AtmCache.MemSize
import AtmCache.EventCtl
import AtmCache.FreePass
import AtmCache.TimeModel
import AtmCache.DictGrowth
import AtmCache.DictOutgrown
import AtmCache.StrTrim
import AtmCache.HexModel
import AtmCache.SessStore
import AtmCache.SessFramed
import AtmCache.SessService
import AtmCache.ClientModel
import AtmCache.ClientRuns
import AtmCache.DispatchModel
import AtmCache.DispatchRuns
import AtmCache.DispatchDrain
import AtmCache.QueueSpec
import AtmCache.QueueModel
import AtmCache.QueueSteps
import AtmCache.QueueSim
import AtmCache.QueueRuns
import AtmCache.NetModel
import AtmCache.NetRuns
