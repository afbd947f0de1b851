import OpenScap.XccdfRuleEvaluate
import OpenScap.XccdfGenId
import OpenScap.SlistSegment
import OpenScap.OscapList
import OpenScap.XccdfCleanup
import OpenScap.XccdfBenchmarkResolve
import OpenScap.ExpandIpv6
import OpenScap.CountTable
import OpenScap.Dominance
import OpenScap.HeadMerge
import OpenScap.InfoOrder
import OpenScap.InheritedTree
import OpenScap.OvalResult
import OpenScap.OvalTest
import OpenScap.OvalCriteria
import OpenScap.ProbeSet
import OpenScap.ProbeVarref
import OpenScap.OvalObjectVarrefs
import OpenScap.FallibleLoop
import OpenScap.AppendStore
import OpenScap.RecursiveWalk
import OpenScap.OvalVardef
import OpenScap.XccdfResult
import OpenScap.XccdfCheck
import OpenScap.XccdfSelect
import OpenScap.ProbeResult
import OpenScap.TopologicalOrder
import OpenScap.OscapTsort
import OpenScap.GuardedRun
import OpenScap.RingBuffer
import OpenScap.ProbeIcache
import OpenScap.OvalFilterPropagation
import OpenScap.KeyedOrder
import OpenScap.OvalCmpEvr
import OpenScap.CpeUri
import OpenScap.CpeMatch
import OpenScap.CpeString
import OpenScap.CpeConvert
import OpenScap.ChainedTable
import OpenScap.PointerForest
import OpenScap.XccdfRegistry
import OpenScap.OvalExistence
import OpenScap.LinkedFifo
import OpenScap.SeapPacketq
import OpenScap.SexpNumber
import OpenScap.SexpSubcstr
import OpenScap.SexpListCopy
import OpenScap.SexpParseNumber
import OpenScap.CNumber
import OpenScap.PaddedOrder
import OpenScap.OvalCmpVersion
import OpenScap.AddressBlock
import OpenScap.OvalCmpIpAddress
import OpenScap.OvalCmpIpv4
import OpenScap.OvalCmpIpv6
import OpenScap.GregorianCalendar
import OpenScap.CTime
import OpenScap.OvalDatetime
import OpenScap.OvalTimedif
import OpenScap.OvalArithmetic
import OpenScap.Sexp
import OpenScap.SeapPacket
import OpenScap.RedBlackTree
import OpenScap.TopDownInsert
import OpenScap.TopDownDelete
import OpenScap.RedBlackSpine
import OpenScap.SortedListing
import OpenScap.RbtCommon
import OpenScap.RbtI32
import OpenScap.RbtI32Add
import OpenScap.RbtI32Del
import OpenScap.RbtWalk
import OpenScap.RbtMap
import OpenScap.KeyedMerge
import OpenScap.XccdfResolve
import OpenScap.XccdfExtends
import OpenScap.XccdfValue
import OpenScap.XccdfRefine
import OpenScap.OvalResultSystem
import OpenScap.OvalResultClone
import OpenScap.OvalResultLink
import OpenScap.XccdfScore
import OpenScap.OvalTextFunctions
import OpenScap.CpeSetField
import OpenScap.OvalSetFlags
import OpenScap.SexpDeepcmp
import OpenScap.SexpListSort
import OpenScap.XccdfTailor
import OpenScap.OvalVariable
import OpenScap.OvalResultExport
import OpenScap.SeapDescriptor
import OpenScap.OvalItemId
import OpenScap.SeapRecvBytype
import OpenScap.OscapHtable
import OpenScap.StrtoOverflow
import OpenScap.SparseBuffer
import OpenScap.IcacheDedup
import OpenScap.SexpId
import OpenScap.RegexSyntax
import OpenScap.OvalFtsPrefix
import OpenScap.SeapPacketRecv
import OpenScap.XmlEvents
import OpenScap.XmlCursor
import OpenScap.XmlRecords
import OpenScap.XccdfXml
import OpenScap.XccdfProfileXml
import OpenScap.XccdfProfileEnds
import OpenScap.XccdfProfileRecords
import OpenScap.XccdfCheckXml
import OpenScap.XccdfCheckRecords
import OpenScap.CpeLangRoundTrip
import OpenScap.ChunkedReader
import OpenScap.Xbase64
import OpenScap.SexpParse
import OpenScap.SexpParseLiteral
import OpenScap.SexpTransport
import OpenScap.KeyedRuns
import OpenScap.SeapCommand
import OpenScap.SeapCmdExec
import OpenScap.ProbeWorker
import OpenScap.TracedCalls
import OpenScap.XccdfEvaluate
import OpenScap.XccdfRemediate
