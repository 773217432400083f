import BleFirmware.Base.Buffer
import BleFirmware.Base.Bytes
import BleFirmware.Base.CSort
import BleFirmware.Base.Custody
import BleFirmware.Base.Loop
import BleFirmware.Base.Refine
import BleFirmware.Base.Run
import BleFirmware.Base.Segment
import BleFirmware.Base.Semaphore
import BleFirmware.ArrayList
import BleFirmware.BleLink
import BleFirmware.BleLinkAddr
import BleFirmware.BleLinkMap
import BleFirmware.CsEventHandler
import BleFirmware.CsIsolation
import BleFirmware.CsProcedures
import BleFirmware.Deque
import BleFirmware.HeapList
import BleFirmware.KvList
import BleFirmware.KvListBag
import BleFirmware.KvListMap
import BleFirmware.KvListSearch
import BleFirmware.KvListTasks
import BleFirmware.LinkedList
import BleFirmware.LinkedListSearch
import BleFirmware.LinkedListSort
import BleFirmware.ListAlgo
import BleFirmware.ListChain
import BleFirmware.ListKinds
import BleFirmware.ListMutex
import BleFirmware.LogFormat
import BleFirmware.LogPrint
import BleFirmware.LogWritten
import BleFirmware.LwList
import BleFirmware.MsgBus
import BleFirmware.MsgBusDelivery
import BleFirmware.MsgBusRoutes
import BleFirmware.MsgBusTasks
import BleFirmware.MsgBusTopics
import BleFirmware.OpQueue
import BleFirmware.OpQueueConservation
import BleFirmware.OpQueueExclusion
import BleFirmware.OpQueueFifo
import BleFirmware.OpQueueNested
import BleFirmware.OpQueueNestedFifo
import BleFirmware.OpQueueOrder
import BleFirmware.OpQueueOwnership
import BleFirmware.OpQueueReports
import BleFirmware.OpQueueRunning
import BleFirmware.OpQueueTransitions
import BleFirmware.UtilTool
import BleFirmware.KvListRuns
import BleFirmware.KvListRemove
import BleFirmware.KvListInit
import BleFirmware.MsgBusCall
import BleFirmware.MsgBusInit
import BleFirmware.BleHostEvents
import BleFirmware.ListRemove
import BleFirmware.ArrayPool
import BleFirmware.ListSortPerm
import BleFirmware.Base.Numeral
import BleFirmware.LogText
import BleFirmware.LogLine
import BleFirmware.ByteOrder
import BleFirmware.HeapLayout
import BleFirmware.AllocFailure
import BleFirmware.CsRelease
import BleFirmware.CsStanding
import BleFirmware.Base.Tokens
import BleFirmware.Base.Digits
import BleFirmware.PrintfGadget
import BleFirmware.PrintfInteger
import BleFirmware.PrintfStandard
import BleFirmware.PrintfFormat
import BleFirmware.PrintfSyntax
import BleFirmware.PrintfFields
import BleFirmware.PrintfMeaning
import BleFirmware.PrintfTypes
import BleFirmware.PrintfCalls
import BleFirmware.PrintfDirective
import BleFirmware.PrintfReading
import BleFirmware.PrintfLog
import BleFirmware.PrintfDecimal
import BleFirmware.PrintfDecimalRow
import BleFirmware.PrintfFloatReading
import BleFirmware.PrintfZeros
import BleFirmware.PrintfFloatCall
import BleFirmware.LogTasks
import BleFirmware.LogSerial
import BleFirmware.BleHostTask
import BleFirmware.Base.Rounding
import BleFirmware.Base.Binary64
import BleFirmware.Base.Double
import BleFirmware.PrintfDouble
import BleFirmware.PrintfAccuracy
