import UsbMux.Lib.Mealy
import UsbMux.Lib.Block
import UsbMux.Lib.Circular
import UsbMux.Lib.Framing
import UsbMux.Lib.Endian
import UsbMux.Lib.Bits
import UsbMux.Lib.Fifo
import UsbMux.Lib.Distance
import UsbMux.Lib.Access
import UsbMux.Lib.Numbered
import UsbMux.Lib.Ownership
import UsbMux.Lib.Writes
import UsbMux.Lib.Recent
import UsbMux.Lib.Progress
import UsbMux.Lib.Stutter
import UsbMux.Lib.Lossy
import UsbMux.Lib.ControlPipe
import UsbMux.Lib.Atomic
import UsbMux.RingBuffer
import UsbMux.RingRuns
import UsbMux.Proto
import UsbMux.RxFsm
import UsbMux.RxFacts
import UsbMux.TxSched
import UsbMux.TxFacts
import UsbMux.TxHints
import UsbMux.TxOrder
import UsbMux.HeaderCodec
import UsbMux.CrcDistance
import UsbMux.RxRuns
import UsbMux.RxBounds
import UsbMux.DevLl
import UsbMux.DevFacts
import UsbMux.DevAddress
import UsbMux.DevControl
import UsbMux.DevAtomic
import UsbMux.OutPath
import UsbMux.Resync
import UsbMux.OverLong
import UsbMux.InToggles
import UsbMux.InPath
import UsbMux.InDrain
import UsbMux.UartMgr
import UsbMux.UartFacts
import UsbMux.UartPaths
import UsbMux.UartPort
import UsbMux.UartRuns
import UsbMux.UartBaud
import UsbMux.BleLink
import UsbMux.BleGatt
import UsbMux.BleHost
import UsbMux.BleEvents
import UsbMux.BleSteps
import UsbMux.BleRuns
import UsbMux.BleDiscovery
import UsbMux.BleRange
import UsbMux.BleUnused
import UsbMux.BleConnect
import UsbMux.BleBuffers
import UsbMux.BlePairs
import UsbMux.Router
import UsbMux.PayloadReads
import UsbMux.System
import UsbMux.Firmware
import UsbMux.HostReads
import UsbMux.UartLines
import UsbMux.BlePath
import UsbMux.BleValues
import UsbMux.BleWrites
import UsbMux.Tmos
import UsbMux.AppTask
import UsbMux.TaskRuns
import UsbMux.TaskEvents
import UsbMux.TaskLoad
import UsbMux.TaskRest
import UsbMux.UartFlush
import UsbMux.FlushRace
import UsbMux.DropRace
import UsbMux.Heartbeat
import UsbMux.AppLog
import UsbMux.LogTask
import UsbMux.LogDrain
