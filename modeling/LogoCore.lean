import LogoCore.AcceptOnce
import LogoCore.AcceptSequence
import LogoCore.AcceptSlot
import LogoCore.AddressPrinting
import LogoCore.AddressText
import LogoCore.AllocationContract
import LogoCore.BlockCopies
import LogoCore.BlockLayout
import LogoCore.ByteComparison
import LogoCore.ByteLanes
import LogoCore.ByteMemory
import LogoCore.BytePreservation
import LogoCore.ByteStream
import LogoCore.CStrings
import LogoCore.CallbackRegistry
import LogoCore.ChainChecksums
import LogoCore.ClaimedSlots
import LogoCore.ClientCopies
import LogoCore.CompleteTransfer
import LogoCore.ConnectLeaks
import LogoCore.ConnectSettling
import LogoCore.ConnectionRuns
import LogoCore.CursorRange
import LogoCore.DelayPolling
import LogoCore.Eeprom
import LogoCore.EmacReceive
import LogoCore.EmacReceiveFrames
import LogoCore.EmacReceiveRing
import LogoCore.EmacTransmit
import LogoCore.EmacTransmitRing
import LogoCore.Etharp
import LogoCore.EtharpRuns
import LogoCore.EthernetBegin
import LogoCore.EthernetClient
import LogoCore.EthernetServer
import LogoCore.EthernetUdp
import LogoCore.EventMachine
import LogoCore.ExplicitAck
import LogoCore.FifoQueue
import LogoCore.FinDelivery
import LogoCore.FinHandover
import LogoCore.FlushQueue
import LogoCore.ForeignDatagrams
import LogoCore.FrameSplitting
import LogoCore.FramedStream
import LogoCore.GenerationCounter
import LogoCore.GpioInterrupts
import LogoCore.GrowingReplace
import LogoCore.HandleIdentity
import LogoCore.HardwareSerial
import LogoCore.ImageBlocks
import LogoCore.ImagePartition
import LogoCore.IndexRing
import LogoCore.InetChksum
import LogoCore.IntegerFields
import LogoCore.IntegerFormats
import LogoCore.Iteration
import LogoCore.Ledger
import LogoCore.Loader
import LogoCore.LoaderSync
import LogoCore.MemHeap
import LogoCore.MemHeapLayout
import LogoCore.MemHeapLinks
import LogoCore.MemHeapOperations
import LogoCore.MemHeapRuns
import LogoCore.MemHeapSearch
import LogoCore.MicrosReads
import LogoCore.ModbusReboot
import LogoCore.NumberText
import LogoCore.Numerals
import LogoCore.OnesComplement
import LogoCore.OrderedChannel
import LogoCore.OutboundClient
import LogoCore.OutboundLedger
import LogoCore.OutboundPcbs
import LogoCore.OutboundStates
import LogoCore.ParseAccesses
import LogoCore.PbufBuffers
import LogoCore.PbufChain
import LogoCore.PcbEntries
import LogoCore.PinTables
import LogoCore.PositionalArgument
import LogoCore.PreemptedAccept
import LogoCore.PreemptedAvailable
import LogoCore.PreemptedParse
import LogoCore.PreemptedWrite
import LogoCore.PrefixMatching
import LogoCore.Print
import LogoCore.PrintedIntegers
import LogoCore.PriorityScan
import LogoCore.PwmTimers
import LogoCore.Random
import LogoCore.ReadOperations
import LogoCore.ReceiveQueue
import LogoCore.RewriteComparison
import LogoCore.RingBuffer
import LogoCore.RingWindow
import LogoCore.RoundRobin
import LogoCore.SegmentedAnswers
import LogoCore.SelfConcat
import LogoCore.SequenceNumbers
import LogoCore.SerialBuffers
import LogoCore.SerialReception
import LogoCore.ServerFairness
import LogoCore.ServerRuns
import LogoCore.Servo
import LogoCore.ServoAngles
import LogoCore.ServoFrame
import LogoCore.ServoPulses
import LogoCore.SignedWords
import LogoCore.SleepDeadlines
import LogoCore.SlotCorrespondence
import LogoCore.SlotEffects
import LogoCore.SlotOwnership
import LogoCore.StaleDetection
import LogoCore.StaleHandle
import LogoCore.StartsWith
import LogoCore.StopAndWait
import LogoCore.StoredStrings
import LogoCore.StreamParsing
import LogoCore.StreamSearch
import LogoCore.StringObjects
import LogoCore.StringTexts
import LogoCore.Substitution
import LogoCore.SysTick
import LogoCore.TcpAcknowledgement
import LogoCore.TcpConsistency
import LogoCore.TcpControlBlock
import LogoCore.TcpDelivery
import LogoCore.TcpFrames
import LogoCore.TcpInput
import LogoCore.TcpLink
import LogoCore.TcpOutOfSequence
import LogoCore.TcpReassembly
import LogoCore.TcpReceive
import LogoCore.TcpSegmentation
import LogoCore.TcpSegments
import LogoCore.TcpSend
import LogoCore.TcpSendQueue
import LogoCore.TcpSender
import LogoCore.TcpSenderInput
import LogoCore.TcpSenderRuns
import LogoCore.TcpTransmission
import LogoCore.TextSearch
import LogoCore.ToneCalls
import LogoCore.ToneRequests
import LogoCore.ToneTimers
import LogoCore.ToolTermination
import LogoCore.TwoWire
import LogoCore.UdpQueue
import LogoCore.UdpTransmit
import LogoCore.UploadSession
import LogoCore.UploadTool
import LogoCore.Uploader
import LogoCore.WString
import LogoCore.WStringEdits
import LogoCore.WStringGrowth
import LogoCore.WStringReplace
import LogoCore.WStringSearch
import LogoCore.WStringSlices
import LogoCore.WStringText
import LogoCore.WiFiServer
import LogoCore.WindowCredit
import LogoCore.WireFormat
import LogoCore.WireReceive
import LogoCore.WireRequests
import LogoCore.WireTransmissions
import LogoCore.WriteAccesses
import LogoCore.WriteReport
