import Ringmaster.Library.ByteOrder
import Ringmaster.Library.Unsigned
import Ringmaster.Library.OrderedMap
import Ringmaster.Library.Loop
import Ringmaster.Library.Run
import Ringmaster.Library.Frontier
import Ringmaster.Library.Memory
import Ringmaster.Library.Ownership
import Ringmaster.Library.Separator
import Ringmaster.Library.Predictive
import Ringmaster.Library.Ewma
import Ringmaster.Library.Overtaking
import Ringmaster.Util
import Ringmaster.NarrowCast
import Ringmaster.Serialization
import Ringmaster.BitRanges
import Ringmaster.Protocol
import Ringmaster.Messages
import Ringmaster.Frame
import Ringmaster.FrameInsertion
import Ringmaster.Decoder
import Ringmaster.Receiver
import Ringmaster.Reassembly
import Ringmaster.FrameSet
import Ringmaster.HandOff
import Ringmaster.DecoderCalls
import Ringmaster.Threads
import Ringmaster.Rest
import Ringmaster.Tracking
import Ringmaster.DecodeBuffer
import Ringmaster.Packetization
import Ringmaster.Encoder
import Ringmaster.PayloadBound
import Ringmaster.Compression
import Ringmaster.SenderSteps
import Ringmaster.SendOrder
import Ringmaster.AckEffect
import Ringmaster.TimeArithmetic
import Ringmaster.Retransmission
import Ringmaster.Poller
import Ringmaster.Dispatch
import Ringmaster.DispatchSafety
import Ringmaster.Reregistration
import Ringmaster.Epoller
import Ringmaster.EpollMirror
import Ringmaster.VideoSender
import Ringmaster.Handshake
import Ringmaster.Programs
import Ringmaster.Integrity
import Ringmaster.Delivery
import Ringmaster.Genuine
import Ringmaster.Coherence
import Ringmaster.Recovery
import Ringmaster.InFlight
import Ringmaster.InOrder
import Ringmaster.Gaps
import Ringmaster.RttEstimate
import Ringmaster.Pacing
import Ringmaster.RoundTrips
import Ringmaster.FileDescriptor
import Ringmaster.LineReading
import Ringmaster.Writing
import Ringmaster.FileOffsets
import Ringmaster.Descriptors
import Ringmaster.RawImage
import Ringmaster.PlaneCopies
import Ringmaster.YuyvConversion
import Ringmaster.Strings
import Ringmaster.StrictParsing
import Ringmaster.Worker
import Ringmaster.Playback
import Ringmaster.Fidelity
import Ringmaster.Splitting
import Ringmaster.Yuv4mpeg
import Ringmaster.FrameLoop
import Ringmaster.FrameTimer
import Ringmaster.Screening
import Ringmaster.FrameSizes
import Ringmaster.HeaderCheck
import Ringmaster.Camera
