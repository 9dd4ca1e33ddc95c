import Andri.Lib.Words
import Andri.Lib.Endian
import Andri.Lib.Chunks
import Andri.Lib.Mixing
import Andri.Lib.Rates
import Andri.Lib.Literal
import Andri.Lib.Trim
import Andri.Lib.Stream
import Andri.Lib.Reader
import Andri.Lib.Span
import Andri.Lib.FloorCarry
import Andri.Lib.Smoothing
import Andri.Lib.Deltas
import Andri.Lib.Counters
import Andri.Lib.Json
import Andri.Proto.Msg
import Andri.Proto.Frame
import Andri.Proto.Segments
import Andri.Proto.Json
import Andri.Udp.LossJitter
import Andri.Udp.Loss
import Andri.Udp.Jitter
import Andri.Udp.Tally
import Andri.Udp.Params
import Andri.Udp.Pacing
import Andri.Tcp.Params
import Andri.Tcp.Payload
import Andri.Session.Derived
import Andri.Lib.Transition
import Andri.Lib.Turns
import Andri.Lib.Inevitable
import Andri.Lib.Channel
import Andri.Net
import Andri.Meter
import Andri.Payload
import Andri.Tcp.Serve
import Andri.Tcp.Progress
import Andri.Tcp.Trace
import Andri.Tcp.Measured
import Andri.Tcp.Series
import Andri.Udp.Header
import Andri.Udp.Overflow
import Andri.Udp.Serve
import Andri.Udp.Series
import Andri.File.Serve
import Andri.File.Progress
import Andri.Session.Server
import Andri.Session.Handshake
import Andri.Session.History
import Andri.Session.Output
import Andri.Session.DataPlane
import Andri.Session.Finish
import Andri.Session.Refusal
import Andri.Session.Depart
import Andri.Session.Samples
import Andri.Session.OnTime
import Andri.Session.ResultSize
import Andri.Session.Wire
import Andri.Session.Heard
import Andri.Session.Listen
import Andri.Session.Carry
import Andri.Session.Backed
import Andri.Session.Reports
import Andri.Client.Opts
import Andri.Client.Bitrate
import Andri.Tcp.Drive
import Andri.Udp.Drive
import Andri.Udp.Offered
import Andri.Udp.Readout
import Andri.Udp.Link
import Andri.File.Drive
import Andri.File.Accounting
import Andri.File.Over
import Andri.File.Copy
import Andri.File.Width
import Andri.File.Readout
import Andri.Client.Connect
import Andri.Client.Script
import Andri.Client.Follows
import Andri.Client.Agreement
import Andri.Client.Progress
import Andri.Client.NoDeadlock
import Andri.Client.Contract
import Andri.Client.Readout
import Andri.Client.Main
import Andri.Client.Exit
import Andri.Client.Ends
import Andri.Tcp.Fed
import Andri.Client.Flow
import Andri.Client.Recv
import Andri.Client.Disk
import Andri.Lib.Simulation
import Andri.Client.Wired
import Andri.Client.Exchange
import Andri.Client.Relay
import Andri.Lib.Ticks
import Andri.Live
import Andri.Tcp.Live
import Andri.Udp.Live
import Andri.Lib.Decimal
import Andri.Lib.Binary64
import Andri.Report
import Andri.Client.Printed
