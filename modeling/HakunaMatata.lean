import HakunaMatata.Base.Pool
import HakunaMatata.MemoryPool.Model
import HakunaMatata.MemoryPool.Steps
import HakunaMatata.MemoryPool.Safety
import HakunaMatata.Base.RingReuse
import HakunaMatata.MemoryPool.EnsureSpace
import HakunaMatata.Base.LinkedList
import HakunaMatata.ListMemoryPool.Model
import HakunaMatata.ListMemoryPool.Heap
import HakunaMatata.ListMemoryPool.Relocation
import HakunaMatata.ListMemoryPool.Refinement
import HakunaMatata.ListMemoryPool.Safety
import HakunaMatata.ListMemoryPool.EnsureSize
import HakunaMatata.UseIndex.Model
import HakunaMatata.UseIndex.Refinement
import HakunaMatata.UseIndex.Agreement
import HakunaMatata.Base.Framing
import HakunaMatata.Base.Words
import HakunaMatata.CodecBytes.Model
import HakunaMatata.CodecBytes.Parsing
import HakunaMatata.CodecBytes.RoundTrip
import HakunaMatata.CodecBytes.Hostile
import HakunaMatata.Base.Lanes
import HakunaMatata.Simd.Matrix
import HakunaMatata.Simd.X86
import HakunaMatata.Simd.Neon
import HakunaMatata.Libevent.Model
import HakunaMatata.Libevent.RoundTrip
import HakunaMatata.Libevent.ObjectMemory
import HakunaMatata.Libevent.Hostile
import HakunaMatata.Base.Bufio
import HakunaMatata.GoCodec.Model
import HakunaMatata.GoCodec.Decoding
import HakunaMatata.GoCodec.RoundTrip
import HakunaMatata.GoCodec.Agreement
import HakunaMatata.NumberTheory.Euclid
import HakunaMatata.NumberTheory.LinearCongruence
import HakunaMatata.Tgw.Model
import HakunaMatata.Tgw.Reassembly
import HakunaMatata.Base.JavaBytes
import HakunaMatata.Protobuf.Decoder
import HakunaMatata.Protobuf.Local
import HakunaMatata.Protobuf.LocalStream
import HakunaMatata.Protobuf.Cpp
import HakunaMatata.Protobuf.FileFormat
import HakunaMatata.Base.Netty
import HakunaMatata.Protobuf.Netty
import HakunaMatata.UseNetty.MessageCodec
import HakunaMatata.Base.Gather
import HakunaMatata.TcpNData.Model
import HakunaMatata.TcpNData.Delivery
import HakunaMatata.Pfpa.Packet
import HakunaMatata.Pfpa.Context
import HakunaMatata.Pfpa.Sessions
import HakunaMatata.Pfpa.Noninterference
import HakunaMatata.DemoServer.Model
import HakunaMatata.DemoServer.Callbacks
import HakunaMatata.DemoServer.Login
import HakunaMatata.DemoServer.Handoff
import HakunaMatata.Libevent.ReadLoop
import HakunaMatata.Libevent.Echo
import HakunaMatata.Libevent.Reconnect
import HakunaMatata.Libevent.Tunnel
import HakunaMatata.Base.Amortization
import HakunaMatata.HomeLoan.Model
import HakunaMatata.HomeLoan.Schedules
import HakunaMatata.Base.Blocks
import HakunaMatata.RefCount.Ownership
import HakunaMatata.Base.Transaction
import HakunaMatata.MybatisRedis.Account
import HakunaMatata.MybatisRedis.Trade
import HakunaMatata.UserService.Model
import HakunaMatata.UserService.Bijection
import HakunaMatata.Captcha.OneUse
import HakunaMatata.Protobuf.AnyFile
import HakunaMatata.Libevent.PeerSet
import HakunaMatata.Base.Threads
import HakunaMatata.EventLoop.Producers
import HakunaMatata.EventLoop.Messages
import HakunaMatata.EventLoop.Mutex
import HakunaMatata.EventLoop.Progress
import HakunaMatata.EventLoop.Select
import HakunaMatata.NumberTheory.Bezout
import HakunaMatata.NumberTheory.Squares
import HakunaMatata.Base.Calendar
import HakunaMatata.DateCalc.Encoding
import HakunaMatata.DateCalc.Weeks
import HakunaMatata.DateCalc.Months
import HakunaMatata.HomeLoan.Funds
import HakunaMatata.Serialize.Bounds
import HakunaMatata.CmdUtils.Model
import HakunaMatata.CmdUtils.Safety
import HakunaMatata.CmdUtils.CommandLine
import HakunaMatata.CmdUtils.Cuts
import HakunaMatata.CmdUtils.Lossless
import HakunaMatata.Base.Extents
import HakunaMatata.MemoryPool.Layout
import HakunaMatata.Pfpa.Sequence
import HakunaMatata.Tgw.Progress
import HakunaMatata.GoCodec.Failure
import HakunaMatata.EventLoop.Timer
import HakunaMatata.EventLoop.EventPipe
import HakunaMatata.UserService.UpdateInfo
import HakunaMatata.UserService.Truthful
import HakunaMatata.Base.Batches
import HakunaMatata.AopDb.Balance
import HakunaMatata.TcpNData.Resume
import HakunaMatata.CodecChain.Order
import HakunaMatata.Base.Transit
import HakunaMatata.CodecChain.Registration
import HakunaMatata.DemoClient.Model
import HakunaMatata.DemoClient.Conversation
import HakunaMatata.DemoClient.Protocol
import HakunaMatata.DemoClient.Agreement
import HakunaMatata.Base.Binary64
import HakunaMatata.Base.Radix
import HakunaMatata.Singleton.Instance
import HakunaMatata.Totp.Base32
import HakunaMatata.Totp.Code
import HakunaMatata.Totp.Keys
import HakunaMatata.Base.Programs
import HakunaMatata.EventLoop.Epoll
import HakunaMatata.UserService.Handlers
import HakunaMatata.UserService.Passwords
