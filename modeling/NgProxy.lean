import NgProxy.Cluster.Converge
import NgProxy.Cluster.Crc16
import NgProxy.Cluster.Entries
import NgProxy.Cluster.Fragment
import NgProxy.Cluster.Frame
import NgProxy.Cluster.HashTag
import NgProxy.Cluster.Open
import NgProxy.Cluster.Once
import NgProxy.Cluster.ReadFault
import NgProxy.Cluster.Script
import NgProxy.Cluster.Release
import NgProxy.Cluster.Returns
import NgProxy.Codec.Fault
import NgProxy.Codec.Relay
import NgProxy.Codec.Split
import NgProxy.Config.Atomic
import NgProxy.Config.Load
import NgProxy.Config.SlotVersion
import NgProxy.Handler.Integers
import NgProxy.Handler.Latency
import NgProxy.Handler.OneReply
import NgProxy.Handler.Usec
import NgProxy.Handler.Verbatim
import NgProxy.Lib.Delimited
import NgProxy.Lib.Scan
import NgProxy.Metric.Counter
import NgProxy.Process.Partition
import NgProxy.Process.Verdict
import NgProxy.Stream.Bounds
import NgProxy.Stream.Exact
import NgProxy.Stream.Framing
import NgProxy.Stream.Header
import NgProxy.Stream.Probe
import NgProxy.Stream.Reach
import NgProxy.Stream.Stable
import NgProxy.Lib.Search
import NgProxy.Shdict.Zone
import NgProxy.Shdict.Counter
import NgProxy.Lib.Border
import NgProxy.Lib.Machine
import NgProxy.Tcp.Buffer
import NgProxy.Tcp.Chunks
import NgProxy.Tcp.Decode
import NgProxy.Tcp.Pattern
import NgProxy.Tcp.Pipeline
import NgProxy.Tcp.Until
import NgProxy.Tcp.Keepalive
import NgProxy.Tcp.Owned
