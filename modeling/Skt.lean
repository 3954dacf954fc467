import Skt.Software.FileClient
import Skt.Software.JobExchange
import Skt.Software.Receive
import Skt.Software.Median
import Skt.Software.Merge
import Skt.Software.Checked
import Skt.Software.HashRows
import Skt.Software.Sender
import Skt.Software.ReceiveRuns
import Skt.Hardware.Agreement
import Skt.Hardware.Lanes
import Skt.Hardware.FunnelRuns
import Skt.Hardware.AgmsSketch
import Skt.Hardware.CmSketch
import Skt.Hardware.BasicMetrics
import Skt.Hardware.Estimators
import Skt.Hardware.CycleCount
import Skt.Hardware.Aggregate
import Skt.Hardware.Rank
import Skt.Hardware.Murmur
import Skt.Hardware.SipHash
import Skt.Hardware.Transcoding
import Skt.Hardware.OneHot
import Skt.Hardware.Weight
import Skt.Software.Barrier
import Skt.Software.Pipeline
import Skt.Software.Guarantees
import Skt.Software.Bench
import Skt.Hardware.Interleave
import Skt.Hardware.UCollect
import Skt.Hardware.Host
