import WindCloud.Lib.Prog
import WindCloud.Lib.Total
import WindCloud.Lib.Duplex
import WindCloud.Lib.Par
import WindCloud.Lib.PrefixCode
import WindCloud.Lib.FileImage
import WindCloud.Lib.ByteOrder
import WindCloud.Lib.Resumable
import WindCloud.Lib.Counting
import WindCloud.Lib.Log
import WindCloud.Lib.Handles
import WindCloud.Lib.Chain
import WindCloud.Lib.Unfold
import WindCloud.Protocol
import WindCloud.HostOrder
import WindCloud.Kernel
import WindCloud.Path
import WindCloud.PacketIo
import WindCloud.Server
import WindCloud.Client
import WindCloud.Run
import WindCloud.PathJail
import WindCloud.Framing
import WindCloud.ServerUpload
import WindCloud.UploadSafety
import WindCloud.ClientUpload
import WindCloud.Upload
import WindCloud.UploadRun
import WindCloud.Converge
import WindCloud.Exchange
import WindCloud.ServerDownload
import WindCloud.ServerStream
import WindCloud.Reported
import WindCloud.Queue
import WindCloud.Pool
import WindCloud.PoolOwnership
import WindCloud.PoolShutdown
import WindCloud.PoolWakeup
import WindCloud.ClientDownload
import WindCloud.Download
import WindCloud.DownloadRun
import WindCloud.Exactness
import WindCloud.Requests
import WindCloud.CurrentPath
import WindCloud.ServedRoot
import WindCloud.OutputStream
import WindCloud.Handles
import WindCloud.Termination
import WindCloud.Refusals
import WindCloud.UploadSteps
import WindCloud.Visible
import WindCloud.Sharing
import WindCloud.Acknowledged
import WindCloud.Stream
import WindCloud.Locality
import WindCloud.UploadLoop
import WindCloud.Announced
import WindCloud.PlainPath
import WindCloud.Normalize
import WindCloud.Strings
import WindCloud.Listing
import WindCloud.ResultBuffer
import WindCloud.CommandLoop
import WindCloud.Config
import WindCloud.CommandLine
import WindCloud.Waiting
import WindCloud.Replies
import WindCloud.Settling
import WindCloud.InStep
import WindCloud.Lib.Acts
import WindCloud.EventLoop
import WindCloud.EventLoopProgress
import WindCloud.Lib.Sections
import WindCloud.Locking
import WindCloud.Atomicity
import WindCloud.Footprint
import WindCloud.Tree
import WindCloud.Frame
import WindCloud.Isolation
import WindCloud.ClientFrame
import WindCloud.Shell
import WindCloud.ShellText
import WindCloud.ShellTransfer
import WindCloud.ShellRun
import WindCloud.RoundTrip
import WindCloud.Lib.Turns
import WindCloud.Deadlock
import WindCloud.Lib.Ending
import WindCloud.Service
