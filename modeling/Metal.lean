import Metal.Coop.Retire
import Metal.Coop.Reclaim
import Metal.Coop.Owner
import Metal.Net.Convergence
import Metal.Net.KeyMap
import Metal.Build.Resolve
import Metal.Build.Render
import Metal.Build.Dag
import Metal.Build.Walk
import Metal.Build.Queue
import Metal.Build.Gate
import Metal.Net.Ip.Arp
import Metal.Net.Ip.Accepted
import Metal.Net.Pending
import Metal.Net.Tunnel
import Metal.Net.Transfer
import Metal.Net.Registry
import Metal.Net.Mirror
import Metal.Net.SshGate
import Metal.Net.SshDispatch
import Metal.Drivers.VirtioRxRun
import Metal.Drivers.VirtioTxRun
import Metal.Port.TempRun
import Metal.Net.Asgi.ListenRun
import Metal.Net.Asgi.Deferred
import Metal.Net.Ip.Resend
import Metal.Net.Ip.Opening
import Metal.Net.Ip.Udp
import Metal.Coop.Current
import Metal.Coop.ReadyQueue
import Metal.Coop.Awaits
import Metal.Coop.Timers
import Metal.Process.Table
import Metal.Drivers.VirtioBlk
import Metal.Workspace.Mirror
import Metal.Edit.Reread
import Metal.Fs.Atomic
import Metal.Fs.Chain
import Metal.Fs.Nesting
import Metal.Build.Retained
import Metal.Net.WgAead
import Metal.Net.X25519
import Metal.Net.Ipv6Text
import Metal.Net.SshWire
import Metal.Net.DnsAnswer
import Metal.Net.DhcpTable
import Metal.Net.ZenohFrames
import Metal.Net.HttpFetch
import Metal.Fw.Spare
import Metal.Screens.Focus
import Metal.Drivers.VirtioRingRun
import Metal.Net.Asgi.RoutesRun
import Metal.Build.NormJoin
import Metal.Build.Events
import Metal.Jit.C.Diag
import Metal.Port.Strto
import Metal.Jit.Rs.TablesRun
import Metal.Net.WgPolyExact
import Metal.Jit.Rs.LexerLines
import Metal.Jit.Rs.LexerMacros
