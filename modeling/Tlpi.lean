import Tlpi.Lib.Machine
import Tlpi.Svsem.BinarySems
import Tlpi.Svshm.Xfr
import Tlpi.Threads.ProdConsCv
import Tlpi.Filelock.CreatePidFile
import Tlpi.Lib.CString
import Tlpi.Namespaces.UsernsChildExec
import Tlpi.Svmsg.FileService
import Tlpi.Lib.Paths
import Tlpi.Inotify.Cache
import Tlpi.Lib.Outcome
import Tlpi.Inotify.Dtree
import Tlpi.Inotify.CacheInvariant
import Tlpi.Inotify.Chunks
import Tlpi.Inotify.Linux
import Tlpi.Inotify.Traversal
import Tlpi.Inotify.Rounds
import Tlpi.Inotify.Lag
import Tlpi.Inotify.Changes
import Tlpi.Inotify.Convergence
import Tlpi.Inotify.Synchronous
import Tlpi.Lib.Counting
import Tlpi.Procexec.MultiSigchld
import Tlpi.Common.GetNum
import Tlpi.Lib.Mqueue
import Tlpi.Pmsg.NotifyViaSignal
import Tlpi.Svsem.GoodInit
import Tlpi.Pmsg.NotifyViaThread
import Tlpi.Threads.Multijoin
import Tlpi.Threads.MultijoinProgress
import Tlpi.Lib.Slots
import Tlpi.Sockets.ReadLine
import Tlpi.Sockets.Seqnum
import Tlpi.Pipes.FifoSeqnum
import Tlpi.Lib.Forest
import Tlpi.Namespaces.Linux
import Tlpi.Namespaces.NamespacesOf
import Tlpi.Namespaces.Hierarchy
import Tlpi.Namespaces.Display
import Tlpi.Namespaces.PidNamespaces
import Tlpi.Lib.Bpf
import Tlpi.Seccomp.Multiarch
import Tlpi.Inotify.InPlace
import Tlpi.Inotify.Zap
import Tlpi.Inotify.Rename
import Tlpi.Sockets.Sendfile
import Tlpi.Sockets.ReadLineBuf
import Tlpi.Lib.Fds
import Tlpi.Namespaces.NsCapable
import Tlpi.Lib.Memory
import Tlpi.Sockets.ScmMulti
import Tlpi.Lib.OnesComplement
import Tlpi.Sockets.RawSendUdp
import Tlpi.Acl.ParseACL
import Tlpi.Lib.Faults
import Tlpi.Acl.AclUpdate
import Tlpi.Lib.Lines
import Tlpi.Sockets.LineStreams
import Tlpi.Sockets.Checksum
import Tlpi.Sockets.Rdwrn
import Tlpi.Sockets.InetSockets
import Tlpi.Svsem.SvsemOp
import Tlpi.Acl.AclText
import Tlpi.Acl.AclEdits
import Tlpi.Acl.UgidFunctions
import Tlpi.Proc.Setenv
import Tlpi.Procexec.Execlp
import Tlpi.Procexec.ExeclpSearch
import Tlpi.Procexec.ExeclpVectors
import Tlpi.Files.Chiflag
import Tlpi.Namespaces.DisplayTree
import Tlpi.Lib.Fields
import Tlpi.Lib.Fill
import Tlpi.Namespaces.WrapText
import Tlpi.Cgroups.ViewV2Cgroups
import Tlpi.Seccomp.ControlOpen
import Tlpi.Debug.PrimeBug
import Tlpi.Lib.CHeap
import Tlpi.Memalloc.FreeAndSbrk
import Tlpi.Timers.ItimerspecFromStr
import Tlpi.Cgroups.DisplayCgroup
import Tlpi.Inotify.Buffer
import Tlpi.Lib.Progress
import Tlpi.Lib.CopyLoop
import Tlpi.Lib.Caps
import Tlpi.Sockets.Echo
import Tlpi.Pipes.ChangeCase
import Tlpi.Pipes.PipeLsWc
import Tlpi.Altio.SelectMq
import Tlpi.Altio.EpollInput
import Tlpi.Altio.DemoSigio
import Tlpi.Threads.ThreadIncr
import Tlpi.Threads.GuardedIncr
import Tlpi.Threads.ProdCondvar
import Tlpi.Threads.OneTimeInit
import Tlpi.Threads.StrerrorTsd
import Tlpi.Threads.ThreadCleanup
import Tlpi.Threads.BarrierDemo
import Tlpi.Psem.Lockstep
import Tlpi.Pmsg.NotifySigwaitinfo
import Tlpi.Procexec.System
import Tlpi.Namespaces.SimpleInit
import Tlpi.Daemons.BecomeDaemon
import Tlpi.Pty.PtyFork
import Tlpi.Tty.TestTtyFunctions
import Tlpi.Cap.CapLauncher
import Tlpi.Cap.CheckPasswordCaps
import Tlpi.Seccomp.Arg64
import Tlpi.Debug.PrimeList
import Tlpi.Sysinfo.ProcfsUserExe
import Tlpi.Pipes.PipeSync
import Tlpi.Pipes.PopenGlob
