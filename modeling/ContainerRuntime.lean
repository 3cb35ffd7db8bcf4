import ContainerRuntime.CString.Tokens
import ContainerRuntime.CString.Numerals
import ContainerRuntime.CString.Lines
import ContainerRuntime.Host.Basic
import ContainerRuntime.Resource.Limits
import ContainerRuntime.Cli.Tokenizer
import ContainerRuntime.Cli.Requests
import ContainerRuntime.Registry.Container
import ContainerRuntime.Namespace.ExecArgv
import ContainerRuntime.Registry.Metadata
import ContainerRuntime.Resource.Enforcement
import ContainerRuntime.Scheduler.Table
import ContainerRuntime.Scheduler.Rotation
import ContainerRuntime.Logic.Program
import ContainerRuntime.Logic.Failing
import ContainerRuntime.Host.World
import ContainerRuntime.Manager.Actions
import ContainerRuntime.Manager.Operations
import ContainerRuntime.Manager.Refinement
import ContainerRuntime.Manager.Commands
import ContainerRuntime.Logic.Lists
import ContainerRuntime.Manager.RegistryInvariant
import ContainerRuntime.Manager.Accounting
import ContainerRuntime.Manager.Ownership
import ContainerRuntime.Manager.SchedOff
import ContainerRuntime.Manager.Restart
import ContainerRuntime.Filesystem.Tree
import ContainerRuntime.Filesystem.Prepare
import ContainerRuntime.Filesystem.Confinement
import ContainerRuntime.Logger.Messages
import ContainerRuntime.Manager.Footprints
import ContainerRuntime.Manager.ExitReport
import ContainerRuntime.Manager.Upkeep
import ContainerRuntime.Manager.Targets
import ContainerRuntime.Manager.Durability
import ContainerRuntime.Manager.Ids
import ContainerRuntime.Manager.Signals
import ContainerRuntime.Logic.Coroutine
import ContainerRuntime.Namespace.Handshake
import ContainerRuntime.Namespace.Kernel
import ContainerRuntime.Namespace.Protocol
import ContainerRuntime.Namespace.Runs
import ContainerRuntime.Namespace.Sandbox
import ContainerRuntime.Namespace.Descriptors
import ContainerRuntime.Logic.LeadsTo
import ContainerRuntime.Namespace.ExecReport
import ContainerRuntime.Namespace.Progress
import ContainerRuntime.Namespace.Attention
import ContainerRuntime.Namespace.Returns
import ContainerRuntime.Manager.Lifecycle
import ContainerRuntime.Manager.Rollback
import ContainerRuntime.Scheduler.Fairness
import ContainerRuntime.Resource.LowerOnly
import ContainerRuntime.Manager.MetadataFile
import ContainerRuntime.Cli.MainLoop
import ContainerRuntime.CString.Search
import ContainerRuntime.Logger.Records
import ContainerRuntime.Logger.Filter
import ContainerRuntime.Logger.Follow
import ContainerRuntime.Namespace.Neutrality
import ContainerRuntime.Logger.Lines
import ContainerRuntime.Logger.Catalog
import ContainerRuntime.Logger.Fields
import ContainerRuntime.Logger.Replay
import ContainerRuntime.Logger.Reconstruction
import ContainerRuntime.Logger.Rows
import ContainerRuntime.Logger.RoundTrip
import ContainerRuntime.CString.Access
import ContainerRuntime.Monitor.ProcStat
import ContainerRuntime.Monitor.Watch
import ContainerRuntime.Manager.Frame
import ContainerRuntime.Manager.Shutdown
import ContainerRuntime.Cli.Interrupts
import ContainerRuntime.Filesystem.Copying
import ContainerRuntime.Logic.Chains
import ContainerRuntime.Manager.LinkedList
import ContainerRuntime.Scheduler.Array
import ContainerRuntime.Logic.ShellWords
import ContainerRuntime.Filesystem.LddCommand
import ContainerRuntime.Filesystem.Directories
import ContainerRuntime.Filesystem.Growth
import ContainerRuntime.Logic.Orbits
import ContainerRuntime.Filesystem.Reach
import ContainerRuntime.Filesystem.Rooted
import ContainerRuntime.Filesystem.Isolate
import ContainerRuntime.Filesystem.Walks
import ContainerRuntime.Filesystem.OldRoot
import ContainerRuntime.Filesystem.Isolation
import ContainerRuntime.Filesystem.Links
import ContainerRuntime.Filesystem.Lexical
import ContainerRuntime.Filesystem.Mirror
import ContainerRuntime.Filesystem.Chase
import ContainerRuntime.Filesystem.Phases
import ContainerRuntime.Filesystem.Population
import ContainerRuntime.Filesystem.Contained
import ContainerRuntime.Logic.Mutex
import ContainerRuntime.Scheduler.Locking
import ContainerRuntime.Scheduler.Sections
import ContainerRuntime.Scheduler.Interleaving
