import Wings.Lib.Run
import Wings.Lib.MachineInt
import Wings.Lib.OpenFile
import Wings.Lib.SortedEntries
import Wings.Lib.PathLedger
import Wings.Lib.FileTree
import Wings.Lib.TreeWalk
import Wings.Lib.RealPath
import Wings.Lib.Json
import Wings.Lib.IndexMap
import Wings.Lib.Worklist
import Wings.Lib.RowTable
import Wings.Lib.RuleChains
import Wings.Lib.PacketFilter
import Wings.Lib.Inodes
import Wings.Lib.PartitionPoint
import Wings.Lib.Schedule
import Wings.Lib.PendingCheck
import Wings.Lib.Text
import Wings.Lib.Retain
import Wings.Lib.LittleEndian
import Wings.ConfigPatch
import Wings.Path
import Wings.Utf8
import Wings.DeduplicatePaths
import Wings.Server.Permissions
import Wings.Server.State
import Wings.Server.BackupReceiver
import Wings.Server.BackupVerified
import Wings.Server.BackupSender
import Wings.Configuration.Process
import Wings.Configuration.Properties
import Wings.Configuration.PropertiesRead
import Wings.Configuration.PropertiesKeys
import Wings.Configuration.Ini
import Wings.Configuration.IniKeys
import Wings.Configuration.JsonFile
import Wings.Configuration.TomlFile
import Wings.Configuration.XmlFile
import Wings.Remote.JwtUses
import Wings.Io.FallibleReader
import Wings.Io.LineBuffer
import Wings.Filesystem.Atomics
import Wings.Filesystem.ServerFile
import Wings.Filesystem.AsyncServerFile
import Wings.Filesystem.DiskUsage
import Wings.Filesystem.Usage
import Wings.Filesystem.Tree
import Wings.Filesystem.Symlink
import Wings.Filesystem.WalkDir
import Wings.Filesystem.DiskChecker
import Wings.Filesystem.Rescan
import Wings.Filesystem.SelectiveScan
import Wings.Filesystem.Notifier
import Wings.Filesystem.CheckerLoop
import Wings.Filesystem.Inotify
import Wings.Filesystem.InotifyKernel
import Wings.Filesystem.WatchTable
import Wings.Filesystem.Uploads
import Wings.Filesystem.Accounts
import Wings.Filesystem.Allocate
import Wings.Filesystem.RenamePath
import Wings.Filesystem.MoveDirectory
import Wings.Filesystem.Trash
import Wings.Filesystem.TrashIndex
import Wings.Filesystem.IgnoreList
import Wings.Filesystem.IgnoreWalk
import Wings.Filesystem.IgnoreReach
import Wings.Filesystem.FileRead
import Wings.Collab.Doc
import Wings.Collab.Manager
import Wings.Collab.Connection
import Wings.Diff.Storage
import Wings.Diff.Chains
import Wings.Diff.Manager
import Wings.Diff.Reconstruct
import Wings.Diff.Forget
import Wings.Firewall.Rules
import Wings.Firewall.Sets
import Wings.Firewall.SourceReader
import Wings.Firewall.Backend
import Wings.Firewall.Nftables
import Wings.Firewall.Iptables
import Wings.Firewall.Verdicts
import Wings.Firewall.Effect
import Wings.Firewall.SourceSets
import Wings.ResourceHistory.Accumulator
import Wings.ResourceHistory.Query
import Wings.ResourceHistory.Spans
import Wings.Routes.UploadFile
import Wings.Routes.UploadAssembly
import Wings.Pbs.ChunkReader
import Wings.Pbs.FileReader
import Wings.Pbs.GoodbyeTable
import Wings.Pbs.Writer
import Wings.Pbs.WriterIndex
import Wings.Archive.Itaf
import Wings.Archive.MultiReader
import Wings.Archive.Writers
import Wings.Archive.WritersInv
import Wings.Archive.WritersProgress
import Wings.Ssh.Sftp.Session
import Wings.Ssh.Sftp.Calls
import Wings.Ssh.Sftp.Requests
import Wings.Ssh.Sftp.Hidden
import Wings.Ssh.Sftp.Replies
import Wings.Ssh.Sftp.NamedEntry
import Wings.Schedule.Cron
import Wings.Schedule.Actions
import Wings.Schedule.ConsoleLine
