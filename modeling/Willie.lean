import Willie.Terminal.Abort
import Willie.Terminal.Bytes
import Willie.Terminal.Drawing
import Willie.Terminal.Replay
import Willie.Seccomp.Verdict
import Willie.Profiles.Containment
import Willie.Profiles.Seam
import Willie.Projects.Distinct
import Willie.Projects.Serial
import Willie.Projects.Spawns
import Willie.Projects.Settled
import Willie.Projects.Retry
import Willie.Sandbox.Landlock
import Willie.Sandbox.Bwrap
import Willie.Sessions.Log
import Willie.Sessions.Rename
import Willie.Sessions.Phantom
import Willie.Sessions.Restart
import Willie.Sessions.Tally
import Willie.Daemon.Stream
import Willie.Sessions.Start
import Willie.Supervisor.Attach
import Willie.Supervisor.Live
import Willie.Supervisor.Count
import Willie.Supervisor.Told
import Willie.Supervisor.Exit
import Willie.Supervisor.Queue
import Willie.Wire.Typed
import Willie.Profiles.Markdown
import Willie.Profiles.Merge
import Willie.Profiles.Settings
import Willie.Profiles.Backup
import Willie.Jobs.Observed
import Willie.Engine.Rpc
import Willie.Engine.Replies
import Willie.Engine.Settled
import Willie.App.Store
import Willie.App.Held
import Willie.App.Converges
import Willie.Logs.Reading
import Willie.Logs.Shared
import Willie.Common.Dag
import Willie.Git.Repos
import Willie.Projects.Sync
import Willie.Projects.Forward
import Willie.Projects.Synced
import Willie.Terminal.Swallowed
import Willie.Terminal.Control
import Willie.Common.Rescan
import Willie.Supervisor.Alternate
import Willie.Common.Utf8
import Willie.Sandbox.Prepare
import Willie.Sandbox.Mounted
import Willie.Common.JsonText
import Willie.Sessions.Torn
import Willie.Sessions.Relabel
import Willie.Sessions.Resume
import Willie.Common.Toml
import Willie.Projects.Store
import Willie.Projects.Kept
import Willie.Common.Joined
import Willie.Git.Porcelain
import Willie.Tree.Workspace
import Willie.Tree.Status
import Willie.Logs.Usage
import Willie.Projects.Slugs
import Willie.Projects.Sources
import Willie.Terminal.Dispatch
import Willie.Supervisor.Window
import Willie.Engine.Daemon
import Willie.Engine.Lines
