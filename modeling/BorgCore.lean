import BorgCore.Lib.Peaks
import BorgCore.Core.PidSpelling
import BorgCore.Core.BigIntCodec
import BorgCore.Engine.Host
import BorgCore.Engine.Refusals
import BorgCore.Engine.Objects
import BorgCore.Engine.Restart
import BorgCore.Engine.Whole
import BorgCore.Engine.Commits
import BorgCore.Engine.Reopen
import BorgCore.Engine.Answers
import BorgCore.Engine.Merge
import BorgCore.Engine.Writes
import BorgCore.Engine.Snapshot
import BorgCore.Engine.Paths
import BorgCore.Engine.Runs
import BorgCore.Engine.Resolve
import BorgCore.Engine.Defs
import BorgCore.Engine.Branch
import BorgCore.Engine.Write
import BorgCore.Engine.Lasting
import BorgCore.Engine.Watermarks
import BorgCore.Engine.Reruns
import BorgCore.Engine.Working
import BorgCore.Engine.Turns
import BorgCore.Engine.Termination
import BorgCore.Engine.Cycles
import BorgCore.Engine.Closure
import BorgCore.Engine.Subscriptions
import BorgCore.Engine.Shortcut
import BorgCore.Engine.Pending
import BorgCore.Engine.Migrations
import BorgCore.Storage.Rebuild
import BorgCore.Ops.Once
import BorgCore.Ops.Identities
import BorgCore.Ops.OneGate
import BorgCore.Ops.Revocation
import BorgCore.Ops.Dispatch
import BorgCore.Ops.Scoped
import BorgCore.Ops.OneServer
import BorgCore.Wire.Overlap
import BorgCore.Sdk.RoundTrip
import BorgCore.Sdk.OneUrl
import BorgCore.Ops.Converges
import BorgCore.Sdk.Carried
import BorgCore.Storage.Durable
import BorgCore.Ops.Restore
import BorgCore.Ops.Restored
import BorgCore.Ops.Accepted
