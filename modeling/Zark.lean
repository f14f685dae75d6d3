import Zark.Library.Keyed
import Zark.Library.Hierarchy
import Zark.Library.Calendar
import Zark.Library.Topological
import Zark.Library.Best
import Zark.Names
import Zark.Replication
import Zark.Dependents
import Zark.Retention
import Zark.Transfer
import Zark.Proof.DestroyPlan
import Zark.Proof.Retention
import Zark.Proof.Planner
import Zark.World
import Zark.Anchors
import Zark.Engine
import Zark.Proof.AnchorHeld
import Zark.Proof.Replicate
import Zark.Proof.Ending
import Zark.Proof.BaseContinuity
import Zark.MakeRoom
import Zark.Proof.MakeRoom
import Zark.RestorePoints
import Zark.History
import Zark.Proof.Months
import Zark.DriveMarks
import Zark.Proof.DriveMarks
import Zark.Exclusions
import Zark.Proof.Exclusions
import Zark.Proof.Coverage
import Zark.MountProps
import Zark.PointMark
import Zark.Restore
import Zark.Proof.Restore
import Zark.Library.Json
import Zark.Proof.PointMark
import Zark.Proof.Recover
import Zark.PointRecord
import Zark.Proof.PointRecord
import Zark.Proof.Prune
import Zark.Proof.Sanoid
import Zark.Library.Text
import Zark.SanoidConf
import Zark.Proof.SanoidConf
import Zark.Cluster
import Zark.Library.Runs
import Zark.Proof.Cluster
import Zark.Proof.Resolve
import Zark.PointLosses
import Zark.Proof.PointLosses
import Zark.DestroyHeld
import Zark.Proof.DestroyHeld
import Zark.DriveCommands
import Zark.Proof.Rollback
import Zark.Proof.DriveCommands
import Zark.Proof.Renames
import Zark.Proof.Rounds
import Zark.Rounds
import Zark.Proof.Mountpoints
import Zark.Proof.SpacePlan
import Zark.RetentionSteps
import Zark.Proof.RetentionSteps
import Zark.Branch
import Zark.Proof.Branch
import Zark.Proof.Branches
import Zark.StatusFile
import Zark.Proof.StatusFile
import Zark.PoolRecord
import Zark.Proof.PoolRecord
import Zark.Reclaim
import Zark.Proof.Reclaim
import Zark.Library.JsonLines
import Zark.Registry
import Zark.Proof.Registry
import Zark.Proof.Identity
import Zark.Proof.TransferEta
import Zark.Library.PosixPath
import Zark.Mount
import Zark.Proof.Mount
import Zark.GrubUuid
import Zark.Proof.GrubUuid
import Zark.BootRewrite
import Zark.Proof.BootRewrite
import Zark.Library.Shell
import Zark.RecoverCommands
import Zark.Proof.RecoverCommands
import Zark.OriginLayout
import Zark.Proof.OriginLayout
import Zark.Library.Extents
import Zark.Proof.RecoverExt4
import Zark.Library.Tokens
import Zark.Proof.Sanitize
import Zark.Proof.SanitizeValues
import Zark.Decisions
import Zark.Proof.Changes
import Zark.Proof.Decisions
import Zark.Proof.Chosen
import Zark.Proof.Compose
import Zark.Library.Interrupts
import Zark.Cleanup
import Zark.Proof.Cleanup
import Zark.Library.Rows
import Zark.Survey
import Zark.Proof.Survey
import Zark.Progress
import Zark.Proof.Progress
import Zark.Shared
import Zark.RecoverRun
import Zark.Library.Own
import Zark.Proof.RecoverRun
import Zark.Proof.RecoverAccount
import Zark.Proof.RecoverNext
