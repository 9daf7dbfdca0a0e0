import ChessCrawl.Collection.Association
import ChessCrawl.Collection.Clock
import ChessCrawl.Collection.Followups
import ChessCrawl.Collection.Boundary
import ChessCrawl.Collection.Coverage
import ChessCrawl.Monthly.Passing
import ChessCrawl.Artifacts.RoundTrip
import ChessCrawl.Evidence.Tree
import ChessCrawl.Evidence.Failures
import ChessCrawl.Upgrades.Completeness
import ChessCrawl.WorkingSets.Results
import ChessCrawl.Ownership.Exclusive
import ChessCrawl.Budget.Runs
import ChessCrawl.Dispatch.Scan
import ChessCrawl.Events.Runs
import ChessCrawl.Exports.Capacity
import ChessCrawl.Normalize.Certification
import ChessCrawl.Normalize.Membership
import ChessCrawl.Normalize.Standalone
import ChessCrawl.Normalize.Agreement
import ChessCrawl.Normalize.Convergence
import ChessCrawl.Jobs.Lifecycle
import ChessCrawl.Jobs.Finishing
import ChessCrawl.Jobs.Distance
import ChessCrawl.Jobs.ActiveCap
import ChessCrawl.Jobs.Backlog
import ChessCrawl.Jobs.Claim
import ChessCrawl.Jobs.Cooldown
import ChessCrawl.Jobs.Metrics
import ChessCrawl.Jobs.Outstanding
import ChessCrawl.Acquisition.Months
import ChessCrawl.Acquisition.Settlement
import ChessCrawl.Identity.Loops
import ChessCrawl.Application.Outcomes
import ChessCrawl.Storage.Payloads
import ChessCrawl.Storage.Sweep
import ChessCrawl.Normalize.Refusal
import ChessCrawl.Connections.Capacity
import ChessCrawl.Storage.Publication
import ChessCrawl.Workspaces.Credentials
