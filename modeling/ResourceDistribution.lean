import ResourceDistribution.Data.Dict
import ResourceDistribution.Data.Keyed
import ResourceDistribution.Data.FirstGiven
import ResourceDistribution.Data.Lease
import ResourceDistribution.Data.Stamped
import ResourceDistribution.Data.Replace
import ResourceDistribution.Data.Fallible
import ResourceDistribution.Data.Cut
import ResourceDistribution.Data.RoundRobin
import ResourceDistribution.Data.Relay
import ResourceDistribution.Data.Broadcast
import ResourceDistribution.Data.Tasks
import ResourceDistribution.Data.Disk
import ResourceDistribution.Data.Codec
import ResourceDistribution.Data.Rounding
import ResourceDistribution.Data.Ranked
import ResourceDistribution.Data.Words
import ResourceDistribution.Python.Text
import ResourceDistribution.Python.Url
import ResourceDistribution.Python.Json
import ResourceDistribution.Python.Number
import ResourceDistribution.Python.Dumps
import ResourceDistribution.Python.Loads
import ResourceDistribution.Python.Scanner
import ResourceDistribution.Python.Decimal
import ResourceDistribution.Python.ReadBack
import ResourceDistribution.Python.Query
import ResourceDistribution.Tracker.Normalize
import ResourceDistribution.Tracker.Blocks
import ResourceDistribution.Tracker.Registry
import ResourceDistribution.Tracker.Index
import ResourceDistribution.Tracker.Operation
import ResourceDistribution.Tracker.Leases
import ResourceDistribution.Tracker.Concurrent
import ResourceDistribution.Tracker.Persistence
import ResourceDistribution.Tracker.Arrival
import ResourceDistribution.Tracker.Names
import ResourceDistribution.Tracker.Availability
import ResourceDistribution.Tracker.Snapshot
import ResourceDistribution.Tracker.Answer
import ResourceDistribution.Tracker.Server
import ResourceDistribution.Tracker.Criteria
import ResourceDistribution.Tracker.Isolation
import ResourceDistribution.Tracker.Refusals
import ResourceDistribution.Tracker.Numbers
import ResourceDistribution.Tracker.Removal
import ResourceDistribution.Tracker.NormalForm
import ResourceDistribution.Tracker.Republish
import ResourceDistribution.Tracker.Body
import ResourceDistribution.Tracker.BodyBound
import ResourceDistribution.Tracker.StateText
import ResourceDistribution.Tracker.StateFile
import ResourceDistribution.Tracker.Routes
import ResourceDistribution.Tracker.Requests
import ResourceDistribution.Node.OsString
import ResourceDistribution.Node.Sha256
import ResourceDistribution.Node.LocalFiles
import ResourceDistribution.Node.Serving
import ResourceDistribution.Node.ShareTree
import ResourceDistribution.Node.TrackerDto
import ResourceDistribution.Node.SerdeJson
import ResourceDistribution.Node.TrackerClient
import ResourceDistribution.Node.TransferWorker
import ResourceDistribution.Node.Joining
import ResourceDistribution.Node.Candidates
import ResourceDistribution.Node.Progress
import ResourceDistribution.Node.Worker
import ResourceDistribution.Node.Commands
import ResourceDistribution.Node.Text
import ResourceDistribution.Node.Target
import ResourceDistribution.Node.Console
import ResourceDistribution.Node.Runtime
import ResourceDistribution.Node.Forwarding
import ResourceDistribution.Node.Ending
import ResourceDistribution.Node.Download
import ResourceDistribution.Node.PeerServer
import ResourceDistribution.Node.Verified
import ResourceDistribution.Node.ReadDir
import ResourceDistribution.Node.OutputPath
import ResourceDistribution.Node.UnixPath
import ResourceDistribution.Node.Confinement
import ResourceDistribution.Node.Stops
import ResourceDistribution.Node.Overwrite
import ResourceDistribution.Node.RoundTrip
import ResourceDistribution.Node.Disclosure
import ResourceDistribution.System.Publish
import ResourceDistribution.System.Coherence
import ResourceDistribution.System.Query
import ResourceDistribution.System.RequestSize
import ResourceDistribution.System.Resolution
import ResourceDistribution.System.Answers
import ResourceDistribution.System.Lookup
import ResourceDistribution.System.Exchange
import ResourceDistribution.System.Session
import ResourceDistribution.System.Holders
import ResourceDistribution.System.Listing
import ResourceDistribution.System.Swarm
import ResourceDistribution.System.Replication
import ResourceDistribution.System.Blocked
