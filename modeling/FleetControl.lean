import FleetControl.Main
import FleetControl.Admin
import FleetControl.Proofs.Command.OrderKey
import FleetControl.Proofs.Command.Log
import FleetControl.Proofs.Session.Ledger
import FleetControl.Proofs.Session.Run
import FleetControl.Proofs.Session.Delivery
import FleetControl.Proofs.Json.Value
import FleetControl.Proofs.Json.Writer
import FleetControl.Proofs.Json.Scanner
import FleetControl.Proofs.Json.Reader
import FleetControl.Proofs.Command.Record
import FleetControl.Proofs.Bytes.Lines
import FleetControl.Proofs.Command.Journal
import FleetControl.Proofs.Command.Restore
import FleetControl.Proofs.Command.Alike
import FleetControl.Proofs.Session.Lines
import FleetControl.Proofs.Session.Serve
import FleetControl.Proofs.Agent.Store
import FleetControl.Proofs.Connection.Registry
import FleetControl.Proofs.Session.Outcome
import FleetControl.Proofs.Session.Coherence
import FleetControl.Proofs.Group.Resolver
import FleetControl.Proofs.Group.Store
import FleetControl.Proofs.Session.Presence
import FleetControl.Proofs.Session.Spoken
import FleetControl.Proofs.Session.Push
import FleetControl.Proofs.Bytes.Base64Url
import FleetControl.Proofs.Page.Token
import FleetControl.Proofs.Page.Walk
import FleetControl.Proofs.Session.Listings
import FleetControl.Proofs.Command.Audit
import FleetControl.Proofs.Command.Browse
import FleetControl.Proofs.Session.Succession
import FleetControl.Proofs.Command.Failure
import FleetControl.Proofs.Session.Identity
import FleetControl.Proofs.Session.Refusal
import FleetControl.Proofs.Session.Answering
import FleetControl.Proofs.Command.Mirror
import FleetControl.Proofs.Session.Locality
import FleetControl.Proofs.Session.Interleaving
import FleetControl.Proofs.Session.Numbering
import FleetControl.Proofs.Group.History
import FleetControl.Proofs.Admin.Trail
import FleetControl.Proofs.Connection.Directory
import FleetControl.Proofs.Agent.Roster
import FleetControl.Proofs.Unsharded
import FleetControl.Proofs.Bytes.Utf8
import FleetControl.Proofs.Result
import FleetControl.Proofs.Json.Object
import FleetControl.Proofs.Attributes
import FleetControl.Proofs.Json.Made
import FleetControl.Proofs.Message.AgentFrame
import FleetControl.Proofs.Connection.Liveness
import FleetControl.Proofs.Number.Nearest
import FleetControl.Proofs.Number.Shortest
import FleetControl.Proofs.Json.Number
import FleetControl.Proofs.Json.ReadBack
import FleetControl.Proofs.Session.Writing
import FleetControl.Proofs.Message.ReplyFrame
import FleetControl.Proofs.Group.Choice
import FleetControl.Proofs.Session.FullState
import FleetControl.Proofs.Json.Whole
import FleetControl.Proofs.Narrowing
import FleetControl.Proofs.Settings
import FleetControl.Proofs.Startup
import FleetControl.Proofs.Session.Scanning
import FleetControl.Proofs.Bytes.Base64
import FleetControl.Proofs.Admin.Status
import FleetControl.Proofs.Group.Record
import FleetControl.Proofs.Group.Alike
import FleetControl.Proofs.Session.Regrouping
import FleetControl.Proofs.Admin.Update
