import Reql.Expr.Elaboration
import Reql.Frame.Reader
import Reql.Frame.Writer
import Reql.Query.Basic
import Reql.Response.Payload
import Reql.Session.Step
import Reql.Settings.Basic
import Reql.Term.Printer
import Reql.Proofs.Async.HangingUp
import Reql.Proofs.Async.Multiplexing
import Reql.Proofs.Async.Pieces
import Reql.Proofs.Connection.Action
import Reql.Proofs.Connection.Barrier
import Reql.Proofs.Connection.Consuming
import Reql.Proofs.Connection.Effect
import Reql.Proofs.Connection.Executing
import Reql.Proofs.Connection.FlowControl
import Reql.Proofs.Connection.History
import Reql.Proofs.Connection.Lane
import Reql.Proofs.Connection.Multiplexing
import Reql.Proofs.Connection.Numbering
import Reql.Proofs.Connection.Orderly
import Reql.Proofs.Connection.Outlet
import Reql.Proofs.Connection.Output
import Reql.Proofs.Connection.Parts
import Reql.Proofs.Connection.Priming
import Reql.Proofs.Connection.Registry
import Reql.Proofs.Connection.Requests
import Reql.Proofs.Connection.Shutdown
import Reql.Proofs.Connection.Stopping
import Reql.Proofs.Connection.Tokens
import Reql.Proofs.Connection.Unwritten
import Reql.Proofs.Connection.Wire
import Reql.Proofs.Connection.Writing
import Reql.Proofs.Cursor.Flow
import Reql.Proofs.Cursor.History
import Reql.Proofs.Cursor.Output
import Reql.Proofs.Cursor.Registration
import Reql.Proofs.Expr.Hygiene
import Reql.Proofs.Frame.Exactness
import Reql.Proofs.Frame.Header
import Reql.Proofs.Frame.Stream
import Reql.Proofs.Frame.Transfer
import Reql.Proofs.Json.RoundTrip
import Reql.Proofs.Mock.Accounting
import Reql.Proofs.Mock.Assertions
import Reql.Proofs.Mock.Caller
import Reql.Proofs.Mock.Conversation
import Reql.Proofs.Mock.DefaultDatabase
import Reql.Proofs.Mock.Pool
import Reql.Proofs.Mock.Serving
import Reql.Proofs.Mock.Sharing
import Reql.Proofs.Query.Announcing
import Reql.Proofs.Query.Unambiguous
import Reql.Proofs.Response.Coding
import Reql.Proofs.Response.Normalizing
import Reql.Proofs.Response.Spelling
import Reql.Proofs.Session.Settling
import Reql.Proofs.Settings.Wording
import Reql.Proofs.Term.Alpha
import Reql.Proofs.Term.Matching
import Reql.Proofs.Term.Partners
