import Rinha.Server.Queue
import Rinha.Library.Runs
import Rinha.Server.QueueProofs
import Rinha.Server.QueueHistory
import Rinha.Database.Sessions
import Rinha.Library.Ledger
import Rinha.Database.Ledger
import Rinha.Database.Serial
import Rinha.Http.Picohttp
import Rinha.Library.CString
import Rinha.Library.Regex
import Rinha.Http.PicohttpProofs
import Rinha.Request.Router
import Rinha.Library.Binary64
import Rinha.Json.CJson
import Rinha.Client.Db
import Rinha.Server.Controller
import Rinha.Server.Noninterference
import Rinha.Database.Commands
import Rinha.Server.ControllerProofs
import Rinha.Server.NotFound
import Rinha.Server.ValorRange
import Rinha.Server.Loop
import Rinha.Server.LoopProofs
import Rinha.Server.Slots
import Rinha.Server.Accepting
import Rinha.Server.Exclusive
import Rinha.Server.Ownership
import Rinha.Server.Provenance
import Rinha.Server.Requests
import Rinha.Database.Limits
import Rinha.Server.Outcomes
import Rinha.Server.Dispatching
import Rinha.Server.Fatal
import Rinha.Database.Latest
import Rinha.Server.Residue
import Rinha.Request.Grammar
import Rinha.Server.Routes
import Rinha.Server.Wire
import Rinha.Server.WireProofs
import Rinha.Server.Delivery
import Rinha.Json.CJsonProofs
import Rinha.Library.Utf8
import Rinha.Server.Validation
import Rinha.Server.Errands
import Rinha.Server.Segments
import Rinha.Client.Rendering
import Rinha.Request.Selection
import Rinha.Request.Valor
import Rinha.Server.Description
import Rinha.Server.Serving
import Rinha.Client.Exec
import Rinha.Server.Synchronous
import Rinha.Server.Scans
import Rinha.Server.Responses
import Rinha.Database.Json
import Rinha.Server.Framing
import Rinha.Database.Progress
import Rinha.Database.Atomic
import Rinha.Database.Keys
import Rinha.Server.Draining
import Rinha.Server.Exchange
import Rinha.Server.Advances
import Rinha.Database.Returns
import Rinha.Deployment.System
import Rinha.Deployment.Links
import Rinha.Deployment.ExactlyOnce
import Rinha.Http.Requests
import Rinha.Json.Literals
import Rinha.Json.Documents
import Rinha.Json.Leniency
import Rinha.Deployment.Understood
import Rinha.Server.Recorded
import Rinha.Server.Sockets
import Rinha.Database.Reading
import Rinha.Database.Records
import Rinha.Deployment.Shown
