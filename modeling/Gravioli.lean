import Gravioli.Library.Transition
import Gravioli.Library.Scanner
import Gravioli.Library.Utf8
import Gravioli.Library.OrderedMap
import Gravioli.Json.Lexer
import Gravioli.Json.Parser
import Gravioli.Json.Grammar
import Gravioli.Json.Tokens
import Gravioli.Json.Scanning
import Gravioli.Json.Readings
import Gravioli.Json.Completeness
import Gravioli.Json.Prefixes
import Gravioli.Json.Soundness
import Gravioli.Json.Exceptions
import Gravioli.Json.WellFormed
import Gravioli.Library.Cfb
import Gravioli.Library.Multipart
import Gravioli.Library.BigEndian
import Gravioli.Library.Ledger
import Gravioli.Library.Mailbox
import Gravioli.Message
import Gravioli.Server.Wire
import Gravioli.Server.Ownership
import Gravioli.System.Backpressure
import Gravioli.System.Pipeline
import Gravioli.System.Keys
import Gravioli.System.Shutdown
import Gravioli.System.Threads
import Gravioli.PlayerProvider.Refresh
import Gravioli.PlayerProvider.Handoff
import Gravioli.PlayerProvider.KeyFormat
import Gravioli.PlayerProvider.Topics
import Gravioli.PlayerProvider.Documents
import Gravioli.System.Isolation
import Gravioli.System.Service
import Gravioli.System.Creations
import Gravioli.System.Subscriber
import Gravioli.GravioliWorld
import Gravioli.System.Game
import Gravioli.PlayerProvider.Snapshots
import Gravioli.Server.CallerOwned
import Gravioli.Server.Subscription
import Gravioli.TestVector
import Gravioli.TestVector.Reproduction
import Gravioli.Main
import Gravioli.Main.Order
import Gravioli.Main.Progress
import Gravioli.Main.Completion
