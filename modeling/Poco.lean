import Poco.Lib.Bytes
import Poco.Lib.LinearHashing
import Poco.Lib.Outcome
import Poco.Lib.SortedAssoc
import Poco.Lib.Utf8
import Poco.LinearHashTable
import Poco.NumericString
import Poco.NumberFormatter
import Poco.Dynamic.VarHolder
import Poco.UTF16Encoding
import Poco.UTF8Encoding
import Poco.JSON.Table
import Poco.JSON.ParseHandler
import Poco.JSON.Traversal
import Poco.JSON.Building
import Poco.JSON.Stringifier
import Poco.JSON.Tree
import Poco.JSON.Parser
import Poco.JSON.Methods
import Poco.JSON.Run
import Poco.JSON.Invariant
import Poco.JSON.Assertions
import Poco.JSON.Nesting
import Poco.JSON.Integers
import Poco.JSON.Grammar
import Poco.JSON.Token
import Poco.JSON.Derivation
import Poco.JSON.Lexing
import Poco.JSON.Rereading
import Poco.JSON.Comments
import Poco.JSON.Scan
import Poco.JSON.Recognition
import Poco.Lib.Transport
import Poco.Net.WebSocketImpl
import Poco.Ascii
import Poco.ListMap
import Poco.Net.MessageHeader
import Poco.Daytime
import Poco.Hexadecimal
import Poco.NumericString.Exact
import Poco.NumericString.Format
import Poco.Net.HTTPAuthenticationParams
import Poco.Net.HTTPChunkedStream
import Poco.Net.MailStream
import Poco.Net.MediaType
import Poco.Net.HTMLForm
import Poco.Net.QueryParameters
import Poco.Net.Multipart
import Poco.Path
import Poco.Zip.Header
import Poco.Zip.Compress
import Poco.Zip.ZipArchive
import Poco.Zip.Decompress
import Poco.JSON.Reset
import Poco.JSON.Weight
import Poco.JSON.Budget
import Poco.JSON.RoundTrip
import Poco.Lib.Machine
import Poco.ObjectPool
import Poco.BinaryStream
import Poco.MongoDB.Document
import Poco.MongoDB.MessageHeader
import Poco.MongoDB.Format
import Poco.MongoDB.RoundTrip
import Poco.MongoDB.Termination
import Poco.MongoDB.Array
import Poco.Lib.Heap
import Poco.NotificationQueue
import Poco.Condition
import Poco.TimedNotificationQueue
import Poco.Lib.Fairness
import Poco.Util.Timer
import Poco.Util.TimerShutdown
import Poco.ThreadPool
import Poco.ThreadPool.Invariant
import Poco.ThreadPool.Steps
import Poco.ThreadPool.Outcome
import Poco.ThreadPool.Targets
import Poco.Data.SessionPool
import Poco.Data.SessionPool.Accounts
import Poco.Data.SessionPool.Settings
import Poco.JSON.InsertionOrder
import Poco.Util.OptionProcessor
import Poco.Util.PropertyFileConfiguration
import Poco.Lib.Pointers
import Poco.XML.ContainerNode
import Poco.XML.ChildLists
import Poco.XML.Forest
import Poco.XML.NamespaceSupport
import Poco.XML.XMLWriter
import Poco.XML.Balance
import Poco.XML.ExpandedNames
import Poco.Lib.Separated
import Poco.Path.Canonical
import Poco.Path.RoundTrip
import Poco.BinaryValues
import Poco.Buffer
import Poco.HMACEngine
import Poco.LineEndingConverter
import Poco.StringTokenizer
import Poco.UUID
