import LowKeyWebServer.Lib.Regex
import LowKeyWebServer.Lib.Reader
import LowKeyWebServer.Bytes
import LowKeyWebServer.Request
import LowKeyWebServer.RequestParser
import LowKeyWebServer.RequestGrammar
import LowKeyWebServer.RequestStates
import LowKeyWebServer.RequestParserCorrect
import LowKeyWebServer.Isolation
import LowKeyWebServer.Utils
import LowKeyWebServer.Framing
import LowKeyWebServer.ProxyHandler
import LowKeyWebServer.CacheCoherence
import LowKeyWebServer.CacheDirectives
import LowKeyWebServer.LinkRewriting
import LowKeyWebServer.ConfigParser
import LowKeyWebServer.ConfigGrammar
import LowKeyWebServer.ConfigParserCorrect
import LowKeyWebServer.ConfigPrint
import LowKeyWebServer.Port
import LowKeyWebServer.PortScan
import LowKeyWebServer.LocationBlocks
import LowKeyWebServer.StaticFileHandler
import LowKeyWebServer.Server
import LowKeyWebServer.Routing
import LowKeyWebServer.Handlers
import LowKeyWebServer.Lib.LexicalPath
import LowKeyWebServer.Containment
import LowKeyWebServer.BodyFraming
import LowKeyWebServer.RequestHistory
import LowKeyWebServer.ReadBuffer
import LowKeyWebServer.CheckedRequests
import LowKeyWebServer.Lib.Program
import LowKeyWebServer.TokenLoops
import LowKeyWebServer.ScanTermination
import LowKeyWebServer.StaticRouting
import LowKeyWebServer.ParserAgreement
import LowKeyWebServer.CacheControlHeader
import LowKeyWebServer.IncrementalParsing
import LowKeyWebServer.SessionInvariant
import LowKeyWebServer.HeaderCase
import LowKeyWebServer.Dispatcher
import LowKeyWebServer.ResponseHead
import LowKeyWebServer.SocketWrites
import LowKeyWebServer.CacheRule
import LowKeyWebServer.RequestCase
import LowKeyWebServer.CacheLimits
import LowKeyWebServer.HeaderLines
import LowKeyWebServer.HtmlRewriting
import LowKeyWebServer.Lib.PrefixSearch
import LowKeyWebServer.LongestPrefix
import LowKeyWebServer.StaticContent
import LowKeyWebServer.Lib.SymbolCode
import LowKeyWebServer.UrlDecoding
import LowKeyWebServer.PathDecoding
import LowKeyWebServer.ParserIndices
import LowKeyWebServer.NumberText
import LowKeyWebServer.BodyLength
import LowKeyWebServer.PortNumber
import LowKeyWebServer.MediaType
import LowKeyWebServer.StaticRoot
import LowKeyWebServer.ProxySafety
import LowKeyWebServer.CompleteHeads
import LowKeyWebServer.LineEndings
import LowKeyWebServer.CurlHandles
import LowKeyWebServer.ParserInvariant
import LowKeyWebServer.ConfigMemory
import LowKeyWebServer.ClosedBlocks
import LowKeyWebServer.Lib.Custody
import LowKeyWebServer.EchoHandler
import LowKeyWebServer.EventLoop
import LowKeyWebServer.RouteStability
import LowKeyWebServer.Service
import LowKeyWebServer.ClientIsolation
import LowKeyWebServer.AccessLog
import LowKeyWebServer.StatusPage
import LowKeyWebServer.ResponseStream
import LowKeyWebServer.CacheCells
import LowKeyWebServer.Startup
import LowKeyWebServer.Locations
import LowKeyWebServer.Availability
import LowKeyWebServer.Conversation
