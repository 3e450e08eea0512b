import LowKeyWebServer.Port
import LowKeyWebServer.StaticFileHandler

/-!
# Handlers and routing

`server.cc`, and the part of `session.cc` that finds the handler of a request: the routing loop
of `good_request`, and `handler_task`. Both static maps are part of the state. What a handler
answers is not: no handler touches the map of handlers.
-/

namespace LowKeyWebServer

/-- A `RequestHandler`. -/
inductive Handler : Type where
  | static
  | echo
  | status
  | error
  | health
  | proxy (h : ProxyHandler)
  | cache
  deriving DecidableEq

namespace ProxyHandler

/-- `trim_copy_if` of quotation marks. -/
def trimQuotes (s : Bytes) : Bytes :=
  let isQuote : Byte → Bool := fun c => c == '"'
  ((s.dropWhile isQuote).reverse.dropWhile isQuote).reverse

/-- `ProxyHandler::setLocation`. -/
def setLocation (locationPath proxyPass : Bytes) : ProxyHandler :=
  ⟨trimQuotes locationPath, trimQuotes proxyPass⟩

/-- The loop of `ProxyHandler::Init`: the argument of the first `proxy_pass`. A statement
without a token is an index out of range. -/
def proxyPass : NginxConfig → Option Bytes
  | [] => some []
  | stmt :: statements =>
    match stmt.tokens with
    | [] => none
    | [_] => proxyPass statements
    | name :: value :: _ => if name = str "proxy_pass" then some value else proxyPass statements

/-- `ProxyHandler::Init`. -/
def init (locationPath : Bytes) (config : NginxConfig) : Option ProxyHandler :=
  (proxyPass config).map (setLocation locationPath)

end ProxyHandler

/-- The static data of a server. -/
structure Server : Type where
  /-- `server::handlers_tackers`: `none` is a null pointer -/
  handlersTackers : StringMap (Option Handler)
  /-- `StaticFileHandler::locationToRoot` -/
  locationToRoot : StaticFileHandler.LocationToRoot

namespace Server

/-- `server::createHandler`. For any other handler type it ends without a value. -/
def createHandler (s : Server) (locationPath : Bytes) (block : ConfigBlock) :
    Option (Handler × StaticFileHandler.LocationToRoot) :=
  if block.handlerType = str "StaticHandler" then
    (StaticFileHandler.init s.locationToRoot locationPath block.content).map (Handler.static, ·)
  else if block.handlerType = str "EchoHandler" then some (.echo, s.locationToRoot)
  else if block.handlerType = str "StatusHandler" then some (.status, s.locationToRoot)
  else if block.handlerType = str "ErrorHandler" then some (.error, s.locationToRoot)
  else if block.handlerType = str "HealthHandler" then some (.health, s.locationToRoot)
  else if block.handlerType = str "ProxyHandler" then
    (ProxyHandler.init locationPath block.content).map fun h => (.proxy h, s.locationToRoot)
  else if block.handlerType = str "CacheHandler" then some (.cache, s.locationToRoot)
  else none

/-- `handlers_tackers[block.prefix] = createHandler(block.prefix, block)`. -/
def addBlock (s : Server) (block : ConfigBlock) : Option Server :=
  (s.createHandler block.blockPrefix block).map fun (handler, locationToRoot) =>
    ⟨s.handlersTackers.insert block.blockPrefix (some handler), locationToRoot⟩

/-- The constructor of the first server of a process: `none` if it throws. -/
def start (configBlocks : List ConfigBlock) : Option Server :=
  configBlocks.foldlM addBlock ⟨∅, ∅⟩

/-! ## The handler of a request -/

/-- A prefix with the quotation marks of the config file. -/
def quote (location : Bytes) : Bytes := str "\"" ++ location ++ str "\""

/-- The key that is looked up first; the links of the cache handler have one of their own. -/
def firstKey (uri : Bytes) : Bytes :=
  if (str "http").isPrefixOf uri then str "\"/http\"" else quote uri

/-- The loop of `good_request`, with fuel: `found` and `temp` after it. The position of the last slash
is an `int`. -/
def runFindHandler (handlersTackers : StringMap (Option Handler)) :
    Nat → Bytes → Bytes → Option (Bool × Bytes)
  | 0, _, _ => none
  | fuel + 1, location, temp =>
    if handlersTackers.contains temp then some (true, temp)
    else
      let pos := findLastOfInt '/' location
      if pos = -1 then some (false, temp)
      else
        let location := location.take (unsignedSize pos)
        runFindHandler handlersTackers fuel location (quote location)

/-- The same loop for positions in the range of `int` (`runFindHandler_of_short`). -/
def findHandler (handlersTackers : StringMap (Option Handler)) (location temp : Bytes) :
    Bool × Bytes :=
  if handlersTackers.contains temp then (true, temp)
  else
    match h : findLastOf '/' location with
    | none => (false, temp)
    | some pos =>
      have : pos < location.length := findLastOf_lt h
      findHandler handlersTackers (location.take pos) (quote (location.take pos))
  termination_by location.length

/-- Whose `handleRequest` is called. -/
inductive Callee : Type where
  /-- a registered handler's -/
  | handler (h : Handler)
  /-- that of an `ErrorHandler` of its own -/
  | errorHandler
  /-- that of a null pointer -/
  | null
  deriving DecidableEq

/-- `handlers_tackers[key]`: an absent key is inserted, with a null pointer. -/
def index (s : Server) (key : Bytes) : Option Handler × Server :=
  (s.handlersTackers.getD key none,
    { s with handlersTackers := s.handlersTackers.insertIfNew key none })

/-- `session::handler_task`: whose `handleRequest` is called, and the static data then. -/
def handlerTask (s : Server) (found : Bool) (location : Bytes) : Callee × Server :=
  if !found then
    match s.index (str "\"/\"") with
    | (some h, s') => (.handler h, s')
    -- not even error handler is registered
    | (none, s') => (.errorHandler, s')
  else
    match s.index location with
    | (some h, s') => (.handler h, s')
    | (none, s') => (.null, s')

/-- The part of `session::good_request` that calls a handler for a URI. -/
def goodRequest (s : Server) (uri : Bytes) : Callee × Server :=
  let (found, temp) := findHandler s.handlersTackers uri (firstKey uri)
  s.handlerTask found temp

/-- A request, handled by any session: a call through a null pointer ends the process. -/
def step (s : Server) (uri : Bytes) : Option Server :=
  match s.goodRequest uri with
  | (.null, _) => none
  | (_, s') => some s'

end Server

end LowKeyWebServer
