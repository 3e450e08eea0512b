import LowKeyWebServer.ConfigParser
import LowKeyWebServer.ProxyHandler
import LowKeyWebServer.Utils

/-!
# Static files

`static_file_handler.cc`. The static map `locationToRoot` is an argument; it is read with
`operator[]`, and the empty roots that this leaves behind are what it reads for a location
that is not there. The file system is an arbitrary function of the path, and `none` is an
exception, or an access behind the end of a string literal.
-/

namespace LowKeyWebServer

/-! ## Files -/

/-- What a path names. -/
inductive FileEntry : Type where
  /-- a regular file -/
  | file (content : Bytes)
  /-- a regular file that cannot be opened -/
  | unreadable (content : Bytes)
  /-- a directory, and what comes of reading it into a buffer of its size -/
  | directory (read : Option Bytes)
  /-- what cannot be looked up: `boost::filesystem::exists` throws -/
  | inaccessible

/-- The files, and the current directory. -/
structure FileSystem : Type where
  /-- `boost::filesystem::current_path` -/
  currentPath : Bytes
  /-- what a path names; `none` if it does not exist -/
  entry : Bytes → Option FileEntry

/-- The loop that removes all but one of the slashes at the front. -/
def dropSlashes : Bytes → Bytes
  | [] => []
  | c :: s => if c = '/' ∧ s.head? = some ('/' : Byte) then dropSlashes s else c :: s

namespace StaticFileHandler

/-- `StaticFileHandler::locationToRoot`. -/
abbrev LocationToRoot : Type := StringMap Bytes

/-! ## The configuration -/

/-- The root directory in the text of a block: from the first slash, without the last three
characters. The position of the slash is in the range of `int` (`runRootOf`). -/
def rootOf (path : Bytes) : Option Bytes :=
  (find (str "/") path).map fun pos =>
    let rest := path.drop pos
    -- the count is unsigned
    if rest.length < 3 then rest else rest.take (rest.length - 3)

/-- What `Init` takes for the root directory, with the position of the slash in an `int`. -/
def runRootOf (path : Bytes) : Option Bytes :=
  let pos := findInt (str "/") path
  (substr path (unsignedSize pos)).map (List.take (unsignedSize (path.length - pos - 3)))

/-- They are the same below 2 GiB. -/
theorem runRootOf_of_short {path : Bytes} (h : path.length < 2 ^ 31) : runRootOf path = rootOf path := by
  rw [runRootOf, rootOf]
  rcases hpos : find (str "/") path with - | i
  · have hthrow : substr path (unsignedSize (-1)) = none := if_neg (by rw [unsignedSize_npos]; omega)
    rw [findInt_none hpos, hthrow]
    rfl
  · have hlt := find_char_lt hpos
    have hrest : substr path i = some (path.drop i) := if_pos (Nat.le_of_lt hlt)
    simp only [findInt_some hpos (hlt.trans h), unsignedSize_nat (n := i) (by omega), hrest,
      Option.map_some, List.length_drop]
    split
    · rw [List.take_of_length_le]
      rw [List.length_drop, unsignedSize]
      omega
    · have hcount : unsignedSize ((path.length : Int) - i - 3) = path.length - i - 3 := by
        rw [unsignedSize]
        omega
      rw [hcount]

/-- The location path without its quotation marks. -/
def unquote (locationPath : Bytes) : Option Bytes :=
  (substr locationPath 1).map List.dropLast

/-- `StaticFileHandler::Init`: `locationToRoot` afterwards. -/
def init (locationToRoot : LocationToRoot) (locationPath : Bytes) (config : NginxConfig) :
    Option LocationToRoot := do
  let root ← rootOf (configToStr 0 config)
  let temp ← unquote locationPath
  some (locationToRoot.insert temp root)

/-! ## The path of a request -/

/-- `[a-zA-Z]+` after a slash, then more. -/
def fileName (more : Regex Byte) : Regex Byte :=
  .seq [.word (str "/"), .plus Utils.letter, more]

/-- `StaticFileHandler::configParser`: the type of the file from the URI. -/
def configParser (uri : Bytes) : Int :=
  let dot : Regex Byte := .cls fun c => c != '\n' && c != '\r'
  if (Regex.cat (.star dot) (.word (str "/"))).isMatch uri then -1
  else if (fileName (.word (str ".ico"))).isSearch uri then 0
  else if (fileName (.cat (.word (str ".")) (.alt (.word (str "txt")) (.word (str "html"))))).isSearch
    uri then 1
  else if (fileName (.word (str ".png"))).isSearch uri then 2
  else if (fileName (.word (str ".jpg"))).isSearch uri then 3
  else if (fileName .epsilon).isSearch uri then 4
  else 0

/-- The loop of `replace_path`: the root and the subpath; `none` returns the empty path. -/
def findRoot (locationToRoot : LocationToRoot) (location subpath : Bytes) : Option (Bytes × Bytes) :=
  let root := locationToRoot.getD location []
  if root ≠ [] then some (root, subpath)
  else
    match h : findLastOf '/' location with
    | none => none
    | some pos =>
      have : pos < location.length := findLastOf_lt h
      findRoot locationToRoot (location.take pos) (location.drop pos ++ subpath)
  termination_by location.length

/-- What comes after the last slash of a path, and what before it. Without a slash both are
the whole path. -/
def splitPath (path : Bytes) : Bytes × Bytes :=
  match findLastOf '/' path with
  | some i => (path.take i, path.drop (i + 1))
  | none => (path, path)

/-- `StaticFileHandler::replace_path`, for positions in the range of `int` (`runReplacePath`). -/
def replacePath (locationToRoot : LocationToRoot) (path : Bytes) : Bytes :=
  let (location, file) := splitPath path
  match findRoot locationToRoot location [] with
  | some (root, subpath) => root ++ subpath ++ str "/" ++ file
  | none => []

/-! ## The request line -/

/-- `StaticFileHandler::getRequestLine`. `method_ + " "` is a number and a literal: what it denotes is
the text of the literal from that character on, and nothing (`none`) behind its end. -/
def getRequestLine (request : Request) : Option Bytes :=
  let uri :=
    match find (str "/") request.uri with
    | some pos => request.uri.drop (pos + 1)
    | none => request.uri
  (substr (str " ") request.method.number).map fun method =>
    method ++ uri ++ str " " ++ request.version ++ str "\r\n"

/-- `getRequestLine` as it is written, with the position behind the slash in an `int`. -/
def runGetRequestLine (request : Request) : Option Bytes :=
  let pos : Int :=
    match find (str "/") request.uri with
    | some i => toInt32 (i + 1)
    | none => 0
  (substr request.uri (unsignedSize pos)).bind fun uri =>
    (substr (str " ") request.method.number).map fun method =>
      method ++ uri ++ str " " ++ request.version ++ str "\r\n"

/-- They are the same below 2 GiB. -/
theorem runGetRequestLine_of_short {request : Request} (h : request.uri.length < 2 ^ 31) :
    runGetRequestLine request = getRequestLine request := by
  rw [runGetRequestLine, getRequestLine]
  rcases hpos : find (str "/") request.uri with - | i
  · have hwhole : substr request.uri (unsignedSize 0) = some request.uri := if_pos (Nat.zero_le _)
    simp only [hwhole, Option.bind_some]
  · have hlt := find_char_lt hpos
    have hint : toInt32 (i + 1) = i + 1 := toInt32_eq (by omega) (by omega)
    have hsize : unsignedSize ((i : Int) + 1) = i + 1 := unsignedSize_nat (n := i + 1) (by omega)
    have hrest : substr request.uri (i + 1) = some (request.uri.drop (i + 1)) := if_pos hlt
    simp only [hint, hsize, hrest, Option.bind_some]

/-- Two of the methods have a text. -/
theorem getRequestLine_eq_none {request : Request} :
    getRequestLine request = none ↔ request.method ≠ .get ∧ request.method ≠ .post := by
  rw [getRequestLine, Option.map_eq_none_iff, substr]
  cases request.method <;> simp [Method.number, str]

/-! ## Responses -/

/-- The response for a missing file. -/
def fileNotFound : Response :=
  let msg := str "Error: File Not Found"
  { code := Response.notFound
    headers := (((∅ : StringMap Bytes).insert (str "Content-type") (str "text/plain")).insert
      (str "Content-length") (str (toString msg.length))).insert (str "Connection") (str "close")
    body := msg
    srcType := 0 }

/-- The path that is opened for a file path. -/
def localPath (fs : FileSystem) (filePath : Bytes) : Bytes := dropSlashes (fs.currentPath ++ filePath)

/-- The content type of a binary file. -/
def contentType (srcType : Int) : Bytes :=
  if srcType = 2 then str "image/png"
  else if srcType = 3 then str "image/jpeg"
  else str "application/octet-stream"

/-- `StaticFileHandler::getBinaryContent`. The size of a stream that is not open is -1, and a vector
of that many characters is a `length_error`. -/
def getBinaryContent (fs : FileSystem) (filename : Bytes) (srcType : Int) : Option Response :=
  let ok (image : Bytes) : Response :=
    { code := Response.ok
      headers := (((∅ : StringMap Bytes).insert (str "Content-type") (contentType srcType)).insert
        (str "Content-Length") (str (toString image.length))).insert (str "Connection") (str "close")
      body := image
      srcType := if srcType = 2 ∨ srcType = 3 then srcType else 4 }
  match fs.entry (localPath fs filename) with
  | some (.file content) => some (ok content)
  | some (.unreadable _) => none
  | some (.directory read) => read.map ok
  | some .inaccessible => none
  | none => some fileNotFound

/-- `StaticFileHandler::formResponse`; for another type it ends without a response. -/
def formResponse (fs : FileSystem) (srcType : Int) (filePath : Bytes) : Option Response :=
  if srcType = 0 then
    some
      { code := Response.ok
        headers := (((∅ : StringMap Bytes).insert (str "Content-Type")
          (str "text/html; charset=UTF-8")).insert (str "Content-Length") (str "37")).insert
            (str "Connection") (str "close")
        body := str "Hello World! This is the index page."
        srcType := 0 }
  else if srcType = 1 then
    let text (content : Bytes) : Response :=
      -- the lines, without what ends them
      let body := content.filter fun c : Byte => c != '\n'
      { code := Response.ok
        headers := ((∅ : StringMap Bytes).insert (str "Content-Type")
          (str "text/html; charset=UTF-8")).insert (str "Content-Length") (str (toString body.length))
        body := body
        srcType := 1 }
    match fs.entry (localPath fs filePath) with
    | some (.file content) => some (text content)
    -- no line is read
    | some (.unreadable _) => some (text [])
    | some (.directory _) => some (text [])
    | some .inaccessible => none
    | none => some fileNotFound
  else none

/-- What `handleRequest` does with a URI. -/
def answer (locationToRoot : LocationToRoot) (fs : FileSystem) (uri : Bytes) : Option Response :=
  let srcType := configParser uri
  if srcType = 2 ∨ srcType = 3 ∨ srcType = 4 then
    getBinaryContent fs (replacePath locationToRoot uri) srcType
  else if srcType = -1 then some fileNotFound
  else
    let filePath := replacePath locationToRoot uri
    if filePath = [] then some fileNotFound else formResponse fs srcType filePath

/-- `StaticFileHandler::handleRequest`. The text of the request that it puts together first is not
used. -/
def handleRequest (locationToRoot : LocationToRoot) (fs : FileSystem) (request : Request) :
    Option Response :=
  (getRequestLine request).bind fun _ => answer locationToRoot fs request.uri

variable {locationToRoot : LocationToRoot} {fs : FileSystem} {request : Request}

/-- With one of these methods the URI decides. -/
theorem handleRequest_eq_answer (h : request.method = .get ∨ request.method = .post) :
    handleRequest locationToRoot fs request = answer locationToRoot fs request.uri := by
  rw [handleRequest]
  rcases hline : getRequestLine request with - | line
  · obtain ⟨hget, hpost⟩ := getRequestLine_eq_none.mp hline
    exact absurd h (not_or.mpr ⟨hget, hpost⟩)
  · rfl

/-- With another method there is no response. -/
theorem handleRequest_eq_none_of_method (h : ¬ (request.method = .get ∨ request.method = .post)) :
    handleRequest locationToRoot fs request = none := by
  rw [handleRequest, getRequestLine_eq_none.mpr (not_or.mp h)]
  rfl

/-- A response is that to the URI. -/
theorem answer_of_handleRequest {res : Response} (h : handleRequest locationToRoot fs request = some res) :
    answer locationToRoot fs request.uri = some res := by
  obtain ⟨-, -, hanswer⟩ := Option.bind_eq_some_iff.mp h
  exact hanswer

end StaticFileHandler

end LowKeyWebServer
