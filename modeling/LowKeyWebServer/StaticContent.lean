import LowKeyWebServer.Containment
import LowKeyWebServer.Handlers

/-!
# What a static file is served as

When the response to a static request carries the bytes of the file (`served_iff`), and when a
URI without a path is answered without opening anything (`unresolved_iff`). With a method that has
no text `handleRequest` does neither.
-/

namespace LowKeyWebServer

namespace StaticFileHandler

variable {locationToRoot : LocationToRoot} {fs : FileSystem} {request : Request} {content : Bytes}

/-! ## The content of a file -/

/-- A URI of a directory ends with a slash. -/
theorem getLast?_of_directory {uri : Bytes} (h : configParser uri = -1) :
    uri.getLast? = some ('/' : Byte) := by
  have hmatch : (Regex.cat (.star (.cls fun c : Byte => c != '\n' && c != '\r'))
      (.word (str "/"))).isMatch uri = true := by
    by_contra hno
    rw [configParser, if_neg hno] at h
    revert h
    repeat' split
    all_goals decide
  obtain ⟨u, v, rfl, -, hv⟩ := Regex.mem_cat.mp ((Regex.isMatch_iff _ _).mp hmatch)
  rw [Regex.mem_word.mp hv]
  exact List.getLast?_concat

/-- A regular file with this content. -/
def IsFile (content : Bytes) (entry : FileEntry) : Prop :=
  entry = .file content ∨ entry = .unreadable content

/-- `replace_path` names an existing regular file. -/
structure Names (locationToRoot : LocationToRoot) (fs : FileSystem) (uri content : Bytes) : Prop where
  path : replacePath locationToRoot uri ≠ []
  file : ∃ entry, fs.entry (openedPath locationToRoot fs uri) = some entry ∧ IsFile content entry

/-- The file can be opened. -/
def Opens (locationToRoot : LocationToRoot) (fs : FileSystem) (uri content : Bytes) : Prop :=
  fs.entry (openedPath locationToRoot fs uri) = some (.file content)

/-- The response is that of a file with this content. -/
def Serves (response : Option Response) (content : Bytes) : Prop :=
  ∃ res, response = some res ∧ res.code = Response.ok ∧ res.body = content

/-- The text that is served instead of a file of type 0. -/
def indexPage : Bytes := str "Hello World! This is the index page."

theorem serves_some {res : Response} (hcode : res.code = Response.ok) :
    Serves (some res) content ↔ res.body = content := by
  constructor
  · rintro ⟨res', hres, -, hbody⟩
    obtain rfl := Option.some.inj hres
    exact hbody
  · exact fun hbody => ⟨res, rfl, hcode, hbody⟩

theorem not_serves_none : ¬ Serves none content := by
  rintro ⟨res, hres, -⟩
  cases hres

/-- A binary file is copied, if it can be opened. -/
theorem serves_binary_iff {uri : Bytes} (h : Names locationToRoot fs uri content) (srcType : Int) :
    Serves (getBinaryContent fs (replacePath locationToRoot uri) srcType) content ↔
      Opens locationToRoot fs uri content := by
  obtain ⟨entry, hentry, hfile⟩ := h.file
  rw [Opens, hentry]
  rw [openedPath] at hentry
  rw [getBinaryContent, hentry]
  rcases hfile with rfl | rfl
  · exact iff_of_true ⟨_, rfl, rfl, rfl⟩ rfl
  · exact iff_of_false not_serves_none fun heq => by cases heq

/-- The lines of a text are run together; one that cannot be opened has none. -/
theorem serves_text_iff {uri : Bytes} (h : Names locationToRoot fs uri content) :
    Serves (formResponse fs 1 (replacePath locationToRoot uri)) content ↔
      ('\n' : Byte) ∉ content ∧ (Opens locationToRoot fs uri content ∨ content = []) := by
  obtain ⟨entry, hentry, hfile⟩ := h.file
  rw [Opens, hentry]
  rw [openedPath] at hentry
  rw [formResponse, if_neg (by decide), if_pos rfl, hentry]
  rcases hfile with rfl | rfl
  · rw [and_iff_left (Or.inl rfl)]
    refine (serves_some rfl).trans (List.filter_eq_self.trans ?_)
    constructor
    · exact fun hall hmem => absurd (hall _ hmem) (by decide)
    · intro hno c hc
      rw [bne_iff_ne]
      rintro rfl
      exact hno hc
  · refine (serves_some rfl).trans ?_
    constructor
    · rintro rfl
      exact ⟨List.not_mem_nil, Or.inr rfl⟩
    · rintro ⟨-, heq | heq⟩
      · cases heq
      · rw [heq]
        rfl

theorem serves_index_iff (filePath : Bytes) :
    Serves (formResponse fs 0 filePath) content ↔ content = indexPage := by
  rw [formResponse, if_pos rfl]
  exact (serves_some rfl).trans eq_comm

/-- **When a file is served byte for byte**: for a method with a text, if it is binary and can be
opened, or a text without line ends; a file of type 0 is not looked at. -/
theorem served_iff (huri : request.uri.getLast? ≠ some ('/' : Byte))
    (h : Names locationToRoot fs request.uri content) :
    Serves (handleRequest locationToRoot fs request) content ↔
      (request.method = .get ∨ request.method = .post) ∧
      (configParser request.uri = 0 → content = indexPage) ∧
      (configParser request.uri = 1 →
        ('\n' : Byte) ∉ content ∧ (Opens locationToRoot fs request.uri content ∨ content = [])) ∧
      (configParser request.uri = 2 ∨ configParser request.uri = 3 ∨ configParser request.uri = 4 →
        Opens locationToRoot fs request.uri content) := by
  by_cases hmethod : request.method = .get ∨ request.method = .post
  · have hdir : configParser request.uri ≠ -1 := fun heq => huri (getLast?_of_directory heq)
    have hmem := configParser_mem request.uri
    have hbinary := serves_binary_iff h
    have htext := serves_text_iff h
    rw [handleRequest_eq_answer hmethod, and_iff_right hmethod, answer]
    dsimp only
    rw [if_neg hdir, if_neg h.path]
    generalize configParser request.uri = srcType at hdir hmem ⊢
    simp only [List.mem_cons, List.not_mem_nil, or_false] at hmem
    rcases hmem with rfl | rfl | rfl | rfl | rfl | rfl
    · exact absurd rfl hdir
    · rw [if_neg (by decide), serves_index_iff]
      simp
    · rw [if_neg (by decide), htext]
      simp
    all_goals
      rw [if_pos (by decide), hbinary]
      simp
  · rw [handleRequest_eq_none_of_method hmethod]
    exact iff_of_false not_serves_none fun hcond => hmethod hcond.1

/-! ### One file -/

/-- A file system with one file below the current directory. -/
def oneFile (path content : Bytes) : FileSystem :=
  ⟨str "/srv", fun p => if p = path then some (.file content) else none⟩

/-- One location with its root. -/
def oneRoot : LocationToRoot := (∅ : LocationToRoot).insert (str "/static") (str "/files")

/-- A file in the directory of a location. -/
theorem replacePath_direct {uri : Bytes} (h : root locationToRoot (splitPath uri).1 ≠ []) :
    replacePath locationToRoot uri =
      root locationToRoot (splitPath uri).1 ++ ('/' : Byte) :: (splitPath uri).2 := by
  have hfound : findRoot locationToRoot (splitPath uri).1 [] =
      some (root locationToRoot (splitPath uri).1, []) := by
    rw [findRoot]
    exact if_pos h
  rw [replacePath]
  dsimp only
  rw [hfound]
  simp [str]

theorem names_oneFile {uri path content : Bytes} (hroot : root oneRoot (splitPath uri).1 ≠ [])
    (hpath : dropSlashes (str "/srv" ++ (root oneRoot (splitPath uri).1 ++
      ('/' : Byte) :: (splitPath uri).2)) = path) :
    Names oneRoot (oneFile path content) uri content := by
  have hreplace := replacePath_direct hroot
  refine ⟨?_, ?_⟩
  · rw [hreplace]
    exact List.append_ne_nil_of_right_ne_nil _ (List.cons_ne_nil _ _)
  · rw [openedPath, localPath, hreplace]
    exact ⟨_, if_pos hpath, Or.inl rfl⟩

theorem opens_oneFile {uri path content : Bytes} (hroot : root oneRoot (splitPath uri).1 ≠ [])
    (hpath : dropSlashes (str "/srv" ++ (root oneRoot (splitPath uri).1 ++
      ('/' : Byte) :: (splitPath uri).2)) = path) :
    Opens oneRoot (oneFile path content) uri content := by
  rw [Opens, openedPath, localPath, replacePath_direct hroot]
  exact if_pos hpath

/-- A request for a URI. -/
def getUri (uri : Bytes) : Request := ⟨.get, uri, ∅, [], str "HTTP/1.1"⟩

/-- The theorem at an image. -/
theorem served_png : Serves (handleRequest oneRoot (oneFile (str "/srv/files/a.png") (str "a\nb"))
    (getUri (str "/static/a.png"))) (str "a\nb") := by
  have huri : (getUri (str "/static/a.png")).uri.getLast? ≠ some ('/' : Byte) := by decide
  have hnames : Names oneRoot (oneFile (str "/srv/files/a.png") (str "a\nb"))
      (getUri (str "/static/a.png")).uri (str "a\nb") := names_oneFile (by decide) (by decide)
  exact (served_iff huri hnames).mpr ⟨Or.inl rfl, fun hzero => absurd hzero (by decide),
    fun hone => absurd hone (by decide), fun _ => opens_oneFile (by decide) (by decide)⟩

/-- The lines of a text are run together. -/
theorem not_served_lines :
    ¬ ∀ (locationToRoot : LocationToRoot) (fs : FileSystem) (request : Request) (content : Bytes),
      request.uri.getLast? ≠ some ('/' : Byte) → Names locationToRoot fs request.uri content →
      Serves (handleRequest locationToRoot fs request) content := by
  intro hall
  have hnames : Names oneRoot (oneFile (str "/srv/files/a.txt") (str "a\nb"))
      (getUri (str "/static/a.txt")).uri (str "a\nb") := names_oneFile (by decide) (by decide)
  have hserves := hall oneRoot (oneFile (str "/srv/files/a.txt") (str "a\nb"))
    (getUri (str "/static/a.txt")) (str "a\nb") (by decide) hnames
  have htype : configParser (getUri (str "/static/a.txt")).uri = 1 := by decide
  rw [handleRequest_eq_answer (Or.inl rfl), answer] at hserves
  dsimp only at hserves
  rw [htype, if_neg (by decide), if_neg (by decide), if_neg hnames.path, serves_text_iff hnames] at hserves
  exact absurd hserves.1 (by decide)

/-! ## A URI without a path -/

/-- `boost::filesystem::exists`; `none` is an exception. -/
def existsAt (fs : FileSystem) (path : Bytes) : Option Bool :=
  match fs.entry path with
  | some .inaccessible => none
  | some (.file _) | some (.unreadable _) | some (.directory _) => some true
  | none => some false

/-- The path at which a URI makes the handler open a file or directory: what exists there, for a
type that is read. -/
def opened (locationToRoot : LocationToRoot) (fs : FileSystem) (uri : Bytes) : Option Bytes :=
  let srcType := configParser uri
  let filePath := replacePath locationToRoot uri
  if srcType = 2 ∨ srcType = 3 ∨ srcType = 4 ∨ (srcType = 1 ∧ filePath ≠ []) then
    if existsAt fs (localPath fs filePath) = some true then some (localPath fs filePath) else none
  else none

theorem existsAt_eq_false {path : Bytes} : existsAt fs path = some false ↔ fs.entry path = none := by
  rw [existsAt]
  split <;> simp [*]

theorem existsAt_eq_none {path : Bytes} :
    existsAt fs path = none ↔ fs.entry path = some .inaccessible := by
  rw [existsAt]
  split <;> simp [*]

/-- **What is not opened does not matter**, only whether it exists. -/
theorem handleRequest_opened {fs' : FileSystem} (hcwd : fs'.currentPath = fs.currentPath)
    (hexists : ∀ path, existsAt fs' path = existsAt fs path)
    (hopened : ∀ path ∈ opened locationToRoot fs request.uri, fs'.entry path = fs.entry path) :
    handleRequest locationToRoot fs' request = handleRequest locationToRoot fs request := by
  refine handleRequest_reads hcwd request fun hopens => ?_
  have htype : configParser request.uri = 2 ∨ configParser request.uri = 3 ∨
      configParser request.uri = 4 ∨
      (configParser request.uri = 1 ∧ replacePath locationToRoot request.uri ≠ []) := by
    rwa [OpensFile, ← replacePath_eq_nil] at hopens
  rw [opened, if_pos htype] at hopened
  have heq := hexists (openedPath locationToRoot fs request.uri)
  rcases hat : existsAt fs (openedPath locationToRoot fs request.uri) with - | - | -
  · rw [existsAt_eq_none.mp hat, existsAt_eq_none.mp (heq.trans hat)]
  · rw [existsAt_eq_false.mp hat, existsAt_eq_false.mp (heq.trans hat)]
  · rw [← openedPath, if_pos hat] at hopened
    exact hopened _ rfl

/-- The current directory exists. -/
def HasCurrentPath (fs : FileSystem) : Prop :=
  ∃ read, fs.entry (dropSlashes fs.currentPath) = some (.directory read)

/-- The response is `not_found`, and nothing has been opened. -/
def Unopened (locationToRoot : LocationToRoot) (fs : FileSystem) (request : Request) : Prop :=
  (∃ res, handleRequest locationToRoot fs request = some res ∧ res.code = Response.notFound) ∧
    opened locationToRoot fs request.uri = none

/-- **When a URI without a path is not found**: for a method with a text, unless its type is
binary. -/
theorem unresolved_iff (hcwd : HasCurrentPath fs) (hpath : replacePath locationToRoot request.uri = []) :
    Unopened locationToRoot fs request ↔
      (request.method = .get ∨ request.method = .post) ∧
      ¬ (configParser request.uri = 2 ∨ configParser request.uri = 3 ∨ configParser request.uri = 4) := by
  by_cases hmethod : request.method = .get ∨ request.method = .post
  · rw [Unopened, handleRequest_eq_answer hmethod, and_iff_right hmethod, answer, opened]
    dsimp only
    rw [hpath, if_pos rfl]
    constructor
    · rintro ⟨-, hnone⟩ hbinary
      -- the current directory is opened
      obtain ⟨read, hread⟩ := hcwd
      have hexists : existsAt fs (localPath fs []) = some true := by
        rw [existsAt, localPath, List.append_nil, hread]
      rw [if_pos (by tauto), if_pos hexists] at hnone
      cases hnone
    · intro hbinary
      rw [if_neg hbinary, ite_self, if_neg (by tauto)]
      exact ⟨⟨_, rfl, rfl⟩, rfl⟩
  · rw [Unopened, handleRequest_eq_none_of_method hmethod]
    refine iff_of_false ?_ fun hcond => hmethod hcond.1
    rintro ⟨⟨res, hres, -⟩, -⟩
    cases hres

/-- A file system with nothing but the current directory. -/
def emptyDirectory : FileSystem :=
  ⟨str "/srv", fun p => if p = str "/srv" then some (.directory none) else none⟩

theorem hasCurrentPath_emptyDirectory : HasCurrentPath emptyDirectory := by
  have hpath : dropSlashes (str "/srv") = str "/srv" := by decide
  exact ⟨none, by simp [emptyDirectory, hpath]⟩

theorem replacePath_empty (uri : Bytes) : replacePath ∅ uri = [] :=
  replacePath_eq_nil.mpr fun _ _ _ => Std.TreeMap.getD_emptyc

/-- The theorem at a text. -/
theorem unresolved_text : Unopened ∅ emptyDirectory (getUri (str "/a.txt")) := by
  have hpath : replacePath ∅ (getUri (str "/a.txt")).uri = [] := replacePath_empty _
  exact (unresolved_iff hasCurrentPath_emptyDirectory hpath).mpr ⟨Or.inl rfl, by decide⟩

/-- An image without a location opens the current directory. -/
theorem not_unresolved_png :
    ¬ ∀ (locationToRoot : LocationToRoot) (fs : FileSystem) (request : Request), HasCurrentPath fs →
      replacePath locationToRoot request.uri = [] → Unopened locationToRoot fs request := by
  intro hall
  obtain ⟨-, hnone⟩ := hall ∅ emptyDirectory (getUri (str "/a.png")) hasCurrentPath_emptyDirectory
    (replacePath_empty _)
  have htype : configParser (getUri (str "/a.png")).uri = 2 := by decide
  rw [opened, replacePath_empty, if_pos (Or.inl htype)] at hnone
  exact absurd hnone (by decide)

end StaticFileHandler

end LowKeyWebServer
