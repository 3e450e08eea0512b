import LowKeyWebServer.Lib.SymbolCode
import LowKeyWebServer.RequestParserCorrect

/-!
# Percent-encoding

The two decoders of the source: `Utils::url_decode`, and the loop of case `_uri` in the request
parser (`decodePath`). `PercentWord` says how a byte may be written in a URL, and both decoders
read every string of such words back (`urlDecode_encodes`, `decodePath_encodes`). What the parser
does with the decoded path is `sanitise`, and `run_uri` is the run up to the blank after a URI.
-/

namespace LowKeyWebServer

open SymbolCode

namespace Utils

/-- `Utils::url_decode`. A bad escape is dropped with its `%` only: the scan goes on with the
character behind it. -/
def urlDecode : Bytes → Bytes
  | [] => []
  | c :: rest =>
    if c = '%' then
      match rest with
      | a :: b :: t =>
        match readHex [a, b] with
        | some value => toChar value :: urlDecode t
        | none => urlDecode (a :: b :: t)
      | rest => urlDecode rest
    else if c = '+' then ' ' :: urlDecode rest
    else c :: urlDecode rest

end Utils

/-! ## How a byte is written -/

/-- The byte with these two hexadecimal digits. -/
def hexByte (h l : Nat) : Byte := UInt8.ofNat (16 * h + l)

/-- A word for a byte: itself, or `%` and its two hexadecimal digits. -/
inductive PercentWord : Byte → Bytes → Prop where
  /-- the byte itself -/
  | self {b : Byte} : b ≠ '%' → b ≠ '+' → PercentWord b [b]
  /-- an escape, its digits of either case -/
  | escape {x y : Byte} {h l : Nat} : hexVal x = some h → hexVal y = some l →
      PercentWord (hexByte h l) ['%', x, y]

/-! ## The stream read of two digits -/

/-- A hexadecimal digit is neither a blank nor a sign, and does not go on a prefix. -/
theorem hexVal_plain {x : Byte} {h : Nat} (hx : hexVal x = some h) :
    isSpace x = false ∧ x ≠ '-' ∧ x ≠ '+' ∧ x ≠ 'x' ∧ x ≠ 'X' := by
  have hplain : ∀ x : Byte, (hexVal x).isSome = true →
      isSpace x = false ∧ x ≠ '-' ∧ x ≠ '+' ∧ x ≠ 'x' ∧ x ≠ 'X' := forall_byte (by decide +kernel)
  exact hplain x (by rw [hx, Option.isSome_some])

theorem readHex_digits {x y : Byte} {h l : Nat} (hx : hexVal x = some h) (hy : hexVal y = some l) :
    readHex [x, y] = some ((16 * h + l : Nat) : Int) := by
  obtain ⟨hspace, hminus, hplus, -, -⟩ := hexVal_plain hx
  obtain ⟨-, -, -, hlower, hupper⟩ := hexVal_plain hy
  have hprefix : ¬ (str "0x" <+: [x, y] ∨ str "0X" <+: [x, y]) := by
    simp [str, hlower.symm, hupper.symm]
  rw [readHex, List.dropWhile_cons_of_neg (by simp [hspace]), readSign, if_neg hminus, if_neg hplus]
  dsimp only
  rw [if_neg hprefix]
  simp [readHexDigits, hx, hy, Nat.mul_comm]

theorem toChar_hexByte (h l : Nat) : toChar ((16 * h + l : Nat) : Int) = hexByte h l := by
  rw [toChar, hexByte]
  apply UInt8.toNat_inj.mp
  simp only [UInt8.toNat_ofNat']
  omega

/-! ## Reading back -/

theorem urlDecode_word {b : Byte} {w : Bytes} (hw : PercentWord b w) (t : Bytes) :
    Utils.urlDecode (w ++ t) = b :: Utils.urlDecode t := by
  cases hw with
  | self hpercent hplus =>
    rw [List.singleton_append, Utils.urlDecode.eq_def]
    simp [hpercent, hplus]
  | escape hx hy =>
    rw [← toChar_hexByte]
    simp [Utils.urlDecode, readHex_digits hx hy]

/-- A character that starts no escape. -/
theorem decodePath_cons {c : Byte} (hc : c ≠ '%') (rest : Bytes) :
    RequestParser.decodePath (c :: rest) =
      (RequestParser.decodePath rest).map ((if c = '+' then (' ' : Byte) else c) :: ·) := by
  rw [RequestParser.decodePath.eq_def]
  dsimp only
  rw [if_neg hc]
  split <;> rfl

/-- An escape needs two characters. -/
theorem decodePath_short {rest : Bytes} (h : rest.length < 2) :
    RequestParser.decodePath (('%' : Byte) :: rest) = none := by
  rcases rest with - | ⟨a, - | ⟨b, t⟩⟩
  · rfl
  · rfl
  · rw [List.length_cons, List.length_cons] at h
    omega

theorem decodePath_word {b : Byte} {w : Bytes} (hw : PercentWord b w) (t : Bytes) :
    RequestParser.decodePath (w ++ t) = (RequestParser.decodePath t).map (b :: ·) := by
  cases hw with
  | self hpercent hplus => rw [List.singleton_append, decodePath_cons hpercent, if_neg hplus]
  | escape hx hy =>
    rw [← toChar_hexByte]
    simp [RequestParser.decodePath, readHex_digits hx hy]

variable {s enc : Bytes}

/-- `url_decode` reads an encoded string back. -/
theorem urlDecode_encodes (h : Encodes PercentWord s enc) : Utils.urlDecode enc = s := by
  rw [h.read fun _ _ t hw => urlDecode_word hw t]
  exact List.foldr_cons_nil

/-- So does the loop of the request parser. -/
theorem decodePath_encodes (h : Encodes PercentWord s enc) :
    RequestParser.decodePath enc = some s := by
  have hfold : s.foldr (fun b => Option.map (b :: ·)) (some []) = some s := by
    clear h
    induction s with
    | nil => rfl
    | cons b s ih => rw [List.foldr_cons, ih, Option.map_some]
  rw [h.read fun _ _ t hw => decodePath_word hw t]
  exact hfold

/-! ## The path of a URI -/

namespace RequestParser

/-- What becomes of a decoded path: it must not go backwards in the directory, and a directory
gets its index page. -/
def sanitise (path : Bytes) : Bytes :=
  if (find (str "..") path).isSome then []
  else if path.getLast? = some ('/' : Byte) then path ++ str "index.html"
  else path

/-- The decoded path of a non-empty URI is sanitised, an undecodable one is empty. -/
theorem inferPath_eq {uri : Bytes} (huri : uri ≠ []) :
    inferPath [] uri = some (((decodePath uri).map sanitise).getD []) := by
  rw [inferPath]
  rcases hdecoded : decodePath uri with - | path
  · rfl
  · rw [Option.map_some, Option.getD_some, sanitise]
    dsimp only
    rw [List.nil_append]
    split
    · rfl
    · rw [List.getLast?_eq_some_getLast (decodePath_ne_nil huri hdecoded)]
      simp only [Option.some.injEq]
      split <;> rfl

variable {method uri : Bytes}

/-- **The run up to the blank after a URI.** -/
theorem run_uri (r : UInt64) (hmethod : method ≠ []) (htoken : ∀ c ∈ method, TokenByte c)
    (huri : uri ≠ []) (hbytes : ∀ c ∈ uri, UriByte c) :
    ∃ p, Reader.run step (init r) (method ++ str " " ++ uri ++ str " ") = .pending p ∧
      p.state = .versionH ∧ p.uri = uri ∧ p.path = ((decodePath uri).map sanitise).getD [] := by
  have hblank : ∀ raw, step ⟨.uri, r, raw, [], [], method, uri, [], []⟩ ' ' = .more ⟨.versionH, r,
      raw ++ str " ", ((decodePath uri).map sanitise).getD [], [], method, uri, [], []⟩ := fun raw =>
    step_undefined (by simp [nextCharHandler, inferPath_eq huri, str])
  rw [List.append_assoc, run_method r hmethod htoken, run_uriBytes hbytes]
  exact ⟨_, Reader.run_more (hblank _) [], rfl, rfl, rfl⟩

/-- **The two decoders invert percent-encoding.** The path is what the parser makes of the decoded
bytes. -/
theorem decoders_invert {s enc : Bytes} (h : Encodes PercentWord s enc) :
    Utils.urlDecode enc = s ∧
      (enc ≠ [] → (∀ c ∈ enc, UriByte c) → decodePath enc = some s ∧
        ∀ (r : UInt64) (method : Bytes), method ≠ [] → (∀ c ∈ method, TokenByte c) →
          ∃ p, Reader.run step (init r) (method ++ str " " ++ enc ++ str " ") = .pending p ∧
            p.uri = enc ∧ p.path = sanitise s) := by
  refine ⟨urlDecode_encodes h, fun hne hbytes => ⟨decodePath_encodes h, ?_⟩⟩
  intro r method hmethod htoken
  obtain ⟨p, hrun, -, huri, hpath⟩ := run_uri r hmethod htoken hne hbytes
  refine ⟨p, hrun, huri, ?_⟩
  rw [hpath, decodePath_encodes h, Option.map_some, Option.getD_some]

/-- The theorem at a file in a directory with a blank in its name. -/
theorem decoders_invert_blank : Utils.urlDecode (str "/a%20b/c") = str "/a b/c" ∧
    ∃ p, Reader.run step (init 0) (str "GET" ++ str " " ++ str "/a%20b/c" ++ str " ") = .pending p ∧
      p.uri = str "/a%20b/c" ∧ p.path = sanitise (str "/a b/c") := by
  have hself : ∀ c : Byte, c ≠ '%' → c ≠ '+' → PercentWord c [c] := fun _ => .self
  have hblank : PercentWord ' ' (str "%20") := .escape (h := 2) (l := 0) rfl rfl
  have henc : Encodes PercentWord (str "/a b/c") (str "/a%20b/c") :=
    .cons (hself _ (by decide) (by decide)) (.cons (hself _ (by decide) (by decide))
      (.cons hblank (.cons (hself _ (by decide) (by decide)) (.cons (hself _ (by decide) (by decide))
        (.cons (hself _ (by decide) (by decide)) .nil)))))
  obtain ⟨hurl, hpath⟩ := decoders_invert henc
  have hbytes : ∀ c ∈ str "/a%20b/c", UriByte c := forall_mem_of_all (by decide)
  have htoken : ∀ c ∈ str "GET", TokenByte c := forall_mem_of_all (by decide)
  exact ⟨hurl, (hpath (by decide) hbytes).2 0 (str "GET") (by decide) htoken⟩

end RequestParser

end LowKeyWebServer
