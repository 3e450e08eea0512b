import LowKeyWebServer.UrlDecoding

/-!
# Which escapes the parser takes

The path of a URI should be its percent-decoding, sanitised (`expectedPath`). The parser reads the
two characters of an escape with a stream, and a stream is also content with half of them: a sign
and a digit, or a digit and some other character (`halfEscape`). `pieces` cuts a URI into what is
read from it, half escapes marked; both decodings are seen in it, and `path_iff` says when they
lead to the same path.
-/

namespace LowKeyWebServer

namespace RequestParser

/-! ## The decoding -/

/-- The byte of two hexadecimal digits. -/
def fullEscape (a b : Byte) : Option Byte :=
  (hexVal a).bind fun h => (hexVal b).map fun l => hexByte h l

/-- The decoding of a URI: `%HH` to the byte, `+` to a blank. There is none if a `%` is not
followed by two hexadecimal digits. -/
def percentDecode : Bytes → Option Bytes
  | [] => some []
  | c :: rest =>
    if c = '%' then
      match rest with
      | a :: b :: t =>
        match fullEscape a b with
        | some d => (percentDecode t).map (d :: ·)
        | none => none
      | _ => none
    else (percentDecode rest).map ((if c = '+' then ' ' else c) :: ·)

/-- The path that a URI should have. -/
def expectedPath (uri : Bytes) : Bytes := ((percentDecode uri).map sanitise).getD []

/-! ## Half escapes -/

/-- What a stream makes of two characters that are not two digits: a sign and a digit, or a digit
and another character, unless the two are the prefix of a hexadecimal number. -/
def halfEscape (a b : Byte) : Option Byte :=
  if a = '-' then (hexVal b).map fun l => 0 - UInt8.ofNat l
  else if a = '+' then (hexVal b).map UInt8.ofNat
  else if a = '0' ∧ (b = 'x' ∨ b = 'X') then none
  else (hexVal a).map UInt8.ofNat

/-- A byte read from a URI. -/
structure Piece : Type where
  /-- the byte -/
  byte : Byte
  /-- it is read from a half escape -/
  half : Bool
  deriving DecidableEq

/-- What is read from the two characters of an escape, if anything. -/
def escapePiece (a b : Byte) : Option Piece :=
  match fullEscape a b with
  | some d => some ⟨d, false⟩
  | none => (halfEscape a b).map fun d => ⟨d, true⟩

/-- What is read from a URI; none if an escape is refused. -/
def pieces : Bytes → Option (List Piece)
  | [] => some []
  | c :: rest =>
    if c = '%' then
      match rest with
      | a :: b :: t =>
        match escapePiece a b with
        | some p => (pieces t).map (p :: ·)
        | none => none
      | _ => none
    else (pieces rest).map (⟨if c = '+' then ' ' else c, false⟩ :: ·)

/-- A half escape is read only where the path is refused all the same, for two full stops in a
row. -/
def HalfRefused (uri : Bytes) : Prop :=
  ∀ ps, pieces uri = some ps →
    (∀ p ∈ ps, p.half = false) ∨ (find (str "..") (ps.map Piece.byte)).isSome = true

/-! ## The two decodings in the pieces -/

theorem readHexDigits_one (b : Byte) : readHexDigits [b] = hexVal b := by
  rcases hb : hexVal b with - | l <;> simp [readHexDigits, hb]

theorem readHexDigits_two (a b : Byte) :
    readHexDigits [a, b] =
      (hexVal a).map fun h => match hexVal b with | some l => 16 * h + l | none => h := by
  rcases ha : hexVal a with - | h
  · simp [readHexDigits, ha]
  · rcases hb : hexVal b with - | l <;> simp [readHexDigits, ha, hb, Nat.mul_comm]

/-- The prefix of a hexadecimal number. -/
theorem prefix_iff (a b : Byte) :
    (str "0x" <+: [a, b] ∨ str "0X" <+: [a, b]) ↔ a = '0' ∧ (b = 'x' ∨ b = 'X') := by
  simp [str, eq_comm, and_or_left]

theorem not_prefix_one (b : Byte) : ¬ (str "0x" <+: [b] ∨ str "0X" <+: [b]) := by
  simp [str]

theorem toChar_natCast (n : Nat) : toChar n = UInt8.ofNat n := by
  apply UInt8.toNat_inj.mp
  simp only [toChar, UInt8.toNat_ofNat']
  omega

theorem toChar_neg (n : Nat) : toChar (-(n : Int)) = 0 - UInt8.ofNat n := by
  apply UInt8.toNat_inj.mp
  simp only [toChar, UInt8.toNat_ofNat', UInt8.toNat_sub, UInt8.toNat_zero]
  omega

/-- **What a stream reads**: two digits, or a half escape. -/
theorem readHex_pair {a : Byte} (b : Byte) (ha : isSpace a = false) :
    (readHex [a, b]).map toChar = (escapePiece a b).map Piece.byte := by
  rw [readHex, List.dropWhile_cons_of_neg (by simp [ha]), readSign]
  by_cases hminus : a = '-'
  · have hfull : fullEscape a b = none := by
      rw [hminus]
      rfl
    rw [escapePiece, hfull, halfEscape, if_pos hminus, if_pos hminus]
    dsimp only
    rw [if_neg (not_prefix_one b), readHexDigits_one]
    rcases hexVal b with - | l
    · rfl
    · simp [toChar_neg]
  by_cases hplus : a = '+'
  · have hfull : fullEscape a b = none := by
      rw [hplus]
      rfl
    rw [escapePiece, hfull, halfEscape, if_neg hminus, if_neg hminus, if_pos hplus, if_pos hplus]
    dsimp only
    rw [if_neg (not_prefix_one b), readHexDigits_one]
    rcases hexVal b with - | l
    · rfl
    · simp [toChar_natCast]
  rw [if_neg hminus, if_neg hplus]
  dsimp only
  by_cases hprefix : a = '0' ∧ (b = 'x' ∨ b = 'X')
  · -- nothing is left behind the prefix
    have hfull : fullEscape a b = none := by
      obtain ⟨rfl, rfl | rfl⟩ := hprefix <;> rfl
    rw [if_pos ((prefix_iff a b).mpr hprefix), escapePiece, hfull, halfEscape, if_neg hminus,
      if_neg hplus, if_pos hprefix]
    rfl
  · rw [if_neg fun h => hprefix ((prefix_iff a b).mp h), readHexDigits_two, escapePiece, fullEscape,
      halfEscape, if_neg hminus, if_neg hplus, if_neg hprefix]
    rcases hexVal a with - | h
    · rfl
    · rcases hexVal b with - | l
      · simp [toChar_natCast]
      · exact congrArg some (toChar_hexByte h l)

theorem isSpace_of_uriByte {c : Byte} (hc : UriByte c) : isSpace c = false := by
  have hall : ∀ c : Byte, UriByte c → isSpace c = false := forall_byte (by decide +kernel)
  exact hall c hc

/-- The parser's decoding is made of the pieces. -/
theorem decodePath_eq {uri : Bytes} (huri : ∀ c ∈ uri, UriByte c) :
    decodePath uri = (pieces uri).map fun ps => ps.map Piece.byte := by
  fun_induction pieces uri with
  | case1 => rfl
  | case2 a b t p hp ih =>
    -- a piece is read from the escape
    simp only [List.forall_mem_cons] at huri
    have hread := readHex_pair b (isSpace_of_uriByte huri.2.1)
    rw [hp, Option.map_some, Option.map_eq_some_iff] at hread
    obtain ⟨value, hvalue, hbyte⟩ := hread
    simp only [decodePath, if_true, hvalue, hbyte, ih huri.2.2.2, Option.map_map]
    rfl
  | case3 a b t hp =>
    simp only [List.forall_mem_cons] at huri
    have hread := readHex_pair b (isSpace_of_uriByte huri.2.1)
    rw [hp, Option.map_none, Option.map_eq_none_iff] at hread
    simp [decodePath, hread]
  | case4 rest hrest =>
    rcases rest with - | ⟨a, - | ⟨b, t⟩⟩
    · rfl
    · rfl
    · exact (hrest a b t rfl).elim
  | case5 c rest hc ih =>
    rw [List.forall_mem_cons] at huri
    rw [decodePath_cons hc, ih huri.2, Option.map_map, Option.map_map]
    rfl

/-- The bytes of some pieces, if no half escape is among them. -/
def wholeBytes (ps : List Piece) : Option Bytes :=
  if ∀ p ∈ ps, p.half = false then some (ps.map Piece.byte) else none

theorem wholeBytes_cons (p : Piece) (ps : List Piece) :
    wholeBytes (p :: ps) = if p.half then none else (wholeBytes ps).map (p.byte :: ·) := by
  rw [wholeBytes, wholeBytes]
  rcases hp : p.half with - | -
  · by_cases hps : ∀ q ∈ ps, q.half = false
    · have hall : ∀ q ∈ p :: ps, q.half = false := List.forall_mem_cons.mpr ⟨hp, hps⟩
      rw [if_pos hall, if_pos hps]
      rfl
    · rw [if_neg fun h => hps (List.forall_mem_cons.mp h).2, if_neg hps]
      rfl
  · rw [if_neg fun h => by simp [hp] at h]
    rfl

theorem bind_wholeBytes (p : Piece) (ps : Option (List Piece)) :
    (ps.map (p :: ·)).bind wholeBytes =
      if p.half then none else (ps.bind wholeBytes).map (p.byte :: ·) := by
  rcases ps with - | ps
  · simp
  · exact wholeBytes_cons p ps

/-- **The decoding** is that of the pieces, if none of them is a half escape. -/
theorem percentDecode_eq (uri : Bytes) : percentDecode uri = (pieces uri).bind wholeBytes := by
  fun_induction pieces uri with
  | case1 => rfl
  | case2 a b t p hp ih =>
    rw [bind_wholeBytes, ← ih]
    rcases hd : fullEscape a b with - | d
    · simp only [escapePiece, hd] at hp
      obtain ⟨d, -, rfl⟩ := Option.map_eq_some_iff.mp hp
      simp [percentDecode, hd]
    · simp only [escapePiece, hd] at hp
      obtain rfl := Option.some.inj hp
      simp [percentDecode, hd]
  | case3 a b t hp =>
    rcases hd : fullEscape a b with - | d
    · simp [percentDecode, hd]
    · simp [escapePiece, hd] at hp
  | case4 rest hrest =>
    rcases rest with - | ⟨a, - | ⟨b, t⟩⟩
    · rfl
    · rfl
    · exact (hrest a b t rfl).elim
  | case5 c rest hc ih =>
    rw [bind_wholeBytes, ← ih, percentDecode.eq_def]
    dsimp only
    rw [if_neg hc]
    rfl

/-! ## The path -/

variable {method uri : Bytes}

theorem sanitise_eq_nil {path : Bytes} (hpath : path ≠ []) :
    sanitise path = [] ↔ (find (str "..") path).isSome = true := by
  rw [sanitise]
  split
  · next hdots => exact iff_of_true rfl hdots
  · next hdots =>
    refine iff_of_false ?_ hdots
    split
    · exact List.append_ne_nil_of_left_ne_nil hpath _
    · exact hpath

/-- The path that the parser has behind the URI. -/
theorem path_run_iff (r : UInt64) (hmethod : method ≠ []) (htoken : ∀ c ∈ method, TokenByte c)
    (huri : uri ≠ []) (hbytes : ∀ c ∈ uri, UriByte c) (path : Bytes) :
    (∃ p, Reader.run step (init r) (method ++ str " " ++ uri ++ str " ") = .pending p ∧
      p.path = path) ↔ ((decodePath uri).map sanitise).getD [] = path := by
  obtain ⟨p, hrun, -, -, hpath⟩ := run_uri r hmethod htoken huri hbytes
  rw [← hpath]
  refine ⟨?_, fun h => ⟨p, hrun, h⟩⟩
  rintro ⟨p', hrun', h⟩
  obtain rfl := Reader.Outcome.pending.inj (hrun.symm.trans hrun')
  exact h

/-- Both decodings lead to one path if no half escape decides. -/
theorem decodePath_iff (huri : uri ≠ []) (hbytes : ∀ c ∈ uri, UriByte c) :
    ((decodePath uri).map sanitise).getD [] = expectedPath uri ↔ HalfRefused uri := by
  rw [expectedPath, percentDecode_eq, decodePath_eq hbytes, HalfRefused]
  rcases hpieces : pieces uri with - | ps
  · simp
  · have hne : ps.map Piece.byte ≠ [] := by
      have hdecoded := decodePath_eq hbytes
      rw [hpieces] at hdecoded
      exact decodePath_ne_nil huri hdecoded
    simp only [Option.map_some, Option.getD_some, Option.bind_some, Option.some.injEq, forall_eq',
      wholeBytes]
    by_cases hhalf : ∀ p ∈ ps, p.half = false
    · rw [if_pos hhalf]
      exact iff_of_true rfl (Or.inl hhalf)
    · rw [if_neg hhalf, Option.map_none, Option.getD_none, sanitise_eq_nil hne, or_iff_right hhalf]

/-- **The path of a URI** is its sanitised decoding exactly if no half escape decides. -/
theorem path_iff (r : UInt64) (hmethod : method ≠ []) (htoken : ∀ c ∈ method, TokenByte c)
    (huri : uri ≠ []) (hbytes : ∀ c ∈ uri, UriByte c) :
    (∃ p, Reader.run step (init r) (method ++ str " " ++ uri ++ str " ") = .pending p ∧
      p.path = expectedPath uri) ↔ HalfRefused uri :=
  (path_run_iff r hmethod htoken huri hbytes _).trans (decodePath_iff huri hbytes)

/-- The theorem at a directory with a blank in its name. -/
theorem path_blank : ∃ p, Reader.run step (init 0) (str "GET" ++ str " " ++ str "/a%20b/" ++ str " ") =
    .pending p ∧ p.path = expectedPath (str "/a%20b/") := by
  have hmethod : str "GET" ≠ [] ∧ ∀ c ∈ str "GET", TokenByte c :=
    ⟨by decide, forall_mem_of_all (by decide)⟩
  have huri : str "/a%20b/" ≠ [] ∧ ∀ c ∈ str "/a%20b/", UriByte c :=
    ⟨by decide, forall_mem_of_all (by decide)⟩
  have hpieces : pieces (str "/a%20b/") = some ((str "/a b/").map fun c => ⟨c, false⟩) := by
    decide +kernel
  refine (path_iff 0 hmethod.1 hmethod.2 huri.1 huri.2).mpr fun ps hps => Or.inl ?_
  rw [← Option.some.inj (hpieces.symm.trans hps)]
  exact List.forall_mem_map.mpr fun _ _ => rfl

/-- One digit and another character are taken for an escape. -/
theorem not_path_half : ¬ ∀ (r : UInt64) (method uri : Bytes), method ≠ [] →
    (∀ c ∈ method, TokenByte c) → uri ≠ [] → (∀ c ∈ uri, UriByte c) →
    ∃ p, Reader.run step (init r) (method ++ str " " ++ uri ++ str " ") = .pending p ∧
      p.path = expectedPath uri := by
  intro h
  have hmethod : str "GET" ≠ [] ∧ ∀ c ∈ str "GET", TokenByte c :=
    ⟨by decide, forall_mem_of_all (by decide)⟩
  have huri : str "/%5g" ≠ [] ∧ ∀ c ∈ str "/%5g", UriByte c :=
    ⟨by decide, forall_mem_of_all (by decide)⟩
  have hpieces : pieces (str "/%5g") = some [⟨'/', false⟩, ⟨5, true⟩] := by decide +kernel
  have hpath := (path_run_iff 0 hmethod.1 hmethod.2 huri.1 huri.2 _).mp
    (h 0 _ _ hmethod.1 hmethod.2 huri.1 huri.2)
  have hhalf := (decodePath_iff huri.1 huri.2).mp hpath _ hpieces
  exact absurd hhalf (by decide)

end RequestParser

end LowKeyWebServer
