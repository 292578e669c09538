import Gravioli.Crypto

set_option autoImplicit false

/-! # The parser of the test vectors

`TestVector::parseRSP` reads a response file line by line into one `Test`, which it appends to the
vector at each `CIPHERTEXT` line. In the `[DECRYPT]` section that line comes before `PLAINTEXT`, so
a test of this section carries the plaintext of the record before it. `parseRSP_render` says what
the parser makes of a file, `parseRSP_render_eq_iff` for which files these are its records.

A `Char` stands for one byte of the file. -/

namespace Gravioli

namespace TestVector

/-- `TestVector::Test`. -/
structure Test where
  key : List Byte := []
  iv : List Byte := []
  plain : List Byte := []
  cipher : List Byte := []
deriving DecidableEq

/-! ## The values of a line -/

/-- The lambda of `getFromString`. `none`: it throws. -/
def hexDigit (c : Char) : Option ℕ :=
  if '0' ≤ c ∧ c ≤ '9' then some (c.toNat - '0'.toNat)
  else if 'a' ≤ c ∧ c ≤ 'f' then some (c.toNat - 'a'.toNat + 10)
  else if 'A' ≤ c ∧ c ≤ 'F' then some (c.toNat - 'A'.toNat + 10)
  else none

/-- The loop of `getFromString`, at index `i`. -/
def hexLoop (i lastDigit : ℕ) (bytes : List Byte) : List Char → Option (List Byte)
  | [] => some bytes
  | c :: value => do
      let digit ← hexDigit c
      if i % 2 = 0 then hexLoop (i + 1) digit bytes value
      else hexLoop (i + 1) lastDigit (bytes ++ [BitVec.ofNat 8 (lastDigit * 16 + digit)]) value

/-- `std::string::substr`, which throws for a position after the end. -/
def substr (line : List Char) (pos : ℕ) : Option (List Char) :=
  if pos ≤ line.length then some (line.drop pos) else none

/-- `getFromString`: the hex value three characters behind `pos`, without the last character. -/
def getFromString (line : List Char) (pos : ℕ) : Option (List Byte) := do
  let value ← substr line (pos + 3)
  -- The length of an empty value wraps around, and its terminating zero is no hex digit.
  if value = [] then none else hexLoop 0 0 [] value.dropLast

/-- `isspace` in the "C" locale. -/
def isSpace (c : Char) : Bool :=
  c = ' ' || c = '\t' || c = '\n' || c.toNat = 11 || c.toNat = 12 || c = '\r'

/-- `std::stoi` at base ten, which reads the longest run of digits and throws if there is none or if
    the value is out of the range of an `int`. -/
def stoi (str : List Char) : Option ℤ :=
  let str := str.dropWhile isSpace
  let negative := str.head? = some '-'
  let digits := (if negative ∨ str.head? = some '+' then str.tail else str).takeWhile Char.isDigit
  let magnitude : ℤ := Nat.ofDigitChars 10 digits 0
  let value := if negative then -magnitude else magnitude
  if digits = [] ∨ ¬ (-2 ^ 31 ≤ value ∧ value < 2 ^ 31) then none else some value

/-! ## The parser -/

/-- The variables of `parseRSP` that live across lines. -/
structure ParserState where
  t : Test := {}
  counter : ℤ := -1
  offset : ℤ := 0
  tv : List Test
deriving DecidableEq

def startsWith (line : List Char) (kw : String) : Bool := kw.toList.isPrefixOf line

/-- The addition of two `int`s. -/
def addInt (m n : ℤ) : ℤ := (m + n).bmod (2 ^ 32)

/-- The handler around the parsing of one line. -/
def caught {α : Type} : Option α → Except String α
  | some a => .ok a
  | none => .error "Error during line parsing."

/-- One iteration of `parseRSP`. An error is what it prints before it returns `false`. -/
def parseLine (s : ParserState) (line : List Char) : Except String ParserState :=
  if startsWith line "KEY" then do
    let key ← caught (getFromString line "KEY".length)
    return { s with t.key := key }
  else if startsWith line "IV" then do
    let iv ← caught (getFromString line "IV".length)
    return { s with t.iv := iv }
  else if startsWith line "PLAINTEXT" then do
    let plain ← caught (getFromString line "PLAINTEXT".length)
    return { s with t.plain := plain }
  else if startsWith line "CIPHERTEXT" then do
    let cipher ← caught (getFromString line "CIPHERTEXT".length)
    let t := { s.t with cipher := cipher }
    if s.counter < 0 ∨ s.counter ≠ s.tv.length then throw "Invalid counter"
    return { s with t := t, tv := s.tv ++ [t] }
  else if startsWith line "COUNT" then do
    let newCounter ← caught (do stoi (← substr line ("COUNT".length + 3)))
    -- `COUNT` is back to zero after the transition to the other section.
    let offset := if newCounter = 0 ∧ 0 ≤ s.counter then addInt s.counter 1 else s.offset
    return { s with offset := offset, counter := addInt newCounter offset }
  else return s

/-- The loop of `parseRSP`, with the vector it leaves behind. -/
def parseLines (s : ParserState) : List (List Char) → Except String Unit × List Test
  | [] => (.ok (), s.tv)
  | line :: rest =>
      match parseLine s line with
      | .ok s' => parseLines s' rest
      | .error e => (.error e, s.tv)

/-- The lines `getline` gives until the end of the file. -/
def getlines : List Char → List (List Char)
  | [] => []
  | c :: f =>
      if c = '\n' then [] :: getlines f
      else match getlines f with
        | [] => [[c]]
        | line :: rest => (c :: line) :: rest

/-- `f` is the content of the file, if it could be opened. `.ok ()` stands for the result `true`. -/
def parseRSP (filename : String) (f : Option (List Char)) (tv : List Test) :
    Except String Unit × List Test :=
  match f with
  | none => (.error ("Could not open file " ++ filename), tv)
  | some text => parseLines { tv } (getlines text)

/-! ## Response files -/

/-- A byte as two lower-case digits. -/
def hexOf (b : Byte) : List Char := [Nat.digitChar (b.toNat / 16), Nat.digitChar (b.toNat % 16)]

/-- A line `name = value`, with the carriage return that `getline` leaves. -/
def fieldLine (name : String) (value : List Char) : List Char :=
  name.toList ++ [' ', '=', ' '] ++ value ++ ['\r']

/-- A line with a value in hex. -/
def bytesLine (name : String) (bytes : List Byte) : List Char :=
  fieldLine name (bytes.flatMap hexOf)

/-- The line that numbers a record. -/
def countLine (k : ℕ) : List Char := fieldLine "COUNT" (Nat.toDigits 10 k)

def blankLine : List Char := ['\r']

/-- Record `k` of the section `[ENCRYPT]`. -/
def encryptLines (r : Test) (k : ℕ) : List (List Char) :=
  [countLine k, bytesLine "KEY" r.key, bytesLine "IV" r.iv, bytesLine "PLAINTEXT" r.plain,
    bytesLine "CIPHERTEXT" r.cipher, blankLine]

/-- Record `k` of the section `[DECRYPT]`, where the ciphertext comes first. -/
def decryptLines (r : Test) (k : ℕ) : List (List Char) :=
  [countLine k, bytesLine "KEY" r.key, bytesLine "IV" r.iv, bytesLine "CIPHERTEXT" r.cipher,
    bytesLine "PLAINTEXT" r.plain, blankLine]

/-- The records of a section, numbered from `k` on. -/
def sectionLines (record : Test → ℕ → List (List Char)) (rs : List Test) (k : ℕ) :
    List (List Char) :=
  (rs.zipIdx k).flatMap fun x => record x.1 x.2

def commentLine (c : List Char) : List Char := '#' :: c ++ ['\r']

/-- The lines before the first record. -/
def headerLines (comments : List (List Char)) : List (List Char) :=
  comments.map commentLine ++ [blankLine, "[ENCRYPT]".toList ++ ['\r'], blankLine]

/-- The lines of a file with these comments and these records. -/
def fileLines (comments : List (List Char)) (E D : List Test) : List (List Char) :=
  headerLines comments ++ sectionLines encryptLines E 0
    ++ (["[DECRYPT]".toList ++ ['\r'], blankLine] ++ sectionLines decryptLines D 0)

/-- A response file in the layout of `test/KAT_AES`. -/
def render (comments : List (List Char)) (E D : List Test) : List Char :=
  (fileLines comments E D).flatMap (· ++ ['\n'])

/-! ## Reading the values back -/

theorem substr_fieldLine (name : String) (value : List Char) :
    substr (fieldLine name value) (name.length + 3) = some (value ++ ['\r']) := by
  have hlen : (name.toList ++ [' ', '=', ' ']).length = name.length + 3 := by
    simp [String.length_toList]
  have hle : name.length + 3 ≤ (fieldLine name value).length := by
    simp [fieldLine, String.length_toList]
  rw [substr, if_pos hle, fieldLine, List.append_assoc _ value, ← hlen, List.drop_left]

theorem hexDigit_digitChar : ∀ n < 16, hexDigit (Nat.digitChar n) = some n := by decide

theorem hexLoop_hexOf (i lastDigit : ℕ) (bytes bs : List Byte) (hi : i % 2 = 0) :
    hexLoop i lastDigit bytes (bs.flatMap hexOf) = some (bytes ++ bs) := by
  induction bs generalizing i lastDigit bytes with
  | nil => simp [hexLoop]
  | cons b bs ih =>
      have hhigh := hexDigit_digitChar (b.toNat / 16) (by omega)
      have hlow := hexDigit_digitChar (b.toNat % 16) (by omega)
      have hodd : (i + 1) % 2 ≠ 0 := by omega
      have hbyte : BitVec.ofNat 8 (b.toNat / 16 * 16 + b.toNat % 16) = b := by
        rw [Nat.div_add_mod', BitVec.ofNat_toNat, BitVec.setWidth_eq]
      simp [hexOf, hexLoop, hhigh, hlow, hi, hodd, hbyte, ih (i + 1 + 1) _ _ (by omega)]

/-- A value loses its carriage return and nothing else. -/
theorem getFromString_bytesLine (name : String) (bytes : List Byte) :
    getFromString (bytesLine name bytes) name.length = some bytes := by
  have hvalue : substr (bytesLine name bytes) (name.length + 3)
      = some (bytes.flatMap hexOf ++ ['\r']) := substr_fieldLine name _
  simp [getFromString, hvalue, hexLoop_hexOf]

theorem isDigit_toDigits {k : ℕ} {c : Char} (hc : c ∈ Nat.toDigits 10 k) : c.isDigit :=
  Nat.isDigit_of_mem_toDigits (by decide) (by decide) hc

theorem ne_of_isDigit {c d : Char} (hc : c.isDigit) (hd : ¬ d.isDigit) : c ≠ d := by
  rintro rfl
  exact hd hc

theorem isSpace_of_isDigit {c : Char} (hc : c.isDigit) : isSpace c = false := by
  have h48 : 48 ≤ c.toNat := by
    simp only [Char.isDigit, Bool.and_eq_true, decide_eq_true_eq] at hc
    exact hc.1
  have hvt : c.toNat ≠ 11 := by omega
  have hff : c.toNat ≠ 12 := by omega
  have hspace : c ≠ ' ' := ne_of_isDigit hc (by decide)
  have htab : c ≠ '\t' := ne_of_isDigit hc (by decide)
  have hnl : c ≠ '\n' := ne_of_isDigit hc (by decide)
  have hcr : c ≠ '\r' := ne_of_isDigit hc (by decide)
  simp [isSpace, hvt, hff, hspace, htab, hnl, hcr]

theorem stoi_toDigits (k : ℕ) (hk : k < 2 ^ 31) :
    stoi (Nat.toDigits 10 k ++ ['\r']) = some (k : ℤ) := by
  obtain ⟨c, cs, hcs⟩ := List.exists_cons_of_ne_nil (Nat.toDigits_ne_nil (n := k) (b := 10))
  have hc : c.isDigit := isDigit_toDigits (k := k) (by simp [hcs])
  have hskip : (Nat.toDigits 10 k ++ ['\r']).dropWhile isSpace = Nat.toDigits 10 k ++ ['\r'] := by
    simp [hcs, isSpace_of_isDigit hc]
  have hhead : (Nat.toDigits 10 k ++ ['\r']).head? = some c := by simp [hcs]
  have hminus : c ≠ '-' := ne_of_isDigit hc (by decide)
  have hplus : c ≠ '+' := ne_of_isDigit hc (by decide)
  have hdigits : (Nat.toDigits 10 k ++ ['\r']).takeWhile Char.isDigit = Nat.toDigits 10 k := by
    rw [List.takeWhile_append_of_pos fun _ => isDigit_toDigits]
    simp
  have hmax : (k : ℤ) < 2147483648 := by omega
  simp [stoi, hskip, hhead, hminus, hplus, hdigits, Nat.toDigits_ne_nil, hmax]

/-! ## Single lines -/

/-- The words `parseRSP` looks for. -/
def keywords : List String := ["KEY", "IV", "PLAINTEXT", "CIPHERTEXT", "COUNT"]

/-- A line that starts with no keyword is skipped. -/
theorem parseLine_other {s : ParserState} {line : List Char}
    (h : ∀ kw ∈ keywords, startsWith line kw = false) : parseLine s line = .ok s := by
  simp only [keywords, List.forall_mem_cons] at h
  obtain ⟨hkey, hiv, hplain, hcipher, hcount, -⟩ := h
  simp only [parseLine, hkey, hiv, hplain, hcipher, hcount]
  rfl

/-- No keyword starts with another one. -/
theorem startsWith_fieldLine (value : List Char) {name kw : String} (hname : name ∈ keywords)
    (hkw : kw ∈ keywords) : startsWith (fieldLine name value) kw = decide (name = kw) := by
  simp only [keywords, List.mem_cons, List.not_mem_nil, or_false] at hname hkw
  rcases hname with rfl | rfl | rfl | rfl | rfl <;>
    rcases hkw with rfl | rfl | rfl | rfl | rfl <;> rfl

theorem startsWith_bytesLine (bytes : List Byte) {name kw : String} (hname : name ∈ keywords)
    (hkw : kw ∈ keywords) : startsWith (bytesLine name bytes) kw = decide (name = kw) :=
  startsWith_fieldLine _ hname hkw

theorem startsWith_countLine (k : ℕ) {kw : String} (hkw : kw ∈ keywords) :
    startsWith (countLine k) kw = decide ("COUNT" = kw) :=
  startsWith_fieldLine _ (by decide) hkw

theorem parseLine_key (s : ParserState) (bytes : List Byte) :
    parseLine s (bytesLine "KEY" bytes) = .ok { s with t.key := bytes } := by
  simp (disch := decide) [parseLine, startsWith_bytesLine, getFromString_bytesLine, caught]

theorem parseLine_iv (s : ParserState) (bytes : List Byte) :
    parseLine s (bytesLine "IV" bytes) = .ok { s with t.iv := bytes } := by
  simp (disch := decide) [parseLine, startsWith_bytesLine, getFromString_bytesLine, caught]

theorem parseLine_plain (s : ParserState) (bytes : List Byte) :
    parseLine s (bytesLine "PLAINTEXT" bytes) = .ok { s with t.plain := bytes } := by
  simp (disch := decide) [parseLine, startsWith_bytesLine, getFromString_bytesLine, caught]

theorem parseLine_cipher (s : ParserState) (bytes : List Byte) (h : s.counter = s.tv.length) :
    parseLine s (bytesLine "CIPHERTEXT" bytes)
      = .ok { s with
          t.cipher := bytes
          tv := s.tv ++ [{ s.t with cipher := bytes }] } := by
  have hvalid : ¬ (s.counter < 0 ∨ s.counter ≠ s.tv.length) := by omega
  simp (disch := decide) [parseLine, startsWith_bytesLine, getFromString_bytesLine, caught, hvalid]

theorem parseLine_count (s : ParserState) (k : ℕ) (hk : k < 2 ^ 31) :
    parseLine s (countLine k)
      = (let offset := if k = 0 ∧ 0 ≤ s.counter then addInt s.counter 1 else s.offset
         .ok { s with offset := offset, counter := addInt k offset }) := by
  have hvalue : substr (countLine k) ("COUNT".length + 3) = some (Nat.toDigits 10 k ++ ['\r']) :=
    substr_fieldLine _ _
  simp (disch := decide) [parseLine, startsWith_countLine, hvalue, stoi_toDigits k hk, caught]

theorem parseLine_blankLine (s : ParserState) : parseLine s blankLine = .ok s :=
  parseLine_other (by decide)

/-! ## Runs over lines -/

/-- The state after `lines`, if none of them fails. -/
def readLines (s : ParserState) (lines : List (List Char)) : Except String ParserState :=
  lines.foldlM parseLine s

theorem readLines_nil (s : ParserState) : readLines s [] = .ok s := rfl

theorem readLines_cons {s s₁ : ParserState} {line : List Char} (rest : List (List Char))
    (h : parseLine s line = .ok s₁) : readLines s (line :: rest) = readLines s₁ rest := by
  rw [readLines, List.foldlM_cons, h]
  rfl

theorem readLines_append {s s₁ : ParserState} {lines : List (List Char)} (rest : List (List Char))
    (h : readLines s lines = .ok s₁) : readLines s (lines ++ rest) = readLines s₁ rest := by
  rw [readLines] at h
  rw [readLines, List.foldlM_append, h]
  rfl

/-- Lines that start with no keyword leave the state alone. -/
theorem readLines_skip {s : ParserState} {lines : List (List Char)}
    (h : ∀ line ∈ lines, ∀ kw ∈ keywords, startsWith line kw = false) :
    readLines s lines = .ok s := by
  induction lines with
  | nil => exact readLines_nil s
  | cons line rest ih =>
      rw [readLines_cons rest (parseLine_other (h line (List.mem_cons_self ..)))]
      exact ih fun l hl => h l (List.mem_cons_of_mem _ hl)

theorem parseLines_eq {s s' : ParserState} {lines : List (List Char)}
    (h : readLines s lines = .ok s') : parseLines s lines = (.ok (), s'.tv) := by
  induction lines generalizing s with
  | nil =>
      cases h
      rfl
  | cons line rest ih =>
      rw [parseLines]
      cases hline : parseLine s line with
      | ok s₁ => exact ih (by rwa [readLines_cons rest hline] at h)
      | error e =>
          rw [readLines, List.foldlM_cons, hline] at h
          cases h

/-! ## Records and sections -/

/-- The parser before record `k` of a section, with `b` records in the sections before it. -/
structure AtRecord (b k : ℕ) (s : ParserState) : Prop where
  counter : s.counter = b + k - 1
  -- Record 0 of a later section moves the offset, if there is a record before it.
  offset : b = 0 ∨ 0 < k → s.offset = b
  size : s.tv.length = b + k

theorem AtRecord.succ {b k : ℕ} {s : ParserState} (hs : AtRecord b k s) (t x : Test) :
    AtRecord b (k + 1) { t := t, counter := b + k, offset := b, tv := s.tv ++ [x] } where
  counter := by
    push_cast
    omega
  offset _ := rfl
  size := by
    have hsize := hs.size
    simp only [List.length_append, List.length_singleton]
    omega

theorem addInt_eq {m n : ℤ} (h : -2 ^ 31 ≤ m + n) (h' : m + n < 2 ^ 31) : addInt m n = m + n :=
  Int.bmod_eq_of_le_mul_two (by omega) (by omega)

theorem AtRecord.parseLine_count {b k : ℕ} {s : ParserState} (hs : AtRecord b k s)
    (hk : b + k < 2 ^ 31) :
    parseLine s (countLine k) = .ok { s with offset := b, counter := b + k } := by
  have hcounter := hs.counter
  have hoffset : (if k = 0 ∧ 0 ≤ s.counter then addInt s.counter 1 else s.offset) = b := by
    split
    · rw [addInt_eq (by omega) (by omega)]
      omega
    · exact hs.offset (by omega)
  rw [TestVector.parseLine_count s k (by omega)]
  simp only [hoffset, addInt_eq (m := k) (n := b) (by omega) (by omega), Int.add_comm]

theorem readLines_encryptLines {b k : ℕ} {s : ParserState} (r : Test) (hs : AtRecord b k s)
    (hk : b + k < 2 ^ 31) :
    readLines s (encryptLines r k)
      = .ok { t := r, counter := b + k, offset := b, tv := s.tv ++ [r] } := by
  have hsize := hs.size
  rw [encryptLines, readLines_cons _ (hs.parseLine_count hk), readLines_cons _ (parseLine_key ..),
    readLines_cons _ (parseLine_iv ..), readLines_cons _ (parseLine_plain ..),
    readLines_cons _ (parseLine_cipher _ _ (by simp [hsize])),
    readLines_cons _ (parseLine_blankLine _), readLines_nil]

/-- The test is appended before its plaintext is read. -/
theorem readLines_decryptLines {b k : ℕ} {s : ParserState} (r : Test) (hs : AtRecord b k s)
    (hk : b + k < 2 ^ 31) :
    readLines s (decryptLines r k)
      = .ok { t := r, counter := b + k, offset := b,
              tv := s.tv ++ [{ r with plain := s.t.plain }] } := by
  have hsize := hs.size
  rw [decryptLines, readLines_cons _ (hs.parseLine_count hk), readLines_cons _ (parseLine_key ..),
    readLines_cons _ (parseLine_iv ..), readLines_cons _ (parseLine_cipher _ _ (by simp [hsize])),
    readLines_cons _ (parseLine_plain ..), readLines_cons _ (parseLine_blankLine _), readLines_nil]

/-- A section whose records become the tests `test t r`, where `t` holds the fields of the record
    before. -/
theorem readLines_sectionLines {record : Test → ℕ → List (List Char)} (test : Test → Test → Test)
    {b : ℕ}
    (hrecord : ∀ {k : ℕ} {s : ParserState} (r : Test), AtRecord b k s → b + k < 2 ^ 31 →
      readLines s (record r k)
        = .ok { t := r, counter := b + k, offset := b, tv := s.tv ++ [test s.t r] })
    (rs : List Test) {k : ℕ} {s : ParserState} (hs : AtRecord b k s)
    (hlen : b + k + rs.length ≤ 2 ^ 31) :
    ∃ s', readLines s (sectionLines record rs k) = .ok s' ∧ AtRecord b (k + rs.length) s' ∧
      s'.t = rs.getLastD s.t ∧ s'.tv = s.tv ++ List.zipWith test (s.t :: rs) rs := by
  induction rs generalizing k s with
  | nil => exact ⟨s, readLines_nil s, hs, rfl, (List.append_nil _).symm⟩
  | cons r rs ih =>
      rw [List.length_cons] at hlen
      have hr := hrecord r hs (by omega)
      obtain ⟨s', hrest, hat, ht, htv⟩ := ih (hs.succ r (test s.t r)) (by omega)
      refine ⟨s', ?_, ?_, ?_, ?_⟩
      · rw [sectionLines, List.zipIdx_cons, List.flatMap_cons, readLines_append _ hr]
        exact hrest
      · rwa [List.length_cons, Nat.add_comm rs.length, ← Nat.add_assoc]
      · rw [ht, List.getLastD_cons]
      · rw [htv, List.zipWith_cons_cons, List.append_assoc, List.singleton_append]

/-! ## The lines of a file -/

theorem getlines_append (line f : List Char) (h : '\n' ∉ line) :
    getlines (line ++ '\n' :: f) = line :: getlines f := by
  induction line with
  | nil => simp [getlines]
  | cons c line ih =>
      rw [List.mem_cons, not_or] at h
      simp [getlines, Ne.symm h.1, ih h.2]

theorem getlines_flatMap {lines : List (List Char)} (h : ∀ line ∈ lines, '\n' ∉ line) :
    getlines (lines.flatMap (· ++ ['\n'])) = lines := by
  induction lines with
  | nil => rw [List.flatMap_nil, getlines]
  | cons line lines ih =>
      have hline := h line (List.mem_cons_self ..)
      have hrest := ih fun l hl => h l (List.mem_cons_of_mem _ hl)
      rw [List.flatMap_cons, List.append_assoc, List.singleton_append,
        getlines_append line _ hline, hrest]

theorem newline_not_mem_fieldLine {name : String} {value : List Char}
    (hname : '\n' ∉ name.toList) (hvalue : '\n' ∉ value) : '\n' ∉ fieldLine name value := by
  simp [fieldLine, hname, hvalue]

theorem newline_not_mem_bytesLine {name : String} (bytes : List Byte)
    (hname : '\n' ∉ name.toList) : '\n' ∉ bytesLine name bytes := by
  have hdigit : ∀ n < 16, '\n' ≠ Nat.digitChar n := by decide
  refine newline_not_mem_fieldLine hname ?_
  simp only [List.mem_flatMap, hexOf, List.mem_cons, List.not_mem_nil, or_false]
  rintro ⟨b, -, h | h⟩
  · exact hdigit _ (by omega) h
  · exact hdigit _ (by omega) h

theorem newline_not_mem_countLine (k : ℕ) : '\n' ∉ countLine k := by
  refine newline_not_mem_fieldLine (by decide) fun h => ?_
  exact absurd (isDigit_toDigits h) (by decide)

theorem newline_not_mem_encryptLines (r : Test) (k : ℕ) :
    ∀ line ∈ encryptLines r k, '\n' ∉ line := by
  simp (disch := decide) [encryptLines, blankLine, newline_not_mem_countLine,
    newline_not_mem_bytesLine]

theorem newline_not_mem_decryptLines (r : Test) (k : ℕ) :
    ∀ line ∈ decryptLines r k, '\n' ∉ line := by
  simp (disch := decide) [decryptLines, blankLine, newline_not_mem_countLine,
    newline_not_mem_bytesLine]

theorem newline_not_mem_sectionLines {record : Test → ℕ → List (List Char)}
    (h : ∀ r k, ∀ line ∈ record r k, '\n' ∉ line) (rs : List Test) (k : ℕ) :
    ∀ line ∈ sectionLines record rs k, '\n' ∉ line := by
  intro line hline
  rw [sectionLines, List.mem_flatMap] at hline
  obtain ⟨x, -, hx⟩ := hline
  exact h x.1 x.2 line hx

theorem newline_not_mem_headerLines {comments : List (List Char)} (h : ∀ c ∈ comments, '\n' ∉ c) :
    ∀ line ∈ headerLines comments, '\n' ∉ line := by
  intro line hline
  rw [headerLines, List.mem_append, List.mem_map] at hline
  obtain ⟨c, hc, rfl⟩ | hline := hline
  · simp [commentLine, h c hc]
  · revert line
    decide

theorem newline_not_mem_fileLines {comments : List (List Char)} (h : ∀ c ∈ comments, '\n' ∉ c)
    (E D : List Test) : ∀ line ∈ fileLines comments E D, '\n' ∉ line := by
  intro line hline
  simp only [fileLines, List.mem_append] at hline
  obtain (hline | hline) | hline | hline := hline
  · exact newline_not_mem_headerLines h line hline
  · exact newline_not_mem_sectionLines newline_not_mem_encryptLines E 0 line hline
  · revert line
    decide
  · exact newline_not_mem_sectionLines newline_not_mem_decryptLines D 0 line hline

theorem startsWith_headerLines (comments : List (List Char)) :
    ∀ line ∈ headerLines comments, ∀ kw ∈ keywords, startsWith line kw = false := by
  intro line hline
  rw [headerLines, List.mem_append, List.mem_map] at hline
  obtain ⟨c, -, rfl⟩ | hline := hline
  · simp [keywords, startsWith, commentLine, List.isPrefixOf]
  · revert line
    decide

/-! ## What the parser makes of a file -/

/-- The tests of a `[DECRYPT]` section after the record `t`. -/
def decryptTests (t : Test) (D : List Test) : List Test :=
  List.zipWith (fun previous r => { r with plain := previous.plain }) (t :: D) D

theorem decryptTests_cons (t r : Test) (D : List Test) :
    decryptTests t (r :: D) = { r with plain := t.plain } :: decryptTests r D := rfl

theorem decryptTests_eq_iff (t : Test) (D : List Test) :
    decryptTests t D = D ↔ ∀ r ∈ D, r.plain = t.plain := by
  induction D generalizing t with
  | nil => simp [decryptTests]
  | cons r D ih =>
      have hhead : { r with plain := t.plain } = r ↔ r.plain = t.plain := by
        cases r
        simp [eq_comm]
      rw [decryptTests_cons, List.cons.injEq, hhead, ih, List.forall_mem_cons]
      exact and_congr_right fun h => by rw [h]

theorem encryptTests_eq (t : Test) (E : List Test) :
    List.zipWith (fun _ r => r) (t :: E) E = E := by
  induction E generalizing t with
  | nil => rw [List.zipWith_nil_right]
  | cons r E ih => rw [List.zipWith_cons_cons, ih]

theorem parseRSP_render (filename : String) {comments : List (List Char)} (E D : List Test)
    (hcomments : ∀ c ∈ comments, '\n' ∉ c) (hlen : E.length + D.length < 2 ^ 31) :
    parseRSP filename (some (render comments E D)) []
      = (.ok (), E ++ decryptTests (E.getLastD {}) D) := by
  have hstart : AtRecord 0 0 { tv := [] } := ⟨rfl, fun _ => rfl, rfl⟩
  obtain ⟨s₁, hE, hat, ht, htv₁⟩ :=
    readLines_sectionLines (fun _ r => r) readLines_encryptLines E hstart (by omega)
  have hmarker : ∀ line ∈ ["[DECRYPT]".toList ++ ['\r'], blankLine], ∀ kw ∈ keywords,
      startsWith line kw = false := by decide
  -- The counter is still that of the last record, so the next section starts at `E.length`.
  have hmiddle : AtRecord E.length 0 s₁ := by
    have hcounter := hat.counter
    have hoffset := hat.offset
    have hsize := hat.size
    constructor <;> omega
  obtain ⟨s₂, hD, -, -, htv₂⟩ :=
    readLines_sectionLines (fun t r => { r with plain := t.plain }) readLines_decryptLines D hmiddle
      (by omega)
  have hfile : readLines { tv := [] } (fileLines comments E D) = .ok s₂ := by
    rw [fileLines, List.append_assoc,
      readLines_append _ (readLines_skip (startsWith_headerLines comments)),
      readLines_append _ hE, readLines_append _ (readLines_skip hmarker), hD]
  have htv : s₂.tv = E ++ decryptTests (E.getLastD {}) D := by
    rw [htv₂, htv₁, ht, encryptTests_eq, List.nil_append, decryptTests]
  rw [parseRSP, render, getlines_flatMap (newline_not_mem_fileLines hcomments E D)]
  simp only [parseLines_eq hfile, htv]

/-- The tests are the records if and only if the `[DECRYPT]` section has only one plaintext, that of
    the last `[ENCRYPT]` record (the empty one, if there is none). -/
theorem parseRSP_render_eq_iff (filename : String) {comments : List (List Char)} (E D : List Test)
    (hcomments : ∀ c ∈ comments, '\n' ∉ c) (hlen : E.length + D.length < 2 ^ 31) :
    parseRSP filename (some (render comments E D)) [] = (.ok (), E ++ D)
      ↔ ∀ r ∈ D, r.plain = (E.getLastD {}).plain := by
  rw [parseRSP_render filename E D hcomments hlen, Prod.mk.injEq, List.append_cancel_left_eq,
    decryptTests_eq_iff]
  exact and_iff_right rfl

/-- Two records of CFB with segments of one byte, under the zero key and the zero vector. -/
def sampleZero : Test :=
  { key := List.replicate 16 0, iv := List.replicate 16 0, plain := [0x00], cipher := [0x66] }

/-- One byte under the zero key and the zero IV. -/
def sampleOne : Test :=
  { key := List.replicate 16 0, iv := List.replicate 16 0, plain := [0x01], cipher := [0x67] }

theorem parseRSP_render_sampleZero :
    parseRSP "CFB8.rsp" (some (render [" CAVS 11.1".toList] [sampleZero] [sampleZero])) []
      = (.ok (), [sampleZero, sampleZero]) :=
  (parseRSP_render_eq_iff "CFB8.rsp" [sampleZero] [sampleZero] (by decide) (by decide)).mpr
    (by decide)

theorem parseRSP_render_mispaired :
    parseRSP "CFB8.rsp" (some (render [" CAVS 11.1".toList] [sampleZero] [sampleOne])) []
      ≠ (.ok (), [sampleZero, sampleOne]) := by
  decide

end TestVector

end Gravioli
