import Gravioli.Json.Completeness

set_option autoImplicit false

/-! # Beginnings of documents

Where a text stops being the beginning of a document. `ValuePrefix`, `ElementsPrefix` and `MembersPrefix`
say of a text that something can be written behind it such that the whole is a value, elements or
members; all strings of the whole denote characters.

`Stuck` and `Complaint` are what the parser makes of such a place: the lexer stands before something
that is no token, or an exception is thrown, about a token or about a string. -/

namespace Gravioli

namespace Json.Grammar

open Lexer Json.Parser

def noSpace : Space := ⟨[], by simp⟩

section

variable (toDouble : ℤ → ℤ → Option Double)

/-- `w` can be continued to a value. -/
def ValuePrefix (w : Text) : Prop :=
  ∃ (space : Space) (v : Value) (j : Json), v.value toDouble = .ok j ∧ w <+: space.1 ++ v.text

/-- `w` can be continued to the elements of an array. -/
def ElementsPrefix (w : Text) : Prop :=
  ∃ (es : Elements) (js : List Json), es.values toDouble = .ok js ∧ w <+: es.text

/-- `w` can be continued to the members of an object. -/
def MembersPrefix (w : Text) : Prop :=
  ∃ (ms : Members) (pairs : List (String × Json)), ms.pairs toDouble = .ok pairs ∧ w <+: ms.text

/-- `w` can be continued to a text. -/
def DocumentPrefix (w : Text) : Prop :=
  ∃ (d : Document) (j : Json), d.value toDouble = .ok j ∧ w <+: d.text

variable {toDouble}

/-! ## Values -/

theorem valuePrefix_nil : ValuePrefix toDouble [] :=
  ⟨noSpace, .null, .null, rfl, List.nil_prefix⟩

theorem valuePrefix_text (space : Space) {v : Value} {j : Json} (h : v.value toDouble = .ok j) :
    ValuePrefix toDouble (space.1 ++ v.text) := ⟨space, v, j, h, List.prefix_rfl⟩

theorem ElementsPrefix.array {w : Text} (h : ElementsPrefix toDouble w) (space : Space) :
    ValuePrefix toDouble (space.1 ++ chr '[' :: w) := by
  obtain ⟨es, js, hjs, rest, htext⟩ := h
  refine ⟨space, .array es noSpace, .array js, ?_, rest ++ [chr ']'], ?_⟩
  · rw [Value.value, hjs]
    rfl
  · simp [Value.text, ← htext, noSpace]

theorem MembersPrefix.object {w : Text} (h : MembersPrefix toDouble w) (space : Space) :
    ValuePrefix toDouble (space.1 ++ chr '{' :: w) := by
  obtain ⟨ms, pairs, hpairs, rest, htext⟩ := h
  refine ⟨space, .object ms noSpace, .object (pairs.foldl (fun o m => setMember m.1 m.2 o) []), ?_,
    rest ++ [chr '}'], ?_⟩
  · rw [Value.value, hpairs]
    rfl
  · simp [Value.text, ← htext, noSpace]

/-! ## Elements -/

theorem ValuePrefix.elements {w : Text} (h : ValuePrefix toDouble w) :
    ElementsPrefix toDouble w := by
  obtain ⟨space, v, j, hv, htext⟩ := h
  refine ⟨.one space v, [j], ?_, htext⟩
  rw [Elements.values, hv]
  rfl

theorem ElementsPrefix.more {w : Text} (h : ElementsPrefix toDouble w) (before after : Space)
    {v : Value} {j : Json} (hv : v.value toDouble = .ok j) :
    ElementsPrefix toDouble (before.1 ++ (v.text ++ (after.1 ++ chr ',' :: w))) := by
  obtain ⟨es, js, hjs, rest, htext⟩ := h
  refine ⟨.more before v after es, j :: js, ?_, rest, ?_⟩
  · rw [Elements.values, hv, hjs]
    rfl
  · simp [Elements.text, ← htext]

theorem elementsPrefix_text {es : Elements} {js : List Json} (h : es.values toDouble = .ok js) :
    ElementsPrefix toDouble es.text := ⟨es, js, h, List.prefix_rfl⟩

/-! ## Members -/

theorem ValuePrefix.members {w : Text} (h : ValuePrefix toDouble w) (before : Space) {key : Str}
    {k : String} (hkey : key.value = .ok k) (beforeColon : Space) :
    MembersPrefix toDouble (before.1 ++ (key.text ++ (beforeColon.1 ++ chr ':' :: w))) := by
  obtain ⟨afterColon, v, j, hv, rest, htext⟩ := h
  refine ⟨.one before key beforeColon afterColon v, [(k, j)], ?_, rest, ?_⟩
  · rw [Members.pairs, hkey, hv]
    rfl
  · simp [Members.text, ← htext]

theorem MembersPrefix.of_isPrefix {w w' : Text} (h : MembersPrefix toDouble w) (hw' : w' <+: w) :
    MembersPrefix toDouble w' := by
  obtain ⟨ms, pairs, hpairs, htext⟩ := h
  exact ⟨ms, pairs, hpairs, hw'.trans htext⟩

theorem membersPrefix_key (before : Space) {key : Str} {k : String} (hkey : key.value = .ok k) :
    MembersPrefix toDouble (before.1 ++ key.text) :=
  (valuePrefix_nil.members before hkey noSpace).of_isPrefix ⟨[chr ':'], by simp [noSpace]⟩

theorem membersPrefix_nil : MembersPrefix toDouble [] :=
  (membersPrefix_key noSpace (show Str.value ⟨[]⟩ = .ok "" from rfl)).of_isPrefix List.nil_prefix

theorem MembersPrefix.more {w : Text} (h : MembersPrefix toDouble w) (before : Space) {key : Str}
    {k : String} (hkey : key.value = .ok k) (beforeColon afterColon after : Space) {v : Value}
    {j : Json} (hv : v.value toDouble = .ok j) :
    MembersPrefix toDouble (before.1 ++ (key.text ++ (beforeColon.1 ++ chr ':' ::
      (afterColon.1 ++ (v.text ++ (after.1 ++ chr ',' :: w)))))) := by
  obtain ⟨ms, pairs, hpairs, rest, htext⟩ := h
  refine ⟨.more before key beforeColon afterColon v after ms, (k, j) :: pairs, ?_, rest, ?_⟩
  · rw [Members.pairs, hkey, hv, hpairs]
    rfl
  · simp [Members.text, ← htext]

theorem membersPrefix_text {ms : Members} {pairs : List (String × Json)}
    (h : ms.pairs toDouble = .ok pairs) : MembersPrefix toDouble ms.text :=
  ⟨ms, pairs, h, List.prefix_rfl⟩

/-! ## Documents -/

theorem ValuePrefix.document {w : Text} (h : ValuePrefix toDouble w) : DocumentPrefix toDouble w := by
  obtain ⟨space, v, j, hv, htext⟩ := h
  exact ⟨⟨space, v, noSpace⟩, j, hv, by simpa [Document.text, noSpace] using htext⟩

end

/-! ## Where the parser stops -/

/-- The lexer stands before something in `text` that is no token; what it has passed satisfies
    `Good`. -/
def Stuck (Good : Text → Prop) (text : Text) (p : Scanned) : Prop :=
  p.last_token = .parse_error ∧ ∃ before rest, text = before ++ rest ∧ p = scan rest ∧ Good before

theorem Stuck.append {Good Good' : Text → Prop} {text text' : Text} {p : Scanned}
    (h : Stuck Good text p) (before : Text) (htext : text' = before ++ text)
    (hgood : ∀ w, Good w → Good' (before ++ w)) : Stuck Good' text' p := by
  obtain ⟨herror, w, rest, rfl, hp, hw⟩ := h
  exact ⟨herror, before ++ w, rest, by simp [htext], hp, hgood w hw⟩

/-- With the next token of `rest`, if there is one, what stands before it becomes bad. -/
def Misfits (Bad : Text → Prop) (before rest : Text) : Prop :=
  ∀ (space : Space) (t : TokenType) (lexeme after : Text), rest = space.1 ++ (lexeme ++ after) →
    scan rest = ⟨t, lexeme, after⟩ → t ≠ .parse_error → t ≠ .end_of_input →
      Bad (before ++ (space.1 ++ lexeme))

/-- What is thrown about `text`: a token does not fit behind a text that satisfies `Good`, or a string
    there denotes no characters. -/
inductive Complaint (Good Bad : Text → Prop) (text : Text) : String → Prop
  | unexpected (before rest : Text) (htext : text = before ++ rest) (hgood : Good before)
      (hbad : Misfits Bad before rest) : Complaint Good Bad text (unexpected (scan rest))
  | expected (before rest : Text) (t : TokenType) (htext : text = before ++ rest)
      (hgood : Good before) (hbad : Misfits Bad before rest) (ht : (scan rest).last_token ≠ t) :
      Complaint Good Bad text (Parser.unexpected (scan rest) ++ "; expected " ++ tokenTypeName t)
  | surrogate (before rest : Text) (space : Space) (s : Str) (what : String)
      (htext : text = before ++ (space.1 ++ (s.text ++ rest))) (hgood : Good before)
      (hbad : Bad (before ++ (space.1 ++ s.text))) (hs : s.value = .error what) :
      Complaint Good Bad text what

theorem Complaint.append {Good Good' Bad Bad' : Text → Prop} {text text' : Text} {what : String}
    (h : Complaint Good Bad text what) (before : Text) (htext : text' = before ++ text)
    (hgood : ∀ w, Good w → Good' (before ++ w)) (hbad : ∀ w, Bad w → Bad' (before ++ w)) :
    Complaint Good' Bad' text' what := by
  have hmisfits : ∀ {w rest}, Misfits Bad w rest → Misfits Bad' (before ++ w) rest :=
    fun h space t lexeme after hrest hscan herror hend => by
      simpa using hbad _ (h space t lexeme after hrest hscan herror hend)
  cases h with
  | unexpected w rest hw hg hb =>
      exact .unexpected (before ++ w) rest (by simp [htext, hw]) (hgood w hg) (hmisfits hb)
  | expected w rest t hw hg hb ht =>
      exact .expected (before ++ w) rest t (by simp [htext, hw]) (hgood w hg) (hmisfits hb) ht
  | surrogate w rest space s what hw hg hb hs =>
      exact .surrogate (before ++ w) rest space s what (by simp [htext, hw]) (hgood w hg)
        (by simpa using hbad _ hb) hs

end Json.Grammar

end Gravioli
