import Mathlib.Data.String.Basic
import Gravioli.Json.Lexer
import Gravioli.Library.OrderedMap

set_option autoImplicit false

/-! # The parser of `json.hpp`

A recursive descent over the tokens of the lexer, as the server calls it: without a callback. The two
`do … while` loops take the members and the elements collected so far along. A number that
`get_number` could not convert leaves a discarded value (`none`), which is not stored.

The recursion is on `fuel`; running out of it is not an outcome of the code (`Json.Soundness` shows
that `parse` gives enough). -/

namespace Gravioli

namespace Json

open Lexer

/-- `result[key] = value` on the `std::map` of an object. -/
def setMember (key : String) (value : Json) (members : List (String × Json)) :
    List (String × Json) := OrderedMap.insert key value members

namespace Parser

/-- What ends a parse early. -/
inductive Stop
  | outOfFuel
  | thrown (what : String)
  deriving DecidableEq, Repr

/-- An exception of the lexer. -/
def liftLexer {α : Type} : Except String α → Except Stop α
  | .ok x => .ok x
  | .error what => .error (.thrown what)

/-- `get_token`. -/
def getToken (p : Scanned) : Scanned := scan p.rest

/-- What `expect` and `unexpect` say about the last token. -/
def unexpected (p : Scanned) : String :=
  "parse error - unexpected " ++
    (if p.last_token = .parse_error then "'" ++ ofText p.lexeme ++ "'"
     else tokenTypeName p.last_token)

/-- `expect`: throws unless `t` is the last token. -/
def expect (t : TokenType) (p : Scanned) : Except Stop Unit :=
  if t ≠ p.last_token then .error (.thrown (unexpected p ++ "; expected " ++ tokenTypeName t))
  else .ok ()

/-- `unexpect`: throws if `t` is the last token. -/
def unexpect (t : TokenType) (p : Scanned) : Except Stop Unit :=
  if t = p.last_token then .error (.thrown (unexpected p)) else .ok ()

theorem expect_eq_ok {t : TokenType} {p : Scanned} (h : p.last_token = t) :
    expect t p = .ok () := if_neg (by simp [h])

/-- The beginning of both loops: pass over the comma. -/
def skipSeparator (p : Scanned) : Scanned :=
  if p.last_token = .value_separator then getToken p else p

section

variable (toDouble : ℤ → ℤ → Option Double)

mutual

/-- `parse_internal`; `none` is a discarded value. -/
def parseInternal : ℕ → Scanned → Except Stop (Option Json × Scanned)
  | 0, _ => .error .outOfFuel
  | fuel + 1, p =>
      match p.last_token with
      | .begin_object =>
          let p := getToken p
          if p.last_token = .end_object then .ok (some (.object []), getToken p)
          else do
            unexpect .value_separator p
            let (members, p) ← parseMembers fuel [] p
            expect .end_object p
            return (some (.object members), getToken p)
      | .begin_array =>
          let p := getToken p
          if p.last_token = .end_array then .ok (some (.array []), getToken p)
          else do
            unexpect .value_separator p
            let (elems, p) ← parseElements fuel [] p
            expect .end_array p
            return (some (.array elems), getToken p)
      | .literal_null => .ok (some .null, getToken p)
      | .value_string => do
          let s ← liftLexer (getString p)
          return (some (.string (ofText s)), getToken p)
      | .literal_true => .ok (some (.boolean true), getToken p)
      | .literal_false => .ok (some (.boolean false), getToken p)
      | .value_unsigned => .ok (getNumber toDouble p, getToken p)
      | .value_integer => .ok (getNumber toDouble p, getToken p)
      | .value_float => .ok (getNumber toDouble p, getToken p)
      | _ => do
          unexpect p.last_token p
          return (none, p)

/-- The loop over key-value pairs. -/
def parseMembers : ℕ → List (String × Json) → Scanned →
    Except Stop (List (String × Json) × Scanned)
  | 0, _, _ => .error .outOfFuel
  | fuel + 1, members, p => do
      let p := skipSeparator p
      expect .value_string p
      let key ← liftLexer (getString p)
      let p := getToken p
      expect .name_separator p
      let (value, p) ← parseInternal fuel (getToken p)
      let members := match value with
        | some value => setMember (ofText key) value members
        | none => members
      if p.last_token = .value_separator then parseMembers fuel members p else return (members, p)

/-- The loop over values. -/
def parseElements : ℕ → List Json → Scanned → Except Stop (List Json × Scanned)
  | 0, _, _ => .error .outOfFuel
  | fuel + 1, elems, p => do
      let p := skipSeparator p
      let (value, p) ← parseInternal fuel p
      let elems := elems ++ value.toList
      if p.last_token = .value_separator then parseElements fuel elems p else return (elems, p)

end

/-! ## One step of the recursion -/

theorem parseInternal_number {fuel : ℕ} {p : Scanned}
    (h : p.last_token = .value_unsigned ∨ p.last_token = .value_integer ∨
      p.last_token = .value_float) :
    parseInternal toDouble (fuel + 1) p = .ok (getNumber toDouble p, getToken p) := by
  obtain h | h | h := h <;> simp only [parseInternal, h]

theorem parseInternal_string {fuel : ℕ} {p : Scanned} (h : p.last_token = .value_string) :
    parseInternal toDouble (fuel + 1) p
      = (liftLexer (getString p)).map (fun s => (some (.string (ofText s)), getToken p)) := by
  simp only [parseInternal, h]
  cases liftLexer (getString p) <;> rfl

theorem parseInternal_array {fuel : ℕ} {p : Scanned} (h : p.last_token = .begin_array)
    (hend : (getToken p).last_token ≠ .end_array)
    (hseparator : (getToken p).last_token ≠ .value_separator) :
    parseInternal toDouble (fuel + 1) p
      = (parseElements toDouble fuel [] (getToken p)).bind (fun r =>
          (expect .end_array r.2).map (fun _ => (some (.array r.1), getToken r.2))) := by
  simp only [parseInternal, h, if_neg hend, unexpect, if_neg hseparator.symm]
  cases parseElements toDouble fuel [] (getToken p) with
  | error stop => rfl
  | ok r =>
      obtain ⟨elems, p'⟩ := r
      cases hexpect : expect .end_array p' with
      | error stop => simp [hexpect, bind, Except.bind, Except.map]
      | ok _ => simp [hexpect, bind, Except.bind, Except.map, pure, Except.pure]

theorem parseInternal_object {fuel : ℕ} {p : Scanned} (h : p.last_token = .begin_object)
    (hend : (getToken p).last_token ≠ .end_object)
    (hseparator : (getToken p).last_token ≠ .value_separator) :
    parseInternal toDouble (fuel + 1) p
      = (parseMembers toDouble fuel [] (getToken p)).bind (fun r =>
          (expect .end_object r.2).map (fun _ => (some (.object r.1), getToken r.2))) := by
  simp only [parseInternal, h, if_neg hend, unexpect, if_neg hseparator.symm]
  cases parseMembers toDouble fuel [] (getToken p) with
  | error stop => rfl
  | ok r =>
      obtain ⟨members, p'⟩ := r
      cases hexpect : expect .end_object p' with
      | error stop => simp [hexpect, bind, Except.bind, Except.map]
      | ok _ => simp [hexpect, bind, Except.bind, Except.map, pure, Except.pure]

/-- One turn of the loop over values. -/
theorem parseElements_succ {fuel : ℕ} {elems : List Json} {p : Scanned} :
    parseElements toDouble (fuel + 1) elems p
      = (parseInternal toDouble fuel (skipSeparator p)).bind (fun r =>
          if r.2.last_token = .value_separator then
            parseElements toDouble fuel (elems ++ r.1.toList) r.2
          else .ok (elems ++ r.1.toList, r.2)) := by
  rw [parseElements]
  rfl

/-- What a value adds to the members. -/
def addMember (key : String) (value : Option Json) (members : List (String × Json)) :
    List (String × Json) :=
  match value with
  | some value => setMember key value members
  | none => members

/-- One turn of the loop over key-value pairs. -/
theorem parseMembers_succ {fuel : ℕ} {members : List (String × Json)} {p : Scanned} :
    parseMembers toDouble (fuel + 1) members p
      = (expect .value_string (skipSeparator p)).bind (fun _ =>
          (liftLexer (getString (skipSeparator p))).bind (fun key =>
            (expect .name_separator (getToken (skipSeparator p))).bind (fun _ =>
              (parseInternal toDouble fuel (getToken (getToken (skipSeparator p)))).bind (fun r =>
                if r.2.last_token = .value_separator then
                  parseMembers toDouble fuel (addMember (ofText key) r.1 members) r.2
                else .ok (addMember (ofText key) r.1 members, r.2))))) := by
  rw [parseMembers]
  rfl

/-! ## The interface -/

/-- `parser::parse`. A discarded value is replaced by `null`. -/
def parseWith (fuel : ℕ) (text : Text) : Except Stop Json := do
  let p := scan text
  let (result, p) ← parseInternal toDouble fuel p
  expect .end_of_input p
  return result.getD .null

/-- `json::parse` on the contents of a string. -/
def parse (text : Text) : Except Stop Json := parseWith toDouble (2 * text.length + 2) text

end

end Parser

end Json

end Gravioli
