import Gravioli.Json.Readings

set_option autoImplicit false

/-! # The parser reads every document

On the text of a value the parser gives the meaning of the value, or throws what is wrong with its first
string that has none (`parse_value`); the recursion follows the tree. A value ends where its text does
as long as what follows cannot continue a number, which in a document is always so. -/

namespace Gravioli

namespace Json.Grammar

open Lexer Json.Parser

/-! ## What follows a value -/

theorem numberEnd_append (space : Space) {rest : Text} (hrest : NumberEnd rest) :
    NumberEnd (space.1 ++ rest) := by
  obtain ⟨w, hw⟩ := space
  cases w with
  | nil => exact hrest
  | cons b w =>
      intro b' hb'
      obtain rfl : b = b' := Option.some.inj hb'
      have hb := hw b (by simp)
      refine ⟨?_, ?_, ?_⟩
      · rintro rfl
        exact absurd hb (by decide)
      · intro hdigit
        exact not_isSpace_of_isDigit hdigit hb
      · intro hexp
        simp only [IsExp, IsSpace, Char.reduceToNat] at hexp hb
        omega

theorem numberEnd_cons {b : Byte} (hpoint : b ≠ chr '.') (hdigit : ¬ IsDigit b.toNat)
    (hexp : ¬ IsExp b.toNat) (rest : Text) : NumberEnd (b :: rest) := by
  intro b' hb'
  obtain rfl : b = b' := Option.some.inj hb'
  exact ⟨hpoint, hdigit, hexp⟩

theorem numberEnd_comma (rest : Text) : NumberEnd (chr ',' :: rest) :=
  numberEnd_cons (by decide) (by decide) (by decide) rest

theorem numberEnd_endArray (rest : Text) : NumberEnd (chr ']' :: rest) :=
  numberEnd_cons (by decide) (by decide) (by decide) rest

theorem numberEnd_endObject (rest : Text) : NumberEnd (chr '}' :: rest) :=
  numberEnd_cons (by decide) (by decide) (by decide) rest

/-- What follows a value does not continue it. -/
def Value.EndsBefore : Value → Text → Prop
  | .number _, rest => NumberEnd rest
  | _, _ => True

/-- The same for the last element. -/
def Elements.EndsBefore : Elements → Text → Prop
  | .one _ v, rest => v.EndsBefore rest
  | .more _ _ _ elems, rest => elems.EndsBefore rest

/-- The same for the last member. -/
def Members.EndsBefore : Members → Text → Prop
  | .one _ _ _ _ v, rest => v.EndsBefore rest
  | .more _ _ _ _ _ _ members, rest => members.EndsBefore rest

theorem Value.endsBefore (v : Value) {rest : Text} (h : NumberEnd rest) : v.EndsBefore rest := by
  cases v with
  | number n => exact h
  | _ => trivial

theorem Elements.endsBefore : ∀ (elems : Elements) {rest : Text}, NumberEnd rest →
    elems.EndsBefore rest
  | .one _ v, _, h => v.endsBefore h
  | .more _ _ _ elems, _, h => elems.endsBefore h

theorem Members.endsBefore : ∀ (members : Members) {rest : Text}, NumberEnd rest →
    members.EndsBefore rest
  | .one _ _ _ _ v, _, h => v.endsBefore h
  | .more _ _ _ _ _ _ members, _, h => members.endsBefore h

/-! ## The first token of a value -/

/-- The token that a value begins with. -/
def Value.token : Value → TokenType
  | .null => .literal_null
  | .boolean true => .literal_true
  | .boolean false => .literal_false
  | .string _ => .value_string
  | .number n => n.token
  | .emptyArray _ => .begin_array
  | .array _ _ => .begin_array
  | .emptyObject _ => .begin_object
  | .object _ _ => .begin_object

theorem Number.token_cases (n : Number) :
    n.token = .value_unsigned ∨ n.token = .value_integer ∨ n.token = .value_float := by
  unfold Number.token
  split
  · split
    · exact .inr (.inl rfl)
    · exact .inl rfl
  · exact .inr (.inr rfl)

theorem last_token_value (space : Space) (v : Value) {rest : Text} (hrest : v.EndsBefore rest) :
    (scan (space.1 ++ (v.text ++ rest))).last_token = v.token := by
  cases v with
  | null => rw [scan_null, Value.token]
  | boolean b =>
      cases b with
      | true => rw [scan_true, Value.token]
      | false => rw [scan_false, Value.token]
  | string s => rw [Value.text, scan_str, Value.token]
  | number n => rw [Value.text, scan_number space n hrest, Value.token]
  | emptyArray inner => rw [Value.text, List.cons_append, scan_beginArray, Value.token]
  | array elems inner => rw [Value.text, List.cons_append, scan_beginArray, Value.token]
  | emptyObject inner => rw [Value.text, List.cons_append, scan_beginObject, Value.token]
  | object members inner => rw [Value.text, List.cons_append, scan_beginObject, Value.token]

/-- A value does not begin with a comma or a closing bracket. -/
theorem token_ne (v : Value) :
    v.token ≠ .value_separator ∧ v.token ≠ .end_array ∧ v.token ≠ .end_object := by
  cases v with
  | boolean b => cases b <;> exact ⟨by decide, by decide, by decide⟩
  | number n =>
      obtain h | h | h := n.token_cases <;> rw [Value.token, h] <;>
        exact ⟨by decide, by decide, by decide⟩
  | _ => simp [Value.token]

/-- The first token of the elements. -/
theorem last_token_elements (elems : Elements) {rest : Text} (hrest : elems.EndsBefore rest) :
    (scan (elems.text ++ rest)).last_token ≠ .value_separator ∧
      (scan (elems.text ++ rest)).last_token ≠ .end_array := by
  cases elems with
  | one before v =>
      rw [Elements.text, List.append_assoc, last_token_value before v hrest]
      exact ⟨(token_ne v).1, (token_ne v).2.1⟩
  | more before v after elems =>
      have hafter : NumberEnd (after.1 ++ chr ',' :: (elems.text ++ rest)) :=
        numberEnd_append after (numberEnd_comma _)
      have htext : (Elements.more before v after elems).text ++ rest
          = before.1 ++ (v.text ++ (after.1 ++ chr ',' :: (elems.text ++ rest))) := by
        simp [Elements.text]
      rw [htext, last_token_value before v (v.endsBefore hafter)]
      exact ⟨(token_ne v).1, (token_ne v).2.1⟩

theorem last_token_members (members : Members) (rest : Text) :
    (scan (members.text ++ rest)).last_token = .value_string := by
  cases members with
  | one before key beforeColon afterColon v =>
      rw [Members.text, List.append_assoc, List.append_assoc, scan_str]
  | more before key beforeColon afterColon v after members =>
      rw [Members.text, List.append_assoc, List.append_assoc, scan_str]

theorem Value.length_text_pos (v : Value) : 0 < v.text.length := by
  cases v with
  | boolean b => cases b <;> decide
  | number n =>
      obtain ⟨b, w, htext, -⟩ := exists_number_text_eq n
      rw [Value.text, htext]
      exact Nat.succ_pos _
  | _ => exact Nat.succ_pos _

/-! ## The parser on a value -/

section

variable (toDouble : ℤ → ℤ → Option Double)

/-- What `parse_internal` does with a value that is followed by `rest`. -/
def outcome (v : Value) (rest : Text) : Except Stop (Option Json × Scanned) :=
  (liftLexer (v.value toDouble)).map (fun j => (some j, scan rest))

theorem skipSeparator_comma (rest : Text) :
    skipSeparator ⟨.value_separator, [chr ','], rest⟩ = scan rest := rfl

/-- Reading a key and its colon. -/
theorem parseMembers_key {fuel : ℕ} {members : List (String × Json)} {p : Scanned} {before : Space}
    {key : Str} {beforeColon : Space} {w : Text}
    (hp : skipSeparator p = scan (before.1 ++ (key.text ++ (beforeColon.1 ++ chr ':' :: w)))) :
    parseMembers toDouble (fuel + 1) members p
      = (liftLexer key.value).bind (fun k => (parseInternal toDouble fuel (scan w)).bind (fun r =>
          if r.2.last_token = .value_separator then
            parseMembers toDouble fuel (addMember k r.1 members) r.2
          else .ok (addMember k r.1 members, r.2))) := by
  have hstring := getString_text key (beforeColon.1 ++ chr ':' :: w)
  have hcolon : getToken ⟨.value_string, key.text, beforeColon.1 ++ chr ':' :: w⟩
      = ⟨.name_separator, [chr ':'], w⟩ := scan_colon beforeColon w
  rw [parseMembers_succ, hp, scan_str, hcolon, ← hstring, expect_eq_ok (t := .value_string) rfl,
    expect_eq_ok (t := .name_separator) rfl]
  cases getString ⟨.value_string, key.text, beforeColon.1 ++ chr ':' :: w⟩ <;> rfl

mutual

theorem parse_value : ∀ (v : Value) (fuel : ℕ) (space : Space) (rest : Text),
    v.text.length ≤ fuel + 1 → v.EndsBefore rest →
      parseInternal toDouble (fuel + 1) (scan (space.1 ++ (v.text ++ rest))) = outcome toDouble v rest
  | .null, fuel, space, rest, _, _ => by
      rw [scan_null]
      rfl
  | .boolean true, fuel, space, rest, _, _ => by
      rw [scan_true]
      rfl
  | .boolean false, fuel, space, rest, _, _ => by
      rw [scan_false]
      rfl
  | .string s, fuel, space, rest, _, _ => by
      have hstring := getString_text s rest
      rw [Value.text, scan_str, parseInternal_string toDouble rfl, outcome, Value.value, ← hstring]
      cases getString ⟨.value_string, s.text, rest⟩ <;> rfl
  | .number n, fuel, space, rest, _, hrest => by
      rw [Value.text, scan_number space n hrest, parseInternal_number toDouble n.token_cases,
        n.getNumber_text toDouble hrest]
      rfl
  | .emptyArray inner, fuel, space, rest, _, _ => by
      have htext : (Value.emptyArray inner).text ++ rest = chr '[' :: (inner.1 ++ chr ']' :: rest) := by
        simp [Value.text]
      rw [htext, scan_beginArray]
      simp only [parseInternal, getToken, scan_endArray]
      rfl
  | .array elems inner, fuel, space, rest, hfuel, hrest => by
      have htext : (Value.array elems inner).text ++ rest
          = chr '[' :: (elems.text ++ (inner.1 ++ chr ']' :: rest)) := by
        simp [Value.text]
      have hinner : NumberEnd (inner.1 ++ chr ']' :: rest) :=
        numberEnd_append inner (numberEnd_endArray rest)
      have hlast := last_token_elements elems (elems.endsBefore hinner)
      have hlength : elems.text.length + 1 ≤ fuel := by
        simp only [Value.text, List.length_cons, List.length_append] at hfuel
        omega
      obtain ⟨fuel, rfl⟩ := Nat.exists_eq_succ_of_ne_zero (Nat.ne_of_gt (Nat.zero_lt_of_lt hlength))
      have helems := parse_elements elems fuel [] (inner.1 ++ chr ']' :: rest)
        (scan (elems.text ++ (inner.1 ++ chr ']' :: rest))) (Nat.le_of_succ_le_succ hlength)
        (elems.endsBefore hinner) (by rw [scan_endArray]; simp) (if_neg hlast.1)
      rw [htext, scan_beginArray,
        parseInternal_array toDouble (p := ⟨.begin_array, [chr '['], _⟩) rfl hlast.2 hlast.1]
      refine (congrArg (Except.bind · _) helems).trans ?_
      rw [outcome, Value.value]
      cases elems.values toDouble with
      | error what => rfl
      | ok js =>
          simp only [liftLexer, Except.map, Except.bind, scan_endArray]
          rfl
  | .emptyObject inner, fuel, space, rest, _, _ => by
      have htext : (Value.emptyObject inner).text ++ rest = chr '{' :: (inner.1 ++ chr '}' :: rest) := by
        simp [Value.text]
      rw [htext, scan_beginObject]
      simp only [parseInternal, getToken, scan_endObject]
      rfl
  | .object members inner, fuel, space, rest, hfuel, hrest => by
      have htext : (Value.object members inner).text ++ rest
          = chr '{' :: (members.text ++ (inner.1 ++ chr '}' :: rest)) := by
        simp [Value.text]
      have hinner : NumberEnd (inner.1 ++ chr '}' :: rest) :=
        numberEnd_append inner (numberEnd_endObject rest)
      have hlast := last_token_members members (inner.1 ++ chr '}' :: rest)
      have hseparator : (scan (members.text ++ (inner.1 ++ chr '}' :: rest))).last_token
          ≠ .value_separator := by rw [hlast]; decide
      have hend : (scan (members.text ++ (inner.1 ++ chr '}' :: rest))).last_token
          ≠ .end_object := by rw [hlast]; decide
      have hlength : members.text.length + 1 ≤ fuel := by
        simp only [Value.text, List.length_cons, List.length_append] at hfuel
        omega
      obtain ⟨fuel, rfl⟩ := Nat.exists_eq_succ_of_ne_zero (Nat.ne_of_gt (Nat.zero_lt_of_lt hlength))
      have hmembers := parse_members members fuel [] (inner.1 ++ chr '}' :: rest)
        (scan (members.text ++ (inner.1 ++ chr '}' :: rest))) (Nat.le_of_succ_le_succ hlength)
        (members.endsBefore hinner) (by rw [scan_endObject]; simp) (if_neg hseparator)
      rw [htext, scan_beginObject,
        parseInternal_object toDouble (p := ⟨.begin_object, [chr '{'], _⟩) rfl hend hseparator]
      refine (congrArg (Except.bind · _) hmembers).trans ?_
      rw [outcome, Value.value]
      cases members.pairs toDouble with
      | error what => rfl
      | ok pairs =>
          simp only [liftLexer, Except.map, Except.bind, scan_endObject]
          rfl

theorem parse_elements : ∀ (es : Elements) (fuel : ℕ) (elems : List Json) (rest : Text) (p : Scanned),
    es.text.length ≤ fuel → es.EndsBefore rest → (scan rest).last_token ≠ .value_separator →
    skipSeparator p = scan (es.text ++ rest) →
      parseElements toDouble (fuel + 1) elems p
        = (liftLexer (es.values toDouble)).map (fun js => (elems ++ js, scan rest))
  | .one before v, fuel, elems, rest, p, hfuel, hrest, hend, hp => by
      have hlength : v.text.length ≤ fuel := by
        simp only [Elements.text, List.length_append] at hfuel
        omega
      obtain ⟨fuel, rfl⟩ := Nat.exists_eq_succ_of_ne_zero
        (Nat.ne_of_gt (Nat.lt_of_lt_of_le v.length_text_pos hlength))
      rw [parseElements_succ, hp, Elements.text, List.append_assoc,
        parse_value v fuel before rest hlength hrest, outcome, Elements.values]
      cases v.value toDouble with
      | error what => rfl
      | ok j => exact if_neg hend
  | .more before v after es, fuel, elems, rest, p, hfuel, hrest, hend, hp => by
      have htext : (Elements.more before v after es).text ++ rest
          = before.1 ++ (v.text ++ (after.1 ++ chr ',' :: (es.text ++ rest))) := by
        simp [Elements.text]
      have hlength : v.text.length ≤ fuel ∧ es.text.length + 1 ≤ fuel := by
        simp only [Elements.text, List.length_append, List.length_cons] at hfuel
        omega
      obtain ⟨fuel, rfl⟩ := Nat.exists_eq_succ_of_ne_zero
        (Nat.ne_of_gt (Nat.lt_of_lt_of_le v.length_text_pos hlength.1))
      rw [parseElements_succ, hp, htext, parse_value v fuel before _ hlength.1
        (v.endsBefore (numberEnd_append after (numberEnd_comma _))), outcome, Elements.values, scan_comma]
      cases v.value toDouble with
      | error what => rfl
      | ok j =>
          simp only [liftLexer, Except.map, Except.bind, if_true]
          refine (parse_elements es fuel _ rest _ (Nat.le_of_succ_le_succ hlength.2) hrest hend
            (skipSeparator_comma _)).trans ?_
          cases es.values toDouble with
          | error what => rfl
          | ok js => simp [liftLexer, Except.map, bind, Except.bind, pure, Except.pure]

theorem parse_members : ∀ (ms : Members) (fuel : ℕ) (members : List (String × Json)) (rest : Text)
    (p : Scanned),
    ms.text.length ≤ fuel → ms.EndsBefore rest → (scan rest).last_token ≠ .value_separator →
    skipSeparator p = scan (ms.text ++ rest) →
      parseMembers toDouble (fuel + 1) members p
        = (liftLexer (ms.pairs toDouble)).map
            (fun pairs => (pairs.foldl (fun o m => setMember m.1 m.2 o) members, scan rest))
  | .one before key beforeColon afterColon v, fuel, members, rest, p, hfuel, hrest, hend, hp => by
      have htext : (Members.one before key beforeColon afterColon v).text ++ rest
          = before.1 ++ (key.text ++ (beforeColon.1 ++ chr ':' :: (afterColon.1 ++ (v.text ++ rest)))) := by
        simp [Members.text]
      have hlength : v.text.length ≤ fuel := by
        simp only [Members.text, List.length_append, List.length_cons] at hfuel
        omega
      obtain ⟨fuel, rfl⟩ := Nat.exists_eq_succ_of_ne_zero
        (Nat.ne_of_gt (Nat.lt_of_lt_of_le v.length_text_pos hlength))
      rw [htext] at hp
      rw [parseMembers_key toDouble hp, parse_value v fuel afterColon rest hlength hrest, outcome,
        Members.pairs]
      cases key.value with
      | error what => rfl
      | ok k =>
          cases v.value toDouble with
          | error what => rfl
          | ok j => exact if_neg hend
  | .more before key beforeColon afterColon v after ms, fuel, members, rest, p, hfuel, hrest, hend,
      hp => by
      have htext : (Members.more before key beforeColon afterColon v after ms).text ++ rest
          = before.1 ++ (key.text ++ (beforeColon.1 ++ chr ':' ::
              (afterColon.1 ++ (v.text ++ (after.1 ++ chr ',' :: (ms.text ++ rest)))))) := by
        simp [Members.text]
      have hlength : v.text.length ≤ fuel ∧ ms.text.length + 1 ≤ fuel := by
        simp only [Members.text, List.length_append, List.length_cons] at hfuel
        omega
      obtain ⟨fuel, rfl⟩ := Nat.exists_eq_succ_of_ne_zero
        (Nat.ne_of_gt (Nat.lt_of_lt_of_le v.length_text_pos hlength.1))
      rw [htext] at hp
      rw [parseMembers_key toDouble hp, parse_value v fuel afterColon _ hlength.1
        (v.endsBefore (numberEnd_append after (numberEnd_comma _))), outcome, Members.pairs, scan_comma]
      cases key.value with
      | error what => rfl
      | ok k =>
          cases v.value toDouble with
          | error what => rfl
          | ok j =>
              simp only [liftLexer, Except.map, Except.bind, if_true]
              refine (parse_members ms fuel _ rest _ (Nat.le_of_succ_le_succ hlength.2) hrest hend
                (skipSeparator_comma _)).trans ?_
              cases ms.pairs toDouble with
              | error what => rfl
              | ok pairs => rfl

end

/-! ## Documents -/

/-- What may stand behind a document: nothing, or a NUL and whatever follows it. -/
def IsTail (tail : Text) : Prop := tail = [] ∨ ∃ garbage, tail = 0 :: garbage

theorem numberEnd_of_isTail {tail : Text} (h : IsTail tail) : NumberEnd tail := by
  obtain rfl | ⟨garbage, rfl⟩ := h
  · simp [NumberEnd]
  · exact numberEnd_cons (by decide) (by decide) (by decide) garbage

theorem scan_tail (space : Space) {tail : Text} (h : IsTail tail) :
    (scan (space.1 ++ tail)).last_token = .end_of_input := by
  obtain rfl | ⟨garbage, rfl⟩ := h
  · have hdrop : (space.1 ++ []).dropWhile (fun b : Byte => decide (IsSpace b.toNat)) = [] := by
      rw [List.append_nil, List.dropWhile_eq_nil_iff]
      exact fun b hb => by simpa using space.2 b hb
    rw [scan, hdrop]
    rfl
  · have hscan := scan_of_run (q := .s2) (b := 0) (w := []) space (by decide) rfl rfl (fun _ => rfl)
      garbage
    rw [List.cons_append, List.nil_append] at hscan
    rw [hscan]

theorem parseWith_document (d : Document) {tail : Text} (htail : IsTail tail) {fuel : ℕ}
    (hfuel : d.root.text.length ≤ fuel + 1) :
    parseWith toDouble (fuel + 1) (d.text ++ tail) = liftLexer (d.value toDouble) := by
  have hend : NumberEnd (d.after.1 ++ tail) := numberEnd_append d.after (numberEnd_of_isTail htail)
  have htext : d.text ++ tail = d.before.1 ++ (d.root.text ++ (d.after.1 ++ tail)) := by
    simp [Document.text]
  rw [parseWith, htext, parse_value toDouble d.root fuel d.before _ hfuel (d.root.endsBefore hend), outcome,
    Document.value]
  cases d.root.value toDouble with
  | error what => rfl
  | ok j =>
      simp only [liftLexer, Except.map, bind, Except.bind,
        expect_eq_ok (scan_tail d.after htail)]
      rfl

end

end Json.Grammar

end Gravioli
