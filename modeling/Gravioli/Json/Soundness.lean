import Gravioli.Json.Prefixes

set_option autoImplicit false

/-! # The parser accepts documents only

Whatever `parse_internal` returns without throwing is the meaning of a value that stands at the
beginning of the text, and what is left is the text behind that value; or the next token is an error, and
then every caller throws (`sound_value`). The induction is on the fuel, one step lemma for each of the
three functions.

Together with `Json.Completeness` this gives what `json::parse` accepts: the documents, up to the first
NUL that ends one (`parse_eq_ok_iff`). -/

namespace Gravioli

namespace Json.Grammar

open Lexer Json.Parser

theorem bind_eq_ok {ε α β : Type} {x : Except ε α} {f : α → Except ε β} {y : β}
    (h : x.bind f = .ok y) : ∃ a, x = .ok a ∧ f a = .ok y := by
  cases x with
  | error e => exact absurd h (by simp [Except.bind])
  | ok a => exact ⟨a, rfl, h⟩

theorem map_eq_ok {ε α β : Type} {x : Except ε α} {f : α → β} {y : β} (h : x.map f = .ok y) :
    ∃ a, x = .ok a ∧ f a = y := by
  cases x with
  | error e => exact absurd h (by simp [Except.map])
  | ok a => exact ⟨a, rfl, Except.ok.inj h⟩

theorem eq_of_expect {t : TokenType} {p : Scanned} (h : expect t p = .ok ()) : p.last_token = t := by
  by_contra hne
  rw [expect, if_pos (fun heq => hne heq.symm)] at h
  exact absurd h (by simp)

/-- A token other than the end of the text, taken apart. -/
theorem exists_of_scan {text : Text} {t : TokenType} (h : (scan text).last_token = t)
    (ht : t ≠ .end_of_input) :
    ∃ (space : Space) (lexeme rest : Text),
      text = space.1 ++ (lexeme ++ rest) ∧ scan text = ⟨t, lexeme, rest⟩ ∧ Spelled t lexeme := by
  obtain ⟨-, hscan⟩ | ⟨space, t', lexeme, rest, htext, hscan, -, hspelled⟩ := scan_cases text
  · rw [hscan] at h
    exact absurd h.symm ht
  · rw [hscan] at h
    obtain rfl : t' = t := h
    exact ⟨space, lexeme, rest, htext, hscan, hspelled⟩

section

variable (toDouble : ℤ → ℤ → Option Double)

/-- A value was read from `text`; `p` is the lexer afterwards. -/
def ReadsValue (text : Text) (r : Option Json) (p : Scanned) : Prop :=
  ∃ (space : Space) (v : Value) (rest : Text) (j : Json),
    text = space.1 ++ (v.text ++ rest) ∧ p = scan rest ∧ r = some j ∧ v.value toDouble = .ok j ∧
      v.EndsBefore rest

/-- Elements were read from `text` and put behind `elems`; no comma follows. -/
def ReadsElements (text : Text) (elems elems' : List Json) (p : Scanned) : Prop :=
  ∃ (es : Elements) (rest : Text) (js : List Json),
    text = es.text ++ rest ∧ p = scan rest ∧ elems' = elems ++ js ∧ es.values toDouble = .ok js ∧
      es.EndsBefore rest ∧ (scan rest).last_token ≠ .value_separator

/-- Members were read from `text` and set in `members`, one after the other; no comma follows. -/
def ReadsMembers (text : Text) (members members' : List (String × Json)) (p : Scanned) : Prop :=
  ∃ (ms : Members) (rest : Text) (pairs : List (String × Json)),
    text = ms.text ++ rest ∧ p = scan rest ∧
      members' = pairs.foldl (fun o m => setMember m.1 m.2 o) members ∧ ms.pairs toDouble = .ok pairs ∧
      ms.EndsBefore rest ∧ (scan rest).last_token ≠ .value_separator

/-- Whatever is read is written in `text`, unless the lexer got stuck on the way. -/
def SoundValue (fuel : ℕ) : Prop :=
  ∀ text r p, parseInternal toDouble fuel (scan text) = .ok (r, p) →
    ReadsValue toDouble text r p ∨ Stuck (ValuePrefix toDouble) text p

/-- The same for the loop over elements. -/
def SoundElements (fuel : ℕ) : Prop :=
  ∀ text elems p₀ elems' p, skipSeparator p₀ = scan text →
    parseElements toDouble fuel elems p₀ = .ok (elems', p) →
      ReadsElements toDouble text elems elems' p ∨ Stuck (ElementsPrefix toDouble) text p

/-- The same for the loop over members. -/
def SoundMembers (fuel : ℕ) : Prop :=
  ∀ text members p₀ members' p, skipSeparator p₀ = scan text →
    parseMembers toDouble fuel members p₀ = .ok (members', p) →
      ReadsMembers toDouble text members members' p ∨ Stuck (MembersPrefix toDouble) text p

/-! ## The loops -/

theorem soundElements_succ {fuel : ℕ} (hvalue : SoundValue toDouble fuel)
    (helements : SoundElements toDouble fuel) : SoundElements toDouble (fuel + 1) := by
  intro text elems p₀ elems' p hp₀ h
  rw [parseElements_succ, hp₀] at h
  obtain ⟨⟨r, p₁⟩, hread, h⟩ := bind_eq_ok h
  obtain ⟨before, v, rest, j, rfl, rfl, rfl, hv, hends⟩ | herror := hvalue text r p₁ hread
  · obtain ⟨hseparator, h⟩ | ⟨hseparator, h⟩ := ite_eq_iff.1 h
    · obtain ⟨after, lexeme, rest', rfl, hscan, rfl⟩ := exists_of_scan hseparator (by simp)
      rw [hscan] at h
      obtain ⟨es, rest, js, rfl, rfl, rfl, hes, hlast⟩ | herror :=
        helements _ _ _ _ _ (skipSeparator_comma rest') h
      · refine .inl ⟨.more before v after es, rest, j :: js, ?_, rfl, by simp, ?_, hlast⟩
        · simp [Elements.text]
        · rw [Elements.values, hv, hes]
          rfl
      · refine .inr (herror.append (before.1 ++ (v.text ++ (after.1 ++ [chr ',']))) (by simp)
          (fun w hw => ?_))
        simpa using hw.more before after hv
    · obtain ⟨rfl, rfl⟩ := Prod.mk.inj (Except.ok.inj h)
      refine .inl ⟨.one before v, rest, [j], ?_, rfl, rfl, ?_, hends, hseparator⟩
      · simp [Elements.text]
      · rw [Elements.values, hv]
        rfl
  · obtain ⟨hseparator, -⟩ | ⟨-, h⟩ := ite_eq_iff.1 h
    · rw [herror.1] at hseparator
      exact absurd hseparator (by simp)
    · obtain ⟨-, rfl⟩ := Prod.mk.inj (Except.ok.inj h)
      exact .inr (herror.append [] rfl (fun w hw => hw.elements))

theorem liftLexer_eq_ok {α : Type} {x : Except String α} {y : α} (h : liftLexer x = .ok y) :
    x = .ok y := by
  cases x with
  | error what => exact absurd h (by simp [liftLexer])
  | ok a => exact congrArg Except.ok (Except.ok.inj h)

/-- A string token whose text `get_string` could read. -/
theorem value_of_getString {s : Str} {rest bytes : Text}
    (h : getString ⟨.value_string, s.text, rest⟩ = .ok bytes) : s.value = .ok (ofText bytes) := by
  rw [← getString_text s rest, h]
  rfl

theorem soundMembers_succ {fuel : ℕ} (hvalue : SoundValue toDouble fuel)
    (hmembers : SoundMembers toDouble fuel) : SoundMembers toDouble (fuel + 1) := by
  intro text members p₀ members' p hp₀ h
  rw [parseMembers_succ, hp₀] at h
  obtain ⟨_, hstring, h⟩ := bind_eq_ok h
  obtain ⟨before, lexeme, rest, rfl, hscan, key, rfl⟩ :=
    exists_of_scan (eq_of_expect hstring) (by simp)
  rw [hscan] at h
  obtain ⟨bytes, hbytes, h⟩ := bind_eq_ok h
  have hkey := value_of_getString (liftLexer_eq_ok hbytes)
  obtain ⟨_, hcolon, h⟩ := bind_eq_ok h
  obtain ⟨beforeColon, lexeme, rest, rfl, hscan', rfl⟩ :=
    exists_of_scan (show (scan rest).last_token = _ from eq_of_expect hcolon) (by simp)
  obtain ⟨⟨r, p₁⟩, hread, h⟩ := bind_eq_ok h
  have hvalueText : getToken (getToken ⟨.value_string, key.text,
      beforeColon.1 ++ ([chr ':'] ++ rest)⟩) = scan rest := congrArg getToken hscan'
  rw [hvalueText] at hread
  obtain ⟨afterColon, v, rest, j, rfl, rfl, rfl, hv, hends⟩ | herror := hvalue rest r p₁ hread
  · obtain ⟨hseparator, h⟩ | ⟨hseparator, h⟩ := ite_eq_iff.1 h
    · obtain ⟨after, lexeme, rest', rfl, hscan, rfl⟩ := exists_of_scan hseparator (by simp)
      rw [hscan] at h
      obtain ⟨ms, rest, pairs, rfl, rfl, rfl, hms, hlast⟩ | herror :=
        hmembers _ _ _ _ _ (skipSeparator_comma rest') h
      · refine .inl ⟨.more before key beforeColon afterColon v after ms, rest,
          (ofText bytes, j) :: pairs, ?_, rfl, rfl, ?_, hlast⟩
        · simp [Members.text]
        · rw [Members.pairs, hkey, hv, hms]
          rfl
      · refine .inr (herror.append (before.1 ++ (key.text ++ (beforeColon.1 ++ chr ':' ::
          (afterColon.1 ++ (v.text ++ (after.1 ++ [chr ','])))))) (by simp) (fun w hw => ?_))
        simpa using hw.more before hkey beforeColon afterColon after hv
    · obtain ⟨rfl, rfl⟩ := Prod.mk.inj (Except.ok.inj h)
      refine .inl ⟨.one before key beforeColon afterColon v, rest, [(ofText bytes, j)], ?_, rfl, rfl,
        ?_, hends, hseparator⟩
      · simp [Members.text]
      · rw [Members.pairs, hkey, hv]
        rfl
  · obtain ⟨hseparator, -⟩ | ⟨-, h⟩ := ite_eq_iff.1 h
    · rw [herror.1] at hseparator
      exact absurd hseparator (by simp)
    · obtain ⟨-, rfl⟩ := Prod.mk.inj (Except.ok.inj h)
      refine .inr (herror.append (before.1 ++ (key.text ++ (beforeColon.1 ++ [chr ':'])))
        (by simp) (fun w hw => ?_))
      simpa using hw.members before hkey beforeColon

/-! ## Values -/

theorem readsValue_of_ok (space : Space) {v : Value} {rest : Text} {j : Json} {r : Option Json}
    {p : Scanned} (hv : v.value toDouble = .ok j) (hends : v.EndsBefore rest)
    (h : (.ok (some j, scan rest) : Except Stop (Option Json × Scanned)) = .ok (r, p)) :
    ReadsValue toDouble (space.1 ++ (v.text ++ rest)) r p := by
  obtain ⟨rfl, rfl⟩ := Prod.mk.inj (Except.ok.inj h)
  exact ⟨space, v, rest, j, rfl, rfl, rfl, hv, hends⟩

theorem soundNumber {fuel : ℕ} {space : Space} {n : Number} {rest : Text} {r : Option Json}
    {p : Scanned} (hscan : scan (space.1 ++ (n.text ++ rest)) = ⟨n.token, n.text, rest⟩)
    (h : parseInternal toDouble (fuel + 1) ⟨n.token, n.text, rest⟩ = .ok (r, p)) :
    ReadsValue toDouble (space.1 ++ (n.text ++ rest)) r p ∨
      Stuck (ValuePrefix toDouble) (space.1 ++ (n.text ++ rest)) p := by
  rw [parseInternal_number toDouble n.token_cases] at h
  obtain hend | herror := scan_after_number hscan
  · rw [n.getNumber_text toDouble hend] at h
    exact .inl (readsValue_of_ok toDouble space (v := .number n) rfl hend h)
  · obtain ⟨-, rfl⟩ := Prod.mk.inj (Except.ok.inj h)
    exact .inr ⟨herror, space.1 ++ n.text, rest, (List.append_assoc ..).symm, rfl,
      valuePrefix_text space (v := .number n) rfl⟩

theorem soundArray {fuel : ℕ} (helements : SoundElements toDouble fuel) {space : Space}
    {rest : Text} {r : Option Json} {p : Scanned}
    (h : parseInternal toDouble (fuel + 1) ⟨.begin_array, [chr '['], rest⟩ = .ok (r, p)) :
    ReadsValue toDouble (space.1 ++ chr '[' :: rest) r p := by
  by_cases hend : (scan rest).last_token = .end_array
  · obtain ⟨inner, lexeme, rest', rfl, hscan, rfl⟩ := exists_of_scan hend (by simp)
    simp only [parseInternal, getToken, hscan] at h
    have := readsValue_of_ok toDouble space (v := .emptyArray inner) rfl trivial h
    simpa [Value.text] using this
  by_cases hseparator : (scan rest).last_token = .value_separator
  · exact absurd h (by simp [parseInternal, getToken, hseparator, unexpect, bind, Except.bind])
  · rw [parseInternal_array toDouble (p := ⟨.begin_array, [chr '['], rest⟩) rfl hend hseparator] at h
    obtain ⟨⟨elems, p₁⟩, helems, h⟩ := bind_eq_ok h
    obtain ⟨_, hexpect, h⟩ := map_eq_ok h
    obtain ⟨rfl, rfl⟩ := Prod.mk.inj h
    have hclose := eq_of_expect hexpect
    obtain ⟨es, rest', js, rfl, rfl, rfl, hes, -⟩ | herror :=
      helements rest [] _ _ _ (if_neg hseparator) helems
    · obtain ⟨inner, lexeme, rest, rfl, hscan, rfl⟩ := exists_of_scan hclose (by simp)
      refine ⟨space, .array es inner, rest, .array elems, by simp [Value.text], ?_, rfl, ?_, trivial⟩
      · rw [hscan]
        rfl
      · rw [Value.value, hes]
        rfl
    · rw [herror.1] at hclose
      exact absurd hclose (by simp)

theorem soundObject {fuel : ℕ} (hmembers : SoundMembers toDouble fuel) {space : Space}
    {rest : Text} {r : Option Json} {p : Scanned}
    (h : parseInternal toDouble (fuel + 1) ⟨.begin_object, [chr '{'], rest⟩ = .ok (r, p)) :
    ReadsValue toDouble (space.1 ++ chr '{' :: rest) r p := by
  by_cases hend : (scan rest).last_token = .end_object
  · obtain ⟨inner, lexeme, rest', rfl, hscan, rfl⟩ := exists_of_scan hend (by simp)
    simp only [parseInternal, getToken, hscan] at h
    have := readsValue_of_ok toDouble space (v := .emptyObject inner) rfl trivial h
    simpa [Value.text] using this
  by_cases hseparator : (scan rest).last_token = .value_separator
  · exact absurd h (by simp [parseInternal, getToken, hseparator, unexpect, bind, Except.bind])
  · rw [parseInternal_object toDouble (p := ⟨.begin_object, [chr '{'], rest⟩) rfl hend hseparator]
      at h
    obtain ⟨⟨members, p₁⟩, hread, h⟩ := bind_eq_ok h
    obtain ⟨_, hexpect, h⟩ := map_eq_ok h
    obtain ⟨rfl, rfl⟩ := Prod.mk.inj h
    have hclose := eq_of_expect hexpect
    obtain ⟨ms, rest', pairs, rfl, rfl, rfl, hms, -⟩ | herror :=
      hmembers rest [] _ _ _ (if_neg hseparator) hread
    · obtain ⟨inner, lexeme, rest, rfl, hscan, rfl⟩ := exists_of_scan hclose (by simp)
      refine ⟨space, .object ms inner, rest, _, by simp [Value.text], ?_, rfl, ?_, trivial⟩
      · rw [hscan]
        rfl
      · rw [Value.value, hms]
        rfl
    · rw [herror.1] at hclose
      exact absurd hclose (by simp)

theorem soundValue_succ {fuel : ℕ} (helements : SoundElements toDouble fuel)
    (hmembers : SoundMembers toDouble fuel) : SoundValue toDouble (fuel + 1) := by
  intro text r p h
  obtain ⟨-, hscan⟩ | ⟨space, t, lexeme, rest, rfl, hscan, -, hspelled⟩ := scan_cases text
  · rw [hscan] at h
    exact absurd h (by simp [parseInternal, unexpect, bind, Except.bind])
  · rw [hscan] at h
    cases t with
    | literal_null =>
        obtain rfl := hspelled
        exact .inl (readsValue_of_ok toDouble _ rfl trivial h)
    | literal_true =>
        obtain rfl := hspelled
        exact .inl (readsValue_of_ok toDouble _ rfl trivial h)
    | literal_false =>
        obtain rfl := hspelled
        exact .inl (readsValue_of_ok toDouble _ rfl trivial h)
    | value_string =>
        obtain ⟨s, rfl⟩ := hspelled
        rw [parseInternal_string toDouble rfl] at h
        obtain ⟨bytes, hbytes, h⟩ := map_eq_ok h
        have hvalue : (Value.string s).value toDouble = .ok (.string (ofText bytes)) := by
          rw [Value.value, value_of_getString (liftLexer_eq_ok hbytes)]
          rfl
        exact .inl (readsValue_of_ok toDouble _ hvalue trivial (congrArg Except.ok h))
    | value_unsigned =>
        obtain ⟨n, hn, rfl⟩ := hspelled
        rw [← hn] at hscan h
        exact soundNumber toDouble hscan h
    | value_integer =>
        obtain ⟨n, hn, rfl⟩ := hspelled
        rw [← hn] at hscan h
        exact soundNumber toDouble hscan h
    | value_float =>
        obtain ⟨n, hn, rfl⟩ := hspelled
        rw [← hn] at hscan h
        exact soundNumber toDouble hscan h
    | begin_array =>
        obtain rfl := hspelled
        exact .inl (soundArray toDouble helements h)
    | begin_object =>
        obtain rfl := hspelled
        exact .inl (soundObject toDouble hmembers h)
    | _ => exact absurd h (by simp [parseInternal, unexpect, bind, Except.bind])

theorem sound (fuel : ℕ) :
    SoundValue toDouble fuel ∧ SoundElements toDouble fuel ∧ SoundMembers toDouble fuel := by
  induction fuel with
  | zero =>
      refine ⟨?_, ?_, ?_⟩
      · intro text r p h
        exact absurd h (by simp [parseInternal])
      · intro text elems p₀ elems' p _ h
        exact absurd h (by simp [parseElements])
      · intro text members p₀ members' p _ h
        exact absurd h (by simp [parseMembers])
  | succ fuel ih =>
      obtain ⟨hvalue, helements, hmembers⟩ := ih
      exact ⟨soundValue_succ toDouble helements hmembers, soundElements_succ toDouble hvalue helements,
        soundMembers_succ toDouble hvalue hmembers⟩

/-! ## Documents -/

/-- A text that ends as a document does. -/
theorem exists_tail {rest : Text} (h : (scan rest).last_token = .end_of_input) :
    ∃ (after : Space) (tail : Text), rest = after.1 ++ tail ∧ IsTail tail := by
  obtain ⟨hspace, -⟩ | ⟨after, t, lexeme, rest', rfl, hscan, -, hspelled⟩ := scan_cases rest
  · exact ⟨⟨rest, hspace⟩, [], (List.append_nil _).symm, .inl rfl⟩
  · rw [hscan] at h
    obtain rfl : t = .end_of_input := h
    obtain rfl := hspelled
    exact ⟨after, 0 :: rest', rfl, .inr ⟨rest', rfl⟩⟩

theorem exists_document {fuel : ℕ} {text : Text} {j : Json}
    (h : parseWith toDouble fuel text = .ok j) :
    ∃ (d : Document) (tail : Text), text = d.text ++ tail ∧ IsTail tail ∧
      d.value toDouble = .ok j := by
  obtain ⟨⟨r, p⟩, hread, h⟩ := bind_eq_ok h
  obtain ⟨_, hexpect, hresult⟩ := bind_eq_ok h
  have hend := eq_of_expect hexpect
  obtain ⟨before, v, rest, j', rfl, rfl, rfl, hv, -⟩ | herror := (sound toDouble fuel).1 text r p hread
  · obtain ⟨after, tail, rfl, htail⟩ := exists_tail hend
    obtain rfl : j' = j := Except.ok.inj hresult
    exact ⟨⟨before, v, after⟩, tail, by simp [Document.text], htail, hv⟩
  · rw [herror.1] at hend
    exact absurd hend (by simp)

theorem parse_document (d : Document) {tail : Text} (htail : IsTail tail) :
    parse toDouble (d.text ++ tail) = liftLexer (d.value toDouble) := by
  refine parseWith_document toDouble d htail ?_
  simp only [Document.text, List.length_append]
  omega

/-- **What `json::parse` accepts**: the documents, with nothing behind them or a NUL and anything behind
    it; and it gives what the document means. -/
theorem parse_eq_ok_iff (text : Text) (j : Json) :
    parse toDouble text = .ok j ↔
      ∃ (d : Document) (tail : Text), text = d.text ++ tail ∧ IsTail tail ∧
        d.value toDouble = .ok j := by
  refine ⟨exists_document toDouble, ?_⟩
  rintro ⟨d, tail, rfl, htail, hvalue⟩
  rw [parse_document toDouble d htail, hvalue]
  rfl

end

end Json.Grammar

end Gravioli
