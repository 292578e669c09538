import Gravioli.Json.Blocked

set_option autoImplicit false

/-! # The parser on any other text

A text that is no document ends in an exception: the recursion always has enough fuel, since every turn
of a loop and every bracket passes over a token. The exception is about the first token that does not
fit: a document can begin with everything before it, and none begins with everything up to its end
(`exists_complaint`). -/

namespace Gravioli

namespace Json.Grammar

open Lexer Json.Parser

/-! ## Failed computations -/

theorem bind_eq_error {ε α β : Type} {x : Except ε α} {f : α → Except ε β} {e : ε}
    (h : x.bind f = .error e) : x = .error e ∨ ∃ a, x = .ok a ∧ f a = .error e := by
  cases x with
  | error e' => exact .inl (congrArg Except.error (Except.error.inj h))
  | ok a => exact .inr ⟨a, rfl, h⟩

theorem eq_of_map_eq_error {ε α β : Type} {x : Except ε α} {f : α → β} {e : ε}
    (h : x.map f = .error e) : x = .error e := by
  cases x with
  | error e' => exact congrArg Except.error (Except.error.inj h)
  | ok a => exact absurd h (by simp [Except.map])

theorem expect_eq_error {t : TokenType} {p : Scanned} {stop : Stop} (h : expect t p = .error stop) :
    p.last_token ≠ t ∧ stop = .thrown (unexpected p ++ "; expected " ++ tokenTypeName t) := by
  by_cases hne : t ≠ p.last_token
  · rw [expect, if_pos hne] at h
    exact ⟨hne.symm, (Except.error.inj h).symm⟩
  · rw [expect, if_neg hne] at h
    exact absurd h (by simp)

theorem liftLexer_eq_error {α : Type} {x : Except String α} {stop : Stop}
    (h : liftLexer x = .error stop) : ∃ what, x = .error what ∧ stop = .thrown what := by
  cases x with
  | error what => exact ⟨what, rfl, (Except.error.inj h).symm⟩
  | ok a => exact absurd h (by simp [liftLexer])

/-- A string token whose text `get_string` could not read. -/
theorem value_of_getString_error {s : Str} {rest : Text} {what : String}
    (h : getString ⟨.value_string, s.text, rest⟩ = .error what) : s.value = .error what := by
  rw [← getString_text s rest, h]
  rfl

/-- What a parse that fails on `text` ends with. -/
def Complains (Good Bad : Text → Prop) (text : Text) (stop : Stop) : Prop :=
  ∃ what, stop = .thrown what ∧ Complaint Good Bad text what

theorem Complains.append {Good Good' Bad Bad' : Text → Prop} {text text' : Text} {stop : Stop}
    (h : Complains Good Bad text stop) (before : Text) (htext : text' = before ++ text)
    (hgood : ∀ w, Good w → Good' (before ++ w)) (hbad : ∀ w, Bad w → Bad' (before ++ w)) :
    Complains Good' Bad' text' stop := by
  obtain ⟨what, hstop, hwhat⟩ := h
  exact ⟨what, hstop, hwhat.append before htext hgood hbad⟩

/-- The complaint of `expect` about what stands behind `before`. -/
theorem complains_of_expect {Good Bad : Text → Prop} {text rest : Text} (before : Text)
    {t : TokenType} {stop : Stop} (htext : text = before ++ rest) (hgood : Good before)
    (hbad : ∀ (space : Space) (t' : TokenType) (lexeme after : Text), Spelled t' lexeme →
      lexeme ≠ [] → t' ≠ .parse_error → t' ≠ .end_of_input → t' ≠ t →
      rest = space.1 ++ (lexeme ++ after) → (scan rest).last_token = t' →
        Bad (before ++ (space.1 ++ lexeme)))
    (hexpect : expect t (scan rest) = .error stop) : Complains Good Bad text stop := by
  obtain ⟨ht, rfl⟩ := expect_eq_error hexpect
  refine ⟨_, rfl, .expected before rest t htext hgood ?_ ht⟩
  intro space t' lexeme after hrest hscan herror hend
  obtain ⟨hspelled, hne⟩ := spelled_of_scan hscan hend
  have hlast : (scan rest).last_token = t' := congrArg Scanned.last_token hscan
  exact hbad space t' lexeme after hspelled hne herror hend (hlast ▸ ht) hrest hlast

/-- Where the lexer is stuck there is no token. -/
theorem complains_of_stuck {Good Bad : Text → Prop} {text : Text} {p : Scanned}
    (h : Stuck Good text p) {t : TokenType} {stop : Stop} (hexpect : expect t p = .error stop) :
    Complains Good Bad text stop := by
  obtain ⟨hstuck, before, rest, htext, rfl, hgood⟩ := h
  exact complains_of_expect before htext hgood
    (fun _ _ _ _ _ _ herror _ _ _ hlast => absurd (hlast.symm.trans hstuck) herror) hexpect

section

variable (toDouble : ℤ → ℤ → Option Double)

/-! ## The three functions

A value needs twice its length and one more; a turn of a loop one more than the value it begins with. -/

/-- Enough fuel for `text`, and no value: there is a complaint about `text`. -/
def FailsValue (fuel : ℕ) : Prop :=
  ∀ text stop, 2 * text.length + 1 ≤ fuel → parseInternal toDouble fuel (scan text) = .error stop →
    Complains (ValuePrefix toDouble) (Blocks (NotValue toDouble) (scan text).last_token) text stop

/-- The same for the loop over elements. -/
def FailsElements (fuel : ℕ) : Prop :=
  ∀ text elems p₀ stop, skipSeparator p₀ = scan text → 2 * text.length + 2 ≤ fuel →
    parseElements toDouble fuel elems p₀ = .error stop →
      Complains (ElementsPrefix toDouble) (Blocks (NotElements toDouble) (scan text).last_token) text
        stop

/-- The same for the loop over members. -/
def FailsMembers (fuel : ℕ) : Prop :=
  ∀ text members p₀ stop, skipSeparator p₀ = scan text → 2 * text.length + 2 ≤ fuel →
    parseMembers toDouble fuel members p₀ = .error stop →
      Complains (MembersPrefix toDouble) (Blocks (NotMembers toDouble) (scan text).last_token) text
        stop

theorem failsElements_succ {fuel : ℕ} (hvalue : FailsValue toDouble fuel)
    (helements : FailsElements toDouble fuel) : FailsElements toDouble (fuel + 1) := by
  intro text elems p₀ stop hp₀ hfuel h
  rw [parseElements_succ, hp₀] at h
  obtain h | ⟨⟨r, p⟩, hread, h⟩ := bind_eq_error h
  · exact (hvalue text stop (Nat.le_of_succ_le_succ hfuel) h).append [] rfl
      (fun w hw => hw.elements) (fun w hw => hw.elements)
  · obtain ⟨hseparator, h⟩ | ⟨-, h⟩ := ite_eq_iff.1 h
    · obtain ⟨before, v, rest, j, rfl, rfl, rfl, hv, hends⟩ | hstuck :=
        (sound toDouble fuel).1 text r p hread
      · obtain ⟨after, lexeme, rest', rfl, hscan, rfl⟩ := exists_of_scan hseparator (by simp)
        rw [hscan] at h
        have hlength : 2 * rest'.length + 2 ≤ fuel := by
          simp only [List.length_append, List.length_cons] at hfuel
          omega
        rw [last_token_value before v hends]
        refine (helements rest' _ _ stop (skipSeparator_comma rest') hlength h).append
          (before.1 ++ (v.text ++ (after.1 ++ [chr ',']))) (by simp) (fun w hw => ?_) (fun w hw => ?_)
        · simpa using hw.more before after hv
        · simpa using hw.more before after hv
      · rw [hstuck.1] at hseparator
        exact absurd hseparator (by simp)
    · exact absurd h (by simp)

theorem failsMembers_succ {fuel : ℕ} (hvalue : FailsValue toDouble fuel)
    (hmembers : FailsMembers toDouble fuel) : FailsMembers toDouble (fuel + 1) := by
  intro text members p₀ stop hp₀ hfuel h
  rw [parseMembers_succ, hp₀] at h
  obtain h | ⟨_, hstring, h⟩ := bind_eq_error h
  · refine complains_of_expect [] rfl membersPrefix_nil ?_ h
    rintro space t lexeme after hspelled - herror - hkey - rfl
    exact blocks_noKey hspelled herror space hkey
  obtain ⟨before, lexeme, rest, rfl, hscan, key, rfl⟩ :=
    exists_of_scan (eq_of_expect hstring) (by simp)
  rw [hscan] at h ⊢
  obtain h | ⟨bytes, hbytes, h⟩ := bind_eq_error h
  · obtain ⟨what, hwhat, rfl⟩ := liftLexer_eq_error h
    have hkey := value_of_getString_error hwhat
    exact ⟨what, rfl, .surrogate [] rest before key what rfl membersPrefix_nil
      (blocks_key before hkey) hkey⟩
  have hkey := value_of_getString (liftLexer_eq_ok hbytes)
  obtain h | ⟨_, hcolon, h⟩ := bind_eq_error h
  · refine complains_of_expect (before.1 ++ key.text) (List.append_assoc ..).symm
      (membersPrefix_key before hkey) ?_ h
    intro space t lexeme after hspelled _ herror _ hcolon _ _
    rw [List.append_assoc]
    exact blocks_noColon hspelled herror space hcolon before key
  obtain ⟨beforeColon, lexeme, rest, rfl, hscan', rfl⟩ :=
    exists_of_scan (show (scan rest).last_token = _ from eq_of_expect hcolon) (by simp)
  have hvalueText : getToken (getToken ⟨.value_string, key.text,
      beforeColon.1 ++ ([chr ':'] ++ rest)⟩) = scan rest := congrArg getToken hscan'
  rw [hvalueText] at h
  obtain h | ⟨⟨r, p⟩, hread, h⟩ := bind_eq_error h
  · have hlength : 2 * rest.length + 1 ≤ fuel := by
      simp only [List.length_append, List.length_cons] at hfuel
      omega
    refine (hvalue rest stop hlength h).append
      (before.1 ++ (key.text ++ (beforeColon.1 ++ [chr ':']))) (by simp) (fun w hw => ?_)
      (fun w hw => ?_)
    · simpa using hw.members before hkey beforeColon
    · simpa using hw.members before key beforeColon
  · obtain ⟨hseparator, h⟩ | ⟨-, h⟩ := ite_eq_iff.1 h
    · obtain ⟨afterColon, v, rest, j, rfl, rfl, rfl, hv, -⟩ | hstuck :=
        (sound toDouble fuel).1 rest r p hread
      · obtain ⟨after, lexeme, rest', rfl, hscan, rfl⟩ := exists_of_scan hseparator (by simp)
        rw [hscan] at h
        have hlength : 2 * rest'.length + 2 ≤ fuel := by
          simp only [List.length_append, List.length_cons] at hfuel
          omega
        refine (hmembers rest' _ _ stop (skipSeparator_comma rest') hlength h).append
          (before.1 ++ (key.text ++ (beforeColon.1 ++ chr ':' ::
            (afterColon.1 ++ (v.text ++ (after.1 ++ [chr ','])))))) (by simp) (fun w hw => ?_)
          (fun w hw => ?_)
        · simpa using hw.more before hkey beforeColon afterColon after hv
        · simpa using hw.moreMembers before key beforeColon afterColon after hv
      · rw [hstuck.1] at hseparator
        exact absurd hseparator (by simp)
    · exact absurd h (by simp)

theorem failsArray {fuel : ℕ} (helements : FailsElements toDouble fuel) {space : Space}
    {rest : Text} {stop : Stop} (hfuel : 2 * rest.length + 2 ≤ fuel)
    (h : parseInternal toDouble (fuel + 1) ⟨.begin_array, [chr '['], rest⟩ = .error stop) :
    Complains (ValuePrefix toDouble) (Blocks (NotValue toDouble) .begin_array)
      (space.1 ++ chr '[' :: rest) stop := by
  have hgood : ∀ w, ElementsPrefix toDouble w → ValuePrefix toDouble ((space.1 ++ [chr '[']) ++ w) :=
    fun w hw => by simpa using hw.array space
  have hbad : ∀ {t w}, t ≠ .end_array → Blocks (NotElements toDouble) t w →
      Blocks (NotValue toDouble) .begin_array ((space.1 ++ [chr '[']) ++ w) :=
    fun ht hw => by simpa using hw.array ht space
  have htext : space.1 ++ chr '[' :: rest = (space.1 ++ [chr '[']) ++ rest := by simp
  by_cases hend : (scan rest).last_token = .end_array
  · exact absurd h (by simp [parseInternal, getToken, hend])
  by_cases hseparator : (scan rest).last_token = .value_separator
  · obtain rfl : .thrown (unexpected (scan rest)) = stop := by
      simpa [parseInternal, getToken, hseparator, unexpect, bind, Except.bind] using h
    refine ⟨_, rfl, .unexpected _ rest htext (by simpa using hgood [] valuePrefix_nil.elements) ?_⟩
    intro inner t lexeme after _ hscan herror hlast
    obtain rfl : t = .value_separator := (congrArg Scanned.last_token hscan).symm.trans hseparator
    exact hbad (by decide) (blocks_unexpected (spelled_of_scan hscan hlast).1 herror inner
      (.inr (.inr (.inr rfl)))).elements
  rw [parseInternal_array toDouble (p := ⟨.begin_array, [chr '['], rest⟩) rfl hend hseparator] at h
  obtain h | ⟨⟨elems, p⟩, hread, h⟩ := bind_eq_error h
  · exact (helements rest [] _ stop (if_neg hseparator) hfuel h).append _ htext hgood
      (fun w hw => hbad hend hw)
  obtain ⟨es, rest, js, rfl, rfl, -, hes, hends, hcomma⟩ | hstuck :=
    (sound toDouble fuel).2.1 rest [] _ _ _ (if_neg hseparator) hread
  · refine complains_of_expect (space.1 ++ chr '[' :: es.text) (by simp)
      (by simpa using hgood _ (elementsPrefix_text hes)) ?_ (eq_of_map_eq_error h)
    rintro inner t lexeme after hspelled hne herror - ht rfl rfl
    rw [List.append_assoc, List.cons_append]
    exact blocks_noEndArray hspelled herror inner hne ht hcomma space hends
  · exact (complains_of_stuck hstuck (eq_of_map_eq_error h)).append _ htext hgood
      (fun w hw => hbad hend hw)

theorem failsObject {fuel : ℕ} (hmembers : FailsMembers toDouble fuel) {space : Space}
    {rest : Text} {stop : Stop} (hfuel : 2 * rest.length + 2 ≤ fuel)
    (h : parseInternal toDouble (fuel + 1) ⟨.begin_object, [chr '{'], rest⟩ = .error stop) :
    Complains (ValuePrefix toDouble) (Blocks (NotValue toDouble) .begin_object)
      (space.1 ++ chr '{' :: rest) stop := by
  have hgood : ∀ w, MembersPrefix toDouble w → ValuePrefix toDouble ((space.1 ++ [chr '{']) ++ w) :=
    fun w hw => by simpa using hw.object space
  have hbad : ∀ {t w}, t ≠ .end_object → Blocks (NotMembers toDouble) t w →
      Blocks (NotValue toDouble) .begin_object ((space.1 ++ [chr '{']) ++ w) :=
    fun ht hw => by simpa using hw.object ht space
  have htext : space.1 ++ chr '{' :: rest = (space.1 ++ [chr '{']) ++ rest := by simp
  by_cases hend : (scan rest).last_token = .end_object
  · exact absurd h (by simp [parseInternal, getToken, hend])
  by_cases hseparator : (scan rest).last_token = .value_separator
  · obtain rfl : .thrown (unexpected (scan rest)) = stop := by
      simpa [parseInternal, getToken, hseparator, unexpect, bind, Except.bind] using h
    refine ⟨_, rfl, .unexpected _ rest htext (by simpa using hgood [] membersPrefix_nil) ?_⟩
    intro inner t lexeme after _ hscan herror hlast
    obtain rfl : t = .value_separator := (congrArg Scanned.last_token hscan).symm.trans hseparator
    exact hbad (by decide) (blocks_noKey (spelled_of_scan hscan hlast).1 herror inner (by decide))
  rw [parseInternal_object toDouble (p := ⟨.begin_object, [chr '{'], rest⟩) rfl hend hseparator] at h
  obtain h | ⟨⟨members, p⟩, hread, h⟩ := bind_eq_error h
  · exact (hmembers rest [] _ stop (if_neg hseparator) hfuel h).append _ htext hgood
      (fun w hw => hbad hend hw)
  obtain ⟨ms, rest, pairs, rfl, rfl, -, hms, hends, hcomma⟩ | hstuck :=
    (sound toDouble fuel).2.2 rest [] _ _ _ (if_neg hseparator) hread
  · refine complains_of_expect (space.1 ++ chr '{' :: ms.text) (by simp)
      (by simpa using hgood _ (membersPrefix_text hms)) ?_ (eq_of_map_eq_error h)
    rintro inner t lexeme after hspelled hne herror - ht rfl rfl
    rw [List.append_assoc, List.cons_append]
    exact blocks_noEndObject hspelled herror inner hne ht hcomma space hends
  · exact (complains_of_stuck hstuck (eq_of_map_eq_error h)).append _ htext hgood
      (fun w hw => hbad hend hw)

theorem failsValue_succ {fuel : ℕ} (helements : FailsElements toDouble fuel)
    (hmembers : FailsMembers toDouble fuel) : FailsValue toDouble (fuel + 1) := by
  intro text stop hfuel h
  obtain ⟨hspace, hscan⟩ | ⟨space, t, lexeme, rest, rfl, hscan, hlexeme, hspelled⟩ := scan_cases text
  · have hstop : .thrown (unexpected (scan text)) = stop := by
      rw [hscan] at h
      simpa [hscan, parseInternal, unexpect, bind, Except.bind] using h
    refine ⟨_, hstop.symm, .unexpected [] text rfl valuePrefix_nil ?_⟩
    intro _ t _ _ _ hscan' _ hend
    exact absurd (congrArg Scanned.last_token (hscan'.symm.trans hscan)) hend
  · have hunexpected : (t = .end_array ∨ t = .end_object ∨ t = .name_separator ∨
        t = .value_separator) ∨ t = .parse_error ∨ t = .end_of_input →
        Misfits (Blocks (NotValue toDouble) t) [] (space.1 ++ (lexeme ++ rest)) := by
      intro ht inner t' lexeme' after _ hscan' herror hend
      obtain ⟨rfl, rfl, -⟩ := (Scanned.mk.injEq ..).mp (hscan.symm.trans hscan')
      obtain ht | ht | ht := ht
      · exact blocks_unexpected hspelled herror inner ht
      · exact absurd ht herror
      · exact absurd ht hend
    rw [hscan] at h ⊢
    have hlength : 2 * rest.length + 2 ≤ fuel := by
      have := List.length_pos_iff.2 hlexeme
      simp only [List.length_append] at hfuel
      omega
    cases t with
    | literal_null => exact absurd h (by simp [parseInternal])
    | literal_true => exact absurd h (by simp [parseInternal])
    | literal_false => exact absurd h (by simp [parseInternal])
    | value_unsigned => exact absurd h (by simp [parseInternal])
    | value_integer => exact absurd h (by simp [parseInternal])
    | value_float => exact absurd h (by simp [parseInternal])
    | value_string =>
        obtain ⟨s, rfl⟩ := hspelled
        rw [parseInternal_string toDouble rfl] at h
        obtain ⟨what, hwhat, rfl⟩ := liftLexer_eq_error (eq_of_map_eq_error h)
        have hs := value_of_getString_error hwhat
        exact ⟨what, rfl, .surrogate [] rest space s what rfl valuePrefix_nil
          (blocks_string space hs) hs⟩
    | begin_array =>
        obtain rfl := hspelled
        exact failsArray toDouble helements hlength h
    | begin_object =>
        obtain rfl := hspelled
        exact failsObject toDouble hmembers hlength h
    | uninitialized => exact absurd hspelled id
    | _ =>
        -- no value begins with this token
        have hstop : .thrown (unexpected (scan (space.1 ++ (lexeme ++ rest)))) = stop := by
          simpa [hscan, parseInternal, unexpect, bind, Except.bind] using h
        exact ⟨_, hstop.symm, .unexpected [] _ rfl valuePrefix_nil (hunexpected (by simp))⟩

theorem fails (fuel : ℕ) :
    FailsValue toDouble fuel ∧ FailsElements toDouble fuel ∧ FailsMembers toDouble fuel := by
  induction fuel with
  | zero =>
      refine ⟨?_, ?_, ?_⟩
      · intro text stop hfuel _
        omega
      · intro text elems p₀ stop _ hfuel _
        omega
      · intro text members p₀ stop _ hfuel _
        omega
  | succ fuel ih =>
      obtain ⟨hvalue, helements, hmembers⟩ := ih
      exact ⟨failsValue_succ toDouble helements hmembers, failsElements_succ toDouble hvalue helements,
        failsMembers_succ toDouble hvalue hmembers⟩

/-- **Every parse ends**, with a value or with an exception about the first token that does not fit: a
    document can begin with what stands before it, and none with what stands up to its end. -/
theorem exists_complaint (text : Text) :
    (∃ j, parse toDouble text = .ok j) ∨
      ∃ what, parse toDouble text = .error (.thrown what) ∧
        Complaint (DocumentPrefix toDouble) (fun w => ¬ DocumentPrefix toDouble w) text what := by
  cases hparse : parse toDouble text with
  | ok j => exact .inl ⟨j, rfl⟩
  | error stop =>
      have hcomplains : Complains (DocumentPrefix toDouble) (fun w => ¬ DocumentPrefix toDouble w) text
          stop := by
        obtain h | ⟨⟨r, p⟩, hread, h⟩ := bind_eq_error hparse
        · exact ((fails toDouble _).1 text stop (by omega) h).append [] rfl
            (fun w hw => hw.document) (fun w hw => not_documentPrefix_of_blocks hw)
        obtain h | ⟨_, _, h⟩ := bind_eq_error h
        · obtain ⟨space, v, rest, j, rfl, rfl, -, hv, hends⟩ | hstuck :=
            (sound toDouble _).1 text r p hread
          · refine complains_of_expect (space.1 ++ v.text) (by simp)
              (valuePrefix_text space hv).document ?_ h
            rintro inner t lexeme after hspelled hne herror hend - rfl -
            rw [List.append_assoc]
            exact not_documentPrefix_append hspelled hne herror hend space inner hends
          · obtain ⟨herror, before, rest, htext, hp, hgood⟩ := hstuck
            exact complains_of_stuck ⟨herror, before, rest, htext, hp, hgood.document⟩ h
        · exact absurd h (by simp [pure, Except.pure])
      obtain ⟨what, rfl, hwhat⟩ := hcomplains
      exact .inr ⟨what, rfl, hwhat⟩

end

end Json.Grammar

end Gravioli
