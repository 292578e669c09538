import Mathlib.Data.List.Basic

set_option autoImplicit false

/-! # Maximal munch

An automaton with a token class at its accepting states, and the scanner generated from it: read on
as long as there is a transition, remember the last accepting state passed, and go back to it when
the automaton is stuck (`munch`).

`munch_sound` says what a scanned word is, `munch_of_stuck` gives the word the scanner stops at, and
`accept_eq_none_of_munch` that it never stops one letter early. -/

namespace Scanner

universe u v w

/-- A partial automaton; `accept` gives the class of the words that lead to a state. -/
structure Automaton (α : Type u) (σ : Type v) (τ : Type w) where
  next : σ → α → Option σ
  accept : σ → Option τ

namespace Automaton

variable {α : Type u} {σ : Type v} {τ : Type w} (M : Automaton α σ τ)

/-- The state a word leads to. -/
def run (q : σ) : List α → Option σ
  | [] => some q
  | a :: word => (M.next q a).bind (fun q' => run q' word)

/-- The longest nonempty prefix with a class: the class, the prefix and what follows it. -/
def munch (q : σ) : List α → Option (τ × List α × List α)
  | [] => none
  | a :: input =>
      match M.next q a with
      | none => none
      | some q' =>
          match munch q' input with
          | some (t, lexeme, rest) => some (t, a :: lexeme, rest)
          | none => (M.accept q').map (fun t => (t, [a], input))

@[simp] theorem run_nil (q : σ) : M.run q [] = some q := rfl

theorem run_cons (q : σ) (a : α) (word : List α) :
    M.run q (a :: word) = (M.next q a).bind (fun q' => M.run q' word) := rfl

theorem run_cons_of_next {q q' : σ} {a : α} (h : M.next q a = some q') (word : List α) :
    M.run q (a :: word) = M.run q' word := by
  rw [run_cons, h, Option.bind_some]

theorem run_cons_eq_some {q q' : σ} {a : α} {word : List α} :
    M.run q (a :: word) = some q' ↔ ∃ q₁, M.next q a = some q₁ ∧ M.run q₁ word = some q' := by
  rw [run_cons, Option.bind_eq_some_iff]

/-- The scanned word is a prefix that leads to a state of the class reported. -/
theorem munch_sound {q : σ} {input lexeme rest : List α} {t : τ}
    (h : M.munch q input = some (t, lexeme, rest)) :
    input = lexeme ++ rest ∧ lexeme ≠ [] ∧
      ∃ q', M.run q lexeme = some q' ∧ M.accept q' = some t := by
  induction input generalizing q lexeme with
  | nil => exact absurd h (by simp [munch])
  | cons a input ih =>
      rw [munch] at h
      cases hnext : M.next q a with
      | none => simp [hnext] at h
      | some q₁ =>
          simp only [hnext] at h
          split at h
          · next t' lexeme' rest' hmunch =>
              obtain ⟨rfl, rfl, rfl⟩ : t' = t ∧ a :: lexeme' = lexeme ∧ rest' = rest := by
                simpa using h
              obtain ⟨rfl, -, q', hrun, haccept⟩ := ih hmunch
              exact ⟨rfl, by simp, q', by rw [M.run_cons_of_next hnext, hrun], haccept⟩
          · next hmunch =>
              obtain ⟨t', haccept, hlast⟩ := Option.map_eq_some_iff.1 h
              obtain ⟨rfl, rfl, rfl⟩ : t' = t ∧ [a] = lexeme ∧ input = rest := by simpa using hlast
              exact ⟨rfl, by simp, q₁, by rw [M.run_cons_of_next hnext, run_nil], haccept⟩

/-- The scanner stops at an accepted word after which the automaton is stuck. -/
theorem munch_of_stuck {q q' : σ} {lexeme rest : List α} {t : τ} (hne : lexeme ≠ [])
    (hrun : M.run q lexeme = some q') (haccept : M.accept q' = some t)
    (hstuck : ∀ a ∈ rest.head?, M.next q' a = none) :
    M.munch q (lexeme ++ rest) = some (t, lexeme, rest) := by
  have hend : M.munch q' rest = none := by
    cases rest with
    | nil => rfl
    | cons a rest => simp [munch, hstuck a (by simp)]
  induction lexeme generalizing q with
  | nil => exact absurd rfl hne
  | cons a lexeme ih =>
      obtain ⟨q₁, hnext, hrun₁⟩ := M.run_cons_eq_some.1 hrun
      rw [List.cons_append, munch, hnext]
      dsimp only
      cases lexeme with
      | nil =>
          obtain rfl : q₁ = q' := by simpa using hrun₁
          simp [hend, haccept]
      | cons b lexeme => rw [ih (by simp) hrun₁]

theorem munch_isSome_of_accept {q q' : σ} {a : α} {t : τ} (input : List α)
    (hnext : M.next q a = some q') (haccept : M.accept q' = some t) :
    (M.munch q (a :: input)).isSome := by
  rw [munch, hnext]
  dsimp only
  cases M.munch q' input with
  | none => simp [haccept]
  | some r => rfl

/-- The scanner does not stop where one more letter would give a word with a class. -/
theorem accept_eq_none_of_munch {q q₁ q₂ : σ} {input lexeme rest : List α} {a : α} {t : τ}
    (h : M.munch q input = some (t, lexeme, a :: rest)) (hrun : M.run q lexeme = some q₁)
    (hnext : M.next q₁ a = some q₂) : M.accept q₂ = none := by
  induction input generalizing q lexeme with
  | nil => exact absurd h (by simp [munch])
  | cons b input ih =>
      rw [munch] at h
      cases hfirst : M.next q b with
      | none => simp [hfirst] at h
      | some q' =>
          simp only [hfirst] at h
          split at h
          · next t' lexeme' rest' hmunch =>
              obtain ⟨rfl, rfl, rfl⟩ : t' = t ∧ b :: lexeme' = lexeme ∧ rest' = a :: rest := by
                simpa using h
              exact ih hmunch (by rwa [M.run_cons_of_next hfirst] at hrun)
          · next hmunch =>
              obtain ⟨t', -, hlast⟩ := Option.map_eq_some_iff.1 h
              obtain ⟨rfl, rfl, rfl⟩ : t' = t ∧ [b] = lexeme ∧ input = a :: rest := by
                simpa using hlast
              obtain rfl : q' = q₁ := by simpa [M.run_cons_of_next hfirst] using hrun
              by_contra hsome
              obtain ⟨t₂, ht₂⟩ := Option.ne_none_iff_exists'.1 hsome
              have := M.munch_isSome_of_accept rest hnext ht₂
              simp [hmunch] at this

end Automaton

end Scanner
