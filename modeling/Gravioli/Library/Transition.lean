import Mathlib.Logic.Relation

set_option autoImplicit false

/-! # Labelled machines and guarded runs

A `Machine` is an executable partial step function over labels: a label that is not enabled gives
`none`. Concurrent programs are embedded by taking one label per atomic step of a thread; an
interleaving is then just a sequence of labels.

Everything about runs is stated for a *guard* `ok : σ → ι → Prop`, the labels the environment may
choose in a state (a fault assumption, a scheduling discipline, a bound the inputs respect). The
induction over runs is done once, in `Machine.Reach.induct`; simulation of one machine by another is
`Machine.Simulates` with its run lemma `Machine.Simulates.reach`. -/

universe u v w x

/-- Continue with `s` when the condition holds: the shape of every guarded step. -/
def require {σ : Type u} (c : Prop) [Decidable c] (s : σ) : Option σ :=
  if c then some s else none

@[simp] theorem require_eq_some {σ : Type u} {c : Prop} [Decidable c] {s s' : σ} :
    require c s = some s' ↔ c ∧ s = s' := by
  unfold require
  split <;> simp_all

/-- A labelled machine: its initial states and its partial step function. -/
structure Machine (σ : Type u) (ι : Type v) where
  init : σ → Prop
  step : σ → ι → Option σ

namespace Machine

variable {σ : Type u} {ι : Type v} (M : Machine σ ι)

/-- The guard that allows every label. -/
def anyLabel : σ → ι → Prop := fun _ _ => True

instance (s : σ) (e : ι) : Decidable (anyLabel s e) := isTrue trivial

/-- One step whose label the guard allows. -/
def StepIf (ok : σ → ι → Prop) (s s' : σ) : Prop := ∃ e, ok s e ∧ M.step s e = some s'

/-- `s'` can be reached from `s` by allowed steps. -/
def Leads (ok : σ → ι → Prop) : σ → σ → Prop := Relation.ReflTransGen (M.StepIf ok)

/-- The states reached from an initial one by allowed steps. -/
def Reach (ok : σ → ι → Prop) (s : σ) : Prop := ∃ s₀, M.init s₀ ∧ M.Leads ok s₀ s

variable {M} {ok ok' : σ → ι → Prop}

theorem Leads.refl (s : σ) : M.Leads ok s s := Relation.ReflTransGen.refl

theorem Leads.trans {a b c : σ} (h₁ : M.Leads ok a b) (h₂ : M.Leads ok b c) : M.Leads ok a c :=
  Relation.ReflTransGen.trans h₁ h₂

theorem Leads.single {s s' : σ} {e : ι} (hok : ok s e) (h : M.step s e = some s') :
    M.Leads ok s s' :=
  Relation.ReflTransGen.single ⟨e, hok, h⟩

theorem Reach.init {s : σ} (h : M.init s) : M.Reach ok s := ⟨s, h, Leads.refl s⟩

theorem Reach.leads {s s' : σ} (h : M.Reach ok s) (h' : M.Leads ok s s') : M.Reach ok s' := by
  obtain ⟨s₀, h₀, hs⟩ := h
  exact ⟨s₀, h₀, hs.trans h'⟩

theorem Reach.next {s s' : σ} {e : ι} (h : M.Reach ok s) (hok : ok s e)
    (hstep : M.step s e = some s') : M.Reach ok s' :=
  h.leads (Leads.single hok hstep)

/-- The invariant rule, for `induction h using`. The step case may use that the state before the
    step is reachable, so invariants proved earlier strengthen later ones. -/
@[elab_as_elim]
theorem Reach.induct {motive : ∀ s, M.Reach ok s → Prop} {s : σ} (h : M.Reach ok s)
    (init : ∀ s (hinit : M.init s), motive s (Reach.init hinit))
    (step : ∀ s e s' (hreach : M.Reach ok s), motive s hreach →
      ∀ (hok : ok s e) (hstep : M.step s e = some s'), motive s' (hreach.next hok hstep)) :
    motive s h := by
  obtain ⟨s₀, h₀, hs⟩ := h
  induction hs with
  | refl => exact init s₀ h₀
  | tail hpre hlast ih =>
      obtain ⟨e, hok, hstep⟩ := hlast
      exact step _ e _ ⟨s₀, h₀, hpre⟩ ih hok hstep

theorem Leads.mono (hmono : ∀ s e, ok s e → ok' s e) {s s' : σ} (h : M.Leads ok s s') :
    M.Leads ok' s s' := by
  refine Relation.ReflTransGen.mono ?_ _ _ h
  intro a b hab
  obtain ⟨e, hok, he⟩ := hab
  exact ⟨e, hmono a e hok, he⟩

/-- A stronger guard reaches fewer states. -/
theorem Reach.mono (hmono : ∀ s e, ok s e → ok' s e) {s : σ} (h : M.Reach ok s) :
    M.Reach ok' s := by
  obtain ⟨s₀, h₀, hs⟩ := h
  exact ⟨s₀, h₀, hs.mono hmono⟩

theorem Reach.any {s : σ} (h : M.Reach ok s) : M.Reach anyLabel s := h.mono (fun _ _ _ => trivial)

/-- The progress rule. If every state with `P` has `Q`, or allows a step to a state with `P` that comes
    before it in a well-founded order, then a state with `Q` can be reached. The steps may be confined
    to a stronger guard than the one the states were reached with. -/
theorem Reach.leads_of_progress {P Q : σ → Prop} {before : σ → σ → Prop} (hwf : WellFounded before)
    (hmono : ∀ s e, ok' s e → ok s e)
    (hprogress : ∀ s, M.Reach ok s → P s → Q s ∨
      ∃ e s', ok' s e ∧ M.step s e = some s' ∧ P s' ∧ before s' s)
    {s : σ} (hs : M.Reach ok s) (hP : P s) : ∃ t, M.Leads ok' s t ∧ Q t := by
  induction s using hwf.induction with
  | h s ih =>
      obtain hQ | ⟨e, s', hok, hstep, hP', hbefore⟩ := hprogress s hs hP
      · exact ⟨s, Leads.refl s, hQ⟩
      · obtain ⟨t, hleads, hQ⟩ := ih s' hbefore (hs.next (hmono s e hok) hstep) hP'
        exact ⟨t, (Leads.single hok hstep).trans hleads, hQ⟩

/-! ## Executing a schedule -/

section Exec

variable (M) (ok) [∀ s e, Decidable (ok s e)]

/-- Run a list of labels, each of which has to be allowed and enabled. -/
def exec : σ → List ι → Option σ
  | s, [] => some s
  | s, e :: es => if ok s e then (M.step s e).bind (fun s' => exec s' es) else none

variable {M} {ok}

theorem leads_of_exec (es : List ι) {s s' : σ} (h : M.exec ok s es = some s') :
    M.Leads ok s s' := by
  induction es generalizing s with
  | nil =>
      simp only [exec, Option.some.injEq] at h
      subst h
      exact Leads.refl s
  | cons e es ih =>
      simp only [exec] at h
      split at h
      · next hok =>
          obtain ⟨t, ht, hrest⟩ := Option.bind_eq_some_iff.1 h
          exact (Leads.single hok ht).trans (ih hrest)
      · exact absurd h (by simp)

/-- The state at the end of a schedule that can be executed. -/
theorem reach_of_exec {s₀ : σ} (hinit : M.init s₀) (es : List ι) (h : (M.exec ok s₀ es).isSome) :
    M.Reach ok ((M.exec ok s₀ es).get h) :=
  ⟨s₀, hinit, leads_of_exec es (Option.some_get h).symm⟩

end Exec

/-! ## Simulation -/

/-- `A` simulates `M` through `R`: initial states have related ones, and every step from a reachable
    state is matched by zero or more steps of `A`. -/
structure Simulates {α : Type w} {κ : Type x} (A : Machine α κ) (M : Machine σ ι)
    (ok : σ → ι → Prop) (R : σ → α → Prop) : Prop where
  init : ∀ s, M.init s → ∃ a, A.init a ∧ R s a
  step : ∀ s e s' a, M.Reach ok s → ok s e → M.step s e = some s' → R s a →
    ∃ a', A.Leads anyLabel a a' ∧ R s' a'

/-- The run lemma of a simulation: every reachable state has a reachable abstract counterpart. -/
theorem Simulates.reach {α : Type w} {κ : Type x} {A : Machine α κ} {R : σ → α → Prop}
    (hsim : A.Simulates M ok R) {s : σ} (h : M.Reach ok s) :
    ∃ a, A.Reach anyLabel a ∧ R s a := by
  induction h using Reach.induct with
  | init s hinit =>
      obtain ⟨a, ha, hR⟩ := hsim.init s hinit
      exact ⟨a, Reach.init ha, hR⟩
  | step s e s' hreach ih hok hstep =>
      obtain ⟨a, ha, hR⟩ := ih
      obtain ⟨a', hlead, hR'⟩ := hsim.step s e s' a hreach hok hstep hR
      exact ⟨a', ha.leads hlead, hR'⟩

end Machine
