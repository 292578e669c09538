import Mathlib.Data.List.DropRight

set_option autoImplicit false

/-! # Multipart framing

A message socket carries frames; a frame sent with the *more* flag continues the current multipart
message and a frame without it completes it. `group` is what the receiving side sees: the completed
messages and the frames still open.

A sender that emits one message at a time contributes a `Burst`: some continued frames and possibly
a completing one. `opened_stream` and `done_stream_iff` describe the receiver's view of a whole
stream of bursts, including streams in which some bursts lost frames: what a completed message
contains is decided by the bursts since the previous completed one. -/

namespace Multipart

universe u v

variable {α : Type u} {β : Type v}

/-- One frame: its contents and whether more frames of the same message follow. -/
structure Frame (α : Type u) where
  body : α
  more : Bool
  deriving DecidableEq, Repr

/-- A frame stream as the receiver groups it. -/
structure Grouped (α : Type u) where
  done : List (List α)
  opened : List α
  deriving DecidableEq, Repr

/-- Receive one frame. -/
def Grouped.feed (g : Grouped α) (p : Frame α) : Grouped α :=
  if p.more then { g with opened := g.opened ++ [p.body] }
  else { done := g.done ++ [g.opened ++ [p.body]], opened := [] }

/-- Group a stream that starts with no open frame. -/
def group (ps : List (Frame α)) : Grouped α := ps.foldl Grouped.feed ⟨[], []⟩

/-- What one send contributes: continued frames, and a completing frame if it got that far. -/
structure Burst (α : Type u) where
  opens : List α
  close : Option α
  deriving DecidableEq, Repr

/-- The frames of a send. -/
def Burst.parts (b : Burst α) : List (Frame α) :=
  b.opens.map (Frame.mk · true) ++ (b.close.map (Frame.mk · false)).toList

/-- The receiver's state after one more burst. -/
def Grouped.burst (g : Grouped α) (b : Burst α) : Grouped α :=
  match b.close with
  | none => { g with opened := g.opened ++ b.opens }
  | some c => { done := g.done ++ [g.opened ++ b.opens ++ [c]], opened := [] }

theorem foldl_feed_opens (xs : List α) (g : Grouped α) :
    (xs.map (Frame.mk · true)).foldl Grouped.feed g = { g with opened := g.opened ++ xs } := by
  induction xs generalizing g with
  | nil => simp
  | cons x xs ih =>
      simp only [List.map_cons, List.foldl_cons, ih]
      simp [Grouped.feed]

theorem foldl_feed_parts (g : Grouped α) (b : Burst α) :
    b.parts.foldl Grouped.feed g = g.burst b := by
  unfold Burst.parts Grouped.burst
  rw [List.foldl_append, foldl_feed_opens]
  cases b.close with
  | none => rfl
  | some c => simp [Grouped.feed]

theorem group_append_parts (ps : List (Frame α)) (b : Burst α) :
    group (ps ++ b.parts) = (group ps).burst b := by
  unfold group
  rw [List.foldl_append, foldl_feed_parts]

/-! ## Streams of bursts -/

section Stream

variable (burst : β → Burst α)

/-- The frames of a sequence of sends. -/
def stream (items : List β) : List (Frame α) := items.flatMap (fun b => (burst b).parts)

theorem group_stream_concat (items : List β) (b : β) :
    group (stream burst (items ++ [b])) = (group (stream burst items)).burst (burst b) := by
  rw [← group_append_parts]
  simp [stream]

/-- The frames open at the end of a stream are those of the bursts since the last completed one. -/
theorem opened_stream (items : List β) :
    (group (stream burst items)).opened
      = (items.rtakeWhile (fun b => (burst b).close.isNone)).flatMap (fun b => (burst b).opens) := by
  induction items using List.reverseRecOn with
  | nil => rfl
  | append_singleton items b ih =>
      rw [group_stream_concat, List.rtakeWhile_concat]
      cases hc : (burst b).close with
      | none => simp [Grouped.burst, hc, ih]
      | some c => simp [Grouped.burst, hc]

theorem done_stream_concat (items : List β) (b : β) :
    (group (stream burst (items ++ [b]))).done = (group (stream burst items)).done
      ++ ((burst b).close.map
        (fun c => (group (stream burst items)).opened ++ (burst b).opens ++ [c])).toList := by
  rw [group_stream_concat]
  cases hc : (burst b).close <;> simp [Grouped.burst, hc]

/-- The completed messages are the intended ones exactly when, at every burst that completes one,
    the frames still open, its own and the completing frame together are the intended message. -/
theorem done_stream_iff (full : β → List α) (items : List β) :
    (group (stream burst items)).done
        = (items.filter (fun b => (burst b).close.isSome)).map full ↔
      ∀ k b c, items[k]? = some b → (burst b).close = some c →
        (group (stream burst (items.take k))).opened ++ (burst b).opens ++ [c] = full b := by
  induction items using List.reverseRecOn with
  | nil => simp [stream, group]
  | append_singleton items b ih =>
      have hsplit : (∀ k b' c, (items ++ [b])[k]? = some b' → (burst b').close = some c →
            (group (stream burst ((items ++ [b]).take k))).opened ++ (burst b').opens ++ [c]
              = full b') ↔
          (∀ k b' c, items[k]? = some b' → (burst b').close = some c →
            (group (stream burst (items.take k))).opened ++ (burst b').opens ++ [c] = full b') ∧
          (∀ c, (burst b).close = some c →
            (group (stream burst items)).opened ++ (burst b).opens ++ [c] = full b) := by
        constructor
        · intro h
          refine ⟨?_, ?_⟩
          · intro k b' c hk hc
            have hlt : k < items.length := (List.getElem?_eq_some_iff.1 hk).1
            have := h k b' c (by rw [List.getElem?_append_left hlt, hk]) hc
            rwa [List.take_append_of_le_length (by omega)] at this
          · intro c hc
            have := h items.length b c (by simp) hc
            rwa [List.take_append_of_le_length (by omega), List.take_length] at this
        · rintro ⟨hold, hnew⟩ k b' c hk hc
          rcases Nat.lt_trichotomy k items.length with hlt | heq | hgt
          · rw [List.getElem?_append_left hlt] at hk
            rw [List.take_append_of_le_length (by omega)]
            exact hold k b' c hk hc
          · subst heq
            simp only [List.getElem?_concat_length, Option.some.injEq] at hk
            subst hk
            rw [List.take_append_of_le_length (by omega), List.take_length]
            exact hnew c hc
          · rw [List.getElem?_eq_none (by simp; omega)] at hk
            exact absurd hk (by simp)
      rw [hsplit, ← ih, done_stream_concat, List.filter_append, List.map_append]
      cases hc : (burst b).close with
      | none => simp [hc]
      | some c =>
          simp only [hc, Option.map_some, Option.toList_some, List.filter_singleton,
            Option.isSome_some, cond_true, List.map_singleton, Option.some.injEq, forall_eq']
          constructor
          · intro h
            obtain ⟨hdone, hlast⟩ := List.append_inj' h rfl
            exact ⟨hdone, by simpa using hlast⟩
          · rintro ⟨hdone, hlast⟩
            rw [hdone, hlast]

/-- When every burst completes its own intended message, the receiver gets them all, in order. -/
theorem group_stream_of_complete (full : β → List α) (items : List β)
    (h : ∀ b ∈ items, ∃ c, (burst b).close = some c ∧ (burst b).opens ++ [c] = full b) :
    group (stream burst items) = { done := items.map full, opened := [] } := by
  induction items using List.reverseRecOn with
  | nil => rfl
  | append_singleton items b ih =>
      obtain ⟨c, hc, hfull⟩ := h b (by simp)
      rw [group_stream_concat, ih (fun b' hb' => h b' (by simp [hb']))]
      simp [Grouped.burst, hc, hfull]

end Stream

end Multipart
