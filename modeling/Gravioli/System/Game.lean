import Gravioli.GravioliWorld
import Gravioli.System.Subscriber

set_option autoImplicit false

/-! # The game, from the planets to the client

The worlds of the repository are `GravioliWorld`s, and `main` starts one of them. So the payload of a
message is what `serializeWorldForPlayer` leaves in the buffer after the loops of its tick, and a client
(`client.py`) goes on to read planets from what it decrypts. With one world it sees, tick by tick from
the first one over the roster, the planets where they are in this tick. -/

namespace Gravioli

universe u

open Multipart (group)
open GravioliWorld

namespace System

section Rendering

variable {ι : Type u} {D F : Type} [NatCast D] [Add D] [Mul D] [Div D] (num : Numerics D F)
  (fb : FlatBuffers F)

/-- Payloads are what the world of the game serializes. The tick of the iteration is on record when the
    first message is allocated, and its `loop` has been called. -/
def rendered (s : System ι) : Event ι → Prop
  | .world w (.alloc payload) => ∃ shuffled ∈ shuffles 2,
      payload = serializeWorldForPlayer num fb shuffled (afterLoops num (s.worlds w).ticks.length)
  | _ => True

instance (s : System ι) : (e : Event ι) → Decidable (rendered num fb s e)
  | .world w (.alloc payload) => inferInstanceAs (Decidable (∃ shuffled ∈ shuffles 2,
      payload = serializeWorldForPlayer num fb shuffled (afterLoops num (s.worlds w).ticks.length)))
  | .world _ .test | .world _ .load | .world _ (.reader _) | .world _ .push | .world _ .endTick
  | .world _ .join | .world _ .destroy | .world _ .pop | .world _ .free => isTrue trivial
  | .stopProvider _ | .stop _ | .stopServer | .provider _ _ | .server _ | .release _ => isTrue trivial

variable [DecidableEq ι] {lib : JsonLib} {aes : BlockCipher} {s : System ι}
  {ok : System ι → Event ι → Prop}

variable {num fb}

theorem rendered_of_reach (h : (machine lib aes).Reach ok s)
    (hrendered : ∀ s e, ok s e → rendered num fb s e) :
    ∀ c ∈ s.created, ∃ shuffled ∈ shuffles 2,
      c.message.data = serializeWorldForPlayer num fb shuffled (afterLoops num (c.tick + 1)) := by
  induction h using Machine.Reach.induct with
  | init s hinit =>
      obtain ⟨connected, rfl⟩ := hinit
      exact fun c hc => absurd hc List.not_mem_nil
  | step s e s' hreach ih hok hstep =>
      cases moves_of_step hstep with
      | alloc w payload i n player hpc =>
          obtain ⟨-, -, done, batches, hticks, -, -⟩ :=
            (ticking_of_reach hreach w).current i n (by simp [World.inTick, hpc])
          obtain ⟨shuffled, hshuffled, hpayload⟩ := hrendered s _ hok
          intro c hc
          obtain hc | hc := List.mem_append.1 hc
          · exact ih c hc
          · obtain rfl := List.mem_singleton.1 hc
            refine ⟨shuffled, hshuffled, ?_⟩
            simpa [hticks] using hpayload
      | _ => exact ih

end Rendering

/-- What `client.py` prints for the multipart messages it receives. -/
def views {ι : Type u} {F : Type} (aes : BlockCipher) (fb : FlatBuffers F) (s : System ι) (id : CInt)
    (key : Key) : List (Option (List (Vec3 F))) :=
  (s.seen aes id key).map (Option.map (fun msg => fb.planets msg.2))

variable {D F : Type} [NatCast D] [Add D] [Mul D] [Div D] {num : Numerics D F} {fb : FlatBuffers F}
  {aes : BlockCipher} {web : WebClient} {roster : Roster} {s : System Unit}

/-- Everything is made by the only world. -/
theorem filter_world (cs : List (Creation Unit)) : cs.filter (fun c => c.world = ()) = cs :=
  List.filter_eq_self.2 (fun _ _ => rfl)

/-- A beginning of consecutive numbers. -/
theorem range'_of_prefix {k m : ℕ} {ns : List ℕ} (h : ns <+: List.range' k m) :
    ns.length ≤ m ∧ ns = List.range' k ns.length := by
  have hle : ns.length ≤ m := by simpa using h.length_le
  refine ⟨hle, ?_⟩
  exact (List.prefix_iff_eq_take.1 h).trans (List.take_range'_of_length_ge hle)

/-- **What the client shows.** One world that is not destroyed, no zmq call fails, and a web service
    that answers always in the same way lists the player, under an ID that nobody else has: the client
    shows the planets of consecutive ticks, one view for each tick and each in some order, from the
    first tick over the roster on; and when nothing is on its way, up to the tick before the running one
    at least. A failed call would break this: a tick is lost, or a message has a frame too many. -/
theorem views_of_reach {toDouble : ℤ → ℤ → Option Double} {castOutOfRange : Double → CInt}
    (hserves : Serves toDouble web roster) (hdistinct : (roster.map Prod.fst).Nodup) {id : CInt}
    {key : Key} (hmem : (id, key) ∈ roster) (hflat : RoundTrips num fb)
    (h : (machine (nlohmann toDouble castOutOfRange) aes).Reach
      (fun s e => calmAgainst web s e ∧ rendered num fb s e) s) :
    ∃ k n m,
      (s.worlds ()).ticks.map Tick.players
        = List.replicate k [] ++ List.replicate n roster.players ∧
      List.Forall₂ (fun t view => ∃ planets, view = some planets ∧ planets.Perm (visible num t))
        (List.range' k m) (s.views aes fb id key) ∧
      m ≤ n ∧ ((∀ x, ¬ InTransit s x) → n ≤ m + 1) := by
  have hcalm := h.mono (fun _ _ hok => hok.1)
  obtain ⟨cs, hseen, hbeginning, hall⟩ := seen_of_reach hserves.answers hdistinct hmem hcalm
  obtain ⟨k, n, hticks, -⟩ := settled_of_reach hserves.answers hcalm (fun _ _ hok => hok.2) ()
  obtain ⟨m, hle, hlt, hmade⟩ := createdFor_of_settled hcalm hdistinct hmem hticks
  have hnumbers : (s.createdFor () id).map Creation.tick = List.range' k m := by
    have hfst := congrArg (List.map Prod.fst) hmade
    rw [List.map_map, List.map_map] at hfst
    exact hfst.trans (List.map_id _)
  have hprefix : cs <+: s.createdFor () id := by
    rw [createdFor_eq hcalm, filter_world]
    exact hbeginning.trans (List.prefix_append _ _)
  have hprefixNumbers : cs.map Creation.tick <+: List.range' k m := by
    rw [← hnumbers]
    exact hprefix.map _
  obtain ⟨hlength, hrange⟩ := range'_of_prefix hprefixNumbers
  rw [List.length_map] at hlength hrange
  refine ⟨k, n, cs.length, hticks, ?_, hlength.trans hle, ?_⟩
  · have hviews : s.views aes fb id key = cs.map (fun c => some (fb.planets c.message.data)) := by
      rw [views, hseen, List.map_map]
      rfl
    rw [← hrange, hviews, List.forall₂_map_left_iff, List.forall₂_map_right_iff, List.forall₂_same]
    intro c hc
    have hcreated : c ∈ s.created :=
      mem_of_mem_handed (List.mem_of_mem_filter (hbeginning.subset hc))
    obtain ⟨shuffled, hshuffled, hdata⟩ := rendered_of_reach h (fun _ _ hok => hok.2) c hcreated
    refine ⟨_, rfl, ?_⟩
    rw [hdata]
    exact planets_serializeWorldForPlayer num fb hflat hshuffled c.tick
  · intro hnone
    have hcs : cs.length = m := by
      have hlengths := congrArg List.length hnumbers
      rw [List.length_map, List.length_range', createdFor_eq_of_pending hcalm hnone, filter_world,
        ← hall hnone] at hlengths
      exact hlengths
    omega

/-! ## The first tick

In the first tick all angles are zero. The only coordinates are 0 and 2, a `float` is its four bytes,
and the buffer holds the planets one after the other. -/

/-- The bytes of a `float`, little-endian. -/
abbrev FloatBytes := Byte × Byte × Byte × Byte

/-- As much arithmetic as the first tick needs. -/
def sampleNumerics : Numerics ℚ FloatBytes where
  pi := 3.14159265359
  sin _ := 0
  toFloat x := if x = 2 then (0, 0, 0, 0x40) else (0, 0, 0, 0)
  isZero x := x = (0, 0, 0, 0) ∨ x = (0, 0, 0, 0x80)
  zero := (0, 0, 0, 0)

def bytesOf (x : FloatBytes) : List Byte := [x.1, x.2.1, x.2.2.1, x.2.2.2]

/-- A planet is 12 bytes. -/
def readPlanets : List Byte → List (Vec3 FloatBytes)
  | x₀ :: x₁ :: x₂ :: x₃ :: y₀ :: y₁ :: y₂ :: y₃ :: z₀ :: z₁ :: z₂ :: z₃ :: rest =>
      ⟨(x₀, x₁, x₂, x₃), (y₀, y₁, y₂, y₃), (z₀, z₁, z₂, z₃)⟩ :: readPlanets rest
  | _ => []

/-- A buffer that holds the planets and nothing else. -/
def sampleFlatBuffers : FlatBuffers FloatBytes where
  finish tables shuffled :=
    ((shuffled.filterMap (fun i => tables[i]?)).map (Vec3.map (field sampleNumerics))).flatMap
      (fun p => bytesOf p.x ++ (bytesOf p.y ++ bytesOf p.z))
  planets := readPlanets

theorem roundTrips_sampleFlatBuffers : RoundTrips sampleNumerics sampleFlatBuffers := by
  intro tables shuffled hlength hshuffled
  obtain ⟨first, second, rfl⟩ := List.length_eq_two.1 hlength
  have hcases : shuffled ∈ [[0, 1], [1, 0]] := hshuffled
  obtain rfl | hcases := List.mem_cons.1 hcases
  · rfl
  · obtain rfl := List.mem_singleton.1 hcases
    rfl

/-- The buffer of the first tick. -/
def samplePayload (shuffled : List ℕ) : List Byte :=
  serializeWorldForPlayer sampleNumerics sampleFlatBuffers shuffled (afterLoops sampleNumerics 1)

/-- A refresh, one tick for both players, and the first batch sent. -/
def gameRun : List (Event Unit) :=
  refreshEvents plainLib GravioliWebClient.get ()
    ++ tickEvents () true [samplePayload [1, 0], samplePayload [0, 1]]
    ++ [.server .enter, .server .test] ++ batchEvents sampleEnv 1

theorem isSome_gameRun :
    ((machine plainLib sampleCipher).exec (fun s e => calmAgainst GravioliWebClient.get s e ∧
      rendered sampleNumerics sampleFlatBuffers s e) (start true) gameRun).isSome := by
  decide +kernel

/-- The state after `gameRun`. -/
def gameState : System Unit :=
  ((machine plainLib sampleCipher).exec (fun s e => calmAgainst GravioliWebClient.get s e ∧
    rendered sampleNumerics sampleFlatBuffers s e) (start true) gameRun).get isSome_gameRun

/-- The client of the repository has the ID 0 and shows the first tick. -/
theorem views_gameRun :
    ∃ k n m,
      (gameState.worlds ()).ticks.map Tick.players
        = List.replicate k [] ++ List.replicate n GravioliWebClient.roster.players ∧
      List.Forall₂ (fun t view => ∃ planets, view = some planets ∧
          planets.Perm (visible sampleNumerics t))
        (List.range' k m) (gameState.views sampleCipher sampleFlatBuffers 0 (GravioliWebClient.key 0)) ∧
      m ≤ n ∧ ((∀ x, ¬ InTransit gameState x) → n ≤ m + 1) :=
  views_of_reach (GravioliWebClient.serves _) (by decide) (by decide) roundTrips_sampleFlatBuffers
    (Machine.reach_of_exec (M := machine plainLib sampleCipher) ⟨true, rfl⟩ gameRun isSome_gameRun)

end System

end Gravioli
