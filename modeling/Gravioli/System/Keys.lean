import Gravioli.System.Outgoing
import Gravioli.System.Threads

set_option autoImplicit false

/-! # Key isolation

Where the key of a published message comes from. Every allocation is traced back to the response its
player was read from (`Origin`): at the moment of the allocation the list the world iterates over is
the one installed last, that is the result of a completed update, and nothing of this record changes
afterwards. `Outgoing` says that the message on the wire is the one that was made, under the topic
of its player. -/

namespace Gravioli

universe u

open Multipart (group)

/-! ## The ID of a player and its topic -/

theorem toInt_emod (id : CInt) : id.toInt % 2 ^ 32 = id.toNat := by
  have h := BitVec.toNat_ofInt (n := 32) id.toInt
  rw [BitVec.ofInt_toInt] at h
  omega

theorem topicBytes_injective {T T' : BitVec 32} (h : topicBytes T = topicBytes T') : T = T' := by
  apply BitVec.eq_of_toNat_eq
  rw [← beValue_topicBytes, h, beValue_topicBytes]

namespace System

section Records

variable {ι : Type u}

/-- Where the key of the allocation `c` comes from: the answer `f` to a request of the completed
    update `u`. -/
structure Origin (lib : JsonLib) (s : System ι) (c : Creation ι) (u : Update) (f : Fetch) : Prop where
  /-- The list of `u` is the one installed last when the message was made, -/
  positive : 0 < c.installs
  update : (s.worlds c.world).provider.updates[c.installs - 1]? = some u
  complete : u.Complete lib
  installed : ((s.worlds c.world).provider.installed.map (·.players))[c.installs - 1]? = some u.players
  /-- and the one used by the tick that made it. -/
  tick : ((s.worlds c.world).ticks.map Tick.players)[c.tick]? = some u.players
  /-- The player is what the answer says, -/
  fetch : f ∈ u.fetches
  player : f.player? lib = some c.player
  /-- and the key is the player's. -/
  key : c.message.key = c.player.key

/-- Nothing of this record changes. -/
theorem Origin.mono {lib : JsonLib} {s s' : System ι} {c : Creation ι} {u : Update} {f : Fetch}
    (h : Origin lib s c u f)
    (hupdates : (s.worlds c.world).provider.updates <+: (s'.worlds c.world).provider.updates)
    (hinstalled : (s.worlds c.world).provider.installed <+: (s'.worlds c.world).provider.installed)
    (hticks : (s.worlds c.world).ticks.map Tick.players
      <+: (s'.worlds c.world).ticks.map Tick.players) :
    Origin lib s' c u f :=
  { h with
    update := getElem?_mono hupdates h.update
    installed := getElem?_mono (hinstalled.map _) h.installed
    tick := getElem?_mono hticks h.tick }

end Records

variable {ι : Type u} [DecidableEq ι] {lib : JsonLib} {aes : BlockCipher}
  {s s' : System ι} {ok : System ι → Event ι → Prop}

/-! ## Every allocation has an origin -/

/-- The world is in the middle of a tick, so the list it iterates over is the one of this tick and
    the one installed last. -/
theorem origin_of_alloc (h : (machine lib aes).Reach ok s) {w : ι} {i n : ℕ} {player : Player}
    (payload : List Byte) (hpc : (s.worlds w).pc = .iterate i n)
    (hplayer : (s.worlds w).provider.data.players[i]? = some player) :
    ∃ u f, Origin lib s ⟨w, player, (s.worlds w).ticks.length - 1,
      (s.worlds w).provider.installed.length, ⟨player.key, payload⟩⟩ u f := by
  have hmem := List.mem_of_getElem? hplayer
  have hcurrent := SharedProvider.current_of_reach (provider_reach h w)
  obtain ⟨-, -, done, batches, hticks, -, -⟩ :=
    (ticking_of_reach h w).current i n (by simp [World.inTick, hpc])
  rcases SharedProvider.players_of_reach (provider_reach h w) with ⟨-, hnil⟩ | ⟨k, c, hc, hk, hplayers⟩
  · rw [hnil] at hmem
    exact absurd hmem List.not_mem_nil
  · have hcomplete := (SharedProvider.collected_of_reach (provider_reach h w)).completed c
      (List.mem_of_getElem? hc)
    have hfetch := hmem
    rw [hplayers, hcomplete.players] at hfetch
    obtain ⟨f, hf, hread⟩ := List.mem_filterMap.1 hfetch
    refine ⟨c.toUpdate, f, ?_⟩
    constructor
    · show 0 < (s.worlds w).provider.installed.length
      omega
    · show (s.worlds w).provider.updates[(s.worlds w).provider.installed.length - 1]? = _
      rw [← hk, Nat.add_sub_cancel, SharedProvider.updates, List.getElem?_map, hc]
      rfl
    · exact hcomplete
    · show ((s.worlds w).provider.installed.map _)[(s.worlds w).provider.installed.length - 1]? = _
      unfold SharedProvider.Current at hcurrent
      rw [hplayers, List.getLast?_eq_getElem?] at hcurrent
      rw [List.getElem?_map, hcurrent]
      cases hlast : (s.worlds w).provider.installed[(s.worlds w).provider.installed.length - 1]? with
      | none => rw [List.getElem?_eq_none_iff] at hlast; omega
      | some list => rfl
    · show ((s.worlds w).ticks.map _)[(s.worlds w).ticks.length - 1]? = _
      simp [hticks, hplayers]
    · exact hf
    · exact hread
    · rfl

theorem Origin.step {e : Event ι} {c : Creation ι} {u : Update} {f : Fetch} (h : Origin lib s c u f)
    (hreach : (machine lib aes).Reach ok s) (hmove : Moves lib aes s e s') : Origin lib s' c u f := by
  rcases worlds_of_moves hmove c.world with hsame | hsteps
  · refine h.mono ?_ ?_ ?_ <;> rw [hsame]
  · obtain ⟨hupdates, hinstalled⟩ := World.history_step hsteps
    exact h.mono hupdates hinstalled (World.ticks_step (ticking_of_reach hreach c.world) hsteps)

theorem origin_of_reach (h : (machine lib aes).Reach ok s) :
    ∀ c ∈ s.created, ∃ u f, Origin lib s c u f := by
  induction h using Machine.Reach.induct with
  | init s hinit =>
      obtain ⟨connected, rfl⟩ := hinit
      exact fun c hc => absurd hc List.not_mem_nil
  | step s e s' hreach ih hok hstep =>
      intro c hc
      have hmove := moves_of_step hstep
      have hbefore : ∃ u f, Origin lib s c u f := by
        rcases created_cases hmove with hsame | ⟨w, i, n, player, payload, rfl, hpc, hplayer⟩
        · exact ih c (hsame ▸ hc)
        · rcases List.mem_append.1 hc with hc | hc
          · exact ih c hc
          · obtain rfl := List.mem_singleton.1 hc
            exact origin_of_alloc hreach payload hpc hplayer
      obtain ⟨u, f, horigin⟩ := hbefore
      exact ⟨u, f, horigin.step hreach hmove⟩

/-! ## Key isolation -/

/-- What is said about a multipart message `m` on the wire, for the topic `topicID`: the allocation
    `c` it carries and the origin of its key. -/
structure Isolated (lib : JsonLib) (aes : BlockCipher) (s : System ι) (topicID : BitVec 32)
    (m : List (List Byte)) (c : Creation ι) (u : Update) (f : Fetch) : Prop where
  /-- The ciphertext is what the world serialized for the player of the topic, under this player's
      key. -/
  created : c ∈ s.created
  player : c.player.id.setWidth 32 = topicID
  encrypted : ∃ iv : IV, m
    = [topicBytes topicID, iv.toList, Crypto.encryptWith aes c.message.data c.player.key iv]
  /-- The key was read from a response to the URL of the one ID with this topic, -/
  read : playerOfResponse lib f.id f.response = some c.player
  status : f.response.statusCode = 200
  url : f.url = "player/" ++ toString f.id.toInt
  topic : ∀ i : CInt, i.toInt % 2 ^ 32 = topicID.toNat ↔ i = f.id
  /-- a response of the update whose list was installed when the message was made and used by the
      tick that made it. -/
  origin : Origin lib s c u f

/-- What is on the wire for a slot is isolated. -/
theorem Carries.isolated (h : (machine lib aes).Reach ok s) {x : Slot} {m : List (List Byte)}
    (hcarries : Carries aes s x m) : ∃ c u f, Isolated lib aes s x.topicID m c u f := by
  obtain ⟨c, iv, ⟨hc, htopic⟩, hm⟩ := hcarries
  have hmem := List.mem_of_getElem? hc
  obtain ⟨u, f, horigin⟩ := origin_of_reach h c hmem
  obtain ⟨hstatus, hid⟩ := playerOfResponse_eq_some horigin.player
  have htopicID : x.topicID = f.id := by rw [htopic, hid, World.setWidth_signExtend]
  refine ⟨c, u, f, hmem, htopic.symm, ⟨iv, by rw [hm, horigin.key]⟩, horigin.player, hstatus, rfl, ?_,
    horigin⟩
  intro i
  rw [toInt_emod, htopicID, Nat.cast_inj]
  exact BitVec.toNat_inj

/-- **Key isolation.** When no zmq call fails, all frames on the wire belong to complete multipart
    messages. Each of these has one topic, and its ciphertext was produced with the key read from a
    response for the player with this topic, from the list its tick used. -/
theorem key_isolation [Fintype ι] (h : (machine lib aes).Reach zmqOk s) :
    (group s.server.publisher.frames).opened = [] ∧
      ∀ m ∈ (group s.server.publisher.frames).done,
        (∃! topicID, m.head? = some (topicBytes topicID)) ∧
        ∀ topicID, m.head? = some (topicBytes topicID) →
          ∃ c u f, Isolated lib aes s topicID m c u f := by
  obtain ⟨sent, hopen, hopened, hdone⟩ := outgoing_of_reach h (fun _ _ hok => hok)
  refine ⟨hopened, ?_⟩
  intro m hm
  obtain ⟨x, hcarries⟩ : ∃ x, Carries aes s x m := by
    obtain ⟨k, hk, rfl⟩ := List.mem_iff_getElem.1 hm
    have hlen := hdone.length_eq
    exact ⟨sent[k], hdone.get (by omega) hk⟩
  have hhead : m.head? = some (topicBytes x.topicID) := by
    obtain ⟨c, iv, -, rfl⟩ := hcarries
    rfl
  have htopic : ∀ topicID, m.head? = some (topicBytes topicID) → topicID = x.topicID := by
    intro topicID htopicID
    rw [hhead, Option.some.injEq] at htopicID
    exact (topicBytes_injective htopicID).symm
  refine ⟨⟨x.topicID, hhead, htopic⟩, ?_⟩
  intro topicID htopicID
  rw [htopic topicID htopicID]
  exact hcarries.isolated h

/-- The keys of the two messages published in `fullRun`. -/
theorem key_isolation_fullRun :
    (group finalState.server.publisher.frames).opened = [] ∧
      ∀ m ∈ (group finalState.server.publisher.frames).done,
        (∃! topicID, m.head? = some (topicBytes topicID)) ∧
        ∀ topicID, m.head? = some (topicBytes topicID) →
          ∃ c u f, Isolated gravioliLib sampleCipher finalState topicID m c u f :=
  key_isolation reach_finalState

end System

end Gravioli
