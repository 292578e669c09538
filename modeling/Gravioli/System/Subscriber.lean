import Gravioli.Server.Subscription
import Gravioli.System.Creations
import Gravioli.System.Keys
import Gravioli.System.Service

set_option autoImplicit false

/-! # What a player sees

A player runs a client with its ID and its key (`client.py`): a `SUB` socket with the topic of the ID,
and every multipart message decrypted with the key. Against a web service that lists the player, this
client reads nothing but what the worlds serialized for the player, and of each world without a gap:
the ticks from the first one over the roster up to the last one whose message has left the server, one
message each and in their order (`follows_of_reach`). -/

namespace Gravioli

universe u

open Multipart (group)

/-! ## Ticks over a roster -/

namespace World

theorem filter_numbered {α : Type} (P : α → Bool) (lists : List (List α)) :
    (numbered lists).filter (fun e => P e.2) = numbered (lists.map (List.filter P)) := by
  induction lists using List.reverseRecOn with
  | nil => rfl
  | append_singleton lists list ih =>
      rw [numbered_concat, List.filter_append, ih, List.map_append, List.map_singleton, numbered_concat,
        List.length_map, List.filter_map]
      rfl

theorem numbered_replicate_nil {α : Type} (k : ℕ) : numbered (List.replicate k ([] : List α)) = [] := by
  induction k with
  | zero => rfl
  | succ k ih => rw [List.replicate_succ', numbered_concat, ih, List.map_nil, List.append_nil]

/-- One element in each of the last `m` lists. -/
theorem numbered_replicate {α : Type} (k m : ℕ) (a : α) :
    numbered (List.replicate k [] ++ List.replicate m [a])
      = (List.range' k m).map (fun t => (t, a)) := by
  induction m with
  | zero => rw [List.replicate_zero, List.append_nil, numbered_replicate_nil, List.range'_zero]; rfl
  | succ m ih =>
      rw [List.replicate_succ', ← List.append_assoc, numbered_concat, ih, List.range'_concat,
        List.map_append]
      simp

/-- In a tick the world is somewhere in the last list. -/
theorem served_of_inTick {x : World} (h : x.Ticking) (hin : x.inTick ≠ none) :
    ∃ lists list i, x.ticks.map Tick.players = lists ++ [list] ∧ x.served = lists ++ [list.take i] := by
  obtain ⟨⟨i, n⟩, hin⟩ := Option.ne_none_iff_exists'.1 hin
  obtain ⟨-, -, done, batches, hticks, -, -⟩ := h.current i n hin
  have hpast : x.pastTicks = done := by simp [pastTicks, hin, hticks]
  obtain ⟨i, hrunning⟩ : ∃ i, x.running = [x.provider.data.players.take i] := by
    cases hpc : x.pc with
    | iterate i n => exact ⟨i, by simp only [running, hpc]⟩
    | push i n msgs => exact ⟨i + 1, by simp only [running, hpc]⟩
    | _ => exact absurd hin (by simp [inTick, hpc])
  exact ⟨done.map Tick.players, x.provider.data.players, i, by simp [hticks],
    by rw [served, hpast, hrunning]⟩

/-- When each list has one entry of a kind, from some tick on, the entries of this kind that have
    their message are those of consecutive ticks. -/
theorem filter_served {x : World} (h : x.Ticking) (P : Player → Bool) {player : Player} {k n : ℕ}
    (hticks : (x.ticks.map Tick.players).map (List.filter P)
      = List.replicate k [] ++ List.replicate n [player]) :
    ∃ m, m ≤ n ∧ n ≤ m + 1 ∧
      (numbered x.served).filter (fun e => P e.2) = (List.range' k m).map (fun t => (t, player)) := by
  rw [filter_numbered]
  by_cases hin : x.inTick = none
  · refine ⟨n, le_refl n, Nat.le_succ n, ?_⟩
    rw [(served_of_inTick_none hin).1, hticks, numbered_replicate]
  obtain ⟨lists, list, i, hlists, hserved⟩ := served_of_inTick h hin
  rw [hlists, List.map_append, List.map_singleton] at hticks
  rw [hserved, List.map_append, List.map_singleton]
  have htake : (list.take i).filter P <+: list.filter P := (List.take_prefix i list).filter P
  cases n with
  | zero =>
      -- no list has an entry of the kind so far, the running one included
      refine ⟨0, le_refl 0, Nat.zero_le 1, ?_⟩
      cases k with
      | zero => exact absurd hticks (by simp)
      | succ k =>
          rw [List.replicate_zero, List.append_nil, List.replicate_succ'] at hticks
          obtain ⟨hbefore, hlist⟩ := List.append_inj' hticks rfl
          rw [List.singleton_inj.1 hlist, List.prefix_nil] at htake
          rw [htake, numbered_concat, hbefore, numbered_replicate_nil]
          rfl
  | succ n =>
      rw [List.replicate_succ', ← List.append_assoc] at hticks
      obtain ⟨hbefore, hlist⟩ := List.append_inj' hticks rfl
      rw [List.singleton_inj.1 hlist, List.prefix_cons_iff] at htake
      -- the entry of the running tick is served, or not yet
      obtain hnil | ⟨rest, hone, hrest⟩ := htake
      · refine ⟨n, Nat.le_succ n, le_refl _, ?_⟩
        rw [hnil, numbered_concat, hbefore, numbered_replicate, List.map_nil, List.append_nil]
      · refine ⟨n + 1, le_refl _, Nat.le_succ _, ?_⟩
        rw [hone, List.prefix_nil.1 hrest, hbefore, List.append_assoc, ← List.replicate_succ',
          numbered_replicate]

end World

/-- A roster with distinct IDs has one player with an ID. -/
theorem filter_players {roster : Roster} (hdistinct : (roster.map Prod.fst).Nodup) {id : CInt}
    {key : Key} (hmem : (id, key) ∈ roster) :
    roster.players.filter (fun player => player.id = id.signExtend 64)
      = [⟨id.signExtend 64, key⟩] := by
  induction roster with
  | nil => exact absurd hmem List.not_mem_nil
  | cons entry roster ih =>
      obtain ⟨hentry, hdistinct⟩ := List.nodup_cons.1 hdistinct
      have hcons : Roster.players (entry :: roster)
          = ⟨entry.1.signExtend 64, entry.2⟩ :: Roster.players roster := rfl
      rw [hcons]
      obtain rfl | hmem := List.mem_cons.1 hmem
      · rw [List.filter_cons_of_pos (by simp), List.filter_eq_nil_iff.2 ?_]
        intro player hplayer
        obtain ⟨entry, hin, rfl⟩ := List.mem_map.1 hplayer
        have hne : entry.1 ≠ id := fun heq => hentry (List.mem_map.2 ⟨entry, hin, heq⟩)
        simpa using fun heq => hne (signExtend_injective heq)
      · have hne : entry.1 ≠ id := fun heq => hentry (List.mem_map.2 ⟨_, hmem, heq.symm⟩)
        rw [List.filter_cons_of_neg (by simpa using fun heq => hne (signExtend_injective heq)),
          ih hdistinct hmem]

namespace System

variable {ι : Type u}

/-! ## Messages on the wire -/

/-- The multipart message for an allocation. -/
def Bears (aes : BlockCipher) (c : Creation ι) (m : List (List Byte)) : Prop :=
  ∃ iv : IV, m = [topicBytes (c.player.id.setWidth 32), iv.toList,
    Crypto.encryptWith aes c.message.data c.message.key iv]

variable {aes : BlockCipher} {s : System ι}

theorem bears_of_carries {sent : List Slot} {ms : List (List (List Byte))}
    (h : List.Forall₂ (Carries aes s) sent ms) :
    List.Forall₂ (Bears aes) (s.creations (sent.map Slot.ref)) ms := by
  induction h with
  | nil => exact .nil
  | cons hcarries _ ih =>
      obtain ⟨c, iv, ⟨hc, htopic⟩, hm⟩ := hcarries
      rw [List.map_cons, creations, List.filterMap_cons_some hc]
      exact .cons ⟨iv, by rw [hm, htopic]⟩ ih

theorem Bears.subscribed {c : Creation ι} {m : List (List Byte)} (h : Bears aes c m) (id : CInt) :
    subscribed (topicOf id) m = decide (c.player.id.setWidth 32 = id) := by
  obtain ⟨iv, rfl⟩ := h
  rw [Gravioli.subscribed, topicOf_eq, Bool.eq_iff_iff, List.isPrefixOf_iff_prefix,
    topicBytes_isPrefix_iff, decide_eq_true_eq, eq_comm]

theorem Bears.client {c : Creation ι} {m : List (List Byte)} (h : Bears aes c m) :
    client aes c.message.key m = some ((c.player.id.setWidth 32).toNat, c.message.data) := by
  obtain ⟨iv, rfl⟩ := h
  simp only [Gravioli.client, Vector.length_toList, ↓reduceDIte, beValue_topicBytes, Cfb.toBlock_toList,
    Crypto.decrypt_encryptWith]

/-- What a client with this ID and this key makes of the frames on the socket. -/
def seen (aes : BlockCipher) (s : System ι) (id : CInt) (key : Key) : List (Option (ℕ × List Byte)) :=
  ((group s.server.publisher.frames).done.filter (subscribed (topicOf id))).map (client aes key)

variable [DecidableEq ι] {lib : JsonLib} {web : WebClient} {roster : Roster}
  {ok : System ι → Event ι → Prop}

/-- The allocations of a world for a player. -/
def createdFor (s : System ι) (w : ι) (id : CInt) : List (Creation ι) :=
  (s.createdBy w).filter (fun c => c.player.id = id.signExtend 64)

/-- All players a message was ever made for are on the roster, and the message has their key. -/
theorem player_of_created (hanswers : Answers lib web roster) (h : (machine lib aes).Reach ok s)
    (hweb : ∀ s e, ok s e → answeredBy web s e) {c : Creation ι} (hc : c ∈ s.created) :
    c.player ∈ roster.players ∧ c.message.key = c.player.key := by
  obtain ⟨u, f, horigin⟩ := origin_of_reach h c hc
  obtain ⟨hres, hfetches⟩ :=
    (truthful_of_reach h hweb c.world).updates u (List.mem_of_getElem? horigin.update)
  refine ⟨?_, horigin.key⟩
  rw [← SharedProvider.players_of_complete hanswers horigin.complete hres hfetches,
    horigin.complete.players]
  exact List.mem_filterMap.2 ⟨f, horigin.fetch, horigin.player⟩

/-- What a player makes of the frames, world by world. -/
structure Follows (aes : BlockCipher) (s : System ι) (roster : Roster) (id : CInt) (key : Key)
    (cs : List (Creation ι)) : Prop where
  /-- The client reads the payloads of the messages `cs`, under its own ID. -/
  seen : s.seen aes id key = cs.map (fun c => some (id.toNat, c.message.data))
  /-- Those of a world are the first ones it made for the player, in the order it made them, -/
  prefixes : ∀ w, cs.filter (fun c => c.world = w) <+: s.createdFor w id
  /-- and all of them when nothing is on its way. -/
  all : (∀ x, ¬ InTransit s x) → ∀ w, cs.filter (fun c => c.world = w) = s.createdFor w id
  /-- A world makes one message for the player in each tick over the roster. -/
  ticks : ∀ w, ∃ k n m,
    (s.worlds w).ticks.map Tick.players = List.replicate k [] ++ List.replicate n roster.players ∧
      m ≤ n ∧ n ≤ m + 1 ∧ (s.createdFor w id).map (fun c => (c.tick, c.player))
        = (List.range' k m).map (fun t => (t, ⟨id.signExtend 64, key⟩))

/-- The ticks of a world and its messages for a player. -/
theorem createdFor_of_settled (h : (machine lib aes).Reach ok s)
    (hdistinct : (roster.map Prod.fst).Nodup) {id : CInt} {key : Key} (hmem : (id, key) ∈ roster)
    {w : ι} {k n : ℕ}
    (hticks : (s.worlds w).ticks.map Tick.players
      = List.replicate k [] ++ List.replicate n roster.players) :
    ∃ m, m ≤ n ∧ n ≤ m + 1 ∧ (s.createdFor w id).map (fun c => (c.tick, c.player))
      = (List.range' k m).map (fun t => (t, ⟨id.signExtend 64, key⟩)) := by
  have hlists : ((s.worlds w).ticks.map Tick.players).map
      (List.filter (fun player => player.id = id.signExtend 64))
        = List.replicate k [] ++ List.replicate n [⟨id.signExtend 64, key⟩] := by
    rw [hticks, List.map_append, List.map_replicate, List.map_replicate,
      filter_players hdistinct hmem]
    rfl
  obtain ⟨m, hle, hlt, hserved⟩ := World.filter_served (ticking_of_reach h w) _ hlists
  refine ⟨m, hle, hlt, ?_⟩
  rw [← hserved, ← (made_of_reach h w).served, List.filter_map]
  rfl

omit [DecidableEq ι] in
/-- The batches pushed, message by message. -/
theorem handed_eq (s : System ι) :
    s.handed = s.creations ((slots (s.pushed.map Prod.snd)).map Slot.ref) := by
  have hrefs : ∀ b : Messages, b.slots.map Slot.ref = b.refs := fun b => by
    rw [Messages.slots, List.map_map]
    rfl
  simp only [handed, creations, slots, List.map_flatMap, List.flatMap_map, List.filterMap_flatMap, hrefs]

/-- What is on the wire is a beginning of what was handed over, and all of it when nothing is on its
    way. -/
theorem sent_of_reach [Fintype ι] (h : (machine lib aes).Reach calm s) :
    ∃ cs, List.Forall₂ (Bears aes) cs (group s.server.publisher.frames).done ∧ cs <+: s.handed ∧
      ((∀ x, ¬ InTransit s x) → cs = s.handed) := by
  obtain ⟨sent, hsent⟩ := outgoing_of_reach h (fun _ _ hok => hok.1)
  have horder : s.pushed.map Prod.snd = s.processed ++ s.serving ++ s.queue.queue :=
    inOrder_of_reach (h.mono (fun _ _ hok => hok.2))
  have hslots : slots (s.pushed.map Prod.snd)
      = sent ++ (s.serverHand ++ slots s.queue.queue) := by
    rw [horder, slots, List.flatMap_append, ← slots, hsent.popped, List.append_assoc]
    rfl
  refine ⟨_, bears_of_carries hsent.done, ?_, ?_⟩
  · rw [handed_eq, hslots, List.map_append]
    exact (List.prefix_append _ _).filterMap _
  · intro hnone
    have hrest : s.serverHand ++ slots s.queue.queue = [] :=
      List.eq_nil_iff_forall_not_mem.2 (fun x hx => hnone x
        ((List.mem_append.1 hx).elim (fun hx => .inr (.inr hx)) (fun hx => .inr (.inl hx))))
    rw [handed_eq, hslots, hrest, List.append_nil]

omit [DecidableEq ι] in
/-- The client of a player decrypts the messages for this player. -/
theorem map_client {id : CInt} {key : Key} {cs : List (Creation ι)} {ms : List (List (List Byte))}
    (h : List.Forall₂ (Bears aes) cs ms)
    (hcs : ∀ c ∈ cs, c.player.id.setWidth 32 = id ∧ c.message.key = key) :
    ms.map (client aes key) = cs.map (fun c => some (id.toNat, c.message.data)) := by
  induction h with
  | nil => rfl
  | cons hbears _ ih =>
      obtain ⟨⟨hid, hkey⟩, hcs⟩ := List.forall_mem_cons.1 hcs
      rw [List.map_cons, List.map_cons, ih hcs, ← hkey, hbears.client, hid]

omit [DecidableEq ι] in
/-- The messages with the topic of a player are those for the player. -/
theorem filter_topic (hplayer : ∀ c ∈ s.created, c.player ∈ roster.players) {cs : List (Creation ι)}
    (hcs : cs ⊆ s.created) (id : CInt) :
    cs.filter (fun c => c.player.id.setWidth 32 = id)
      = cs.filter (fun c => c.player.id = id.signExtend 64) := by
  refine List.filter_congr (fun c hc => ?_)
  obtain ⟨entry, -, hentry⟩ := List.mem_map.1 (hplayer c (hcs hc))
  rw [← hentry, World.setWidth_signExtend, decide_eq_decide]
  exact ⟨fun heq => by rw [heq], signExtend_injective⟩

omit [DecidableEq ι] in
/-- They are encrypted with the player's key. -/
theorem own_of_mem_filter
    (hplayer : ∀ c ∈ s.created, c.player ∈ roster.players ∧ c.message.key = c.player.key)
    (hdistinct : (roster.map Prod.fst).Nodup) {id : CInt} {key : Key} (hmem : (id, key) ∈ roster)
    {cs : List (Creation ι)} (hcs : cs ⊆ s.created) {c : Creation ι}
    (hc : c ∈ cs.filter (fun c => c.player.id = id.signExtend 64)) :
    c.player.id.setWidth 32 = id ∧ c.message.key = key := by
  obtain ⟨hc, hid⟩ := List.mem_filter.1 hc
  obtain ⟨hroster, hkey⟩ := hplayer c (hcs hc)
  have hown : c.player ∈ roster.players.filter (fun player => player.id = id.signExtend 64) :=
    List.mem_filter.2 ⟨hroster, hid⟩
  rw [filter_players hdistinct hmem, List.mem_singleton] at hown
  rw [hkey, hown]
  exact ⟨World.setWidth_signExtend id, rfl⟩

/-- No zmq call fails, no world is destroyed, and `web` answers all requests. -/
def calmAgainst (web : WebClient) (s : System ι) (e : Event ι) : Prop := calm s e ∧ answeredBy web s e

instance (web : WebClient) (s : System ι) (e : Event ι) : Decidable (calmAgainst web s e) :=
  inferInstanceAs (Decidable (_ ∧ _))

/-- A client reads the messages handed over for its player, up to those that are on their way. -/
theorem seen_of_reach [Fintype ι] (hanswers : Answers lib web roster)
    (hdistinct : (roster.map Prod.fst).Nodup) {id : CInt} {key : Key} (hmem : (id, key) ∈ roster)
    (h : (machine lib aes).Reach (calmAgainst web) s) :
    ∃ cs, s.seen aes id key = cs.map (fun c => some (id.toNat, c.message.data)) ∧
      cs <+: s.handed.filter (fun c => c.player.id = id.signExtend 64) ∧
      ((∀ x, ¬ InTransit s x) → cs = s.handed.filter (fun c => c.player.id = id.signExtend 64)) := by
  have hplayer : ∀ c ∈ s.created, c.player ∈ roster.players ∧ c.message.key = c.player.key :=
    fun c hc => player_of_created hanswers h (fun _ _ hok => hok.2) hc
  obtain ⟨cs, hbears, hbeginning, hall⟩ := sent_of_reach (h.mono (fun _ _ hok => hok.1))
  have hcs : cs ⊆ s.created := fun c hc => mem_of_mem_handed (hbeginning.subset hc)
  refine ⟨cs.filter (fun c => c.player.id = id.signExtend 64), ?_, hbeginning.filter _, ?_⟩
  · -- the socket goes by the topic, `createdFor` by the ID: for the players of a roster it is the same
    have hwire := List.rel_filter (p := fun c : Creation ι => decide (c.player.id.setWidth 32 = id))
      (q := subscribed (topicOf id)) (fun c m hcm => Bool.eq_iff_iff.1 (hcm.subscribed id).symm)
      hbears
    rw [filter_topic (fun c hc => (hplayer c hc).1) hcs] at hwire
    exact map_client hwire (fun c hc => own_of_mem_filter hplayer hdistinct hmem hcs hc)
  · intro hnone
    rw [hall hnone]

/-- What a world has made for a player, in terms of what it handed over. -/
theorem createdFor_eq (h : (machine lib aes).Reach ok s) (w : ι) (id : CInt) :
    s.createdFor w id
      = (s.handed.filter (fun c => c.player.id = id.signExtend 64)).filter (fun c => c.world = w)
        ++ (s.creations (s.worlds w).pending).filter (fun c => c.player.id = id.signExtend 64) := by
  rw [createdFor, handed_of_reach h w, List.filter_append, List.filter_comm]

/-- With empty hands. -/
theorem createdFor_eq_of_pending (h : (machine lib aes).Reach ok s) (hnone : ∀ x, ¬ InTransit s x)
    (w : ι) (id : CInt) :
    s.createdFor w id
      = (s.handed.filter (fun c => c.player.id = id.signExtend 64)).filter (fun c => c.world = w) := by
  have hhand : (s.worlds w).hand = [] :=
    List.eq_nil_iff_forall_not_mem.2 (fun x hx => hnone x (.inl ⟨w, hx⟩))
  rw [createdFor_eq h, World.pending_of_hand hhand, creations, List.filterMap_nil, List.filter_nil,
    List.append_nil]

/-- **What a player sees.** Against a web service that answers always in the same way and lists the
    player, under an ID that nobody else has, in every interleaving in which no zmq call fails and no
    world is destroyed: on the frames put on the socket, a client with the player's topic and key reads
    the payloads that were serialized for this player, and of each world those of consecutive ticks from
    the first one over the roster on. -/
theorem follows_of_reach [Fintype ι] {toDouble : ℤ → ℤ → Option Double}
    {castOutOfRange : Double → CInt} (hserves : Serves toDouble web roster)
    (hdistinct : (roster.map Prod.fst).Nodup) {id : CInt} {key : Key} (hmem : (id, key) ∈ roster)
    (h : (machine (nlohmann toDouble castOutOfRange) aes).Reach (calmAgainst web) s) :
    ∃ cs, Follows aes s roster id key cs := by
  obtain ⟨cs, hseen, hbeginning, hall⟩ := seen_of_reach hserves.answers hdistinct hmem h
  refine ⟨cs, hseen, ?_, ?_, ?_⟩
  · intro w
    rw [createdFor_eq h]
    exact (hbeginning.filter _).trans (List.prefix_append _ _)
  · intro hnone w
    rw [createdFor_eq_of_pending h hnone, hall hnone]
  · intro w
    obtain ⟨k, n, hticks, -⟩ := settled_of_reach hserves.answers h (fun _ _ hok => hok.2) w
    obtain ⟨m, hcreatedFor⟩ := createdFor_of_settled h hdistinct hmem hticks
    exact ⟨k, n, m, hticks, hcreatedFor⟩

/-- Three of the four messages of `serviceRun` are sent. -/
def subscriberRun : List (Event Unit) :=
  serviceRun ++ [.server .enter, .server .test] ++ batchEvents sampleEnv 1 ++ batchEvents sampleEnv 1
    ++ batchEvents sampleEnv 1

theorem isSome_subscriberRun :
    ((machine plainLib sampleCipher).exec (calmAgainst GravioliWebClient.get) (start true)
      subscriberRun).isSome := by
  decide +kernel

/-- Player 1 has seen one tick. -/
theorem follows_subscriberRun :
    ∃ cs, Follows sampleCipher (((machine plainLib sampleCipher).exec
      (calmAgainst GravioliWebClient.get) (start true) subscriberRun).get isSome_subscriberRun)
      GravioliWebClient.roster 1 (GravioliWebClient.key 1) cs :=
  follows_of_reach (GravioliWebClient.serves _) (by decide) (by decide)
    (Machine.reach_of_exec (M := machine plainLib sampleCipher) ⟨true, rfl⟩ subscriberRun
      isSome_subscriberRun)

end System

end Gravioli
