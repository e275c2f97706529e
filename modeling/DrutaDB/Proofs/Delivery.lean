import DrutaDB.Proofs.Subscriptions

/-!
# Delivery

Which connections a message goes to, told from the history alone: a connection listens to a
channel if its last move about it was to join it (`listening`).  The channels `clients_map` keeps
for a client are the ones it listens to (`run_tracks`), so a message goes to the connections that
listen, once each (`publish_delivers`).
-/

namespace DrutaDB

open Machine Decimal Run

/-! ## Moves -/

/-- What a connection does about a channel. -/
inductive Move
  | join (channel : Bytes)
  | leave (channel : Bytes)
  deriving DecidableEq

def Move.channel : Move → Bytes
  | .join channel => channel
  | .leave channel => channel

/-- Whether the last of the moves about the channel joins it. -/
def listening (moves : List Move) (channel : Bytes) : Prop :=
  (moves.filter (·.channel = channel)).getLast? = some (.join channel)

instance (moves : List Move) (channel : Bytes) : Decidable (listening moves channel) :=
  inferInstanceAs (Decidable (_ = _))

/-- The channels the moves end up in. -/
def joined (moves : List Move) : List Bytes :=
  (moves.map Move.channel).dedup.filter (listening moves ·)

/-- The moves of SUBSCRIBE: up to the first channel that would be one too many. -/
def accepted : List Move → List Bytes → List Move
  | _, [] => []
  | moves, channel :: channels =>
    if listening moves channel ∨ (joined moves).length < maxSubscriptionsPerClient then
      .join channel :: accepted (moves ++ [.join channel]) channels
    else []

/-- The moves of a command, after the moves before it. -/
def movesOf (moves : List Move) (args : List Bytes) : List Move :=
  match callOf args with
  | .subscribe => accepted moves (args.drop 1)
  | .unsubscribe => (if args.length = 1 then joined moves else args.drop 1).map .leave
  | _ => []

/-- The moves of the connection a descriptor belongs to, since it connected. -/
def moves (events : List Event) (fd : ℤ) : List Move :=
  events.foldl (fun ms e =>
    match e with
    | .connect fd' => if fd' = fd then [] else ms
    | .disconnect fd' => if fd' = fd then [] else ms
    | .command _ fd' args => if fd' = fd then ms ++ movesOf ms args else ms) []

theorem moves_snoc (events : List Event) (e : Event) (fd : ℤ) :
    moves (events ++ [e]) fd =
      match e with
      | .connect fd' => if fd' = fd then [] else moves events fd
      | .disconnect fd' => if fd' = fd then [] else moves events fd
      | .command _ fd' args =>
        if fd' = fd then moves events fd ++ movesOf (moves events fd) args
        else moves events fd := by
  unfold moves
  rw [List.foldl_append]
  cases e <;> rfl

theorem not_listening_nil (channel : Bytes) : ¬ listening [] channel := by
  simp [listening]

theorem listening_join (ms : List Move) (channel channel' : Bytes) :
    listening (ms ++ [.join channel']) channel ↔ channel = channel' ∨ listening ms channel := by
  unfold listening
  by_cases h : channel' = channel
  · simp [Move.channel, h]
  · simp [Move.channel, h, Ne.symm h]

theorem listening_leave (ms : List Move) (channel channel' : Bytes) :
    listening (ms ++ [.leave channel']) channel ↔ channel ≠ channel' ∧ listening ms channel := by
  unfold listening
  by_cases h : channel' = channel
  · simp [Move.channel, h]
  · simp [Move.channel, h, Ne.symm h]

theorem mem_joined {ms : List Move} {channel : Bytes} :
    channel ∈ joined ms ↔ listening ms channel := by
  refine ⟨fun h => of_decide_eq_true (List.mem_filter.1 h).2, fun h => ?_⟩
  refine List.mem_filter.2 ⟨List.mem_dedup.2 (List.mem_map.2 ⟨.join channel, ?_, rfl⟩),
    decide_eq_true h⟩
  exact (List.mem_filter.1 (List.mem_of_getLast? h)).1

theorem nodup_toList {α : Type*} [Ord α] [Std.TransOrd α] [Std.LawfulEqOrd α]
    (s : Std.ExtTreeSet α) : s.toList.Nodup :=
  s.distinct_toList.imp fun {a b} h (heq : a = b) => h (heq ▸ Std.ReflCmp.compare_self)

/-- A set with the channels of the moves has as many of them. -/
theorem length_joined {ms : List Move} {channels : Std.ExtTreeSet Bytes}
    (h : ∀ channel, channel ∈ channels ↔ listening ms channel) :
    (joined ms).length = channels.size := by
  rw [← Std.ExtTreeSet.length_toList]
  refine List.Perm.length_eq ((List.perm_ext_iff_of_nodup ?_ ?_).2 fun channel => ?_)
  · exact (List.nodup_dedup _).filter _
  · exact nodup_toList channels
  · rw [mem_joined, Std.ExtTreeSet.mem_toList, h]

/-! ## The loops -/

/-- The client has the channels its moves end up in. -/
def Follows (c : Client) (ms : List Move) : Prop :=
  ∀ channel, channel ∈ c.subscribedChannels ↔ listening ms channel

section Loops

variable {s : Server} {fd fd' : ℤ} {ms : List Move}

/-- Where the loop of SUBSCRIBE ends. -/
theorem Follows.stop_iff {c : Client} (h : Follows c ms) (channel : Bytes) :
    (!c.subscribedChannels.contains channel &&
        decide (maxSubscriptionsPerClient ≤ c.subscribedChannels.size)) = true ↔
      ¬ (listening ms channel ∨ (joined ms).length < maxSubscriptionsPerClient) := by
  rw [length_joined h, ← h channel, ← Std.ExtTreeSet.contains_iff_mem, not_or, not_lt,
    Bool.not_eq_true, Bool.and_eq_true, Bool.not_eq_true', decide_eq_true_iff]

theorem Follows.insert {c c' : Client} (h : Follows c ms) {channel : Bytes}
    (hc : c'.subscribedChannels = c.subscribedChannels.insert channel) :
    Follows c' (ms ++ [.join channel]) := by
  intro channel'
  rw [hc, listening_join, ← h channel', Std.ExtTreeSet.mem_insert, compare_bytes, eq_comm]

theorem subscribeLoop_follows : ∀ {channels : List Bytes} {s : Server} {ms : List Move},
    Follows (s.client fd) ms →
      Follows ((subscribeLoop fd channels s).2.client fd) (ms ++ accepted ms channels)
  | [], s, ms, h => by
    rw [accepted, List.append_nil]
    exact h
  | channel :: channels, s, ms, h => by
    unfold subscribeLoop accepted
    dsimp only
    by_cases hok : listening ms channel ∨ (joined ms).length < maxSubscriptionsPerClient
    · rw [if_pos hok, if_neg ((h.stop_iff channel).not.2 (not_not.2 hok)), List.append_cons]
      refine subscribeLoop_follows ?_
      rw [Server.client_setClient, if_pos rfl]
      exact h.insert rfl
    · rw [if_neg hok, if_pos ((h.stop_iff channel).2 hok), List.append_nil]
      rw [client_ensureClient]
      exact h

theorem unsubscribeLoop_follows : ∀ {channels : List Bytes} {s : Server} {ms : List Move},
    Follows (s.client fd) ms →
      Follows ((unsubscribeLoop fd channels s).2.client fd) (ms ++ channels.map .leave)
  | [], s, ms, h => by
    rw [List.map_nil, List.append_nil]
    exact h
  | channel :: channels, s, ms, h => by
    rw [List.map_cons, List.append_cons]
    unfold unsubscribeLoop
    refine unsubscribeLoop_follows fun channel' => ?_
    rw [Server.client_setClient, if_pos rfl, listening_leave, ← h channel',
      Std.ExtTreeSet.mem_erase, ne_eq, compare_bytes, ne_comm]

theorem client_subscribeLoop (hfd : fd ≠ fd') : ∀ (channels : List Bytes) (s : Server),
    (subscribeLoop fd channels s).2.client fd' = s.client fd'
  | [], _ => rfl
  | channel :: channels, s => by
    unfold subscribeLoop
    dsimp only
    split_ifs
    · rw [Server.ensureClient, Server.client_setClient, if_neg hfd]
    · rw [client_subscribeLoop hfd channels, Server.client_setClient, if_neg hfd,
        Server.client_setChannel]

theorem client_unsubscribeLoop (hfd : fd ≠ fd') : ∀ (channels : List Bytes) (s : Server),
    (unsubscribeLoop fd channels s).2.client fd' = s.client fd'
  | [], _ => rfl
  | channel :: channels, s => by
    unfold unsubscribeLoop
    rw [client_unsubscribeLoop hfd channels, Server.client_setClient, if_neg hfd,
      Server.client_setChannel]

theorem listening_map_leave : ∀ (channels : List Bytes) (ms : List Move) (channel : Bytes),
    listening (ms ++ channels.map .leave) channel ↔ channel ∉ channels ∧ listening ms channel
  | [], ms, channel => by simp
  | channel' :: channels, ms, channel => by
    rw [List.map_cons, List.append_cons, listening_map_leave channels, listening_leave,
      List.mem_cons, not_or]
    tauto

theorem pubsubUnsubscribe_follows {args : List Bytes} (h : Follows (s.client fd) ms) :
    Follows ((pubsubUnsubscribe fd args s).2.client fd)
      (ms ++ (if args.length = 1 then joined ms else args.drop 1).map .leave) := by
  unfold pubsubUnsubscribe
  by_cases hone : args.length = 1
  · rw [if_pos hone, if_pos hone]
    have hnone : ∀ channel, ¬ listening (ms ++ (joined ms).map .leave) channel := fun channel hc =>
      ((listening_map_leave _ ms channel).1 hc).1
        (mem_joined.2 ((listening_map_leave _ ms channel).1 hc).2)
    dsimp only
    split_ifs with hempty
    · refine fun channel => ?_
      rw [client_ensureClient, ← Std.ExtTreeSet.mem_toList, hempty]
      exact iff_of_false List.not_mem_nil (hnone channel)
    · refine fun channel => (unsubscribeLoop_follows h channel).trans ?_
      refine iff_of_false (fun hc => ?_) (hnone channel)
      rw [listening_map_leave, Std.ExtTreeSet.mem_toList, h channel] at hc
      exact hc.1 hc.2
  · rw [if_neg hone, if_neg hone]
    dsimp only
    split_ifs with hempty
    · rw [hempty, List.map_nil, List.append_nil, client_ensureClient]
      exact h
    · exact unsubscribeLoop_follows h

end Loops

/-! ## Runs -/

section Command

variable {s s' : Server} {env : Env} {fd fd' : ℤ} {args : List Bytes} {ms : List Move}

/-- The clients that may subscribe are never turned away. -/
theorem turnedAway_subscribe (h : turnedAway s fd (toUpper (args.headD [])) = true) :
    callOf args ≠ .subscribe ∧ callOf args ≠ .unsubscribe := by
  simp only [turnedAway, Bool.and_eq_true, decide_eq_true_eq] at h
  refine ⟨fun hc => h.1.2 ?_, fun hc => h.2 ?_⟩
  · exact (of_route (by decide) hc).1
  · exact (of_route (by decide) hc).1

theorem handleCommand_follows (hf : Follows (s.client fd) ms)
    (h : (handleCommand env fd args s).2 = .ok s') :
    Follows (s'.client fd) (ms ++ movesOf ms args) := by
  have he : Follows ((s.ensureClient fd).client fd) ms := by
    rw [client_ensureClient]
    exact hf
  rw [(handleCommand_maps h).client]
  unfold pubsubPart
  split_ifs with ht
  · have hc := turnedAway_subscribe ht
    rcases hcall : callOf args <;> first
      | exact absurd hcall hc.1
      | exact absurd hcall hc.2
      | (simp only [movesOf, hcall, List.append_nil]
         exact he)
  · rcases hcall : callOf args <;> simp only [movesOf, hcall, List.append_nil]
    case subscribe => exact subscribeLoop_follows he
    case unsubscribe => exact pubsubUnsubscribe_follows he
    case publish =>
      unfold Call.pubsub pubsubPublish
      split_ifs
      · exact he
      · dsimp only
        split
        · exact he
        · exact he
    all_goals exact he

theorem client_handleCommand (hfd : fd ≠ fd') (h : (handleCommand env fd args s).2 = .ok s') :
    s'.client fd' = s.client fd' := by
  have he : (s.ensureClient fd).client fd' = s.client fd' := by
    rw [Server.ensureClient, Server.client_setClient, if_neg hfd]
  rw [(handleCommand_maps h).client]
  unfold pubsubPart
  split_ifs
  · exact he
  · cases callOf args
    case subscribe => exact (client_subscribeLoop hfd _ _).trans he
    case unsubscribe =>
      unfold Call.pubsub pubsubUnsubscribe
      dsimp only
      generalize (if args.length = 1 then _ else args.drop 1) = channels
      split_ifs
      · rw [Server.ensureClient, Server.client_setClient, if_neg hfd]
        exact he
      · exact (client_unsubscribeLoop hfd channels _).trans he
    case publish =>
      unfold Call.pubsub pubsubPublish
      split_ifs
      · exact he
      · dsimp only
        split
        · exact he
        · exact he
    all_goals exact he

end Command

/-- The maps agree, and every client has the channels its moves end up in. -/
structure Tracks (events : List Event) (s : Server) : Prop extends Connected events s where
  follows : ∀ fd, Follows (s.client fd) (moves events fd)
  /-- The replay does not subscribe. -/
  replay : moves events (-1) = []

theorem movesOf_of_logs {args : List Bytes} (ms : List Move) (h : (callOf args).logs) :
    movesOf ms args = [] := by
  unfold movesOf
  rcases hc : callOf args <;> rw [hc] at h <;> exact absurd h (by decide)

theorem Tracks.step {events : List Event} {e : Event} {s s' : Server}
    (h : Tracks events s) (he : e.Follows events) (hopen : isOpen events (-1) = false)
    (hs : s.step e = .ok s') : Tracks (events ++ [e]) s' := by
  have hc := h.toConnected.step he hs
  have hfresh : Follows {} [] := fun channel =>
    iff_of_false Std.ExtTreeSet.not_mem_empty (not_listening_nil channel)
  refine ⟨hc, fun fd' => ?_, ?_⟩
  · rw [moves_snoc]
    rcases e with fd | fd | ⟨env, fd, args⟩
    · obtain rfl := Except.ok.inj hs
      dsimp only
      rw [Server.client_setClient]
      split_ifs with hfd
      · exact hfresh
      · exact h.follows fd'
    · obtain rfl := Except.ok.inj hs
      dsimp only
      rw [client_disconnect]
      split_ifs with hfd
      · exact hfresh
      · exact h.follows fd'
    · dsimp only
      split_ifs with hfd
      · exact hfd ▸ handleCommand_follows (h.follows fd) hs
      · rw [client_handleCommand hfd hs]
        exact h.follows fd'
  · rw [moves_snoc]
    rcases e with fd | fd | ⟨env, fd, args⟩
    · dsimp only
      split_ifs
      · rfl
      · exact h.replay
    · dsimp only
      split_ifs
      · rfl
      · exact h.replay
    · dsimp only
      split_ifs with hfd
      · rcases he with hc | hc
        · rw [hfd, hopen] at hc
          cases hc
        · rw [h.replay, movesOf_of_logs _ hc.2, List.append_nil]
      · exact h.replay

theorem isOpen_replay {events : List Event} (ho : Orderly events) : isOpen events (-1) = false := by
  induction events using List.reverseRecOn with
  | nil => rfl
  | append_singleton events e ih =>
    have hpre : Orderly events := fun pre d hd => ho pre d (hd.trans (List.prefix_append _ _))
    have he := ho events e List.prefix_rfl
    rw [isOpen_snoc, ih hpre]
    rcases e with fd | fd | ⟨env, fd, args⟩
    · simpa using he.1
    · rfl
    · rfl

theorem run_tracks {events : List Event} {s : Server} (ho : Orderly events)
    (h : run Server.step {} events = .ok s) : Tracks events s := by
  refine run_orderly (fun _ _ _ _ hpre _ he ht hs => ht.step he (isOpen_replay hpre) hs)
    ⟨run_connected orderly_nil rfl, fun fd channel => ?_, rfl⟩ ho h
  exact iff_of_false Std.ExtTreeSet.not_mem_empty (not_listening_nil channel)

/-- The message goes to the open connections that listen to its channel, once each and to nobody
else, and the publisher is told how many they are. -/
def Delivers (events : List Event) (fd : ℤ) (args : List Bytes) (sends : Sends) : Prop :=
  ∃ receivers : List ℤ, receivers.Nodup ∧
    (∀ fd', fd' ∈ receivers ↔
      isOpen events fd' = true ∧ listening (moves events fd') (arg args 1)) ∧
    sends = receivers.map (fun fd' => (fd', messageFrame (arg args 1) (arg args 2))) ++
      sendTo fd (sendInteger receivers.length)

/-- The message of a client that listens to nothing is delivered, and that of any other client is
turned away. -/
theorem publish_delivers {events : List Event} {s : Server} (ho : Orderly events)
    (h : run Server.step {} events = .ok s) (env : Env) (fd : ℤ) {args : List Bytes}
    (hcall : callOf args = .publish) :
    ((∀ channel, ¬ listening (moves events fd) channel) →
      Delivers events fd args (handleCommand env fd args s).1) ∧
    ((∃ channel, listening (moves events fd) channel) →
      (handleCommand env fd args s).1 = sendTo fd subscriberMode) := by
  have ht := run_tracks ho h
  obtain ⟨hname, hsize⟩ := of_route (by decide) hcall
  rcases args with _ | ⟨a, as⟩
  · cases hsize
  have hsub : turnedAway s fd (toUpper a) = true ↔
      ∃ channel, listening (moves events fd) channel := by
    have hname : toUpper a = ascii "PUBLISH" := hname
    have hmode : turnedAway s fd (toUpper a) = (s.client fd).isSubscriber := by
      rw [turnedAway, hname]
      simp +decide
    rw [hmode, ht.isSubscriber_iff]
    refine ⟨fun hne => ?_, fun hex hempty => ?_⟩
    · by_contra hnone
      refine hne (Std.ExtTreeSet.ext_mem fun channel => ?_)
      rw [ht.follows fd channel]
      exact iff_of_false (fun hc => hnone ⟨channel, hc⟩) Std.ExtTreeSet.not_mem_empty
    · obtain ⟨channel, hc⟩ := hex
      rw [← ht.follows fd channel, hempty] at hc
      exact Std.ExtTreeSet.not_mem_empty hc
  have hcall' : route (toUpper a) (a :: as).length = .publish := hcall
  simp only [handleCommand, turnedAway_ensureClient]
  refine ⟨fun hnone => ?_, fun hex => ?_⟩
  · rw [if_neg (fun hc => Exists.elim (hsub.1 hc) hnone), hcall']
    have he : Indexed (s.ensureClient fd) := ht.setClient rfl rfl
    obtain ⟨hcount, hsends, -⟩ := he.pubsubPublish_eq (a :: as) hsize
    simp only [Call.run, commandPublish]
    rw [hcount, hsends]
    refine ⟨_, nodup_toList _, fun fd' => ?_, rfl⟩
    have hmem : fd' ∈ (s.subscribers (arg (a :: as) 1)).toList ↔
        listening (moves events fd') (arg (a :: as) 1) := by
      rw [Std.ExtTreeSet.mem_toList, ht.mem_iff, ht.follows fd' (arg (a :: as) 1)]
    refine hmem.trans ⟨fun hl => ⟨?_, hl⟩, And.right⟩
    rw [← ht.follows fd' (arg (a :: as) 1), ← ht.mem_iff] at hl
    rcases ht.isOpen_of_mem fd' (ht.mem_clientsMap hl) with rfl | hopen
    · rw [ht.mem_iff, ht.follows, ht.replay] at hl
      exact absurd hl (not_listening_nil _)
    · exact hopen
  · rw [if_pos (hsub.2 hex)]

theorem publish_delivers_one : ∃ s, run Server.step {} [.connect 4, .connect 5,
      .command {} 4 [ascii "SUBSCRIBE", ascii "news"]] = .ok s ∧
    Delivers [.connect 4, .connect 5, .command {} 4 [ascii "SUBSCRIBE", ascii "news"]] 5
      [ascii "PUBLISH", ascii "news", ascii "hi"]
      (handleCommand {} 5 [ascii "PUBLISH", ascii "news", ascii "hi"] s).1 := by
  have hrun : ∃ s, run Server.step {} [.connect 4, .connect 5,
      .command {} 4 [ascii "SUBSCRIBE", ascii "news"]] = .ok s := ⟨_, rfl⟩
  obtain ⟨s, hs⟩ := hrun
  refine ⟨s, hs, (publish_delivers ?_ hs {} 5 (by decide)).1 not_listening_nil⟩
  refine orderly_snoc [_, _] _ ?_ (.inl rfl)
  refine orderly_snoc [_] _ ?_ ⟨by decide, rfl⟩
  exact orderly_snoc [] _ orderly_nil ⟨by decide, rfl⟩

/-- A subscriber's own message reaches nobody. -/
theorem publish_turnedAway : ¬ ∀ (events : List Event) (s : Server) (env : Env) (fd : ℤ)
    (args : List Bytes), Orderly events → run Server.step {} events = .ok s →
      callOf args = .publish → Delivers events fd args (handleCommand env fd args s).1 := by
  intro h
  have hrun : ∃ s, run Server.step {} [.connect 4,
      .command {} 4 [ascii "SUBSCRIBE", ascii "news"]] = .ok s ∧
      (handleCommand {} 4 [ascii "PUBLISH", ascii "news", ascii "hi"] s).1 =
        sendTo 4 subscriberMode := ⟨_, rfl, rfl⟩
  obtain ⟨s, hs, hsends⟩ := hrun
  have ho : Orderly [.connect 4, .command {} 4 [ascii "SUBSCRIBE", ascii "news"]] := by
    refine orderly_snoc [_] _ ?_ (.inl rfl)
    exact orderly_snoc [] _ orderly_nil ⟨by decide, rfl⟩
  obtain ⟨receivers, -, hmem, heq⟩ := h _ s {} 4
    [ascii "PUBLISH", ascii "news", ascii "hi"] ho hs (by decide)
  have hself : (4 : ℤ) ∈ receivers := (hmem 4).2 ⟨by decide, by decide⟩
  have hone : ∀ b : Bytes, (sendTo 4 b).length = 1 := fun b => rfl
  have hlen := congrArg List.length (hsends.symm.trans heq)
  rw [List.length_append, List.length_map, hone, hone] at hlen
  have hpos := List.length_pos_of_mem hself
  omega

end DrutaDB
