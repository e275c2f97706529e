import DrutaDB.Lib.Settling
import DrutaDB.Proofs.Subscriptions

/-!
# Subscribing twice

A channel that a client is in, in both maps, is subscribed to without effect, and one it is not in
is left without effect (`subscribe_settles`, `unsubscribe_settles`).  So a SUBSCRIBE or UNSUBSCRIBE
that comes a second time leaves the server as it is (`subscription_idempotent`).
-/

namespace DrutaDB

open Machine Decimal Settling

section Maps

variable {α β : Type*} [Ord α] [Std.TransOrd α] [Std.LawfulEqOrd α]

theorem insert_of_getElem? {m : Std.ExtTreeMap α β} {k : α} {v : β} (h : m[k]? = some v) :
    m.insert k v = m := by
  refine Std.ExtTreeMap.ext_getElem? fun x => ?_
  rw [Std.ExtTreeMap.getElem?_insert]
  split_ifs with hk
  · rw [← Std.LawfulEqCmp.eq_of_compare hk, h]
  · rfl

theorem insert_of_mem {t : Std.ExtTreeSet α} {k : α} (h : k ∈ t) : t.insert k = t := by
  refine Std.ExtTreeSet.ext_mem fun x => ?_
  rw [Std.ExtTreeSet.mem_insert]
  refine ⟨fun hx => hx.elim (fun hk => ?_) id, .inr⟩
  exact Std.LawfulEqCmp.eq_of_compare hk ▸ h

theorem erase_of_not_mem {t : Std.ExtTreeSet α} {k : α} (h : k ∉ t) : t.erase k = t := by
  refine Std.ExtTreeSet.ext_mem fun x => ?_
  rw [Std.ExtTreeSet.mem_erase]
  refine ⟨fun hx => hx.2, fun hx => ⟨fun hk => h ?_, hx⟩⟩
  exact Std.LawfulEqCmp.eq_of_compare hk ▸ hx

end Maps

namespace Server

variable {s : Server} {fd : ℤ} {c : Client} {channel : Bytes} {subscribers : Std.ExtTreeSet ℤ}

theorem setClient_of_getElem? (h : s.clientsMap[fd]? = some c) : s.setClient fd c = s := by
  unfold setClient
  rw [insert_of_getElem? h]

theorem setChannel_of_getElem? (h : s.channelsSubscribers[channel]? = some subscribers) :
    s.setChannel channel subscribers = s := by
  unfold setChannel
  rw [insert_of_getElem? h]

theorem ensureClient_of_mem (h : fd ∈ s.clientsMap) : s.ensureClient fd = s := by
  have hc : s.clientsMap[fd]? = some (s.client fd) := by
    rw [client, Std.ExtTreeMap.getElem?_eq_some_getElem h]
    rfl
  exact setClient_of_getElem? hc

theorem ensureClient_ensureClient (s : Server) (fd : ℤ) :
    (s.ensureClient fd).ensureClient fd = s.ensureClient fd :=
  ensureClient_of_mem (mem_setClient.2 (.inl rfl))

end Server

/-! ## Channels -/

section Channels

variable {fd : ℤ}

/-- The client is in the channel, in both maps. -/
def In (fd : ℤ) (channel : Bytes) (s : Server) : Prop :=
  (∃ t, s.channelsSubscribers[channel]? = some t ∧ fd ∈ t) ∧
    ∃ c, s.clientsMap[fd]? = some c ∧ c.isSubscriber = true ∧ channel ∈ c.subscribedChannels

/-- The client is not in the channel, in neither map. -/
def Out (fd : ℤ) (channel : Bytes) (s : Server) : Prop :=
  (∃ t, s.channelsSubscribers[channel]? = some t ∧ fd ∉ t) ∧
    ∃ c, s.clientsMap[fd]? = some c ∧ channel ∉ c.subscribedChannels ∧
      (c.subscribedChannels.isEmpty → c.isSubscriber = false)

/-- Whether the loop of `pubsub_subscribe` ends at the channel. -/
def full (fd : ℤ) (channel : Bytes) (s : Server) : Bool :=
  !(s.client fd).subscribedChannels.contains channel &&
    maxSubscriptionsPerClient ≤ (s.client fd).subscribedChannels.size

/-- What it does for a channel. -/
def join (fd : ℤ) (channel : Bytes) (s : Server) : Server :=
  (s.setChannel channel ((s.subscribers channel).insert fd)).setClient fd { s.client fd with
    isSubscriber := true
    subscribedChannels := (s.client fd).subscribedChannels.insert channel }

/-- What the loop of `pubsub_unsubscribe` does for a channel. -/
def leave (fd : ℤ) (channel : Bytes) (s : Server) : Server :=
  (s.setChannel channel ((s.subscribers channel).erase fd)).setClient fd { s.client fd with
    subscribedChannels := (s.client fd).subscribedChannels.erase channel
    isSubscriber := if ((s.client fd).subscribedChannels.erase channel).isEmpty then false
      else (s.client fd).isSubscriber }

theorem subscribeLoop_eq : ∀ (channels : List Bytes) (s : Server),
    (subscribeLoop fd channels s).2 = loop (full fd) (·.ensureClient fd) (join fd) channels s
  | [], _ => rfl
  | _ :: channels, _ => by
    unfold subscribeLoop loop full
    dsimp only
    split_ifs
    · rfl
    · exact subscribeLoop_eq channels _

theorem unsubscribeLoop_eq : ∀ (channels : List Bytes) (s : Server),
    (unsubscribeLoop fd channels s).2 = loop (fun _ _ => false) id (leave fd) channels s
  | [], _ => rfl
  | _ :: channels, _ => unsubscribeLoop_eq channels _

theorem In.client {channel : Bytes} {s : Server} (h : In fd channel s) :
    s.clientsMap[fd]? = some (s.client fd) ∧ (s.client fd).isSubscriber = true ∧
      channel ∈ (s.client fd).subscribedChannels := by
  obtain ⟨-, c, hc, hsub, hmem⟩ := h
  exact Server.client_of_getElem? hc ▸ ⟨hc, hsub, hmem⟩

theorem In.subscribers {channel : Bytes} {s : Server} (h : In fd channel s) :
    s.channelsSubscribers[channel]? = some (s.subscribers channel) ∧
      fd ∈ s.subscribers channel := by
  obtain ⟨⟨t, ht, hfd⟩, -⟩ := h
  exact Server.subscribers_of_getElem? ht ▸ ⟨ht, hfd⟩

/-- Joining a channel one is in. -/
theorem In.join_eq {channel : Bytes} {s : Server} (h : In fd channel s) :
    join fd channel s = s := by
  obtain ⟨hc, hsub, hmem⟩ := h.client
  obtain ⟨ht, hfd⟩ := h.subscribers
  have hclient : ({ s.client fd with
      isSubscriber := true
      subscribedChannels := (s.client fd).subscribedChannels.insert channel } : Client) =
        s.client fd := by
    rw [insert_of_mem hmem, ← hsub]
  rw [join, insert_of_mem hfd, Server.setChannel_of_getElem? ht, hclient,
    Server.setClient_of_getElem? hc]

theorem in_join (channel : Bytes) (s : Server) : In fd channel (join fd channel s) := by
  refine ⟨⟨_, Std.ExtTreeMap.getElem?_insert_self, Std.ExtTreeSet.mem_insert_self⟩, _,
    Std.ExtTreeMap.getElem?_insert_self, rfl, ?_⟩
  exact Std.ExtTreeSet.mem_insert_self

/-- A channel joined keeps the client in the others. -/
theorem In.join {d : Bytes} {s : Server} (h : In fd d s) (channel : Bytes) :
    In fd d (join fd channel s) := by
  by_cases hd : channel = d
  · exact hd ▸ in_join channel s
  · obtain ⟨ht, hfd⟩ := h.subscribers
    refine ⟨⟨_, ?_, hfd⟩, _, Std.ExtTreeMap.getElem?_insert_self, rfl, ?_⟩
    · rw [← ht]
      exact Std.ExtTreeMap.getElem?_insert.trans (if_neg (compare_bytes.not.2 hd))
    · exact Std.ExtTreeSet.mem_insert.2 (.inr h.client.2.2)

theorem In.ensureClient {d : Bytes} {s : Server} (h : In fd d s) : s.ensureClient fd = s :=
  Server.setClient_of_getElem? h.client.1

theorem subscribe_settles :
    Settles (full fd) (·.ensureClient fd) (join fd) (In fd) where
  handle_eq _ _ h := h.join_eq
  not_stop _ _ h := by
    rw [full, Std.ExtTreeSet.contains_iff_mem.2 h.client.2.2]
    rfl
  self channel s _ := in_join channel s
  keep channel _ _ h := h.join channel
  exit_exit s := s.ensureClient_ensureClient fd
  exit_stop channel s h := by
    simpa only [full, client_ensureClient] using h
  exit_keep _ _ h := h.ensureClient.symm ▸ h

theorem Out.client {channel : Bytes} {s : Server} (h : Out fd channel s) :
    s.clientsMap[fd]? = some (s.client fd) ∧ channel ∉ (s.client fd).subscribedChannels ∧
      ((s.client fd).subscribedChannels.isEmpty → (s.client fd).isSubscriber = false) := by
  obtain ⟨-, c, hc, hout, hsub⟩ := h
  exact Server.client_of_getElem? hc ▸ ⟨hc, hout, hsub⟩

theorem Out.subscribers {channel : Bytes} {s : Server} (h : Out fd channel s) :
    s.channelsSubscribers[channel]? = some (s.subscribers channel) ∧
      fd ∉ s.subscribers channel := by
  obtain ⟨⟨t, ht, hfd⟩, -⟩ := h
  exact Server.subscribers_of_getElem? ht ▸ ⟨ht, hfd⟩

/-- Leaving a channel one is not in. -/
theorem Out.leave_eq {channel : Bytes} {s : Server} (h : Out fd channel s) :
    leave fd channel s = s := by
  obtain ⟨hc, hout, hsub⟩ := h.client
  obtain ⟨ht, hfd⟩ := h.subscribers
  have hflag : (if (s.client fd).subscribedChannels.isEmpty then false
      else (s.client fd).isSubscriber) = (s.client fd).isSubscriber := by
    split_ifs with hempty
    · exact (hsub hempty).symm
    · rfl
  rw [leave, erase_of_not_mem hfd, erase_of_not_mem hout, Server.setChannel_of_getElem? ht, hflag,
    Server.setClient_of_getElem? hc]

theorem out_leave (channel : Bytes) (s : Server) : Out fd channel (leave fd channel s) := by
  refine ⟨⟨_, Std.ExtTreeMap.getElem?_insert_self, ?_⟩, _, Std.ExtTreeMap.getElem?_insert_self,
    ?_, fun hempty => if_pos hempty⟩
  · exact fun h => (Std.ExtTreeSet.mem_erase.1 h).1 Std.ReflCmp.compare_self
  · exact fun h => (Std.ExtTreeSet.mem_erase.1 h).1 Std.ReflCmp.compare_self

/-- A channel left keeps the client out of the others. -/
theorem Out.leave {d : Bytes} {s : Server} (h : Out fd d s) (channel : Bytes) :
    Out fd d (leave fd channel s) := by
  by_cases hd : channel = d
  · exact hd ▸ out_leave channel s
  · obtain ⟨ht, hfd⟩ := h.subscribers
    refine ⟨⟨_, ?_, hfd⟩, _, Std.ExtTreeMap.getElem?_insert_self, ?_,
      fun hempty => if_pos hempty⟩
    · rw [← ht]
      exact Std.ExtTreeMap.getElem?_insert.trans (if_neg (compare_bytes.not.2 hd))
    · exact fun hmem => h.client.2.1 (Std.ExtTreeSet.mem_erase.1 hmem).2

theorem unsubscribe_settles :
    Settles (fun _ _ => false) id (leave fd) (Out fd) where
  handle_eq _ _ h := h.leave_eq
  not_stop _ _ _ := rfl
  self channel s _ := out_leave channel s
  keep channel _ _ h := h.leave channel
  exit_exit _ := rfl
  exit_stop _ _ h := h
  exit_keep _ _ h := h

/-- The channels a client has left. -/
theorem mem_unsubscribeLoop_channels (d : Bytes) : ∀ (channels : List Bytes) (s : Server),
    d ∈ ((unsubscribeLoop fd channels s).2.client fd).subscribedChannels ↔
      d ∉ channels ∧ d ∈ (s.client fd).subscribedChannels
  | [], s => by simp [unsubscribeLoop]
  | channel :: channels, s => by
    unfold unsubscribeLoop
    dsimp only
    rw [mem_unsubscribeLoop_channels d channels, Server.client_setClient, if_pos rfl,
      Std.ExtTreeSet.mem_erase, List.mem_cons, not_or, ne_eq, compare_bytes]
    tauto

end Channels

/-! ## Commands -/

section Command

variable {s : Server} {fd : ℤ} {args : List Bytes}

theorem pubsubSubscribe_twice :
    (pubsubSubscribe fd args (pubsubSubscribe fd args s).2).2 = (pubsubSubscribe fd args s).2 := by
  simp only [pubsubSubscribe, subscribeLoop_eq]
  exact subscribe_settles.loop_loop _ _

theorem mem_pubsubUnsubscribe (h : fd ∈ s.clientsMap) :
    fd ∈ (pubsubUnsubscribe fd args s).2.clientsMap := by
  unfold pubsubUnsubscribe
  dsimp only
  generalize (if args.length = 1 then _ else args.drop 1) = channels
  split_ifs
  · exact mem_setClient.2 (.inl rfl)
  · exact (mem_unsubscribeLoop channels h).2 h

/-- Without arguments, the second UNSUBSCRIBE has no channel to leave. -/
theorem pubsubUnsubscribe_twice (h : fd ∈ s.clientsMap) :
    (pubsubUnsubscribe fd args (pubsubUnsubscribe fd args s).2).2 =
      (pubsubUnsubscribe fd args s).2 := by
  have hmem : fd ∈ (pubsubUnsubscribe fd args s).2.clientsMap := mem_pubsubUnsubscribe h
  by_cases hone : args.length = 1
  · have hnone : ((pubsubUnsubscribe fd args s).2.client fd).subscribedChannels.toList = [] := by
      refine List.eq_nil_iff_forall_not_mem.2 fun d hd => ?_
      rw [Std.ExtTreeSet.mem_toList] at hd
      unfold pubsubUnsubscribe at hd
      rw [if_pos hone] at hd
      dsimp only at hd
      split_ifs at hd with hempty
      · rw [client_ensureClient, ← Std.ExtTreeSet.mem_toList, hempty] at hd
        exact List.not_mem_nil hd
      · rw [mem_unsubscribeLoop_channels, Std.ExtTreeSet.mem_toList] at hd
        exact hd.1 hd.2
    generalize (pubsubUnsubscribe fd args s).2 = s' at hmem hnone
    unfold pubsubUnsubscribe
    rw [if_pos hone]
    dsimp only
    rw [if_pos hnone]
    exact Server.ensureClient_of_mem hmem
  · unfold pubsubUnsubscribe
    simp only [if_neg hone]
    split_ifs
    · exact s.ensureClient_ensureClient fd
    · simp only [unsubscribeLoop_eq]
      exact unsubscribe_settles.loop_loop _ _

/-- The two commands of a subscriber. -/
def IsSubscription (args : List Bytes) : Prop :=
  toUpper (args.headD []) = ascii "SUBSCRIBE" ∨ toUpper (args.headD []) = ascii "UNSUBSCRIBE"

theorem not_isSubscription_nil : ¬ IsSubscription [] := by
  unfold IsSubscription
  decide

theorem callOf_subscription (h : IsSubscription args) :
    callOf args = .subscribe ∨ callOf args = .unsubscribe ∨ callOf args = .unknown := by
  rcases args with _ | ⟨a, _ | ⟨b, bs⟩⟩
  · exact absurd h not_isSubscription_nil
  · rcases h with h | h
    · have hname : toUpper a = ascii "SUBSCRIBE" := h
      refine .inr (.inr ?_)
      rw [callOf, List.headD_cons, hname, List.length_singleton]
      decide
    · exact .inr (.inl (route_of (by decide) h (by simp [Call.Takes])))
  · rcases h with h | h
    · exact .inl (route_of (by decide) h (by simp [Call.Takes]))
    · exact .inr (.inl (route_of (by decide) h (by simp [Call.Takes])))

theorem step_subscription (h : IsSubscription args) (env : Env) :
    s.step (.command env fd args) = .ok ((callOf args).pubsub fd args (s.ensureClient fd)) := by
  have hcall := callOf_subscription h
  rcases args with _ | ⟨a, as⟩
  · exact absurd h not_isSubscription_nil
  have hturned : turnedAway s fd (toUpper a) = false := by
    have h : toUpper a = ascii "SUBSCRIBE" ∨ toUpper a = ascii "UNSUBSCRIBE" := h
    rcases h with h | h <;> simp [turnedAway, h]
  have hroute : route (toUpper a) (a :: as).length = callOf (a :: as) := rfl
  simp only [Server.step, handleCommand, turnedAway_ensureClient, hturned, hroute]
  rcases hcall with hc | hc | hc <;> rw [hc] <;> simp [Call.run, Call.pubsub]

/-- The same SUBSCRIBE or UNSUBSCRIBE twice in a row leaves the server as once. -/
theorem subscription_idempotent (s : Server) (env env' : Env) (fd : ℤ) (args : List Bytes)
    (h : IsSubscription args) :
    ∃ s', s.step (.command env fd args) = .ok s' ∧ s'.step (.command env' fd args) = .ok s' := by
  refine ⟨_, step_subscription h env, (step_subscription h env').trans (congrArg _ ?_)⟩
  have hfd : fd ∈ (s.ensureClient fd).clientsMap := mem_setClient.2 (.inl rfl)
  rcases callOf_subscription h with hc | hc | hc <;> rw [hc]
  · have hmem : fd ∈ (pubsubSubscribe fd args (s.ensureClient fd)).2.clientsMap :=
      (mem_subscribeLoop _ hfd).2 hfd
    simp only [Call.pubsub]
    rw [Server.ensureClient_of_mem hmem, pubsubSubscribe_twice]
  · have hmem : fd ∈ (pubsubUnsubscribe fd args (s.ensureClient fd)).2.clientsMap :=
      mem_pubsubUnsubscribe hfd
    simp only [Call.pubsub]
    rw [Server.ensureClient_of_mem hmem, pubsubUnsubscribe_twice hfd]
  · exact s.ensureClient_ensureClient fd

theorem subscription_idempotent_news : ∃ s',
    Server.step {} (.command {} 4 [ascii "SUBSCRIBE", ascii "news", ascii "news"]) = .ok s' ∧
      s'.step (.command {} 4 [ascii "SUBSCRIBE", ascii "news", ascii "news"]) = .ok s' :=
  subscription_idempotent {} {} {} 4 _ (.inl (by decide))

end Command

end DrutaDB
