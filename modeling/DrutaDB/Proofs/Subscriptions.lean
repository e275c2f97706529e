import DrutaDB.Lib.Run
import DrutaDB.Proofs.Steps

/-!
# Subscriptions

The two maps of the publish/subscribe commands agree (`Indexed`), one channel at a time
(`Indexed.join`, `Indexed.leave`), and so in every state that connections, disconnections and
commands lead to (`run_consistent`).
-/

namespace DrutaDB

open Machine Decimal Run

theorem compare_bytes {a b : Bytes} : compare a b = .eq ↔ a = b :=
  Std.LawfulEqCmp.compare_eq_iff_eq

namespace Server

theorem client_of_getElem? {s : Server} {fd : ℤ} {c : Client} (h : s.clientsMap[fd]? = some c) :
    s.client fd = c := by
  rw [client, h]
  rfl

theorem client_of_not_mem {s : Server} {fd : ℤ} (h : fd ∉ s.clientsMap) : s.client fd = {} := by
  rw [client, Std.ExtTreeMap.getElem?_eq_none h]
  rfl

theorem subscribers_of_getElem? {s : Server} {channel : Bytes} {subscribers : Std.ExtTreeSet ℤ}
    (h : s.channelsSubscribers[channel]? = some subscribers) :
    s.subscribers channel = subscribers := by
  rw [Server.subscribers, h]
  rfl

theorem subscribers_of_not_mem {s : Server} {channel : Bytes}
    (h : channel ∉ s.channelsSubscribers) : s.subscribers channel = ∅ := by
  rw [Server.subscribers, Std.ExtTreeMap.getElem?_eq_none h]
  rfl

variable (s : Server) (fd fd' : ℤ) (c : Client) (channel channel' : Bytes)
  (subscribers : Std.ExtTreeSet ℤ)

@[simp]
theorem client_setClient : (s.setClient fd c).client fd' = if fd = fd' then c else s.client fd' := by
  simp only [client, setClient, Std.ExtTreeMap.getElem?_insert, compare_eq_iff_eq]
  split_ifs <;> rfl

@[simp]
theorem client_setChannel : (s.setChannel channel subscribers).client fd = s.client fd := rfl

@[simp]
theorem subscribers_setChannel : (s.setChannel channel subscribers).subscribers channel' =
    if channel = channel' then subscribers else s.subscribers channel' := by
  simp only [Server.subscribers, setChannel, Std.ExtTreeMap.getElem?_insert, compare_bytes]
  split_ifs <;> rfl

@[simp]
theorem subscribers_setClient : (s.setClient fd c).subscribers channel = s.subscribers channel := rfl

end Server

/-- What `pubsub_publish` writes to a subscriber. -/
def messageFrame (channel message : Bytes) : Bytes :=
  ascii "*3" ++ crlf ++ respBulkString (ascii "message") ++ respBulkString channel ++
    respBulkString message

/-- The channels know their clients and the clients their channels. -/
structure Indexed (s : Server) : Prop where
  mem_iff : ∀ fd channel,
    fd ∈ s.subscribers channel ↔ channel ∈ (s.client fd).subscribedChannels
  isSubscriber_iff : ∀ fd,
    (s.client fd).isSubscriber = true ↔ (s.client fd).subscribedChannels ≠ ∅
  size_le : ∀ fd, (s.client fd).subscribedChannels.size ≤ maxSubscriptionsPerClient

/-- Both maps are the same. -/
def SameMaps (s s' : Server) : Prop :=
  s'.clientsMap = s.clientsMap ∧ s'.channelsSubscribers = s.channelsSubscribers

theorem SameMaps.client {s s' : Server} (h : SameMaps s s') (fd : ℤ) :
    s'.client fd = s.client fd := by
  rw [Server.client, h.1]
  rfl

theorem SameMaps.subscribers {s s' : Server} (h : SameMaps s s') (channel : Bytes) :
    s'.subscribers channel = s.subscribers channel := by
  rw [Server.subscribers, h.2]
  rfl

theorem subscribers_cleanup {fd : ℤ} : ∀ (channels : List Bytes) (s : Server) (channel : Bytes)
    (fd' : ℤ),
    fd' ∈ (channels.foldl (fun s channel =>
        s.setChannel channel ((s.subscribers channel).erase fd)) s).subscribers channel ↔
      fd' ∈ s.subscribers channel ∧ (fd' = fd → channel ∉ channels)
  | [], s, channel, fd' => by simp
  | channel' :: channels, s, channel, fd' => by
    rw [List.foldl_cons, subscribers_cleanup channels, Server.subscribers_setChannel]
    split_ifs with hch
    · rw [← hch, Std.ExtTreeSet.mem_erase, List.mem_cons]
      simp only [ne_eq, compare_eq_iff_eq]
      grind
    · rw [List.mem_cons]
      grind

theorem clientsMap_cleanup {fd : ℤ} : ∀ (channels : List Bytes) (s : Server),
    (channels.foldl (fun s channel =>
        s.setChannel channel ((s.subscribers channel).erase fd)) s).clientsMap = s.clientsMap
  | [], _ => rfl
  | _ :: channels, _ => clientsMap_cleanup channels _

theorem clientsMap_pubsubCleanupClient (fd : ℤ) (s : Server) :
    (pubsubCleanupClient fd s).clientsMap = s.clientsMap := by
  unfold pubsubCleanupClient
  split
  · rfl
  · exact clientsMap_cleanup _ s

theorem client_disconnect (s : Server) (fd fd' : ℤ) :
    Server.client { pubsubCleanupClient fd s with
      clientsMap := (pubsubCleanupClient fd s).clientsMap.erase fd } fd' =
        if fd = fd' then {} else s.client fd' := by
  simp only [Server.client, clientsMap_pubsubCleanupClient, Std.ExtTreeMap.getElem?_erase,
    compare_eq_iff_eq]
  split_ifs <;> rfl

namespace Indexed

variable {s s' : Server} {fd : ℤ} {channel : Bytes}

theorem initial : Indexed {} := by
  refine ⟨fun fd channel => ?_, fun fd => ?_, fun fd => ?_⟩
  · simp [Server.subscribers, Server.client]
  · simp [Server.client]
  · simp [Server.client, maxSubscriptionsPerClient]

theorem congr (h : Indexed s) (hs : SameMaps s s') : Indexed s' := by
  refine ⟨fun fd channel => ?_, fun fd => ?_, fun fd => ?_⟩
  · rw [hs.client, hs.subscribers]
    exact h.mem_iff fd channel
  · rw [hs.client]
    exact h.isSubscriber_iff fd
  · rw [hs.client]
    exact h.size_le fd

/-- A client that keeps its channels. -/
theorem setClient (h : Indexed s) {c : Client}
    (hc : c.subscribedChannels = (s.client fd).subscribedChannels)
    (hi : c.isSubscriber = (s.client fd).isSubscriber) : Indexed (s.setClient fd c) := by
  refine ⟨fun fd' channel => ?_, fun fd' => ?_, fun fd' => ?_⟩ <;>
    simp only [Server.client_setClient, Server.subscribers_setClient]
  · split_ifs with hfd
    · rw [hc, ← hfd]
      exact h.mem_iff fd channel
    · exact h.mem_iff fd' channel
  · split_ifs with hfd
    · rw [hc, hi]
      exact h.isSubscriber_iff fd
    · exact h.isSubscriber_iff fd'
  · split_ifs with hfd
    · rw [hc]
      exact h.size_le fd
    · exact h.size_le fd'

/-- A client and one of its channels, changed together. -/
theorem set (h : Indexed s) {c : Client} {subscribers : Std.ExtTreeSet ℤ}
    (hmem : fd ∈ subscribers ↔ channel ∈ c.subscribedChannels)
    (hothers : ∀ fd', fd' ≠ fd → (fd' ∈ subscribers ↔ fd' ∈ s.subscribers channel))
    (hchannels : ∀ channel', channel' ≠ channel →
      (channel' ∈ c.subscribedChannels ↔ channel' ∈ (s.client fd).subscribedChannels))
    (hi : c.isSubscriber = true ↔ c.subscribedChannels ≠ ∅)
    (hsize : c.subscribedChannels.size ≤ maxSubscriptionsPerClient) :
    Indexed ((s.setChannel channel subscribers).setClient fd c) := by
  refine ⟨fun fd' channel' => ?_, fun fd' => ?_, fun fd' => ?_⟩ <;>
    simp only [Server.client_setClient, Server.subscribers_setClient,
      Server.subscribers_setChannel, Server.client_setChannel]
  · split_ifs with hch hfd hfd
    · rw [← hfd, ← hch]
      exact hmem
    · rw [← hch, hothers fd' (Ne.symm hfd)]
      exact h.mem_iff fd' channel
    · rw [← hfd, hchannels channel' (Ne.symm hch)]
      exact h.mem_iff fd channel'
    · exact h.mem_iff fd' channel'
  · split_ifs
    · exact hi
    · exact h.isSubscriber_iff fd'
  · split_ifs
    · exact hsize
    · exact h.size_le fd'

/-- A client joins a channel. -/
theorem join (h : Indexed s) (hlimit : channel ∈ (s.client fd).subscribedChannels ∨
      (s.client fd).subscribedChannels.size < maxSubscriptionsPerClient) :
    Indexed ((s.setChannel channel ((s.subscribers channel).insert fd)).setClient fd
      { s.client fd with
        isSubscriber := true
        subscribedChannels := (s.client fd).subscribedChannels.insert channel }) := by
  refine h.set ?_ (fun fd' hfd => ?_) (fun channel' hch => ?_) ?_ ?_
  · simp
  · simp [Std.ExtTreeSet.mem_insert, hfd.symm]
  · simp [Std.ExtTreeSet.mem_insert, hch.symm]
  · refine ⟨fun _ hempty => ?_, fun _ => rfl⟩
    have hempty : (s.client fd).subscribedChannels.insert channel = ∅ := hempty
    have hmem : channel ∈ (s.client fd).subscribedChannels.insert channel :=
      Std.ExtTreeSet.mem_insert_self
    rw [hempty] at hmem
    exact Std.ExtTreeSet.not_mem_empty hmem
  · rw [Std.ExtTreeSet.size_insert]
    split_ifs with hmem
    · exact h.size_le fd
    · exact (hlimit.resolve_left hmem)

/-- A client leaves a channel. -/
theorem leave (h : Indexed s) (fd : ℤ) (channel : Bytes) :
    Indexed ((s.setChannel channel ((s.subscribers channel).erase fd)).setClient fd
      { s.client fd with
        subscribedChannels := (s.client fd).subscribedChannels.erase channel
        isSubscriber := if ((s.client fd).subscribedChannels.erase channel).isEmpty then false
          else (s.client fd).isSubscriber }) := by
  refine h.set ?_ (fun fd' hfd => ?_) (fun channel' hch => ?_) ?_ ?_
  · simp [Std.ExtTreeSet.mem_erase]
  · simp [Std.ExtTreeSet.mem_erase, hfd.symm]
  · simp [Std.ExtTreeSet.mem_erase, hch.symm]
  · split_ifs with hempty
    · simp [Std.ExtTreeSet.isEmpty_iff.1 hempty]
    · have hne : (s.client fd).subscribedChannels.erase channel ≠ ∅ := fun hc =>
        hempty (Std.ExtTreeSet.isEmpty_iff.2 hc)
      refine ⟨fun _ => hne, fun _ => (h.isSubscriber_iff fd).2 fun hc => hne ?_⟩
      rw [hc]
      rfl
  · exact Std.ExtTreeSet.size_erase_le.trans (h.size_le fd)

theorem subscribeLoop (fd : ℤ) : ∀ (channels : List Bytes) {s : Server}, Indexed s →
    Indexed (subscribeLoop fd channels s).2
  | [], _, h => h
  | channel :: channels, s, h => by
    unfold DrutaDB.subscribeLoop
    dsimp only
    split_ifs with hlimit
    · exact h.setClient rfl rfl
    · refine subscribeLoop fd channels (h.join ?_)
      rw [Bool.and_eq_true, not_and_or, Bool.not_eq_true', Bool.not_eq_false,
        Std.ExtTreeSet.contains_iff_mem, decide_eq_true_iff, not_le] at hlimit
      exact hlimit

theorem unsubscribeLoop (fd : ℤ) : ∀ (channels : List Bytes) {s : Server}, Indexed s →
    Indexed (unsubscribeLoop fd channels s).2
  | [], _, h => h
  | channel :: channels, _, h => unsubscribeLoop fd channels (h.leave fd channel)

theorem pubsubUnsubscribe (h : Indexed s) (fd : ℤ) (args : List Bytes) :
    Indexed (pubsubUnsubscribe fd args s).2 := by
  unfold DrutaDB.pubsubUnsubscribe
  dsimp only
  generalize (if args.length = 1 then _ else args.drop 1) = channels
  split_ifs
  · exact h.setClient rfl rfl
  · exact unsubscribeLoop fd channels h

/-- A subscriber has an entry in `clients_map`. -/
theorem mem_clientsMap (h : Indexed s) (hmem : fd ∈ s.subscribers channel) :
    fd ∈ s.clientsMap := by
  by_contra hc
  rw [h.mem_iff, Server.client_of_not_mem hc] at hmem
  exact Std.ExtTreeSet.not_mem_empty hmem

/-- Its channel has one in `channels_subscribers`. -/
theorem mem_channelsSubscribers (h : Indexed s)
    (hmem : channel ∈ (s.client fd).subscribedChannels) : channel ∈ s.channelsSubscribers := by
  by_contra hc
  rw [← h.mem_iff, Server.subscribers_of_not_mem hc] at hmem
  exact Std.ExtTreeSet.not_mem_empty hmem

/-- A connection on a descriptor that has no entry. -/
theorem connect (h : Indexed s) (hfd : fd ∉ s.clientsMap) : Indexed (s.setClient fd {}) := by
  have hc := Server.client_of_not_mem hfd
  refine h.setClient ?_ ?_
  · rw [hc]
  · rw [hc]

/-- Every subscriber is reached, and none is found dead. -/
theorem pubsubPublish_eq (h : Indexed s) (args : List Bytes) (hargs : args.length = 3) :
    (pubsubPublish args s).1 = (s.subscribers (arg args 1)).toList.length
      ∧ (pubsubPublish args s).2.1 = (s.subscribers (arg args 1)).toList.map
        (fun fd => (fd, messageFrame (arg args 1) (arg args 2)))
      ∧ SameMaps s (pubsubPublish args s).2.2 := by
  have hlen : ¬ args.length < 3 := by omega
  unfold pubsubPublish
  rw [if_neg hlen]
  dsimp only
  rcases hs : s.channelsSubscribers[arg args 1]? with _ | subscribers
  · rw [Server.subscribers, hs]
    exact ⟨rfl, rfl, rfl, rfl⟩
  · have heq := Server.subscribers_of_getElem? hs
    have hall : ∀ fd ∈ subscribers.toList, s.clientsMap.contains fd = true := fun fd hfd =>
      Std.ExtTreeMap.contains_iff_mem.2
        (h.mem_clientsMap (heq ▸ Std.ExtTreeSet.mem_toList.1 hfd))
    have hreached : subscribers.toList.filter (s.clientsMap.contains ·) = subscribers.toList :=
      List.filter_eq_self.2 hall
    have hdead : subscribers.toList.filter (fun fd => !s.clientsMap.contains fd) = [] :=
      List.filter_eq_nil_iff.2 fun fd hfd => by rw [hall fd hfd]; decide
    dsimp only
    rw [hreached, hdead, heq]
    refine ⟨rfl, rfl, rfl, ?_⟩
    refine Std.ExtTreeMap.ext_getElem? fun channel => ?_
    simp only [Server.setChannel, List.foldl_nil, Std.ExtTreeMap.getElem?_insert, compare_bytes]
    split_ifs with hch
    · rw [← hch, hs]
    · rfl

/-- The end of a connection. -/
theorem disconnect (h : Indexed s) (fd : ℤ) :
    Indexed { pubsubCleanupClient fd s with
      clientsMap := (pubsubCleanupClient fd s).clientsMap.erase fd } := by
  have hsubscribers : ∀ fd' channel, fd' ∈ (pubsubCleanupClient fd s).subscribers channel ↔
      fd' ∈ s.subscribers channel ∧ fd' ≠ fd := by
    intro fd' channel
    have hmem : fd' = fd → (channel ∈ (s.client fd).subscribedChannels ↔
        fd' ∈ s.subscribers channel) := fun he => by rw [he, h.mem_iff]
    unfold pubsubCleanupClient
    split
    · rename_i hnone
      rw [Server.client, hnone] at hmem
      have hempty : channel ∉ ({} : Client).subscribedChannels := Std.ExtTreeSet.not_mem_empty
      grind
    · rename_i c hsome
      rw [subscribers_cleanup, Std.ExtTreeSet.mem_toList]
      rw [Server.client, hsome] at hmem
      grind
  refine ⟨fun fd' channel => ?_, fun fd' => ?_, fun fd' => ?_⟩ <;> rw [client_disconnect]
  · change fd' ∈ (pubsubCleanupClient fd s).subscribers channel ↔ _
    rw [hsubscribers, h.mem_iff]
    split_ifs with hfd
    · simp [hfd]
    · simp [Ne.symm hfd]
  · split_ifs
    · simp
    · exact h.isSubscriber_iff fd'
  · split_ifs
    · exact Nat.zero_le _
    · exact h.size_le fd'

end Indexed

/-! ## Commands -/

section Command

variable {s s' : Server} {env : Env} {fd fd' : ℤ} {args : List Bytes} {f : Fault}

/-- What a branch does to the two maps. -/
def Call.pubsub (fd : ℤ) (args : List Bytes) (s : Server) : Call → Server
  | .subscribe => (pubsubSubscribe fd args s).2
  | .unsubscribe => (pubsubUnsubscribe fd args s).2
  | .publish => (pubsubPublish args s).2.2
  | _ => s

/-- What a command does to the two maps. -/
def pubsubPart (fd : ℤ) (args : List Bytes) (s : Server) : Server :=
  if turnedAway s fd (toUpper (args.headD [])) then s.ensureClient fd
  else (callOf args).pubsub fd args (s.ensureClient fd)

theorem onStore_maps {m : StoreM (Bytes × Bool)} {o : Sends × Bool}
    (h : onStore fd m s = .ok (o, s')) : SameMaps s s' := by
  unfold onStore at h
  rcases hm : m s.store with f | ⟨⟨reply, ok⟩, store⟩ <;> rw [hm] at h
  · cases h
  · obtain ⟨-, rfl⟩ := Prod.mk.inj (Except.ok.inj h)
    exact ⟨rfl, rfl⟩

theorem rewriteAof_maps (h : rewriteAof env s = .ok s') : SameMaps s s' := by
  unfold rewriteAof at h
  dsimp only at h
  by_cases ho : env.disk.opens
  · rw [if_pos ho] at h
    rcases hw : s.store.walk s.store.kvStore.size s.store.tail with f | nodes <;> rw [hw] at h
    · cases h
    · change (uncaught (rewriteText env.now nodes) >>= _) = _ at h
      rcases ht : uncaught (rewriteText env.now nodes) with f | text <;> rw [ht] at h
      · cases h
      · by_cases hr : env.disk.renames
        · simp only [hr, if_true, bind, Except.bind] at h
          cases Except.ok.inj h
          exact ⟨rfl, rfl⟩
        · simp only [hr, bind, Except.bind] at h
          cases Except.ok.inj h
          exact ⟨rfl, rfl⟩
  · rw [if_neg ho] at h
    cases Except.ok.inj h
    exact ⟨rfl, rfl⟩

theorem logged_maps (h : (appendToAof args s >>= checkAndRewriteAof env) = .ok s') :
    SameMaps s s' := by
  rcases ha : appendToAof args s with f | t
  · rw [ha] at h
    cases h
  have ht : SameMaps s t := by
    unfold appendToAof at ha
    split at ha
    · cases Except.ok.inj ha
      exact ⟨rfl, rfl⟩
    · split_ifs at ha
      · rename_i a as hv
        rcases hf : formatRespCommand (a :: as) with e | text <;> rw [hf] at ha
        · cases ha
        · cases Except.ok.inj ha
          exact ⟨rfl, rfl⟩
      · cases Except.ok.inj ha
        exact ⟨rfl, rfl⟩
  rw [ha] at h
  change checkAndRewriteAof env t = .ok s' at h
  unfold checkAndRewriteAof at h
  split_ifs at h
  · exact Except.ok.inj h ▸ ht
  · have hr := rewriteAof_maps h
    exact ⟨hr.1.trans ht.1, hr.2.trans ht.2⟩
  · exact Except.ok.inj h ▸ ht

theorem Call.run_maps {c : Call} {now : ℤ} {cmd : Bytes} {o : Sends × Bool}
    (h : c.run now fd cmd args s = .ok (o, s')) : SameMaps (c.pubsub fd args s) s' := by
  cases c
  case flushdb =>
    have hf := Except.ok.inj h
    unfold commandFlushdb at hf
    split_ifs at hf <;> obtain ⟨-, rfl⟩ := Prod.mk.inj hf <;> exact ⟨rfl, rfl⟩
  all_goals first
    | exact onStore_maps h
    | (obtain ⟨-, rfl⟩ := Prod.mk.inj (Except.ok.inj h)
       exact ⟨rfl, rfl⟩)

theorem handleCommand_maps (h : (handleCommand env fd args s).2 = .ok s') :
    SameMaps (pubsubPart fd args s) s' := by
  rcases args with _ | ⟨a, as⟩
  · cases h
  have hcall : route (toUpper a) (a :: as).length = callOf (a :: as) := rfl
  simp only [handleCommand, turnedAway_ensureClient, hcall] at h
  change SameMaps (if turnedAway s fd (toUpper a) then s.ensureClient fd
    else (callOf (a :: as)).pubsub fd (a :: as) (s.ensureClient fd)) s'
  by_cases ht : turnedAway s fd (toUpper a)
  · rw [if_pos ht] at h ⊢
    exact Except.ok.inj h ▸ ⟨rfl, rfl⟩
  · rw [if_neg ht] at h ⊢
    rcases hrun : (callOf (a :: as)).run env.now fd (toUpper a) (a :: as) (s.ensureClient fd) with
      f | ⟨⟨sends, success⟩, t⟩ <;> rw [hrun] at h
    · cases h
    have hmaps := Call.run_maps hrun
    dsimp only at h
    split_ifs at h
    · have hl := logged_maps h
      exact ⟨hl.1.trans hmaps.1, hl.2.trans hmaps.2⟩
    · exact Except.ok.inj h ▸ hmaps

theorem Indexed.command (hi : Indexed s) (h : (handleCommand env fd args s).2 = .ok s') :
    Indexed s' := by
  have he : Indexed (s.ensureClient fd) := hi.setClient rfl rfl
  refine Indexed.congr ?_ (handleCommand_maps h)
  unfold pubsubPart
  split_ifs
  · exact he
  · rcases hc : callOf args <;> first
      | exact he
      | exact Indexed.subscribeLoop fd _ he
      | exact he.pubsubUnsubscribe fd args
      | exact he.congr (he.pubsubPublish_eq args (of_route (by decide) hc).2).2.2

/-! ## Descriptors -/

theorem mem_setClient {c : Client} : fd' ∈ (s.setClient fd c).clientsMap ↔
    fd' = fd ∨ fd' ∈ s.clientsMap := by
  simp only [Server.setClient, Std.ExtTreeMap.mem_insert, compare_eq_iff_eq, eq_comm (a := fd)]

theorem mem_subscribeLoop : ∀ (channels : List Bytes) {s : Server}, fd ∈ s.clientsMap →
    (fd' ∈ (subscribeLoop fd channels s).2.clientsMap ↔ fd' ∈ s.clientsMap)
  | [], _, _ => Iff.rfl
  | channel :: channels, s, hfd => by
    have hmem : ∀ c, fd' ∈ (s.setClient fd c).clientsMap ↔ fd' ∈ s.clientsMap := fun c =>
      mem_setClient.trans ⟨fun h => h.elim (fun he => he ▸ hfd) id, .inr⟩
    unfold subscribeLoop
    dsimp only
    split_ifs
    · exact hmem _
    · refine (mem_subscribeLoop channels ?_).trans (hmem _)
      exact mem_setClient.2 (.inl rfl)

theorem mem_unsubscribeLoop : ∀ (channels : List Bytes) {s : Server}, fd ∈ s.clientsMap →
    (fd' ∈ (unsubscribeLoop fd channels s).2.clientsMap ↔ fd' ∈ s.clientsMap)
  | [], _, _ => Iff.rfl
  | channel :: channels, s, hfd => by
    have hmem : ∀ c, fd' ∈ (s.setClient fd c).clientsMap ↔ fd' ∈ s.clientsMap := fun c =>
      mem_setClient.trans ⟨fun h => h.elim (fun he => he ▸ hfd) id, .inr⟩
    refine (mem_unsubscribeLoop channels ?_).trans (hmem _)
    exact mem_setClient.2 (.inl rfl)

/-- A command makes an entry for its own descriptor and for no other. -/
theorem mem_handleCommand (h : (handleCommand env fd args s).2 = .ok s') :
    fd' ∈ s'.clientsMap ↔ fd' = fd ∨ fd' ∈ s.clientsMap := by
  have hfd : fd ∈ (s.ensureClient fd).clientsMap := mem_setClient.2 (.inl rfl)
  have he : fd' ∈ (s.ensureClient fd).clientsMap ↔ fd' = fd ∨ fd' ∈ s.clientsMap := mem_setClient
  rw [(handleCommand_maps h).1, ← he]
  unfold pubsubPart
  split_ifs
  · exact Iff.rfl
  · rcases callOf args <;> first
      | exact Iff.rfl
      | exact mem_subscribeLoop _ hfd
      | skip
    · unfold Call.pubsub pubsubUnsubscribe
      dsimp only
      generalize (if args.length = 1 then _ else args.drop 1) = channels
      split_ifs
      · exact mem_setClient.trans ⟨fun h => h.elim (fun heq => heq ▸ hfd) id, .inr⟩
      · exact mem_unsubscribeLoop _ hfd
    · unfold Call.pubsub pubsubPublish
      split_ifs
      · exact Iff.rfl
      · dsimp only
        split
        · exact Iff.rfl
        · exact Iff.rfl

end Command

/-! ## Histories -/

/-- Whether a descriptor belongs to a connection after the events. -/
def isOpen (events : List Event) (fd : ℤ) : Bool :=
  events.foldl (fun o e =>
    match e with
    | .connect fd' => o || fd' = fd
    | .disconnect fd' => o && fd' ≠ fd
    | .command .. => o) false

/-- The next event of a history: the kernel hands out a descriptor that is not open, and a command
comes from a connection, or from the replay of the log. -/
def Event.Follows (events : List Event) : Event → Prop
  | .connect fd => fd ≠ -1 ∧ isOpen events fd = false
  | .disconnect fd => isOpen events fd = true
  | .command _ fd args => isOpen events fd = true ∨ fd = -1 ∧ (callOf args).logs

/-- Every event of the history follows the ones before it. -/
def Orderly (events : List Event) : Prop :=
  ∀ pre e, pre ++ [e] <+: events → e.Follows pre

/-- The maps agree, and `clients_map` has the open descriptors. -/
structure Connected (events : List Event) (s : Server) : Prop extends Indexed s where
  mem_of_isOpen : ∀ fd, isOpen events fd = true → fd ∈ s.clientsMap
  isOpen_of_mem : ∀ fd ∈ s.clientsMap, fd = -1 ∨ isOpen events fd = true

theorem orderly_nil : Orderly [] := fun pre e h => by
  have hlen := h.length_le
  simp at hlen

theorem orderly_snoc (events : List Event) (e : Event) (h : Orderly events)
    (he : e.Follows events) : Orderly (events ++ [e]) := by
  intro pre d hpre
  rcases List.prefix_concat_iff.1 hpre with heq | hpre
  · obtain ⟨rfl, hde⟩ := List.append_inj' heq rfl
    obtain rfl := List.singleton_inj.1 hde
    exact he
  · exact h pre d hpre

theorem isOpen_snoc (events : List Event) (e : Event) (fd : ℤ) :
    isOpen (events ++ [e]) fd =
      match e with
      | .connect fd' => isOpen events fd || fd' = fd
      | .disconnect fd' => isOpen events fd && fd' ≠ fd
      | .command .. => isOpen events fd := by
  unfold isOpen
  rw [List.foldl_append]
  cases e <;> rfl

/-- Whether events can follow while these descriptors are open. -/
def inOrder : List ℤ → List Event → Bool
  | _, [] => true
  | fds, .connect fd :: events => fd ≠ -1 && fd ∉ fds && inOrder (fd :: fds) events
  | fds, .disconnect fd :: events => fd ∈ fds && inOrder (fds.filter (· ≠ fd)) events
  | fds, .command _ fd args :: events =>
    (fd ∈ fds || fd = -1 && (callOf args).logs) && inOrder fds events

theorem orderly_cons_iff {pre events : List Event} {e : Event} :
    Orderly (pre ++ e :: events) ↔ e.Follows pre ∧ Orderly (pre ++ [e] ++ events) := by
  rw [← List.append_cons]
  exact ⟨fun ho => ⟨ho pre e ⟨events, (List.append_cons _ _ _).symm⟩, ho⟩, And.right⟩

theorem inOrder_iff : ∀ {events pre : List Event} {fds : List ℤ}, Orderly pre →
    (∀ fd, fd ∈ fds ↔ isOpen pre fd = true) →
      (inOrder fds events = true ↔ Orderly (pre ++ events))
  | [], pre, fds, h, _ => by simp [inOrder, h]
  | e :: events, pre, fds, h, hfds => by
    rw [orderly_cons_iff]
    have hnext : ∀ fds', e.Follows pre → (∀ fd, fd ∈ fds' ↔ isOpen (pre ++ [e]) fd = true) →
        (inOrder fds' events = true ↔ Orderly (pre ++ [e] ++ events)) := fun fds' he =>
      inOrder_iff (orderly_snoc pre e h he)
    rcases e with fd | fd | ⟨env, fd, args⟩
    · have hfollows : (fd ≠ -1 ∧ fd ∉ fds) ↔ (Event.connect fd).Follows pre := by
        simp [Event.Follows, hfds]
      simp only [inOrder, Bool.and_eq_true, decide_eq_true_eq]
      rw [hfollows]
      refine and_congr_right fun he => hnext _ he fun fd' => ?_
      rw [isOpen_snoc, List.mem_cons, hfds]
      grind
    · have hfollows : fd ∈ fds ↔ (Event.disconnect fd).Follows pre := hfds fd
      simp only [inOrder, Bool.and_eq_true, decide_eq_true_eq]
      rw [hfollows]
      refine and_congr_right fun he => hnext _ he fun fd' => ?_
      rw [isOpen_snoc, List.mem_filter, hfds]
      grind
    · have hfollows : (fd ∈ fds ∨ fd = -1 ∧ (callOf args).logs = true) ↔
          (Event.command env fd args).Follows pre := or_congr_left (hfds fd)
      simp only [inOrder, Bool.and_eq_true, Bool.or_eq_true, decide_eq_true_eq]
      rw [hfollows]
      refine and_congr_right fun he => hnext _ he fun fd' => ?_
      rw [isOpen_snoc, hfds]

instance (events : List Event) : Decidable (Orderly events) :=
  decidable_of_iff (inOrder [] events = true)
    (@inOrder_iff events [] [] orderly_nil (by simp [isOpen]))

theorem Connected.step {events : List Event} {e : Event} {s s' : Server}
    (h : Connected events s) (he : e.Follows events) (hs : s.step e = .ok s') :
    Connected (events ++ [e]) s' := by
  rcases e with fd | fd | ⟨env, fd, args⟩
  · obtain rfl := Except.ok.inj hs
    have hfd : fd ∉ s.clientsMap := fun hmem => by
      rcases h.isOpen_of_mem fd hmem with hc | hc
      · exact he.1 hc
      · rw [he.2] at hc
        cases hc
    refine ⟨h.connect hfd, fun fd' => ?_, fun fd' => ?_⟩ <;> rw [mem_setClient, isOpen_snoc]
    · have hmem := h.mem_of_isOpen fd'
      grind
    · have hopen := h.isOpen_of_mem fd'
      grind
  · obtain rfl := Except.ok.inj hs
    have hmap : (pubsubCleanupClient fd s).clientsMap = s.clientsMap :=
      clientsMap_pubsubCleanupClient fd s
    refine ⟨h.disconnect fd, fun fd' => ?_, fun fd' => ?_⟩ <;> rw [isOpen_snoc] <;>
      simp only [hmap, Std.ExtTreeMap.mem_erase, ne_eq, compare_eq_iff_eq]
    · have hmem := h.mem_of_isOpen fd'
      grind
    · have hopen := h.isOpen_of_mem fd'
      grind
  · refine ⟨h.command hs, fun fd' => ?_, fun fd' => ?_⟩ <;>
      rw [mem_handleCommand hs, isOpen_snoc]
    · exact fun ho => .inr (h.mem_of_isOpen fd' ho)
    · have hopen := h.isOpen_of_mem fd'
      have hself : fd = -1 ∨ isOpen events fd = true := he.elim .inr fun hc => .inl hc.1
      grind

/-- What every event of an orderly history keeps. -/
theorem run_orderly {J : List Event → Server → Prop} {events : List Event} {s : Server}
    (hstep : ∀ pre e s s', Orderly pre → e ∈ events → e.Follows pre → J pre s →
      Server.step s e = .ok s' → J (pre ++ [e]) s')
    (hnil : J [] {}) (ho : Orderly events) (h : run Server.step {} events = .ok s) :
    J events s := by
  refine run_history (fun pre e s s' _ hpre hj hs => ?_) hnil h
  refine hstep pre e s s' (fun pre' e' h' => ?_) (hpre.subset List.mem_concat_self)
    (ho pre e hpre) hj hs
  exact ho pre' e' (h'.trans ((List.prefix_append pre [e]).trans hpre))

theorem run_connected {events : List Event} {s : Server} (ho : Orderly events)
    (h : run Server.step {} events = .ok s) : Connected events s := by
  refine run_orderly (fun _ _ _ _ _ _ he hc hs => hc.step he hs) ?_ ho h
  exact ⟨.initial, fun fd hc => Bool.noConfusion hc, fun fd hc =>
      absurd hc Std.ExtTreeMap.not_mem_empty⟩

/-- In every state a run leads to, a client is in a channel exactly if the channel is among the
client's, a client is a subscriber exactly if it has a channel, and it has at most 128. -/
theorem run_consistent {events : List Event} {s : Server} (ho : Orderly events)
    (h : run Server.step {} events = .ok s) :
    (∀ fd channel, (∃ subscribers, s.channelsSubscribers[channel]? = some subscribers
        ∧ fd ∈ subscribers) ↔
      ∃ c : Client, s.clientsMap[fd]? = some c ∧ channel ∈ c.subscribedChannels) ∧
    (∀ (fd : ℤ) (c : Client), s.clientsMap[fd]? = some c →
      (c.isSubscriber = true ↔ c.subscribedChannels ≠ ∅) ∧
        c.subscribedChannels.size ≤ maxSubscriptionsPerClient) := by
  have hc := run_connected ho h
  refine ⟨fun fd channel => ?_, fun fd c hfd => ?_⟩
  · have hmem := hc.mem_iff fd channel
    unfold Server.subscribers Server.client at hmem
    rcases hs : s.channelsSubscribers[channel]? with _ | subscribers <;>
      rcases hf : s.clientsMap[fd]? with _ | c <;> simp only [hs, hf] at hmem ⊢
    · simp
    · simpa using hmem
    · simpa using hmem
    · simpa using hmem
  · have heq := Server.client_of_getElem? hfd
    exact heq ▸ ⟨hc.isSubscriber_iff fd, hc.size_le fd⟩

/-- Two subscribers, one of which is gone again. -/
theorem run_consistent_two : ∃ s, run Server.step {} [.connect 4, .connect 5,
      .command {} 4 [ascii "SUBSCRIBE", ascii "news"],
      .command {} 5 [ascii "SUBSCRIBE", ascii "news"], .disconnect 4] = .ok s ∧
    ∀ fd channel, (∃ subscribers, s.channelsSubscribers[channel]? = some subscribers
        ∧ fd ∈ subscribers) ↔
      ∃ c : Client, s.clientsMap[fd]? = some c ∧ channel ∈ c.subscribedChannels := by
  have hrun : ∃ s, run Server.step {} [.connect 4, .connect 5,
      .command {} 4 [ascii "SUBSCRIBE", ascii "news"],
      .command {} 5 [ascii "SUBSCRIBE", ascii "news"], .disconnect 4] = .ok s := ⟨_, rfl⟩
  obtain ⟨s, hs⟩ := hrun
  refine ⟨s, hs, (run_consistent ?_ hs).1⟩
  refine orderly_snoc [_, _, _, _] _ ?_ rfl
  refine orderly_snoc [_, _, _] _ ?_ (.inl rfl)
  refine orderly_snoc [_, _] _ ?_ (.inl rfl)
  refine orderly_snoc [_] _ ?_ ⟨by decide, rfl⟩
  exact orderly_snoc [] _ orderly_nil ⟨by decide, rfl⟩

end DrutaDB
