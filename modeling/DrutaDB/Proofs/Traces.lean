import DrutaDB.Proofs.Delivery
import DrutaDB.Proofs.Idempotence
import DrutaDB.Proofs.Isolation

/-!
# What a connection leaves behind

Both maps can be told from the history alone: a channel has an entry if a command of some client
entered it (`Enters`), and no event takes an entry away again (`run_traced`).  So a client that is
gone has left no trace exactly if other clients entered its channels too (`leavesNoTrace_iff`).
-/

namespace DrutaDB

open Machine Decimal Run

/-! ## The events of a client -/

def Event.fd : Event → ℤ
  | .connect fd => fd
  | .disconnect fd => fd
  | .command _ fd _ => fd

/-- The events of the client. -/
def own (fd : ℤ) (events : List Event) : List Event := events.filter (·.fd = fd)

/-- The events with those of the client removed. -/
def without (fd : ℤ) (events : List Event) : List Event := events.filter (·.fd ≠ fd)

/-- A command of the client joins or leaves the channel. -/
def Enters (events : List Event) (fd : ℤ) (channel : Bytes) : Prop :=
  ∃ pre env args, pre ++ [.command env fd args] <+: events ∧
    channel ∈ (movesOf (moves pre fd) args).map Move.channel

/-- The events of publish/subscribe. -/
def Event.IsPubSub : Event → Prop
  | .command _ _ args => IsSubscription args ∨ toUpper (args.headD []) = ascii "PUBLISH"
  | _ => True

section Events

variable {events : List Event} {e : Event} {fd fd' : ℤ} {channel : Bytes}

theorem own_snoc : own fd (events ++ [e]) =
    if e.fd = fd then own fd events ++ [e] else own fd events := by
  unfold own
  rw [List.filter_append, List.filter_singleton]
  split_ifs with h <;> simp_all

theorem without_snoc : without fd (events ++ [e]) =
    if e.fd = fd then without fd events else without fd events ++ [e] := by
  unfold without
  rw [List.filter_append, List.filter_singleton]
  split_ifs with h <;> simp_all

theorem own_without : own fd' (without fd events) = if fd' = fd then [] else own fd' events := by
  unfold own without
  rw [List.filter_filter]
  split_ifs with h
  · exact List.filter_eq_nil_iff.2 fun e _ => by simp [h]
  · refine List.filter_congr fun e _ => ?_
    grind

theorem enters_snoc : Enters (events ++ [e]) fd channel ↔ Enters events fd channel ∨
    ∃ env args, e = .command env fd args ∧
      channel ∈ (movesOf (moves events fd) args).map Move.channel := by
  refine ⟨?_, ?_⟩
  · rintro ⟨pre, env, args, hpre, hch⟩
    rcases List.prefix_concat_iff.1 hpre with heq | hpre
    · obtain ⟨rfl, he⟩ := List.append_inj' heq rfl
      exact .inr ⟨env, args, (List.singleton_inj.1 he).symm, hch⟩
    · exact .inl ⟨pre, env, args, hpre, hch⟩
  · rintro (⟨pre, env, args, hpre, hch⟩ | ⟨env, args, rfl, hch⟩)
    · exact ⟨pre, env, args, hpre.trans (List.prefix_append _ _), hch⟩
    · exact ⟨events, env, args, List.prefix_rfl, hch⟩

theorem not_enters_nil : ¬ Enters [] fd channel := by
  rintro ⟨pre, env, args, hpre, -⟩
  have hlen := hpre.length_le
  simp at hlen

/-! What a history says of a client, its own events say. -/

theorem isOpen_own : isOpen (own fd events) fd = isOpen events fd := by
  induction events using List.reverseRecOn with
  | nil => rfl
  | append_singleton events e ih =>
    rw [own_snoc, isOpen_snoc]
    split_ifs with he
    · rw [isOpen_snoc, ih]
    · rw [ih]
      cases e <;> simp_all [Event.fd]

theorem moves_own : moves (own fd events) fd = moves events fd := by
  induction events using List.reverseRecOn with
  | nil => rfl
  | append_singleton events e ih =>
    rw [own_snoc, moves_snoc]
    split_ifs with he
    · rw [moves_snoc, ih]
    · rw [ih]
      cases e <;> simp_all [Event.fd]

theorem enters_own : Enters (own fd events) fd channel ↔ Enters events fd channel := by
  induction events using List.reverseRecOn with
  | nil => rfl
  | append_singleton events e ih =>
    rw [own_snoc, enters_snoc]
    split_ifs with he
    · rw [enters_snoc, ih, moves_own]
    · rw [ih]
      refine ⟨.inl, fun h => h.resolve_right ?_⟩
      rintro ⟨env, args, rfl, -⟩
      exact he rfl

theorem isOpen_without (h : fd' ≠ fd) : isOpen (without fd events) fd' = isOpen events fd' := by
  rw [← isOpen_own, own_without, if_neg h, isOpen_own]

theorem moves_without (h : fd' ≠ fd) : moves (without fd events) fd' = moves events fd' := by
  rw [← moves_own, own_without, if_neg h, moves_own]

theorem isOpen_without_self : isOpen (without fd events) fd = false := by
  rw [← isOpen_own, own_without, if_pos rfl]
  rfl

theorem enters_without :
    Enters (without fd events) fd' channel ↔ fd' ≠ fd ∧ Enters events fd' channel := by
  rw [← enters_own, own_without]
  split_ifs with h
  · exact iff_of_false not_enters_nil fun hc => hc.1 h
  · rw [enters_own]
    exact ⟨fun he => ⟨h, he⟩, And.right⟩

theorem orderly_without (ho : Orderly events) (fd : ℤ) : Orderly (without fd events) := by
  induction events using List.reverseRecOn with
  | nil => exact orderly_nil
  | append_singleton events e ih =>
    have hpre : Orderly events := fun pre d hd => ho pre d (hd.trans (List.prefix_append _ _))
    have he : e.Follows events := ho events e List.prefix_rfl
    rw [without_snoc]
    split_ifs with hfd
    · exact ih hpre
    · refine orderly_snoc _ _ (ih hpre) ?_
      have hopen : isOpen (without fd events) e.fd = isOpen events e.fd := isOpen_without hfd
      rcases e with fd' | fd' | ⟨env, fd', args⟩ <;> simp only [Event.fd] at hopen <;>
        simpa only [Event.Follows, hopen] using he

end Events

/-! ## The channels with an entry -/

section Channels

variable {s s' : Server} {env : Env} {fd fd' : ℤ} {args : List Bytes} {ms : List Move}
  {channel d : Bytes}

theorem mem_setChannel {subscribers : Std.ExtTreeSet ℤ} :
    d ∈ (s.setChannel channel subscribers).channelsSubscribers ↔
      d = channel ∨ d ∈ s.channelsSubscribers := by
  rw [Server.setChannel, Std.ExtTreeMap.mem_insert, compare_bytes, eq_comm]

theorem mem_channels_subscribeLoop : ∀ {channels : List Bytes} {s : Server} {ms : List Move},
    Follows (s.client fd) ms →
      (d ∈ (subscribeLoop fd channels s).2.channelsSubscribers ↔
        d ∈ (accepted ms channels).map Move.channel ∨ d ∈ s.channelsSubscribers)
  | [], s, ms, _ => by simp [subscribeLoop, accepted]
  | channel :: channels, s, ms, h => by
    unfold subscribeLoop accepted
    dsimp only
    by_cases hok : listening ms channel ∨ (joined ms).length < maxSubscriptionsPerClient
    · rw [if_pos hok, if_neg ((h.stop_iff channel).not.2 (not_not.2 hok)), List.map_cons,
        List.mem_cons, or_assoc, or_left_comm, ← mem_setChannel]
      refine mem_channels_subscribeLoop ?_
      rw [Server.client_setClient, if_pos rfl]
      exact h.insert rfl
    · rw [if_neg hok, if_pos ((h.stop_iff channel).2 hok)]
      simp [Server.ensureClient, Server.setClient]

theorem mem_channels_unsubscribeLoop : ∀ (channels : List Bytes) (s : Server),
    d ∈ (unsubscribeLoop fd channels s).2.channelsSubscribers ↔
      d ∈ channels ∨ d ∈ s.channelsSubscribers
  | [], s => by simp [unsubscribeLoop]
  | channel :: channels, s => by
    unfold unsubscribeLoop
    dsimp only
    rw [mem_channels_unsubscribeLoop channels, List.mem_cons, or_assoc, or_left_comm,
      ← mem_setChannel]
    rfl

theorem mem_channels_unsubscribe (h : Follows (s.client fd) ms) :
    d ∈ (pubsubUnsubscribe fd args s).2.channelsSubscribers ↔
      d ∈ (if args.length = 1 then joined ms else args.drop 1) ∨ d ∈ s.channelsSubscribers := by
  have hmem : d ∈ (if args.length = 1 then (s.client fd).subscribedChannels.toList
      else args.drop 1) ↔ d ∈ (if args.length = 1 then joined ms else args.drop 1) := by
    split_ifs
    · rw [Std.ExtTreeSet.mem_toList, h d, mem_joined]
    · exact Iff.rfl
  rw [← hmem]
  unfold pubsubUnsubscribe
  dsimp only
  generalize (if args.length = 1 then (s.client fd).subscribedChannels.toList
      else args.drop 1) = channels
  split_ifs with hempty
  · rw [hempty]
    simp [Server.ensureClient, Server.setClient]
  · exact mem_channels_unsubscribeLoop channels s

/-- A command makes an entry for each channel it enters, and for no other. -/
theorem mem_channels_handleCommand (hi : Indexed s) (hf : Follows (s.client fd) ms)
    (h : (handleCommand env fd args s).2 = .ok s') :
    d ∈ s'.channelsSubscribers ↔
      d ∈ (movesOf ms args).map Move.channel ∨ d ∈ s.channelsSubscribers := by
  have hi' : Indexed (s.ensureClient fd) := hi.setClient rfl rfl
  have hf' : Follows ((s.ensureClient fd).client fd) ms := by
    rw [client_ensureClient]
    exact hf
  have hchannels : (s.ensureClient fd).channelsSubscribers = s.channelsSubscribers := rfl
  rw [(handleCommand_maps h).2, ← hchannels]
  unfold pubsubPart
  by_cases ht : turnedAway s fd (toUpper (args.headD []))
  · have hc := turnedAway_subscribe ht
    rw [if_pos ht, movesOf]
    rcases hcall : callOf args <;> simp_all
  · rw [if_neg ht, movesOf]
    rcases hcall : callOf args <;> dsimp only [Call.pubsub]
    case subscribe => exact mem_channels_subscribeLoop hf'
    case unsubscribe =>
      rw [List.map_map, mem_channels_unsubscribe hf']
      simp [Function.comp_def, Move.channel]
    case publish =>
      rw [(hi'.pubsubPublish_eq args (of_route (by decide) hcall).2).2.2.2]
      simp
    all_goals simp

theorem mem_channels_cleanup {channels : List Bytes} {s : Server} :
    d ∈ (channels.foldl (fun s channel =>
        s.setChannel channel ((s.subscribers channel).erase fd)) s).channelsSubscribers ↔
      d ∈ channels ∨ d ∈ s.channelsSubscribers := by
  induction channels generalizing s with
  | nil => simp
  | cons channel channels ih =>
    rw [List.foldl_cons, ih, mem_setChannel, List.mem_cons, or_assoc, or_left_comm]

/-- The end of a connection makes no entry, and takes none away. -/
theorem mem_channels_disconnect (hi : Indexed s) :
    d ∈ (pubsubCleanupClient fd s).channelsSubscribers ↔ d ∈ s.channelsSubscribers := by
  unfold pubsubCleanupClient
  split
  · exact Iff.rfl
  · rename_i c hc
    refine mem_channels_cleanup.trans ⟨fun h => h.elim (fun hd => ?_) id, .inr⟩
    rw [Std.ExtTreeSet.mem_toList, ← Server.client_of_getElem? hc] at hd
    exact hi.mem_channelsSubscribers hd

end Channels

/-! ## Runs -/

/-- The maps are told from the history: a channel has an entry if a command entered it. -/
structure Traced (events : List Event) (s : Server) : Prop extends Tracks events s where
  mem_channels : ∀ channel, channel ∈ s.channelsSubscribers ↔ ∃ fd, Enters events fd channel
  parser : ∀ fd, (s.client fd).parser = {}
  /-- No log is replayed. -/
  not_replay : -1 ∉ s.clientsMap

section Runs

variable {events : List Event} {s s' t : Server} {fd : ℤ}

/-- The branches for the three names. -/
theorem callOf_pubSub {env : Env} {args : List Bytes} (h : (Event.command env fd args).IsPubSub) :
    callOf args = .subscribe ∨ callOf args = .unsubscribe ∨ callOf args = .publish ∨
      callOf args = .unknown := by
  rcases hc : callOf args <;> first
    | exact .inl rfl
    | exact .inr (.inl rfl)
    | exact .inr (.inr (.inl rfl))
    | exact .inr (.inr (.inr rfl))
    | (exfalso
       have hname := (of_route (by decide) hc).1
       rcases h with (h | h) | h <;> rw [h] at hname <;> exact absurd hname (by decide))

theorem not_logs_pubSub {env : Env} {args : List Bytes}
    (h : (Event.command env fd args).IsPubSub) : ¬ (callOf args).logs := by
  rcases callOf_pubSub h with hc | hc | hc | hc <;> rw [hc] <;> decide

/-- The events of publish/subscribe never fail. -/
theorem step_pubSub {e : Event} (h : e.IsPubSub) (s : Server) : ∃ s', s.step e = .ok s' := by
  rcases e with fd | fd | ⟨env, fd, _ | ⟨a, as⟩⟩
  · exact ⟨_, rfl⟩
  · exact ⟨_, rfl⟩
  · rcases h with h | h
    · exact absurd h not_isSubscription_nil
    · exact absurd h (by decide)
  · have hquiet : (Event.command env fd (a :: as)).change s = .quiet := by
      rw [change_command]
      rcases callOf_pubSub h with hc | hc | hc | hc <;> rw [hc] <;> exact ite_self _
    obtain ⟨s', hs', -⟩ := handleCommand_quiet hquiet
    exact ⟨s', hs'⟩

theorem run_pubSub : ∀ {events : List Event} (s : Server), (∀ e ∈ events, e.IsPubSub) →
    ∃ s', run Server.step s events = .ok s'
  | [], s, _ => ⟨s, rfl⟩
  | e :: events, s, h => by
    obtain ⟨s', hs'⟩ := step_pubSub (h e List.mem_cons_self) s
    rw [run_cons_ok hs']
    exact run_pubSub s' fun e' he' => h e' (List.mem_cons_of_mem e he')

theorem Traced.step {e : Event} (h : Traced events s) (he : e.Follows events) (hp : e.IsPubSub)
    (hopen : isOpen events (-1) = false) (hs : s.step e = .ok s') :
    Traced (events ++ [e]) s' := by
  have ht := h.toTracks.step he hopen hs
  refine ⟨ht, fun channel => ?_, fun fd' => ?_, ?_⟩
  · simp only [enters_snoc, exists_or, ← h.mem_channels]
    rcases e with fd | fd | ⟨env, fd, args⟩
    · obtain rfl := Except.ok.inj hs
      simp [Server.setClient]
    · obtain rfl := Except.ok.inj hs
      simpa using mem_channels_disconnect h.toIndexed
    · rw [mem_channels_handleCommand h.toIndexed (h.follows fd) hs, or_comm]
      simp
  · rcases e with fd | fd | ⟨env, fd, args⟩
    · obtain rfl := Except.ok.inj hs
      rw [Server.client_setClient]
      split_ifs
      · rfl
      · exact h.parser fd'
    · obtain rfl := Except.ok.inj hs
      rw [client_disconnect]
      split_ifs
      · rfl
      · exact h.parser fd'
    · rw [parser_handleCommand hs]
      exact h.parser fd'
  · rcases e with fd | fd | ⟨env, fd, args⟩
    · obtain rfl := Except.ok.inj hs
      exact fun hc => (mem_setClient.1 hc).elim (he.1 ·.symm) h.not_replay
    · obtain rfl := Except.ok.inj hs
      refine fun hc => h.not_replay ?_
      rw [← clientsMap_pubsubCleanupClient fd s]
      exact (Std.ExtTreeMap.mem_erase.1 hc).2
    · refine fun hc => ((mem_handleCommand hs).1 hc).elim (fun hfd => ?_) h.not_replay
      rcases he with he | he
      · rw [← hfd, hopen] at he
        cases he
      · exact not_logs_pubSub hp he.2

theorem run_traced (ho : Orderly events) (hp : ∀ e ∈ events, e.IsPubSub)
    (h : run Server.step {} events = .ok s) : Traced events s := by
  refine run_orderly (fun _ e _ _ hpre hmem he ht hs =>
      ht.step he (hp e hmem) (isOpen_replay hpre) hs)
    ⟨run_tracks orderly_nil rfl, fun channel => ?_, fun _ => rfl, ?_⟩ ho h
  · exact iff_of_false Std.ExtTreeMap.not_mem_empty fun ⟨_, hc⟩ => not_enters_nil hc
  · exact Std.ExtTreeMap.not_mem_empty

theorem Traced.mem_clientsMap_iff (h : Traced events s) :
    fd ∈ s.clientsMap ↔ isOpen events fd = true := by
  refine ⟨fun hmem => (h.isOpen_of_mem fd hmem).resolve_left ?_, h.mem_of_isOpen fd⟩
  rintro rfl
  exact h.not_replay hmem

/-- What is kept for a client, from its moves. -/
theorem Traced.client_eq {events' : List Event} (hs : Traced events s) (ht : Traced events' t)
    (hm : moves events fd = moves events' fd) : s.client fd = t.client fd := by
  have hchannels : (s.client fd).subscribedChannels = (t.client fd).subscribedChannels := by
    refine Std.ExtTreeSet.ext_mem fun channel => ?_
    rw [hs.follows fd channel, ht.follows fd channel, hm]
  have hsub : (s.client fd).isSubscriber = (t.client fd).isSubscriber := by
    rw [Bool.eq_iff_iff, hs.isSubscriber_iff, ht.isSubscriber_iff, hchannels]
  have hparser : (s.client fd).parser = (t.client fd).parser := by
    rw [hs.parser fd, ht.parser fd]
  rcases hc : s.client fd with ⟨parser, isSubscriber, channels⟩
  rcases hd : t.client fd with ⟨parser', isSubscriber', channels'⟩
  rw [hc, hd] at hchannels hsub hparser
  dsimp only at hchannels hsub hparser
  rw [hchannels, hsub, hparser]

/-- The clients are those of the run without the client that is gone. -/
theorem Traced.clientsMap_eq (hs : Traced events s) (ht : Traced (without fd events) t)
    (hclosed : isOpen events fd = false) : t.clientsMap = s.clientsMap := by
  refine Std.ExtTreeMap.ext_getElem? fun fd' => ?_
  have hopen : isOpen (without fd events) fd' = isOpen events fd' := by
    by_cases hfd : fd' = fd
    · rw [hfd, isOpen_without_self, hclosed]
    · exact isOpen_without hfd
  by_cases hmem : fd' ∈ s.clientsMap
  · have hopen' := hs.mem_clientsMap_iff.1 hmem
    have hmem' : fd' ∈ t.clientsMap := ht.mem_clientsMap_iff.2 (hopen.trans hopen')
    have hfd : fd' ≠ fd := by
      rintro rfl
      rw [hclosed] at hopen'
      cases hopen'
    have hc := hs.client_eq ht (moves_without hfd).symm
    rw [Server.client, Server.client, Std.ExtTreeMap.getElem?_eq_some_getElem hmem,
      Std.ExtTreeMap.getElem?_eq_some_getElem hmem'] at hc
    rw [Std.ExtTreeMap.getElem?_eq_some_getElem hmem,
      Std.ExtTreeMap.getElem?_eq_some_getElem hmem']
    exact congrArg some hc.symm
  · have hmem' : fd' ∉ t.clientsMap := by
      rwa [ht.mem_clientsMap_iff, hopen, ← hs.mem_clientsMap_iff]
    rw [Std.ExtTreeMap.getElem?_eq_none hmem, Std.ExtTreeMap.getElem?_eq_none hmem']

/-- The channels are, if each of them has an entry on both sides. -/
theorem Traced.channels_eq (hs : Traced events s) (ht : Traced (without fd events) t)
    (hclients : t.clientsMap = s.clientsMap)
    (hmem : ∀ channel, channel ∈ t.channelsSubscribers ↔ channel ∈ s.channelsSubscribers) :
    t.channelsSubscribers = s.channelsSubscribers := by
  refine Std.ExtTreeMap.ext_getElem? fun channel => ?_
  have hsame : t.subscribers channel = s.subscribers channel := by
    refine Std.ExtTreeSet.ext_mem fun fd' => ?_
    rw [ht.mem_iff, hs.mem_iff, Server.client, Server.client, hclients]
  by_cases hch : channel ∈ s.channelsSubscribers
  · have hch' := (hmem channel).2 hch
    rw [Server.subscribers, Server.subscribers, Std.ExtTreeMap.getElem?_eq_some_getElem hch,
      Std.ExtTreeMap.getElem?_eq_some_getElem hch'] at hsame
    rw [Std.ExtTreeMap.getElem?_eq_some_getElem hch,
      Std.ExtTreeMap.getElem?_eq_some_getElem hch']
    exact congrArg some hsame
  · rw [Std.ExtTreeMap.getElem?_eq_none hch,
      Std.ExtTreeMap.getElem?_eq_none ((hmem channel).not.2 hch)]

end Runs

/-- The two maps end as in the run without the client's events. -/
def LeavesNoTrace (events : List Event) (fd : ℤ) : Prop :=
  ∃ s t, run Server.step {} events = .ok s ∧ run Server.step {} (without fd events) = .ok t ∧
    s.channelsSubscribers = t.channelsSubscribers ∧ s.clientsMap = t.clientsMap

/-- A client that is gone has left no trace exactly if another client entered each channel that
it entered. -/
theorem leavesNoTrace_iff {events : List Event} (ho : Orderly events)
    (hp : ∀ e ∈ events, e.IsPubSub) {fd : ℤ} (hclosed : isOpen events fd = false) :
    LeavesNoTrace events fd ↔
      ∀ channel, Enters events fd channel → ∃ fd' ≠ fd, Enters events fd' channel := by
  have hp' : ∀ e ∈ without fd events, e.IsPubSub := fun e he => hp e (List.mem_of_mem_filter he)
  obtain ⟨s, hrs⟩ := run_pubSub {} hp
  obtain ⟨t, hrt⟩ := run_pubSub {} hp'
  have hs := run_traced ho hp hrs
  have ht := run_traced (orderly_without ho fd) hp' hrt
  have hmem : ∀ channel, channel ∈ t.channelsSubscribers ↔
      ∃ fd' ≠ fd, Enters events fd' channel := fun channel => by
    simp only [ht.mem_channels, enters_without, ne_eq]
  refine ⟨?_, fun hall => ⟨s, t, hrs, hrt, ?_⟩⟩
  · rintro ⟨s', t', hrs', hrt', heq, -⟩ channel hch
    obtain rfl := Except.ok.inj (hrs.symm.trans hrs')
    obtain rfl := Except.ok.inj (hrt.symm.trans hrt')
    rw [← hmem, ← heq]
    exact (hs.mem_channels channel).2 ⟨fd, hch⟩
  · have hclients := hs.clientsMap_eq ht hclosed
    refine ⟨(hs.channels_eq ht hclients fun channel => ?_).symm, hclients.symm⟩
    rw [hmem, hs.mem_channels]
    refine ⟨fun ⟨fd', _, hch⟩ => ⟨fd', hch⟩, fun ⟨fd', hch⟩ => ?_⟩
    by_cases hfd : fd' = fd
    · exact hall channel (hfd ▸ hch)
    · exact ⟨fd', hfd, hch⟩

theorem leavesNoTrace_iff_shared : LeavesNoTrace [.connect 4, .connect 5,
    .command {} 5 [ascii "SUBSCRIBE", ascii "news"],
    .command {} 4 [ascii "SUBSCRIBE", ascii "news"], .disconnect 4] 4 := by
  have ho : Orderly [.connect 4, .connect 5, .command {} 5 [ascii "SUBSCRIBE", ascii "news"],
      .command {} 4 [ascii "SUBSCRIBE", ascii "news"], .disconnect 4] := by
    refine orderly_snoc [_, _, _, _] _ ?_ rfl
    refine orderly_snoc [_, _, _] _ ?_ (.inl rfl)
    refine orderly_snoc [_, _] _ ?_ (.inl rfl)
    refine orderly_snoc [_] _ ?_ ⟨by decide, rfl⟩
    exact orderly_snoc [] _ orderly_nil ⟨by decide, rfl⟩
  have hname : IsSubscription [ascii "SUBSCRIBE", ascii "news"] := .inl (by decide)
  have hclosed : isOpen [.connect 4, .connect 5, .command {} 5 [ascii "SUBSCRIBE", ascii "news"],
      .command {} 4 [ascii "SUBSCRIBE", ascii "news"], .disconnect 4] 4 = false := rfl
  refine (leavesNoTrace_iff ho (by simp [Event.IsPubSub, hname]) hclosed).2 fun channel hch => ?_
  have hsnoc : ∀ fd, Enters [.connect 4, .connect 5,
      .command {} 5 [ascii "SUBSCRIBE", ascii "news"],
      .command {} 4 [ascii "SUBSCRIBE", ascii "news"], .disconnect 4] fd channel ↔
        Enters ([] ++ [Event.connect 4] ++ [Event.connect 5] ++
          [Event.command {} 5 [ascii "SUBSCRIBE", ascii "news"]] ++
          [Event.command {} 4 [ascii "SUBSCRIBE", ascii "news"]] ++ [Event.disconnect 4]) fd
          channel :=
    fun _ => Iff.rfl
  have hjoin : channel ∈ (movesOf (moves [.connect 4, .connect 5] 5)
      [ascii "SUBSCRIBE", ascii "news"]).map Move.channel := by
    simp only [hsnoc, enters_snoc, not_enters_nil, reduceCtorEq, false_and, exists_false, false_or,
      or_false, Event.command.injEq] at hch
    rcases hch with ⟨env, args, ⟨-, hfd, -⟩, -⟩ | ⟨env, args, ⟨-, -, rfl⟩, hch⟩
    · exact absurd hfd (by decide)
    · exact hch
  refine ⟨5, by decide, (hsnoc 5).2 (enters_snoc.2 (.inl (enters_snoc.2 (.inl ?_))))⟩
  exact enters_snoc.2 (.inr ⟨{}, _, rfl, hjoin⟩)

/-- The channel stays, without subscribers. -/
theorem not_leavesNoTrace : ¬ ∀ (events : List Event) (fd : ℤ), Orderly events →
    (∀ e ∈ events, e.IsPubSub) → isOpen events fd = false → LeavesNoTrace events fd := by
  intro h
  have ho : Orderly [.connect 4, .command {} 4 [ascii "SUBSCRIBE", ascii "news"],
      .disconnect 4] := by
    refine orderly_snoc [_, _] _ ?_ rfl
    refine orderly_snoc [_] _ ?_ (.inl rfl)
    exact orderly_snoc [] _ orderly_nil ⟨by decide, rfl⟩
  have hname : IsSubscription [ascii "SUBSCRIBE", ascii "news"] := .inl (by decide)
  obtain ⟨s, t, hs, ht, heq, -⟩ := h _ 4 ho (by simp [Event.IsPubSub, hname]) rfl
  have hleft : ∃ s, run Server.step {} [.connect 4,
      .command {} 4 [ascii "SUBSCRIBE", ascii "news"], .disconnect 4] = .ok s ∧
      s.channelsSubscribers.contains (ascii "news") = true := ⟨_, rfl, rfl⟩
  obtain ⟨s', hs', hnews⟩ := hleft
  obtain rfl := Except.ok.inj (hs'.symm.trans hs)
  obtain rfl := Except.ok.inj ht
  rw [heq] at hnews
  cases hnews

end DrutaDB
