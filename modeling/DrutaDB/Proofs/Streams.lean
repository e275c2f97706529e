import DrutaDB.Proofs.Delivery
import DrutaDB.Proofs.Process
import DrutaDB.Proofs.Replies
import DrutaDB.Proofs.Visible

/-!
# What a connection is sent

The bytes a connection is sent are values, one after the other: the answers to its own commands, in
their order, and between them the messages of the channels it listens to (`run_streams`).  A value
tells where it ends, so the connection can read them off, however much of them has come in.
-/

namespace DrutaDB

open Machine Decimal Feed Run Resp

/-! ## The texts -/

section Texts

variable {a b c : Bytes}

theorem isValue_three (ha : IsValue a) (hb : IsValue b) (hc : IsValue c) :
    IsValue (ascii "*3" ++ crlf ++ a ++ b ++ c) := by
  have harray := isValue_respArray (f := id) [a, b, c] (by
    simp only [List.forall_mem_cons, List.not_mem_nil, false_implies, implies_true, and_true]
    exact ⟨ha, hb, hc⟩)
  have hheader : respArray 3 = ascii "*3" ++ crlf := by decide
  simpa [hheader] using harray

theorem isValue_subscriptionReply (kind : String) (channel : Bytes) (count : ℕ) :
    IsValue (subscriptionReply kind channel count) := by
  have hcount : IsValue (byte ':' :: toDecimal count ++ crlf) := .integer count
  have hthree := isValue_three (.bulk (ascii kind)) (.bulk channel) hcount
  rwa [← List.append_assoc] at hthree

theorem isValue_messageFrame (channel message : Bytes) : IsValue (messageFrame channel message) :=
  isValue_three (.bulk (ascii "message")) (.bulk channel) (.bulk message)

theorem isValue_subscriptionLimit : IsValue subscriptionLimit :=
  (IsValue.line_iff (.inr rfl)).2 (by decide)

/-- The reply to UNSUBSCRIBE where there is no channel to leave. -/
theorem isValue_noChannel : IsValue (ascii "*3" ++ crlf ++ respBulkString (ascii "unsubscribe") ++
    nilReply ++ ascii ":0" ++ crlf) := by
  have hthree := isValue_three (.bulk (ascii "unsubscribe")) .nil (.integer 0)
  exact hthree

end Texts

/-! ## Answers -/

/-- How many values answer a command, after the moves of its connection: one, but for the
subscriptions, which are confirmed one by one. -/
def answers (ms : List Move) (args : List Bytes) : ℕ :=
  match callOf args with
  | .subscribe => min (args.drop 1).length ((accepted ms (args.drop 1)).length + 1)
  | .unsubscribe => max 1 (if args.length = 1 then joined ms else args.drop 1).length
  | _ => 1

/-- The text is that of so many values. -/
def IsValues (n : ℕ) (b : Bytes) : Prop :=
  ∃ vs : List Bytes, vs.length = n ∧ (∀ v ∈ vs, IsValue v) ∧ b = vs.flatten

section Answers

variable {s : Server} {fd fd' : ℤ} {ms : List Move} {b b' : Bytes} {n : ℕ} {args : List Bytes}
  {env : Env}

theorem isValues_one (h : IsValue b) : IsValues 1 b := ⟨[b], rfl, by simpa using h, by simp⟩

theorem IsValues.cons (hb : IsValue b) (h : IsValues n b') : IsValues (n + 1) (b ++ b') := by
  obtain ⟨vs, hlen, hvs, rfl⟩ := h
  exact ⟨b :: vs, congrArg (· + 1) hlen, List.forall_mem_cons.2 ⟨hb, hvs⟩, rfl⟩

theorem subscribeLoop_answers : ∀ {channels : List Bytes} {s : Server} {ms : List Move},
    Follows (s.client fd) ms →
      IsValues (min channels.length ((accepted ms channels).length + 1))
        (subscribeLoop fd channels s).1
  | [], s, ms, _ => ⟨[], by simp, by simp, rfl⟩
  | channel :: channels, s, ms, h => by
    unfold subscribeLoop accepted
    dsimp only
    by_cases hok : listening ms channel ∨ (joined ms).length < maxSubscriptionsPerClient
    · rw [if_pos hok, if_neg ((h.stop_iff channel).not.2 (not_not.2 hok)), List.length_cons,
        List.length_cons, Nat.add_min_add_right]
      refine .cons (isValue_subscriptionReply _ _ _) (subscribeLoop_answers ?_)
      rw [Server.client_setClient, if_pos rfl]
      exact h.insert rfl
    · rw [if_neg hok, if_pos ((h.stop_iff channel).2 hok), List.length_cons, List.length_nil,
        min_eq_right (by omega)]
      exact isValues_one isValue_subscriptionLimit

theorem unsubscribeLoop_answers : ∀ (channels : List Bytes) (s : Server),
    IsValues channels.length (unsubscribeLoop fd channels s).1
  | [], _ => ⟨[], rfl, by simp, rfl⟩
  | _ :: channels, _ =>
    .cons (isValue_subscriptionReply _ _ _) (unsubscribeLoop_answers channels _)

theorem pubsubUnsubscribe_answers (h : Follows (s.client fd) ms) :
    IsValues (max 1 (if args.length = 1 then joined ms else args.drop 1).length)
      (pubsubUnsubscribe fd args s).1 := by
  have hlen : (if args.length = 1 then joined ms else args.drop 1).length =
      (if args.length = 1 then (s.client fd).subscribedChannels.toList
        else args.drop 1).length := by
    split_ifs
    · rw [length_joined h, Std.ExtTreeSet.length_toList]
    · rfl
  rw [hlen]
  unfold pubsubUnsubscribe
  dsimp only
  generalize (if args.length = 1 then _ else args.drop 1) = channels
  split_ifs with hempty
  · rw [hempty, List.length_nil, max_eq_left (Nat.zero_le _)]
    exact isValues_one isValue_noChannel
  · rw [max_eq_right (List.length_pos_iff.2 hempty)]
    exact unsubscribeLoop_answers channels s

/-- A command that is no subscription and no message is sent to its own connection alone. -/
theorem Call.run_sends {c : Call} {now : ℤ} {cmd : Bytes} {o : Sends × Bool} {s' : Server}
    (hc : c ≠ .publish) (h : c.run now fd cmd args s = .ok (o, s')) : ∃ b, o.1 = sendTo fd b := by
  cases c
  case publish => exact absurd rfl hc
  case flushdb =>
    have hf := Except.ok.inj h
    unfold commandFlushdb at hf
    split_ifs at hf <;> obtain ⟨rfl, -⟩ := Prod.mk.inj hf <;> exact ⟨_, rfl⟩
  all_goals first
    | (obtain ⟨rfl, -⟩ := Prod.mk.inj (Except.ok.inj h)
       exact ⟨_, rfl⟩)
    | (simp only [Call.run, onStore] at h
       split at h
       · obtain ⟨rfl, -⟩ := Prod.mk.inj (Except.ok.inj h)
         exact ⟨_, rfl⟩
       · cases h)

theorem sentTo_append (as bs : Sends) : sentTo fd (as ++ bs) = sentTo fd as ++ sentTo fd bs := by
  rw [sentTo, List.filter_append, List.flatMap_append]
  rfl

theorem sentTo_other (hfd : fd' ≠ fd) (b : Bytes) : sentTo fd (sendTo fd' b) = [] := by
  unfold sendTo
  split_ifs <;> simp [sentTo, hfd]

/-- A message is sent to each receiver once. -/
theorem sentTo_map {receivers : List ℤ} (h : receivers.Nodup) (b : Bytes) :
    sentTo fd (receivers.map fun fd' => (fd', b)) = if fd ∈ receivers then b else [] := by
  induction receivers with
  | nil => rfl
  | cons fd' receivers ih =>
    obtain ⟨hnew, hnodup⟩ := List.nodup_cons.1 h
    have hcons : sentTo fd ((fd' :: receivers).map fun fd' => (fd', b)) =
        sentTo fd [(fd', b)] ++ sentTo fd (receivers.map fun fd' => (fd', b)) :=
      sentTo_append [(fd', b)] _
    rw [hcons, ih hnodup]
    by_cases hfd : fd = fd'
    · subst hfd
      simp [sentTo, hnew]
    · simp [sentTo, hfd, Ne.symm hfd]

/-- The messages of a command that go to another connection: of a client that listens to nothing, if
that connection listens to the channel. -/
def messages (own ms : List Move) (args : List Bytes) : List Bytes :=
  if callOf args = .publish ∧ joined own = [] ∧ listening ms (arg args 1) then
    [messageFrame (arg args 1) (arg args 2)]
  else []

end Answers

/-- The channels of the clients are those their moves end up in, and the store is that of a list. -/
structure Hosts (events : List Event) (s : Server) : Prop extends Connected events s where
  follows : ∀ fd, fd ≠ -1 → DrutaDB.Follows (s.client fd) (moves events fd)
  store : ∃ r : Recency, s.store = r.toStore

/-- The command of a connection whose answer is made of values. -/
def Event.Answered (fd : ℤ) (s : Server) : Event → Prop
  | .command env fd' args => fd' = fd →
    turnedAway s fd (toUpper (args.headD [])) = false ∧ SparesOwnKey s (.command env fd args) ∧
      (callOf args).Replies args (s.store.value (arg args 1))
  | _ => True

section Hosts

variable {events : List Event} {s s' : Server} {fd fd' : ℤ} {args : List Bytes} {env : Env}
  {e : Event}

/-- A client is a subscriber exactly if its moves end up in a channel. -/
theorem Hosts.isSubscriber_iff' (h : Hosts events s) (hfd : fd ≠ -1) :
    (s.client fd).isSubscriber = true ↔ joined (moves events fd) ≠ [] := by
  rw [h.isSubscriber_iff, ne_eq, ne_eq, not_iff_not, ← List.length_eq_zero_iff,
    length_joined (h.follows fd hfd), Std.ExtTreeSet.eq_empty_iff_size_eq_zero]

/-- A message is turned away exactly if its client listens to something. -/
theorem Hosts.turnedAway_publish (h : Hosts events s) (hfd : fd ≠ -1)
    (hcall : callOf args = .publish) :
    turnedAway s fd (toUpper (args.headD [])) = true ↔ joined (moves events fd) ≠ [] := by
  have hname : toUpper (args.headD []) = ascii "PUBLISH" := (of_route (by decide) hcall).1
  have hmode : turnedAway s fd (toUpper (args.headD [])) = (s.client fd).isSubscriber := by
    rw [turnedAway, hname]
    simp +decide
  rw [hmode, h.isSubscriber_iff' hfd]

/-- What a command sends to another connection. -/
theorem Hosts.sentTo_command (h : Hosts events s) (hfd : fd ≠ -1) (hne : fd' ≠ fd)
    (hfd' : callOf args = .publish → fd' ≠ -1) (hs : (handleCommand env fd' args s).2 = .ok s') :
    sentTo fd (handleCommand env fd' args s).1 =
      (messages (moves events fd') (moves events fd) args).flatten := by
  rcases args with _ | ⟨a, as⟩
  · cases hs
  have hcall : route (toUpper a) (a :: as).length = callOf (a :: as) := rfl
  have hi : Indexed (s.ensureClient fd') := h.setClient rfl rfl
  have haway := fun hpublish => h.turnedAway_publish (hfd' hpublish) hpublish
  simp only [handleCommand, turnedAway_ensureClient, hcall] at hs ⊢
  by_cases ht : turnedAway s fd' (toUpper a)
  · have hnone : ¬ (callOf (a :: as) = .publish ∧ joined (moves events fd') = [] ∧
        listening (moves events fd) (arg (a :: as) 1)) := fun hc => (haway hc.1).1 ht hc.2.1
    rw [if_pos ht, messages, if_neg hnone, sentTo_other hne]
    rfl
  rw [if_neg ht] at hs ⊢
  rcases hrun : (callOf (a :: as)).run env.now fd' (toUpper a) (a :: as) (s.ensureClient fd') with
    f | ⟨⟨sends, success⟩, t⟩ <;> rw [hrun] at hs
  · cases hs
  by_cases hpublish : callOf (a :: as) = .publish
  · have hnone : joined (moves events fd') = [] := by
      by_contra hc
      exact ht ((haway hpublish).2 hc)
    have hlisten : fd ∈ (s.subscribers (arg (a :: as) 1)).toList ↔
        listening (moves events fd) (arg (a :: as) 1) := by
      rw [Std.ExtTreeSet.mem_toList, h.mem_iff, h.follows fd hfd]
    obtain ⟨-, hsends, -⟩ := hi.pubsubPublish_eq (a :: as) (of_route (by decide) hpublish).2
    rw [hpublish] at hrun
    have hout : (pubsubPublish (a :: as) (s.ensureClient fd')).2.1 ++
        sendTo fd' (sendInteger (pubsubPublish (a :: as) (s.ensureClient fd')).1) = sends :=
      congrArg (fun o => o.1.1) (Except.ok.inj hrun)
    dsimp only
    rw [← hout, hsends, sentTo_append, sentTo_other hne, List.append_nil,
      sentTo_map (nodup_toList _), messages]
    simp only [Server.subscribers_setClient, Server.ensureClient, hlisten, hpublish, hnone, true_and]
    split_ifs <;> simp
  · obtain ⟨b, rfl⟩ := Call.run_sends hpublish hrun
    dsimp only
    rw [sentTo_other hne, messages, if_neg fun hc => hpublish hc.1]
    rfl

/-- What answers a command of a connection. -/
theorem Hosts.answers_command (h : Hosts events s) (hfd : fd ≠ -1)
    (ha : (Event.command env fd args).Answered fd s)
    (hs : (handleCommand env fd args s).2 = .ok s') :
    IsValues (answers (moves events fd) args) (sentTo fd (handleCommand env fd args s).1) := by
  have hargs : args ≠ [] := fun hc => by
    rw [hc] at hs
    cases hs
  obtain ⟨haway, hspares, hreplies⟩ := ha rfl
  obtain ⟨r, hr⟩ := h.store
  have hi : Indexed (s.ensureClient fd) := h.setClient rfl rfl
  have hf : Follows ((s.ensureClient fd).client fd) (moves events fd) := by
    rw [client_ensureClient]
    exact h.follows fd hfd
  have hchange : (Event.command env fd args).change (s.ensureClient fd) =
      (Event.command env fd args).change s := by
    simp only [Event.change, turnedAway_ensureClient]
  rw [handleCommand_sent hargs, if_neg (by rw [haway]; exact Bool.false_ne_true)]
  by_cases hsub : callOf args = .subscribe
  · rw [hsub, Call.sent, answers, hsub]
    simp only [Call.run, sentTo_sendTo hfd]
    exact subscribeLoop_answers hf
  by_cases hunsub : callOf args = .unsubscribe
  · rw [hunsub, Call.sent, answers, hunsub]
    simp only [Call.run, sentTo_sendTo hfd]
    exact pubsubUnsubscribe_answers hf
  have hone : answers (moves events fd) args = 1 := by
    unfold answers
    split
    · exact absurd ‹_› hsub
    · exact absurd ‹_› hunsub
    · rfl
  rw [hone]
  refine isValues_one ?_
  by_cases hunknown : callOf args = .unknown
  · rw [hunknown] at hreplies ⊢
    simp only [Call.sent, Call.run, sentTo_sendTo hfd]
    exact isValue_unknownCommand.2 hreplies
  · have hname : toUpper (args.headD []) = ascii (callOf args).name := (of_route hunknown rfl).1
    refine (sent_iff (s := s.ensureClient fd) hr hi hfd
      (by simpa [turnedAway_ensureClient] using haway) ?_).2 ⟨?_, hreplies⟩
    · rw [hname]
      generalize callOf args = c at hsub hunsub hunknown
      cases c <;> first | decide | exact absurd rfl ‹_›
    · unfold SparesOwnKey at hspares ⊢
      rwa [hchange]

theorem Hosts.step (h : Hosts events s) (he : e.Follows events) (hs : s.step e = .ok s') :
    Hosts (events ++ [e]) s' := by
  obtain ⟨r, hr⟩ := h.store
  obtain ⟨r', hr', -⟩ := step_took hr hs
  refine ⟨h.toConnected.step he hs, fun fd hfd => ?_, r', hr'⟩
  have hfresh : Follows {} [] := fun channel =>
    iff_of_false Std.ExtTreeSet.not_mem_empty (not_listening_nil channel)
  rw [moves_snoc]
  rcases e with fd' | fd' | ⟨env, fd', args⟩
  · obtain rfl := Except.ok.inj hs
    dsimp only
    rw [Server.client_setClient]
    split_ifs
    · exact hfresh
    · exact h.follows fd hfd
  · obtain rfl := Except.ok.inj hs
    dsimp only
    rw [client_disconnect]
    split_ifs
    · exact hfresh
    · exact h.follows fd hfd
  · dsimp only
    split_ifs with heq
    · subst heq
      exact handleCommand_follows (h.follows fd' hfd) hs
    · rw [client_handleCommand heq hs]
      exact h.follows fd hfd

theorem Connected.congr (h : Connected events s) (hs : SameMaps s s') : Connected events s' :=
  ⟨h.toIndexed.congr hs, fun fd hfd => hs.1 ▸ h.mem_of_isOpen fd hfd,
    fun fd hfd => h.isOpen_of_mem fd (hs.1 ▸ hfd)⟩

theorem connected_file (file : Bytes) : Connected [] { aof := file } :=
  ⟨Indexed.initial.congr ⟨rfl, rfl⟩, fun _ hfd => Bool.noConfusion hfd,
    fun _ hfd => absurd hfd Std.ExtTreeMap.not_mem_empty⟩

/-- A replay connects no client. -/
theorem Connected.replayed (h : Connected [] s) (hs : (handleCommand env (-1) args s).2 = .ok s') :
    Connected [] s' := by
  refine ⟨h.command hs, fun fd hfd => Bool.noConfusion hfd, fun fd hfd => ?_⟩
  rcases (mem_handleCommand hs).1 hfd with hself | hmem
  · exact .inl hself
  · exact h.isOpen_of_mem fd hmem

theorem hosts_congr (h : Hosts events s) (hs : SameMaps s s') (hstore : s'.store = s.store) :
    Hosts events s' := by
  refine ⟨h.toConnected.congr hs, fun fd hfd => ?_, hstore ▸ h.store⟩
  rw [hs.client]
  exact h.follows fd hfd

theorem handleAll_hosts : ∀ {calls : List (List Bytes)} {s : Server}, Hosts [] s →
    handleAll env (-1) calls s = .ok s' → Hosts [] s'
  | [], _, h, hs => Except.ok.inj hs ▸ h
  | args :: calls, s, h, hs => by
    unfold handleAll at hs
    rcases hc : (handleCommand env (-1) args s).2 with f | t <;> rw [hc] at hs
    · cases hs
    refine handleAll_hosts ⟨h.toConnected.replayed hc, fun fd hfd => ?_, ?_⟩ hs
    · rw [client_handleCommand (Ne.symm hfd) hc]
      exact h.follows fd hfd
    · obtain ⟨r, hr⟩ := h.store
      obtain ⟨r', hr', -⟩ := step_took (e := .command env (-1) args) hr hc
      exact ⟨r', hr'⟩

theorem hosts_logical {held : Bytes} (h : Hosts events s) : Hosts events (s.logical held) := by
  refine ⟨⟨⟨fun fd channel => ?_, fun fd => ?_, fun fd => ?_⟩, fun fd hfd => ?_, fun fd hfd => ?_⟩,
    fun fd hfd => ?_, h.store⟩
  · rw [Server.client_logical, Server.subscribers_logical]
    exact h.mem_iff fd channel
  · rw [Server.client_logical]
    exact h.isSubscriber_iff fd
  · rw [Server.client_logical]
    exact h.size_le fd
  · exact mem_logical.2 (h.mem_of_isOpen fd hfd)
  · exact h.isOpen_of_mem fd (mem_logical.1 hfd)
  · rw [Server.client_logical]
    exact h.follows fd hfd

theorem replayCommands_hosts (h : Hosts [] s) (hs : replayCommands env s = .ok s') :
    Hosts [] s' := by
  unfold replayCommands at hs
  rcases hcalls : replayCalls s.aof with ⟨calls, f | parser⟩ <;> rw [hcalls] at hs <;>
    rcases hc : handleAll env (-1) calls s with g | t <;> simp only [hc] at hs
  · cases hs
  · cases hs
  · cases hs
  · exact handleAll_hosts h (hc.trans hs)

/-- A start replays the file, and after that changes neither the keys nor the clients. -/
theorem replayAof_ok (hs : replayAof env s = .ok s') :
    ∃ t, replayCommands env s = .ok t ∧ SameMaps t s' ∧ s'.store = t.store := by
  unfold replayAof at hs
  rcases hr : replayCommands env s with f | t <;> rw [hr] at hs
  · cases hs
  refine ⟨t, rfl, ?_⟩
  simp only [bind, Except.bind, pure, Except.pure] at hs
  split_ifs at hs
  · have hmaps : SameMaps { t with lastRewriteSize := t.aof.length } s' := rewriteAof_maps hs
    exact ⟨hmaps, (rewriteAof_store hs).trans rfl⟩
  · exact Except.ok.inj hs ▸ ⟨⟨rfl, rfl⟩, rfl⟩

theorem replayAof_hosts (h : Hosts [] s) (hs : replayAof env s = .ok s') : Hosts [] s' := by
  obtain ⟨t, ht, hmaps, hstore⟩ := replayAof_ok hs
  exact hosts_congr (replayCommands_hosts h ht) hmaps hstore

theorem start_hosts {m : Moment} {file : Bytes} {p : Process} (h : Process.start m file = .ok p) :
    Hosts [] p.logical := by
  have hfresh : Hosts [] { aof := file } := by
    refine ⟨connected_file file, fun fd _ channel => ?_, .initial, rfl⟩
    exact iff_of_false Std.ExtTreeSet.not_mem_empty (not_listening_nil channel)
  unfold Process.start at h
  rcases hs : replayAof { now := m.now, disk := m.disk } { aof := file } with f | s <;>
    rw [hs] at h
  · cases h
  · obtain rfl := Except.ok.inj h
    exact hosts_logical (replayAof_hosts hfresh hs)

end Hosts

/-! ## Runs -/

/-- The values a connection is sent, after the events before, in the state they led to: to a command
of its own its answer, and the messages of the other connections. -/
inductive Stream (before : List Event) (s : Server) (fd : ℤ) : List Event → List Bytes → Prop
  | nil : Stream before s fd [] []
  | own {events : List Event} {vs : List Bytes} {t : Server} (env : Env) (args : List Bytes)
      (ws : List Bytes) (h : Stream before s fd events vs) (ht : run Server.step s events = .ok t)
      (hlen : ws.length = answers (moves (before ++ events) fd) args)
      (hsent : ws.flatten = sentTo fd (handleCommand env fd args t).1) :
      Stream before s fd (events ++ [.command env fd args]) (vs ++ ws)
  | other {events : List Event} {vs : List Bytes} (env : Env) (fd' : ℤ) (args : List Bytes)
      (h : Stream before s fd events vs) (hfd' : fd' ≠ fd) :
      Stream before s fd (events ++ [.command env fd' args])
        (vs ++ messages (moves (before ++ events) fd') (moves (before ++ events) fd) args)
  | connect {events : List Event} {vs : List Bytes} (fd' : ℤ) (h : Stream before s fd events vs) :
      Stream before s fd (events ++ [.connect fd']) vs
  | disconnect {events : List Event} {vs : List Bytes} (fd' : ℤ)
      (h : Stream before s fd events vs) : Stream before s fd (events ++ [.disconnect fd']) vs

section Runs

variable {before events : List Event} {s s' t : Server} {fd : ℤ} {p q p' : Process} {m : Moment}
  {file : Bytes} {ticks later : List Tick}

/-- What an event adds to the stream. -/
theorem Stream.snoc {e : Event} {vs : List Bytes} (h : Stream before s fd events vs)
    (ht : run Server.step s events = .ok t) (hhosts : Hosts (before ++ events) t) (hfd : fd ≠ -1)
    (ho : Orderly (before ++ events)) (he : e.Follows (before ++ events)) (ha : e.Answered fd t)
    (hs : t.step e = .ok s') :
    ∃ ws, Stream before s fd (events ++ [e]) (vs ++ ws) ∧ (∀ w ∈ ws, IsValue w) ∧
      sentTo fd (e.sends t) = ws.flatten := by
  rcases e with fd' | fd' | ⟨env, fd', args⟩
  · exact ⟨[], by simpa using h.connect fd', by simp, rfl⟩
  · exact ⟨[], by simpa using h.disconnect fd', by simp, rfl⟩
  · by_cases hown : fd' = fd
    · subst hown
      obtain ⟨ws, hlen, hws, hsent⟩ := hhosts.answers_command hfd ha hs
      exact ⟨ws, h.own env args ws ht hlen hsent.symm, hws, hsent⟩
    · have hpublish : callOf args = .publish → fd' ≠ -1 := fun hc hself => by
        rcases he with hopen | ⟨-, hlogs⟩
        · rw [hself, isOpen_replay ho] at hopen
          cases hopen
        · rw [hc] at hlogs
          exact absurd hlogs (by decide)
      refine ⟨_, h.other env fd' args hown, ?_, hhosts.sentTo_command hfd hown hpublish hs⟩
      unfold messages
      split_ifs
      · simpa using isValue_messageFrame _ _
      · simp

/-- What a run sends a connection. -/
theorem Hosts.run_stream (hhosts : Hosts before s) (hfd : fd ≠ -1) (ho : Orderly (before ++ events))
    (hm : Meets Server.step (Event.Answered fd) s events) (h : run Server.step s events = .ok s') :
    ∃ vs, Stream before s fd events vs ∧ (∀ v ∈ vs, IsValue v) ∧
      sentTo fd (sendsOf s events) = vs.flatten := by
  have hrun := run_all (J := fun pre t => run Server.step s pre = .ok t ∧
    Hosts (before ++ pre) t ∧ ∃ vs, Stream before s fd pre vs ∧ (∀ v ∈ vs, IsValue v) ∧
      sentTo fd (sendsOf s pre) = vs.flatten) (fun pre e t t' hpre hj hs => ?_)
    ⟨rfl, (List.append_nil before).symm ▸ hhosts, [], .nil, by simp, rfl⟩ h
  · exact hrun.2.2
  obtain ⟨ht, hhosts, vs, hstream, hvs, hsent⟩ := hj
  obtain ⟨post, hpost⟩ := hpre
  have he : e.Follows (before ++ pre) := ho _ e ⟨post, by simp [← hpost]⟩
  have hpre : Orderly (before ++ pre) := fun us d hd =>
    ho us d (hd.trans ⟨e :: post, by simp [← hpost]⟩)
  have ha : e.Answered fd t := by
    rw [← hpost, List.append_assoc] at hm
    exact (hm.append.2 t ht).1
  obtain ⟨ws, hsnoc, hws, hwsent⟩ := hstream.snoc ht hhosts hfd hpre he ha hs
  refine ⟨?_, ?_, vs ++ ws, hsnoc, List.forall_mem_append.2 ⟨hvs, hws⟩, ?_⟩
  · rw [run_append _ _ ht, run_cons_ok hs]
    rfl
  · rw [← List.append_assoc]
    exact hhosts.step he hs
  · rw [sendsOf_append _ _ ht, sentTo_append, hsent, List.flatten_append, ← hwsent]
    simp [sendsOf, hs]

/-- What a process that goes on has on record and sends. -/
theorem run_goes_on (hstart : Process.start m file = .ok p)
    (ho : Orderly ((ticks ++ later).flatMap Tick.events)) (hq : run Process.tick p ticks = .ok q)
    (hp' : run Process.tick q later = .ok p') :
    ∃ events, p'.record = q.record ++ events ∧ Orderly p'.record ∧
      run Server.step p.logical q.record = .ok q.logical ∧
      run Server.step q.logical events = .ok p'.logical ∧
      p'.sent = q.sent ++ sendsOf q.logical events := by
  have hticks : Orderly (ticks.flatMap Tick.events) := fun us e hus => ho us e (hus.trans
    ⟨later.flatMap Tick.events, List.flatMap_append.symm⟩)
  obtain ⟨d, hd, hr⟩ := refines_run hstart hticks hq
  have hsteps : ∀ u u', (∃ events, u.record = q.record ++ events ∧
      run Server.step q.logical events = .ok u.logical) → Advances u u' →
        ∃ events, u'.record = q.record ++ events ∧
          run Server.step q.logical events = .ok u'.logical := by
    rintro u u' ⟨events, hevents, hruns⟩ hadvances
    cases hadvances with
    | stays hrecord hlogical _ =>
      exact ⟨events, hrecord.trans hevents, hruns.trans (congrArg Except.ok hlogical.symm)⟩
    | @steps e hrecord hstep _ =>
      refine ⟨events ++ [e], by rw [hrecord, hevents, List.append_assoc], ?_⟩
      rw [run_append _ _ hruns, run_cons_ok hstep]
      rfl
  obtain ⟨⟨d', hd', hr'⟩, events, hevents, hruns⟩ :=
    hr.runs_on hsteps hd ⟨[], (List.append_nil _).symm, rfl⟩ ho hp'
  refine ⟨events, hevents, hr'.orderly, hr.runs, hruns, ?_⟩
  rw [hr'.sent, hevents, sendsOf_append _ _ hr.runs, ← hr.sent]

/-- A connection whose commands are answered by values is sent the values that its commands and the
messages of the others call for, in this order; and however many of the bytes have come in, what
can be read of them as values is the first of these. -/
theorem run_streams (hfd : fd ≠ -1) (hstart : Process.start m file = .ok p)
    (ho : Orderly ((ticks ++ later).flatMap Tick.events)) (hq : run Process.tick p ticks = .ok q)
    (hp' : run Process.tick q later = .ok p')
    (hm : ∀ events, p'.record = q.record ++ events →
      Meets Server.step (Event.Answered fd) q.logical events) :
    ∃ events sends vs, p'.record = q.record ++ events ∧ p'.sent = q.sent ++ sends ∧
      Stream q.record q.logical fd events vs ∧ (∀ v ∈ vs, IsValue v) ∧
      sentTo fd sends = vs.flatten ∧
      ∀ ws : List Bytes, (∀ w ∈ ws, IsValue w) → ws.flatten <+: sentTo fd sends → ws <+: vs := by
  obtain ⟨events, hevents, horder, hqruns, hruns, hsent⟩ := run_goes_on hstart ho hq hp'
  rw [hevents] at horder
  have hhosts : Hosts q.record q.logical := by
    have hqorder : Orderly q.record := fun us e hus =>
      horder us e (hus.trans (List.prefix_append _ _))
    exact run_all (J := fun pre t => Hosts pre t)
      (fun pre e t t' hpre hj hs => hj.step (hqorder pre e hpre) hs) (start_hosts hstart) hqruns
  obtain ⟨vs, hstream, hvs, hflat⟩ := hhosts.run_stream hfd horder (hm events hevents) hruns
  refine ⟨events, _, vs, hevents, hsent, hstream, hvs, hflat, fun ws hws hpre => ?_⟩
  exact prefixFree.prefix_of_flatten (fun h => IsValue.ne_nil h rfl) hws hvs (hflat ▸ hpre)

/-- A command that a subscriber may send too, and that does not look at the store. -/
theorem answered_of_listed {env : Env} {args : List Bytes}
    (hcmd : toUpper (args.headD []) ∈ [ascii "PING", ascii "SUBSCRIBE"])
    (ha : (callOf args).action env.now args = none)
    (hr : (callOf args).Replies args (s.store.value (arg args 1))) :
    (Event.command env fd args).Answered fd s := by
  have haway : turnedAway s fd (toUpper (args.headD [])) = false := by
    simp only [List.mem_cons, List.not_mem_nil, or_false] at hcmd
    rcases hcmd with hcmd | hcmd <;> rw [turnedAway, hcmd] <;> simp
  have hspares : SparesOwnKey s (.command env fd args) := by
    refine sparesOwnKey_of_action ?_ fun key f hc => ?_
    · simp only [Event.change, haway, Bool.false_eq_true, if_false]
    · rw [ha] at hc
      cases hc
  exact fun _ => ⟨haway, hspares, hr⟩

/-- A connection sends a `PING` and subscribes to a channel, and another one publishes to it. -/
def newsTicks : List Tick :=
  (respCommand [ascii "PING"] ++ respCommand [ascii "SUBSCRIBE", ascii "news"]).map
      (fun c => .byte 4 ({}, c)) ++
    (respCommand [ascii "PUBLISH", ascii "news", ascii "hi"]).map fun c => .byte 5 ({}, c)

/-- What the two are sent. -/
def newsSent : Sends :=
  [(4, ascii "+PONG\r\n"), (4, ascii "*3\r\n$9\r\nsubscribe\r\n$4\r\nnews\r\n:1\r\n"),
    (4, ascii "*3\r\n$7\r\nmessage\r\n$4\r\nnews\r\n$2\r\nhi\r\n"), (5, ascii ":1\r\n")]

theorem run_streams_news : ∃ q p', run Process.tick {} [.accept 4, .accept 5] = .ok q ∧
    run Process.tick q newsTicks = .ok p' ∧
    p'.sent = q.sent ++ newsSent ∧
    ∃ events sends vs, p'.record = q.record ++ events ∧ p'.sent = q.sent ++ sends ∧
      Stream q.record q.logical 4 events vs ∧ (∀ v ∈ vs, IsValue v) ∧
      sentTo 4 sends = vs.flatten ∧
      ∀ ws : List Bytes, (∀ w ∈ ws, IsValue w) → ws.flatten <+: sentTo 4 sends → ws <+: vs := by
  obtain ⟨q, hq, hqrecord, hqsent⟩ : ∃ q, run Process.tick {} [.accept 4, .accept 5] = .ok q ∧
      q.record = [.connect 4, .connect 5] ∧ q.sent = [] := exists_of_any (by decide +kernel)
  obtain ⟨p', hp', hrecord, hsent⟩ : ∃ p',
      run Process.tick {} ([.accept 4, .accept 5] ++ newsTicks) = .ok p' ∧
      p'.record = [.connect 4, .connect 5] ++ [.command {} 4 [ascii "PING"],
        .command {} 4 [ascii "SUBSCRIBE", ascii "news"],
        .command {} 5 [ascii "PUBLISH", ascii "news", ascii "hi"]] ∧
      p'.sent = newsSent :=
    exists_of_any (by decide +kernel)
  rw [run_append _ _ hq] at hp'
  have ho : Orderly (([Tick.accept 4, Tick.accept 5] ++ newsTicks).flatMap Tick.events) := by
    decide +kernel
  have hstart : Process.start {} [] = .ok {} := rfl
  refine ⟨q, p', hq, hp', by rw [hqsent, hsent]; rfl, run_streams (by decide) hstart ho hq hp'
    fun events hevents => ?_⟩
  rw [hqrecord] at hevents
  obtain rfl := List.append_cancel_left (hrecord.symm.trans hevents)
  have hpublish : (4 : ℤ) ≠ 5 := by decide
  refine Meets.of_mem fun e he s => ?_
  simp only [List.mem_cons, List.not_mem_nil, or_false] at he
  rcases he with rfl | rfl | rfl
  · exact answered_of_listed (by decide) rfl trivial
  · exact answered_of_listed (by decide) rfl trivial
  · exact fun hc => absurd hc.symm hpublish

end Runs

end DrutaDB
