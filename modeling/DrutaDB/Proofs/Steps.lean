import DrutaDB.Proofs.Log
import DrutaDB.Proofs.Refine

/-!
# The steps of the server

From the store of a recency list the server steps to the store of a recency list
(`step_took`): an event leaves the list as it is, flushes it, or runs the action of its command on
it and appends the command to the file where it succeeded.
-/

namespace DrutaDB

open Machine Decimal Capacity Store

section Walk

/-- The nodes of the entries, the oldest first. -/
def nodeList : Option Bytes → List (Bytes × DrutaValue) → List DrutaNode
  | _, [] => []
  | p, (k, v) :: l => { key := k, next := firstKey l, prev := p, value := v } ::
      nodeList (some k) l

theorem nodeList_map : ∀ (p : Option Bytes) (l : List (Bytes × DrutaValue)),
    (nodeList p l).map (fun n => (n.key, n.value)) = l
  | _, [] => rfl
  | p, (k, v) :: l => by rw [nodeList, List.map_cons, nodeList_map]

theorem walk_linked (s : Store) : ∀ (l₂ l₁ : List (Bytes × DrutaValue)) (fuel : ℕ),
    ((l₁ ++ l₂).map Prod.fst).Nodup → l₂.length ≤ fuel →
      (s.linked (l₁ ++ l₂) none).walk fuel (firstKey l₂) = .ok (nodeList (lastKey l₁) l₂)
  | [], l₁, fuel, _, _ => by cases fuel <;> rfl
  | (k, v) :: l₂, l₁, 0, _, hf => by simp at hf
  | (k, v) :: l₂, l₁, fuel + 1, h, hf => by
    have hk : k ∉ l₁.map Prod.fst := by
      rw [List.map_append, List.nodup_append] at h
      exact fun hc => h.2.2 k hc k List.mem_cons_self rfl
    have hn : (s.linked (l₁ ++ (k, v) :: l₂) none).kvStore[k]? =
        some { key := k, next := firstKey l₂, prev := lastKey l₁, value := v } := by
      simp [linked, nodeAt_append, nodeAt, nodeAt_of_not_mem hk]
    have happ : l₁ ++ (k, v) :: l₂ = (l₁ ++ [(k, v)]) ++ l₂ := by simp
    have ih := walk_linked s l₂ (l₁ ++ [(k, v)]) fuel (by rw [← happ]; exact h) (by simpa using hf)
    rw [← happ, lastKey_append_singleton] at ih
    simp only [firstKey_cons, walk, hn, ih, nodeList]

/-- Following `next` from `TAIL` visits the entries in order. -/
theorem walk_toStore (r : Recency) :
    r.toStore.walk r.toStore.kvStore.size r.toStore.tail =
      .ok (nodeList none r.nodes.entries) := by
  have hsize : r.toStore.kvStore.size = r.nodes.entries.length := size_links r.nodes.nodup
  rw [hsize]
  exact walk_linked _ r.nodes.entries [] _ r.nodes.nodup le_rfl

end Walk

section File

variable {r : Recency} {s s' : Server} {env : Env} {args : List Bytes} {f : Fault}

theorem formatRespCommand_ok {t : Bytes} (h : formatRespCommand args = .ok t) :
    t = respCommand args := by
  unfold formatRespCommand at h
  rcases hr : reserve (toSize (toInt (estimatedSize args + 64))) with e | u <;> rw [hr] at h
  · cases h
  · exact (Except.ok.inj h).symm

/-- A rewrite leaves everything but the file, or throws. -/
theorem rewriteAof_cases (env : Env) (hs : s.store = r.toStore) :
    (∃ s', rewriteAof env s = .ok s' ∧ s'.store = s.store ∧ s'.clientsMap = s.clientsMap
        ∧ s'.rewrites = s.rewrites + 1)
      ∨ ∃ e, rewriteAof env s = .error (.uncaught e) := by
  have hwalk : s.store.walk s.store.kvStore.size s.store.tail =
      .ok (nodeList none r.nodes.entries) := by
    rw [hs]
    exact walk_toStore r
  unfold rewriteAof
  by_cases ho : env.disk.opens
  · simp only [ho, if_true, hwalk, bind, Except.bind]
    rcases ht : rewriteText env.now (nodeList none r.nodes.entries) with e | text
    · exact .inr ⟨e, rfl⟩
    · refine .inl ?_
      simp only [uncaught, Except.mapError, pure, Except.pure]
      split_ifs
      · exact ⟨_, rfl, rfl, rfl, rfl⟩
      · exact ⟨_, rfl, rfl, rfl, rfl⟩
  · refine .inl ?_
    simp only [ho]
    exact ⟨_, rfl, rfl, rfl, rfl⟩

theorem checkAndRewriteAof_cases (env : Env) (hs : s.store = r.toStore) :
    (∃ s', checkAndRewriteAof env s = .ok s' ∧ s'.store = s.store ∧ s'.clientsMap = s.clientsMap
        ∧ s.rewrites ≤ s'.rewrites ∧ (s'.rewrites = s.rewrites → s'.aof = s.aof))
      ∨ ∃ e, checkAndRewriteAof env s = .error (.uncaught e) := by
  unfold checkAndRewriteAof
  split_ifs
  · exact .inl ⟨s, rfl, rfl, rfl, le_rfl, fun _ => rfl⟩
  · rcases rewriteAof_cases env hs with ⟨s', h, hst, hc, hr⟩ | ⟨e, h⟩
    · exact .inl ⟨s', h, hst, hc, by omega, by omega⟩
    · exact .inr ⟨e, h⟩
  · exact .inl ⟨s, rfl, rfl, rfl, le_rfl, fun _ => rfl⟩

/-- An empty file is not rewritten. -/
theorem checkAndRewriteAof_nil (env : Env) (h : s.aof = []) :
    checkAndRewriteAof env s = .ok s := by
  unfold checkAndRewriteAof
  rw [h]
  simp only [List.length_nil, Nat.not_lt_zero, false_and, if_false, ite_self]

/-- What follows a successful command: its text is appended, and the file may be rewritten. -/
theorem logged_cases (env : Env) (hs : s.store = r.toStore) (a : Bytes) (as : List Bytes) :
    (∃ s', (appendToAof (a :: as) s >>= checkAndRewriteAof env) = .ok s' ∧ s'.store = s.store
        ∧ s'.clientsMap = s.clientsMap ∧ s.rewrites ≤ s'.rewrites
        ∧ (s'.rewrites = s.rewrites → s'.aof = s.aof ++
          if isValid (toUpper a) then respCommand (a :: as) else []))
      ∨ ∃ e, (appendToAof (a :: as) s >>= checkAndRewriteAof env) = .error (.uncaught e) := by
  unfold appendToAof
  by_cases hv : isValid (toUpper a)
  · simp only [hv, if_true]
    rcases hf : formatRespCommand (a :: as) with e | t
    · exact .inr ⟨e, rfl⟩
    · rw [formatRespCommand_ok hf]
      exact checkAndRewriteAof_cases (s := { s with aof := s.aof ++ respCommand (a :: as) }) env hs
  · have hb : (Except.ok s >>= checkAndRewriteAof env) = checkAndRewriteAof env s := rfl
    simpa [hv, hb] using checkAndRewriteAof_cases env hs

end File

section Success

variable {r r' : Recency} {now : ℤ} {args : List Bytes} {reply : Bytes}

/-- The branches whose commands are logged. -/
def Call.logs : Call → Bool
  | .set | .rpush | .lpush | .lpop | .rpop | .del | .hset | .hdel | .sadd | .sdel => true
  | _ => false

/-- The name a branch is taken for. -/
def Call.name : Call → String
  | .ping => "PING" | .echo => "ECHO" | .set => "SET" | .get => "GET"
  | .rpush => "RPUSH" | .lpush => "LPUSH" | .lrange => "LRANGE"
  | .lpop => "LPOP" | .rpop => "RPOP" | .del => "DEL" | .llen => "LLEN"
  | .hset => "HSET" | .hget => "HGET" | .hgetall => "HGETALL" | .hdel => "HDEL" | .hlen => "HLEN"
  | .sadd => "SADD" | .scard => "SCARD" | .sismember => "SISMEMBER" | .smembers => "SMEMBERS"
  | .smismember => "SMISMEMBER" | .sinter => "SINTER" | .sunion => "SUNION" | .sdiff => "SDIFF"
  | .sdel => "SDEL" | .memstats => "MEMSTATS" | .flushdb => "FLUSHDB"
  | .subscribe => "SUBSCRIBE" | .unsubscribe => "UNSUBSCRIBE" | .publish => "PUBLISH"
  | .command => "COMMAND" | .unknown => ""

/-- The numbers of arguments a branch is taken for. -/
def Call.Takes (size : ℕ) : Call → Prop
  | .ping | .memstats | .flushdb | .command | .unknown => True
  | .unsubscribe => 1 ≤ size
  | .echo => 1 < size
  | .lpop | .rpop | .del | .sinter | .sunion | .sdiff | .subscribe => 2 ≤ size
  | .get | .llen | .hgetall | .hlen | .scard | .smembers => size = 2
  | .set | .rpush | .lpush | .hdel | .sadd | .smismember | .sdel => 3 ≤ size
  | .hget | .sismember | .publish => size = 3
  | .hset => 4 ≤ size
  | .lrange => size = 4

theorem of_ite_eq {p Q : Prop} [Decidable p] {x y z : Call} (hx : p → x = z → Q)
    (hy : y = z → Q) (h : (if p then x else y) = z) : Q := by
  split_ifs at h with hp
  · exact hx hp h
  · exact hy h

/-- A branch is taken for its own name and for the numbers of arguments it takes. -/
theorem of_route {cmd : Bytes} {size : ℕ} {c : Call} (hc : c ≠ .unknown) :
    route cmd size = c → cmd = ascii c.name ∧ c.Takes size := by
  unfold route
  iterate 31
    refine of_ite_eq ?_ ?_
    · rintro h rfl
      first
        | exact h
        | exact ⟨h, trivial⟩
  exact fun h => absurd h.symm hc

theorem route_of {cmd : Bytes} {size : ℕ} {c : Call} (hc : c ≠ .unknown)
    (hcmd : cmd = ascii c.name) (hsize : c.Takes size) : route cmd size = c := by
  subst hcmd
  cases c <;> first
    | exact absurd rfl hc
    | (simp only [Call.Takes] at hsize
       simp +decide [route, hsize])

theorem isValid_of_logs {cmd : Bytes} {size : ℕ} (h : (route cmd size).logs) : isValid cmd := by
  rcases hc : route cmd size <;> rw [hc] at h <;> first
    | exact absurd h (by decide)
    | (rw [(of_route (by decide) hc).1]
       decide)

theorem apply_ok {k : Bytes} {o : Outcome} {ok : Bool}
    (h : r.apply k o = .ok ((reply, ok), r')) :
    reply = o.reply ∧ ok = o.success ∧ r.perform k o.effect = .ok r' := by
  unfold Recency.apply at h
  rcases hp : r.perform k o.effect with e | q <;> rw [hp] at h
  · cases h
  · simp only [Except.map, Except.ok.injEq, Prod.mk.injEq] at h
    obtain ⟨⟨rfl, rfl⟩, rfl⟩ := h
    exact ⟨rfl, rfl, rfl⟩

section Queries

variable (now : ℤ) (args : List Bytes) (o : Option DrutaValue)

theorem getOutcome_success : (getOutcome now o).success = false := by
  unfold getOutcome
  repeat' split
  all_goals rfl

theorem lrangeOutcome_success : (lrangeOutcome args o).success = false := by
  unfold lrangeOutcome
  repeat' split
  all_goals rfl

theorem llenOutcome_success : (llenOutcome o).success = false := by
  unfold llenOutcome
  repeat' split
  all_goals rfl

theorem hgetOutcome_success : (hgetOutcome args o).success = false := by
  unfold hgetOutcome
  repeat' split
  all_goals rfl

theorem hgetallOutcome_success : (hgetallOutcome args o).success = false := by
  unfold hgetallOutcome
  repeat' split
  all_goals rfl

theorem hlenOutcome_success : (hlenOutcome args o).success = false := by
  unfold hlenOutcome
  repeat' split
  all_goals rfl

theorem scardOutcome_success : (scardOutcome args o).success = false := by
  unfold scardOutcome
  repeat' split
  all_goals rfl

theorem sismemberOutcome_success : (sismemberOutcome args o).success = false := by
  unfold sismemberOutcome
  repeat' split
  all_goals rfl

theorem smembersOutcome_success : (smembersOutcome args o).success = false := by
  unfold smembersOutcome
  repeat' split
  all_goals rfl

theorem smismemberOutcome_success : (smismemberOutcome args o).success = false := by
  unfold smismemberOutcome
  repeat' split
  all_goals rfl

end Queries

/-- Only the commands that are logged report success. -/
theorem logs_of_success {c : Call} {a : Action} (hc : c.action now args = some a)
    (h : a.run r = .ok ((reply, true), r')) : c.logs := by
  have hacc : ∀ {k : Bytes} {f : Option DrutaValue → Outcome}, (∀ o, (f o).success = false) →
      (Action.access k f).run r ≠ .ok ((reply, true), r') := by
    intro k f hf hr
    have hs := (apply_ok hr).2.1
    rw [hf] at hs
    cases hs
  have hread : ∀ {m : StoreM (Bytes × Bool)}, Answers (fun _ => True) m →
      (Action.inspect m).run r ≠ .ok ((reply, true), r') := by
    intro m hm hr
    obtain ⟨b, -, hb, -⟩ := hm.run r
    rw [hb] at hr
    simp at hr
  by_contra hl
  cases c <;> simp only [Call.action, Option.some.injEq, reduceCtorEq] at hc <;> subst hc <;>
    first
      | exact hl rfl
      | refine hacc (fun o => ?_) h
      | refine hread ?_ h
  · exact getOutcome_success now o
  · exact lrangeOutcome_success args o
  · exact llenOutcome_success o
  · exact hgetOutcome_success args o
  · exact hgetallOutcome_success args o
  · exact hlenOutcome_success args o
  · exact scardOutcome_success args o
  · exact sismemberOutcome_success args o
  · exact smembersOutcome_success args o
  · exact smismemberOutcome_success args o
  · exact commandSinter_answers args trivial trivial fun _ => trivial
  · exact commandSunion_answers args trivial fun _ => trivial
  · exact commandSdiff_answers args trivial trivial fun _ => trivial
  · exact commandMemstats_answers fun _ => trivial

/-- A command that is logged does more than read. -/
theorem Call.logs_ne_inspect {c : Call} {m : StoreM (Bytes × Bool)} (hl : c.logs) :
    c.action now args ≠ some (.inspect m) := by
  intro h
  cases c <;> simp only [Call.logs, Bool.false_eq_true] at hl <;>
    simp only [Call.action, Option.some.injEq, reduceCtorEq] at h

/-- Only `DEL` deletes keys. -/
theorem Call.del_of_delete {c : Call} {keys : List Bytes}
    (h : c.action now args = some (.delete keys)) : c = .del ∧ keys = args.drop 1 := by
  cases c <;> simp only [Call.action, Option.some.injEq, reduceCtorEq, Action.delete.injEq] at h
  exact ⟨rfl, h.symm⟩

theorem isValid_of_success {a : Action} (hc : (callOf args).action now args = some a)
    (h : a.run r = .ok ((reply, true), r')) : isValid (toUpper (args.headD [])) :=
  isValid_of_logs (logs_of_success hc h)

end Success

/-! ## Commands that leave the store alone -/

/-- The store, the file and the number of its rewrites are the same. -/
def SameData (s s' : Server) : Prop :=
  s'.store = s.store ∧ s'.aof = s.aof ∧ s'.rewrites = s.rewrites

theorem SameData.trans {s s' s'' : Server} (h : SameData s s') (h' : SameData s' s'') :
    SameData s s'' :=
  ⟨h'.1.trans h.1, h'.2.1.trans h.2.1, h'.2.2.trans h.2.2⟩

theorem subscribeLoop_data (fd : ℤ) : ∀ (channels : List Bytes) (s : Server),
    SameData s (subscribeLoop fd channels s).2
  | [], s => ⟨rfl, rfl, rfl⟩
  | channel :: channels, s => by
    unfold subscribeLoop
    dsimp only
    split_ifs
    · exact ⟨rfl, rfl, rfl⟩
    · exact SameData.trans ⟨rfl, rfl, rfl⟩ (subscribeLoop_data fd channels _)

theorem unsubscribeLoop_data (fd : ℤ) : ∀ (channels : List Bytes) (s : Server),
    SameData s (unsubscribeLoop fd channels s).2
  | [], _ => ⟨rfl, rfl, rfl⟩
  | _ :: channels, _ =>
    SameData.trans ⟨rfl, rfl, rfl⟩ (unsubscribeLoop_data fd channels _)

theorem pubsubUnsubscribe_data (fd : ℤ) (args : List Bytes) (s : Server) :
    SameData s (pubsubUnsubscribe fd args s).2 := by
  unfold pubsubUnsubscribe
  dsimp only
  generalize (if args.length = 1 then _ else args.drop 1) = channels
  split_ifs
  · exact ⟨rfl, rfl, rfl⟩
  · exact unsubscribeLoop_data fd _ s

theorem pubsubPublish_data (args : List Bytes) (s : Server) :
    SameData s (pubsubPublish args s).2.2 := by
  unfold pubsubPublish
  split_ifs
  · exact ⟨rfl, rfl, rfl⟩
  · dsimp only
    split
    · exact ⟨rfl, rfl, rfl⟩
    · exact ⟨rfl, rfl, rfl⟩

theorem pubsubCleanupClient_data (fd : ℤ) (s : Server) : SameData s (pubsubCleanupClient fd s) := by
  have hfold : ∀ (channels : List Bytes) (s : Server), SameData s (channels.foldl
      (fun s channel => s.setChannel channel ((s.subscribers channel).erase fd)) s) := by
    intro channels
    induction channels with
    | nil => exact fun s => ⟨rfl, rfl, rfl⟩
    | cons channel channels ih => exact fun s => SameData.trans ⟨rfl, rfl, rfl⟩ (ih _)
  unfold pubsubCleanupClient
  split
  · exact ⟨rfl, rfl, rfl⟩
  · exact hfold _ s

/-- A branch that neither works on the store nor flushes it. -/
theorem Call.run_quiet {c : Call} {now : ℤ} {args : List Bytes} (hc : c.change now args = .quiet)
    (fd : ℤ) (cmd : Bytes) (s : Server) :
    ∃ sends s', c.run now fd cmd args s = .ok ((sends, false), s') ∧ SameData s s' := by
  cases c <;> simp only [Call.change, Call.action, reduceCtorEq, false_and, if_false] at hc
  case ping => exact ⟨_, _, rfl, rfl, rfl, rfl⟩
  case echo => exact ⟨_, _, rfl, rfl, rfl, rfl⟩
  case command => exact ⟨_, _, rfl, rfl, rfl, rfl⟩
  case unknown => exact ⟨_, _, rfl, rfl, rfl, rfl⟩
  case subscribe => exact ⟨_, _, rfl, subscribeLoop_data fd _ s⟩
  case unsubscribe => exact ⟨_, _, rfl, pubsubUnsubscribe_data fd args s⟩
  case publish => exact ⟨_, _, rfl, pubsubPublish_data args s⟩
  case flushdb =>
    have hf : args.length < 2 ∨ arg args 1 ≠ ascii "--sure" := by
      by_contra hn
      rw [not_or, not_lt, not_not] at hn
      simp [flushes, hn.1, hn.2] at hc
    simp only [Call.run, commandFlushdb, hf, if_true]
    exact ⟨_, _, rfl, rfl, rfl, rfl⟩

theorem eq_flushdb_of_change {c : Call} {now : ℤ} {args : List Bytes}
    (hc : c.change now args = .flush) : c = .flushdb ∧ flushes args := by
  unfold Call.change at hc
  split at hc
  · cases hc
  · split_ifs at hc with h
    exact h

/-! ## Steps -/

/-- What an event does to the list and to the file. -/
inductive Took (r : Recency) (s : Server) : Event → Server → Recency → Prop
  | quiet {e s'} (hc : e.change s = .quiet) (haof : s'.aof = s.aof)
      (hrw : s'.rewrites = s.rewrites) : Took r s e s' r
  | flush {env fd args s'} (hc : (Event.command env fd args).change s = .flush)
      (haof : s'.aof = []) (hrw : s'.rewrites = s.rewrites) :
      Took r s (.command env fd args) s' r.flush
  | act {env fd args a reply ok r' s'} (hc : (Event.command env fd args).change s = .act a)
      (hrun : a.run r = .ok ((reply, ok), r')) (hrw : s.rewrites ≤ s'.rewrites)
      (haof : s'.rewrites = s.rewrites →
        s'.aof = s.aof ++ if ok ∧ fd ≠ -1 then respCommand args else []) :
      Took r s (.command env fd args) s' r'

section Handle

variable {r r' : Recency} {s : Server} {env : Env} {fd : ℤ} {a : Bytes} {as : List Bytes}

@[simp]
theorem client_ensureClient (s : Server) (fd : ℤ) : (s.ensureClient fd).client fd = s.client fd := by
  simp [Server.ensureClient, Server.setClient, Server.client]

theorem client_ensureClient_of (s : Server) (fd fd' : ℤ) :
    (s.ensureClient fd).client fd' = s.client fd' := by
  simp only [Server.ensureClient, Server.setClient, Server.client,
    Std.ExtTreeMap.getElem?_insert, Std.LawfulEqCmp.compare_eq_iff_eq]
  split_ifs with h
  · rw [h]
    rfl
  · rfl

theorem turnedAway_ensureClient (s : Server) (fd : ℤ) (cmd : Bytes) :
    turnedAway (s.ensureClient fd) fd cmd = turnedAway s fd cmd := by
  simp [turnedAway]

theorem change_command : (Event.command env fd (a :: as)).change s =
    if turnedAway s fd (toUpper a) then .quiet else (callOf (a :: as)).change env.now (a :: as) :=
  rfl

/-- The action of an event is that of its call. -/
theorem action_of_change {args : List Bytes} {act : Action}
    (hc : (Event.command env fd args).change s = .act act) :
    (callOf args).action env.now args = some act := by
  simp only [Event.change] at hc
  split_ifs at hc
  unfold Call.change at hc
  split at hc
  · rename_i b hb
    rw [hb, Change.act.inj hc]
  · split_ifs at hc

theorem turnedAway_of_change {args : List Bytes} {act : Action}
    (hc : (Event.command env fd args).change s = .act act) :
    turnedAway s fd (toUpper (args.headD [])) = false := by
  simp only [Event.change] at hc
  split_ifs at hc with ht
  exact Bool.not_eq_true _ ▸ ht

theorem handleCommand_quiet (hc : (Event.command env fd (a :: as)).change s = .quiet) :
    ∃ s', (handleCommand env fd (a :: as) s).2 = .ok s' ∧ SameData s s' := by
  rw [change_command] at hc
  simp only [handleCommand, turnedAway_ensureClient]
  by_cases ht : turnedAway s fd (toUpper a)
  · rw [if_pos ht]
    exact ⟨_, rfl, rfl, rfl, rfl⟩
  · rw [if_neg ht] at hc ⊢
    obtain ⟨sends, s', hrun, hd⟩ := Call.run_quiet hc fd (toUpper a) (s.ensureClient fd)
    have hcall : route (toUpper a) (a :: as).length = callOf (a :: as) := rfl
    rw [hcall, hrun]
    simp only [Bool.false_eq_true, and_false, if_false]
    exact ⟨s', rfl, hd⟩

theorem handleCommand_flush (hs : s.store = r.toStore)
    (hc : (Event.command env fd (a :: as)).change s = .flush) :
    ∃ s', (handleCommand env fd (a :: as) s).2 = .ok s' ∧ s'.store = r.flush.toStore
      ∧ s'.aof = [] ∧ s'.rewrites = s.rewrites := by
  rw [change_command] at hc
  simp only [handleCommand, turnedAway_ensureClient]
  by_cases ht : turnedAway s fd (toUpper a)
  · simp [ht] at hc
  rw [if_neg ht] at hc ⊢
  obtain ⟨hcall, hf⟩ := eq_flushdb_of_change hc
  have hn : ¬ ((a :: as).length < 2 ∨ arg (a :: as) 1 ≠ ascii "--sure") := by
    simp only [flushes, Bool.and_eq_true, decide_eq_true_eq] at hf
    rw [not_or, not_lt, not_not]
    exact hf
  have hroute : route (toUpper a) (a :: as).length = .flushdb := hcall
  have hvalid : ¬ isValid (toUpper a) := by
    rw [(of_route (by decide) hroute).1]
    decide
  have hstore : r.flush.toStore = { s.store with
      kvStore := ∅, head := none, tail := none, lruSize := 0, currentMemoryUsage := 0 } := by
    rw [hs]
    rfl
  rw [hroute, hstore]
  simp only [Call.run, commandFlushdb, if_neg hn, appendToAof, if_neg hvalid]
  by_cases hfd : fd = -1
  · simp only [hfd, ne_eq, not_true_eq_false, false_and, if_false]
    exact ⟨_, rfl, rfl, rfl, rfl⟩
  · simp only [ne_eq, hfd, not_false_eq_true, true_and, if_true]
    exact ⟨_, checkAndRewriteAof_nil env rfl, rfl, rfl, rfl⟩

theorem handleCommand_act (hs : s.store = r.toStore) {act : Action}
    (hc : (Event.command env fd (a :: as)).change s = .act act) :
    (∃ f, act.run r = .error f ∧ (handleCommand env fd (a :: as) s).2 = .error f)
      ∨ ∃ reply ok r', act.run r = .ok ((reply, ok), r') ∧
        ((∃ s', (handleCommand env fd (a :: as) s).2 = .ok s' ∧ s'.store = r'.toStore
            ∧ s'.clientsMap = (s.ensureClient fd).clientsMap ∧ s.rewrites ≤ s'.rewrites
            ∧ (s'.rewrites = s.rewrites →
              s'.aof = s.aof ++ if ok ∧ fd ≠ -1 then respCommand (a :: as) else []))
          ∨ (ok = true ∧ fd ≠ -1
            ∧ ∃ e, (handleCommand env fd (a :: as) s).2 = .error (.uncaught e))) := by
  have hact := action_of_change hc
  rw [change_command] at hc
  simp only [handleCommand, turnedAway_ensureClient]
  by_cases ht : turnedAway s fd (toUpper a)
  · simp [ht] at hc
  simp only [if_neg ht]
  have hrun := Call.run_action r env.now (a :: as) hact fd (toUpper a)
    (s := s.ensureClient fd) hs
  have hcall : route (toUpper a) (a :: as).length = callOf (a :: as) := rfl
  rw [hcall, hrun]
  rcases ha : act.run r with f | ⟨⟨reply, ok⟩, r'⟩
  · exact .inl ⟨f, rfl, rfl⟩
  · refine .inr ⟨reply, ok, r', rfl, ?_⟩
    simp only [Except.map]
    by_cases hok : fd ≠ -1 ∧ ok
    · have hvalid : isValid (toUpper a) := by
        rw [hok.2] at ha
        exact isValid_of_success hact ha
      have hlog := logged_cases (s := { s.ensureClient fd with store := r'.toStore }) (r := r')
        env rfl a as
      simp only [hvalid, if_true] at hlog
      simp only [hok, if_true, and_self, ne_eq, not_false_eq_true]
      rcases hlog with ⟨s', h, hst, hcl, hrw, haof⟩ | ⟨e, h⟩
      · refine .inl ⟨s', h, hst, hcl, hrw, haof⟩
      · exact .inr ⟨trivial, trivial, e, h⟩
    · have hok' : ¬ (ok = true ∧ fd ≠ -1) := fun hc => hok ⟨hc.2, hc.1⟩
      simp only [hok, hok', if_false, List.append_nil]
      exact .inl ⟨_, rfl, rfl, rfl, le_rfl, fun _ => rfl⟩

/-- A step from the store of a list leads to the store of a list. -/
theorem step_took {e : Event} {s' : Server} (hs : s.store = r.toStore) (h : s.step e = .ok s') :
    ∃ r', s'.store = r'.toStore ∧ Took r s e s' r' := by
  rcases e with fd | fd | ⟨env, fd, args⟩
  · obtain rfl := Except.ok.inj h
    exact ⟨r, hs, .quiet rfl rfl rfl⟩
  · obtain rfl := Except.ok.inj h
    obtain ⟨hst, haof, hrw⟩ := pubsubCleanupClient_data fd s
    exact ⟨r, hst.trans hs, .quiet rfl haof hrw⟩
  · rcases args with _ | ⟨a, as⟩
    · cases h
    change (handleCommand env fd (a :: as) s).2 = .ok s' at h
    rcases hc : (Event.command env fd (a :: as)).change s with _ | _ | act
    · obtain ⟨t, ht, hst, haof, hrw⟩ := handleCommand_quiet hc
      obtain rfl := Except.ok.inj (ht.symm.trans h)
      exact ⟨r, hst.trans hs, .quiet hc haof hrw⟩
    · obtain ⟨t, ht, hst, haof, hrw⟩ := handleCommand_flush hs hc
      obtain rfl := Except.ok.inj (ht.symm.trans h)
      exact ⟨r.flush, hst, .flush hc haof hrw⟩
    · rcases handleCommand_act hs hc with ⟨f, -, hf⟩ | ⟨reply, ok, r', hrun, hres⟩
      · rw [hf] at h
        cases h
      · rcases hres with ⟨t, ht, hst, -, hrw, haof⟩ | ⟨-, -, e, he⟩
        · obtain rfl := Except.ok.inj (ht.symm.trans h)
          exact ⟨r', hst, .act hc hrun hrw haof⟩
        · rw [he] at h
          cases h

end Handle

/-! ## Replay -/

/-- What a command does to the list when it is replayed. -/
def replayOne (now : ℤ) (r : Recency) (args : List Bytes) : Except Fault Recency :=
  match (callOf args).action now args with
  | some a => (a.run r).map (·.2)
  | none => .ok r

/-- Commands replayed one after the other. -/
def replayList (now : ℤ) : List (List Bytes) → Recency → Except Fault Recency
  | [], r => .ok r
  | args :: cs, r =>
    match replayOne now r args with
    | .ok r' => replayList now cs r'
    | .error f => .error f

/-- A command of the log: it works on the store. -/
def Loggable (args : List Bytes) : Prop :=
  args ≠ [] ∧ ∀ now, ((callOf args).action now args).isSome

theorem replayList_append (now : ℤ) : ∀ (cs ds : List (List Bytes)) (r : Recency),
    replayList now (cs ++ ds) r = (replayList now cs r).bind (replayList now ds)
  | [], ds, r => rfl
  | args :: cs, ds, r => by
    simp only [List.cons_append, replayList]
    rcases replayOne now r args with f | r'
    · rfl
    · exact replayList_append now cs ds r'

theorem handleAll_replayList (env : Env) : ∀ {cs : List (List Bytes)} {r q : Recency} {s : Server},
    s.store = r.toStore → (s.client (-1)).isSubscriber = false → (∀ c ∈ cs, Loggable c) →
    replayList env.now cs r = .ok q →
      ∃ s', handleAll env (-1) cs s = .ok s' ∧ s'.store = q.toStore
  | [], r, q, s, hs, _, _, h => by
    obtain rfl := Except.ok.inj h
    exact ⟨s, rfl, hs⟩
  | args :: cs, r, q, s, hs, hsub, hl, h => by
    obtain ⟨hne, hact⟩ := hl args List.mem_cons_self
    rcases args with _ | ⟨a, as⟩
    · exact absurd rfl hne
    obtain ⟨act, ha⟩ := Option.isSome_iff_exists.1 (hact env.now)
    have hc : (Event.command env (-1) (a :: as)).change s = .act act := by
      have ht : turnedAway s (-1) (toUpper a) = false := by simp [turnedAway, hsub]
      rw [change_command, ht]
      simp only [Bool.false_eq_true, if_false, Call.change, ha]
    have hone : replayOne env.now r (a :: as) = (act.run r).map (·.2) := by
      simp only [replayOne, ha]
    simp only [replayList, hone] at h
    simp only [handleAll]
    rcases handleCommand_act hs hc with ⟨f, hf, -⟩ | ⟨reply, ok, r', hrun, hres⟩
    · rw [hf] at h
      cases h
    · rw [hrun] at h
      rcases hres with ⟨t, ht, hst, hcl, -⟩ | ⟨-, hfd, -⟩
      · rw [ht]
        refine handleAll_replayList env hst ?_ (fun c hc => hl c (List.mem_cons_of_mem _ hc)) h
        rw [Server.client, hcl]
        exact (congrArg Client.isSubscriber (client_ensureClient s (-1))).trans hsub
      · exact absurd rfl hfd

/-- The empty list. -/
def Recency.initial : Recency := {}

/-- The replay of a file that the parser gets through. -/
theorem replayCommands_of_calls (env : Env) {file : Bytes} {cs : List (List Bytes)}
    {p : RespParser} {q : Recency} (hcalls : replayCalls file = (cs, .ok p))
    (hl : ∀ c ∈ cs, Loggable c) (h : replayList env.now cs .initial = .ok q) :
    ∃ s', replayCommands env { aof := file } = .ok s' ∧ s'.store = q.toStore := by
  obtain ⟨s', hs', hst⟩ := handleAll_replayList env (s := { aof := file }) rfl
    (by simp [Server.client]) hl h
  refine ⟨s', ?_, hst⟩
  unfold replayCommands
  rw [hcalls]
  simp only [hs']
  rfl

/-- The replay of the log of commands into an empty store. -/
theorem replayCommands_log (env : Env) {cs : List (List Bytes)} {q : Recency}
    (hl : ∀ c ∈ cs, Loggable c) (hlen : (cs.flatMap respCommand).length < 2 ^ 31)
    (h : replayList env.now cs .initial = .ok q) :
    ∃ s', replayCommands env { aof := cs.flatMap respCommand } = .ok s'
      ∧ s'.store = q.toStore := by
  have hd : ∀ c ∈ cs, Deliverable c := fun c hc =>
    deliverable_of_length (hl c hc).1 ((length_le_flatMap hc).trans_lt hlen)
  exact replayCommands_of_calls env (replayCalls_log hd hlen) hl h

end DrutaDB
