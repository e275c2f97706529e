import DrutaDB.Lib.Run
import DrutaDB.Proofs.Unevicted

/-!
# The log of a run

While nothing rewrites it, the file holds the text of the commands that succeeded since the last
flush (`step_logged`).  What every kind of step keeps between the list and these commands holds
at the end of every run (`run_logged`).
-/

namespace DrutaDB

open Machine Decimal Run

/-- The event does not come from a replay. -/
def Event.FromClient : Event → Prop
  | .command _ fd _ => fd ≠ -1
  | _ => True

instance : ∀ e : Event, Decidable e.FromClient
  | .connect _ => .isTrue trivial
  | .disconnect _ => .isTrue trivial
  | .command _ fd _ => inferInstanceAs (Decidable (fd ≠ -1))

/-- The store is that of the list, and the file holds the commands. -/
structure Holds (s : Server) (r : Recency) (cs : List (List Bytes)) : Prop where
  store : s.store = r.toStore
  aof : s.aof = cs.flatMap respCommand
  loggable : ∀ c ∈ cs, Loggable c

/-- What an event does to the list and to the commands in the file. -/
inductive Logged (r : Recency) (cs : List (List Bytes)) (s : Server) :
    Event → Recency → List (List Bytes) → Prop
  | quiet {e} (hc : e.change s = .quiet) : Logged r cs s e r cs
  | flush {e} (hc : e.change s = .flush) : Logged r cs s e r.flush []
  | unlogged {env fd args a reply r'} (hc : (Event.command env fd args).change s = .act a)
    (hrun : a.run r = .ok ((reply, false), r')) : Logged r cs s (.command env fd args) r' cs
  | logged {env fd args a reply r'} (hc : (Event.command env fd args).change s = .act a)
    (hrun : a.run r = .ok ((reply, true), r')) :
    Logged r cs s (.command env fd args) r' (cs ++ [args])

section Plain

/-- A `SET` without options. -/
def Plain (args : List Bytes) : Prop :=
  callOf args = .set → ∀ opt ∈ args.drop 3,
    toUpper opt ≠ ascii "EX" ∧ toUpper opt ≠ ascii "PX" ∧ toUpper opt ≠ ascii "PXAT"

/-- No command of the event sets a deadline. -/
def Event.Plain : Event → Prop
  | .command _ _ args => DrutaDB.Plain args
  | _ => True

instance (args : List Bytes) : Decidable (Plain args) := inferInstanceAs (Decidable (_ → _))

instance : ∀ e : Event, Decidable e.Plain
  | .connect _ => .isTrue trivial
  | .disconnect _ => .isTrue trivial
  | .command _ _ args => inferInstanceAs (Decidable (DrutaDB.Plain args))

theorem setOptions_plain (now : ℤ) : ∀ (l : List Bytes) (expireAt : ℤ),
    (∀ opt ∈ l, toUpper opt ≠ ascii "EX" ∧ toUpper opt ≠ ascii "PX" ∧ toUpper opt ≠ ascii "PXAT") →
      setOptions now l expireAt = .ok expireAt
  | [], _, _ => rfl
  | [_], _, _ => rfl
  | opt :: val :: rest, expireAt, h => by
    obtain ⟨hex, hpx, hpxat⟩ := h opt List.mem_cons_self
    unfold setOptions
    rw [if_neg hex, if_neg hpx, if_neg hpxat]
    exact setOptions_plain now (val :: rest) expireAt fun o ho => h o (List.mem_cons_of_mem _ ho)

theorem setOutcome_plain {args : List Bytes} (h : Plain args) (hc : callOf args = .set)
    (now t : ℤ) : setOutcome now args = setOutcome t args := by
  funext o
  unfold setOutcome
  rw [setOptions_plain now _ _ (h hc), setOptions_plain t _ _ (h hc)]

/-- A command that is logged does the same at any time, but for the deadlines it sets. -/
theorem action_of_plain {args : List Bytes} {now : ℤ} {a : Action} (h : Plain args)
    (hl : (callOf args).logs) (ha : (callOf args).action now args = some a) (t : ℤ) :
    (callOf args).action t args = some a := by
  rw [← ha]
  rcases hc : callOf args <;> rw [hc] at hl <;> simp only [Call.logs, Bool.false_eq_true] at hl <;>
    simp only [Call.action]
  rw [setOutcome_plain h hc t now]

theorem action_isSome {c : Call} {args : List Bytes} {now : ℤ} {a : Action}
    (h : c.action now args = some a) (t : ℤ) : (c.action t args).isSome := by
  cases c <;> simp_all [Call.action]

end Plain

section Step

variable {s s' : Server} {r : Recency} {cs : List (List Bytes)} {e : Event}

theorem Took.evicted {r' : Recency} (h : Took r s e s' r') :
    r.account.evicted <+: r'.account.evicted := by
  cases h with
  | quiet _ _ _ => exact List.prefix_rfl
  | flush _ _ _ => exact List.prefix_rfl
  | act _ hrun _ _ => exact Action.evicted_run hrun

theorem Took.rewrites_le {r' : Recency} (h : Took r s e s' r') : s.rewrites ≤ s'.rewrites := by
  cases h with
  | quiet _ _ hrw => exact hrw.ge
  | flush _ _ hrw => exact hrw.ge
  | act _ _ hrw _ => exact hrw

/-- A step that does not rewrite the file appends what succeeded. -/
theorem step_logged (hk : Holds s r cs) (hfd : e.FromClient) (h : s.step e = .ok s')
    (hrw : s'.rewrites = s.rewrites) : ∃ r' cs', Holds s' r' cs' ∧ Logged r cs s e r' cs' := by
  obtain ⟨r', hst, htook⟩ := step_took hk.store h
  cases htook with
  | quiet hc haof _ => exact ⟨r, cs, ⟨hst, haof.trans hk.aof, hk.loggable⟩, .quiet hc⟩
  | flush hc haof _ => exact ⟨r.flush, [], ⟨hst, haof, by simp⟩, .flush hc⟩
  | act hc hrun hle haof =>
    rename_i env fd args a reply ok
    have happ := haof hrw
    cases ok with
    | false =>
      refine ⟨r', cs, ⟨hst, ?_, hk.loggable⟩, .unlogged hc hrun⟩
      simpa using happ.trans (congrArg (· ++ _) hk.aof)
    | true =>
      have hfd' : fd ≠ -1 := hfd
      have hne : args ≠ [] := by
        rintro rfl
        cases h
      have hloggable : Loggable args := ⟨hne, action_isSome (action_of_change hc)⟩
      refine ⟨r', cs ++ [args], ⟨hst, ?_, ?_⟩, .logged hc hrun⟩
      · rw [happ, hk.aof]
        simp [hfd']
      · intro c hmem
        rcases List.mem_append.1 hmem with hmem | hmem
        · exact hk.loggable c hmem
        · rw [List.mem_singleton.1 hmem]
          exact hloggable

end Step

section Run

variable {C : Server → Event → Prop} {R : Recency → List (List Bytes) → Prop}
  {N : List Bytes → Prop}

/-- A relation between the list and the log that every step keeps, as long as the file is not
rewritten and the evictions are as required. -/
theorem run_logged (hN : ∀ {a b : List Bytes}, a <+: b → N b → N a) (h₀ : R .initial [])
    (hstep : ∀ {s r cs e s' r' cs'}, Holds s r cs → R r cs → C s e → s.step e = .ok s' →
      Holds s' r' cs' → N r'.account.evicted → Logged r cs s e r' cs' → R r' cs')
    {events : List Event} {s : Server}
    (hm : Meets Server.step (fun s e => e.FromClient ∧ C s e) {} events)
    (h : run Server.step {} events = .ok s) (hrw : s.rewrites = 0) (hev : N s.store.evicted) :
    ∃ r cs, Holds s r cs ∧ R r cs := by
  have hinv : (∃ r : Recency, s.store = r.toStore) ∧ (s.rewrites = 0 → N s.store.evicted →
      ∃ r cs, Holds s r cs ∧ R r cs) := by
    refine run_invariant (I := fun s => (∃ r : Recency, s.store = r.toStore) ∧
      (s.rewrites = 0 → N s.store.evicted → ∃ r cs, Holds s r cs ∧ R r cs)) ?_ ?_ hm h
    · rintro s e s' ⟨⟨r, hr⟩, hI⟩ ⟨hfd, hC⟩ hs
      obtain ⟨r', hr', htook⟩ := step_took hr hs
      refine ⟨⟨r', hr'⟩, fun hrw hev => ?_⟩
      have hle := htook.rewrites_le
      have hN' : N s.store.evicted := by
        rw [hr'] at hev
        rw [hr]
        exact hN htook.evicted hev
      obtain ⟨q, cs, hholds, hR⟩ := hI (by omega) hN'
      obtain ⟨q', cs', hholds', hlog⟩ := step_logged hholds hfd hs (by omega)
      have hev' : N q'.account.evicted := by
        rw [hholds'.store] at hev
        exact hev
      exact ⟨q', cs', hholds', hstep hholds hR hC hs hholds' hev' hlog⟩
    · exact ⟨⟨.initial, rfl⟩, fun _ _ => ⟨.initial, [], ⟨rfl, rfl, by simp⟩, h₀⟩⟩
  exact hinv.2 hrw hev

end Run

section Replay

theorem replayList_snoc (t : ℤ) (cs : List (List Bytes)) (args : List Bytes) (q : Recency) :
    replayList t (cs ++ [args]) q = (replayList t cs q).bind fun q => replayOne t q args := by
  rw [replayList_append]
  rcases replayList t cs q with f | q'
  · rfl
  · simp only [Except.bind, replayList]
    rcases replayOne t q' args with f | q'' <;> rfl

theorem replayOne_eq {t : ℤ} {args : List Bytes} {a : Action}
    (h : (callOf args).action t args = some a) (q : Recency) :
    replayOne t q args = (a.run q).map (·.2) := by
  simp only [replayOne, h]

end Replay

/-! ## Sessions without a rewrite -/

section Serve

/-- The size estimate of a command that is short enough. -/
theorem estimatedSize_eq {args : List Bytes}
    (h : (args.map fun a => a.length + 16).sum + 16 < 2 ^ 31) :
    estimatedSize args = ((args.map fun a => a.length + 16).sum + 16 : ℕ) := by
  have hfold : ∀ (l : List Bytes) (n : ℕ), (l.map fun a => a.length + 16).sum + n < 2 ^ 31 →
      l.foldl (fun (n : ℤ) arg => toInt (toSize (n + arg.length + 16))) n =
        ((l.map fun a => a.length + 16).sum + n : ℕ) := by
    intro l
    induction l with
    | nil => intro n _; simp
    | cons a l ih =>
      intro n hn
      rw [List.map_cons, List.sum_cons] at hn
      have hcast : ((n : ℤ) + a.length + 16) = ((n + a.length + 16 : ℕ) : ℤ) := by push_cast; ring
      rw [List.foldl_cons, hcast, toSize_natCast (by omega), toInt_natCast (by omega),
        ih _ (by omega), List.map_cons, List.sum_cons]
      push_cast
      ring
  exact hfold args 16 h

theorem formatRespCommand_eq {args : List Bytes}
    (h : (args.map fun a => a.length + 16).sum + 80 < 2 ^ 31) :
    formatRespCommand args = .ok (respCommand args) := by
  have hcast : (((args.map fun a => a.length + 16).sum + 16 : ℕ) : ℤ) + 64 =
      ((args.map fun a => a.length + 16).sum + 80 : ℕ) := by push_cast; ring
  unfold formatRespCommand
  rw [estimatedSize_eq (by omega), hcast, toInt_natCast h, toSize_natCast (by omega)]
  unfold reserve maxSize
  rw [if_neg (by omega)]
  rfl

/-- The file holds the commands, it was never rewritten, and nobody is subscribed. -/
structure Serves (s : Server) (r : Recency) (cs : List (List Bytes)) : Prop extends Holds s r cs where
  rewrites : s.rewrites = 0
  normal : ∀ fd, (s.client fd).isSubscriber = false

theorem serves_initial : Serves {} .initial [] :=
  ⟨⟨rfl, rfl, by simp⟩, rfl, fun fd => by simp [Server.client]⟩

/-- A command a server takes when the size of the file was checked just before. -/
theorem step_formatted {s : Server} {r r' : Recency} (env : Env) (fd : ℤ) (args : List Bytes)
    {a : Action} {reply : Bytes} {ok : Bool} (hs : s.store = r.toStore)
    (hnormal : (s.client fd).isSubscriber = false) (ha : (callOf args).action env.now args = some a)
    (hrun : a.run r = .ok ((reply, ok), r')) (hcheck : env.sinceCheck < 5) (hfd : fd ≠ -1)
    (hformat : formatRespCommand args = .ok (respCommand args)) :
    s.step (.command env fd args) = .ok { s.ensureClient fd with
      store := r'.toStore, aof := if ok then s.aof ++ respCommand args else s.aof } := by
  rcases args with _ | ⟨b, bs⟩
  · have hc : callOf [] = .unknown := by decide
    rw [hc] at ha
    cases ha
  have hturn : turnedAway s fd (toUpper b) = false := by simp [turnedAway, hnormal]
  have hcall : route (toUpper b) (b :: bs).length = callOf (b :: bs) := rfl
  have hexec := Call.run_action r env.now (b :: bs) ha fd (toUpper b) (s := s.ensureClient fd) hs
  rw [hrun] at hexec
  simp only [Server.step, handleCommand, turnedAway_ensureClient, hturn, Bool.false_eq_true,
    if_false, hcall, hexec, Except.map]
  cases ok with
  | false =>
    simp only [Bool.false_eq_true, and_false, if_false]
    rfl
  | true =>
    have hvalid : isValid (toUpper b) := isValid_of_success ha hrun
    simp only [ne_eq, hfd, not_false_eq_true, and_self, if_true, appendToAof, hvalid,
      hformat, uncaught, Except.mapError, bind, Except.bind, pure, Except.pure,
      checkAndRewriteAof, hcheck]
    rfl

theorem step_serves_formatted {s : Server} {r r' : Recency} {cs : List (List Bytes)} (env : Env)
    (fd : ℤ) (args : List Bytes) {a : Action} {reply : Bytes} {ok : Bool} (h : Serves s r cs)
    (ha : (callOf args).action env.now args = some a) (hrun : a.run r = .ok ((reply, ok), r'))
    (hcheck : env.sinceCheck < 5) (hfd : fd ≠ -1)
    (hformat : formatRespCommand args = .ok (respCommand args)) :
    ∃ s', s.step (.command env fd args) = .ok s'
      ∧ Serves s' r' (if ok then cs ++ [args] else cs) := by
  have hstep := step_formatted env fd args h.store (h.normal fd) ha hrun hcheck hfd hformat
  refine ⟨_, hstep, ⟨rfl, ?_, ?_⟩, h.rewrites, fun fd' => ?_⟩
  · cases ok with
    | false => exact h.aof
    | true => simp [h.aof]
  · cases ok with
    | false => exact h.loggable
    | true =>
      refine List.forall_mem_append.2 ⟨h.loggable, List.forall_mem_singleton.2 ⟨?_, action_isSome ha⟩⟩
      rintro rfl
      cases hstep
  · exact (congrArg Client.isSubscriber (client_ensureClient_of s fd fd')).trans (h.normal fd')

theorem step_serves {s : Server} {r r' : Recency} {cs : List (List Bytes)} (env : Env) (fd : ℤ)
    (args : List Bytes) {a : Action} {reply : Bytes} {ok : Bool} (h : Serves s r cs)
    (ha : (callOf args).action env.now args = some a) (hrun : a.run r = .ok ((reply, ok), r'))
    (hcheck : env.sinceCheck < 5) (hfd : fd ≠ -1)
    (hlen : (args.map fun a => a.length + 16).sum + 80 < 2 ^ 31) :
    ∃ s', s.step (.command env fd args) = .ok s'
      ∧ Serves s' r' (if ok then cs ++ [args] else cs) :=
  step_serves_formatted env fd args h ha hrun hcheck hfd (formatRespCommand_eq hlen)

/-- A `SET` of a new key. -/
theorem run_set {r : Recency} {k v : Bytes} (h : r.find k = none) (now : ℤ) :
    (Action.access k (setOutcome now [ascii "SET", k, v])).run r =
      .ok ((okReply, true), r.add k (.ofString v 0)) := by
  simp only [Action.run, h]
  rfl

/-- A `SET` of a new key with options. -/
theorem run_setOptions {r : Recency} {k v : Bytes} {opts : List Bytes} {now e : ℤ}
    (h : r.find k = none) (hopts : setOptions now opts 0 = .ok e) :
    (Action.access k (setOutcome now (ascii "SET" :: k :: v :: opts))).run r =
      .ok ((okReply, true), r.add k (.ofString v e)) := by
  have hdrop : (ascii "SET" :: k :: v :: opts).drop 3 = opts := rfl
  simp only [Action.run, h, setOutcome, hdrop, hopts]
  rfl

/-- A run of one write. -/
theorem exists_run_set : ∃ s, run Server.step {} [.command {} 4
    [ascii "SET", ascii "k", ascii "v"]] = .ok s
      ∧ Serves s (Recency.initial.add (ascii "k") (.ofString (ascii "v") 0))
        [[ascii "SET", ascii "k", ascii "v"]] := by
  obtain ⟨s, hs, hserves⟩ := step_serves {} 4 [ascii "SET", ascii "k", ascii "v"]
    serves_initial rfl
    (run_set (v := ascii "v") rfl 0) (by decide) (by decide) (by decide)
  exact ⟨s, run_cons_ok hs [], hserves⟩

end Serve

end DrutaDB
