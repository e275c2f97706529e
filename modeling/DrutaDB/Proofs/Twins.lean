import DrutaDB.Proofs.Cells
import DrutaDB.Proofs.Crash
import DrutaDB.Proofs.FieldMap
import DrutaDB.Proofs.Restart
import DrutaDB.Proofs.Streams

/-!
# What can be told from outside

Two servers whose keys hold the same and whose clients listen to the same channels are told apart by
no commands, as long as neither evicts a key: not by the order in which their keys were used, their
counters or their files (`run_twins`).  So no client can tell that a server was restarted
(`restart_untold`).  Two commands are left out: `MEMSTATS`, and `HGETALL`, which lists the fields in
an order of their own.
-/

namespace DrutaDB

open Machine Decimal Run

/-! ## Outcomes -/

/-- Both keys are missing, or hold values that are the same. -/
abbrev SameValue : Option DrutaValue → Option DrutaValue → Prop := Option.Rel DrutaValue.Same

/-- The outcomes send the same and leave the same, or one of them fails. -/
def Outcome.Agrees (o o' : Option DrutaValue) (out out' : Outcome) : Prop :=
  ((∀ x, out.effect ≠ .fail x) → (∀ x, out'.effect ≠ .fail x) → out.reply = out'.reply) ∧
    SameValue (out.effect.result o) (out'.effect.result o')

section Outcomes

variable {now : ℤ} {args : List Bytes} {o o' : Option DrutaValue}

theorem agrees_of {out out' : Outcome} (hreply : out.reply = out'.reply)
    (hresult : SameValue (out.effect.result o) (out'.effect.result o')) : out.Agrees o o' out' :=
  ⟨fun _ _ => hreply, hresult⟩

/-- Of two values that are the same, one takes another amount of memory, or is a hash in another
form. -/
@[elab_as_elim]
theorem sameValue_cases {motive : Option DrutaValue → Option DrutaValue → Prop}
    (h : SameValue o o') (none : motive none none)
    (some : ∀ (d d' : Data) (e : ℤ) (m m' : ℕ), d.Same d' →
      motive (some ⟨d, e, m⟩) (some ⟨d', e, m'⟩)) : motive o o' := by
  cases h with
  | none => exact none
  | @some v w h =>
    obtain ⟨d, e, m⟩ := v
    obtain ⟨d', e', m'⟩ := w
    obtain ⟨hdata, rfl⟩ : d.Same d' ∧ e = e' := ⟨h.data, h.expiryTime⟩
    exact some d d' e m m' hdata

theorem sameValue_some {d d' : Data} {e : ℤ} {m m' : ℕ} (h : d.Same d') :
    SameValue (some ⟨d, e, m⟩) (some ⟨d', e, m'⟩) := .some ⟨h, rfl⟩

theorem setOutcome_agrees (h : SameValue o o') :
    (setOutcome now args o).Agrees o o' (setOutcome now args o') := by
  unfold setOutcome
  split
  · exact agrees_of rfl h
  · refine agrees_of rfl ?_
    cases h with
    | none => exact sameValue_some (.string _)
    | some _ => exact sameValue_some (.string _)

theorem getOutcome_agrees (h : SameValue o o') :
    (getOutcome now o).Agrees o o' (getOutcome now o') := by
  refine sameValue_cases h (agrees_of rfl .none) fun d d' e m m' hdata => ?_
  cases hdata with
  | string s =>
    have hexpired : (⟨.string s, e, m⟩ : DrutaValue).expired now =
        (⟨.string s, e, m'⟩ : DrutaValue).expired now := rfl
    simp only [getOutcome, hexpired]
    split_ifs
    · exact agrees_of rfl .none
    · exact agrees_of rfl (sameValue_some (.string s))
  | list l => exact agrees_of rfl (sameValue_some (.list l))
  | hash hd hd' heq => exact agrees_of rfl (sameValue_some (.hash hd hd' heq))
  | set t => exact agrees_of rfl (sameValue_some (.set t))

theorem pushOutcome_agrees (h : SameValue o o') (b : Bool) :
    (pushOutcome args b o).Agrees o o' (pushOutcome args b o') := by
  refine sameValue_cases h (agrees_of rfl (sameValue_some (.list _))) fun d d' e m m' hdata => ?_
  cases hdata with
  | string s => exact agrees_of rfl (sameValue_some (.string s))
  | list l => exact agrees_of rfl (sameValue_some (.list _))
  | hash hd hd' heq => exact agrees_of rfl (sameValue_some (.hash hd hd' heq))
  | set t => exact agrees_of rfl (sameValue_some (.set t))

theorem lrangeOutcome_agrees (h : SameValue o o') :
    (lrangeOutcome args o).Agrees o o' (lrangeOutcome args o') := by
  refine sameValue_cases h (agrees_of rfl .none) fun d d' e m m' hdata => ?_
  cases hdata with
  | string s => exact agrees_of rfl (sameValue_some (.string s))
  | list l =>
    unfold lrangeOutcome
    dsimp only
    split
    · exact agrees_of rfl (sameValue_some (.list l))
    · exact agrees_of rfl (sameValue_some (.list l))
  | hash hd hd' heq => exact agrees_of rfl (sameValue_some (.hash hd hd' heq))
  | set t => exact agrees_of rfl (sameValue_some (.set t))

theorem popOutcome_agrees (h : SameValue o o') (b : Bool) :
    (popOutcome args b o).Agrees o o' (popOutcome args b o') := by
  by_cases hlen : 3 < args.length
  · have hkeep : ∀ o : Option DrutaValue, popOutcome args b o =
        { reply := ascii "-ERR Invalid number of arguments" ++ crlf } := fun o => by
      cases o <;> simp only [popOutcome, if_pos hlen]
    rw [hkeep o, hkeep o']
    exact agrees_of rfl h
  simp only [popOutcome, if_neg hlen]
  refine sameValue_cases h (agrees_of rfl .none) fun d d' e m m' hdata => ?_
  cases hdata with
  | string s => exact agrees_of rfl (sameValue_some (.string s))
  | list l =>
    dsimp only
    split
    · exact agrees_of rfl (sameValue_some (.list l))
    · exact agrees_of rfl (sameValue_some (.list _))
  | hash hd hd' heq => exact agrees_of rfl (sameValue_some (.hash hd hd' heq))
  | set t => exact agrees_of rfl (sameValue_some (.set t))

theorem llenOutcome_agrees (h : SameValue o o') :
    (llenOutcome o).Agrees o o' (llenOutcome o') := by
  refine sameValue_cases h (agrees_of rfl .none) fun d d' e m m' hdata => ?_
  cases hdata with
  | string s => exact agrees_of rfl (sameValue_some (.string s))
  | list l => exact agrees_of rfl (sameValue_some (.list l))
  | hash hd hd' heq => exact agrees_of rfl (sameValue_some (.hash hd hd' heq))
  | set t => exact agrees_of rfl (sameValue_some (.set t))

theorem hsetOutcome_agrees (h : SameValue o o') :
    (hsetOutcome args o).Agrees o o' (hsetOutcome args o') := by
  have hsame : ∀ {v w : DrutaValue} {g g' : DrutaHash}, g.Distinct → g'.Distinct →
      g.getHash = g'.getHash → v.expiryTime = w.expiryTime →
        (hsetValue args v g).Same (hsetValue args w g') := fun hg hg' heq he =>
    ⟨.hash (hsetLoop_distinct _ hg) (hsetLoop_distinct _ hg')
      (hsetLoop_congr (args.drop 2) hg hg' heq).1, he⟩
  have hempty : DrutaHash.empty.Distinct := List.nodup_nil
  unfold hsetOutcome
  split_ifs
  · exact agrees_of rfl h
  refine sameValue_cases h (agrees_of rfl (.some (hsame hempty hempty rfl rfl)))
    fun d d' e m m' hdata => ?_
  cases hdata with
  | string s => exact agrees_of rfl (sameValue_some (.string s))
  | list l => exact agrees_of rfl (sameValue_some (.list l))
  | hash hd hd' heq =>
    refine agrees_of ?_ (.some (hsame hd hd' heq rfl))
    exact congrArg (fun n : ℕ => sendInteger n) (hsetLoop_congr (args.drop 2) hd hd' heq).2
  | set t => exact agrees_of rfl (sameValue_some (.set t))

theorem hgetOutcome_agrees (h : SameValue o o') :
    (hgetOutcome args o).Agrees o o' (hgetOutcome args o') := by
  unfold hgetOutcome
  split_ifs
  · exact agrees_of rfl h
  refine sameValue_cases h (agrees_of rfl .none) fun d d' e m m' hdata => ?_
  cases hdata with
  | string s => exact agrees_of rfl (sameValue_some (.string s))
  | list l => exact agrees_of rfl (sameValue_some (.list l))
  | hash hd hd' heq =>
    dsimp only
    rw [heq]
    split
    · exact agrees_of rfl (sameValue_some (.hash hd hd' heq))
    · exact agrees_of rfl (sameValue_some (.hash hd hd' heq))
  | set t => exact agrees_of rfl (sameValue_some (.set t))

theorem hdelOutcome_agrees (h : SameValue o o') :
    (hdelOutcome args o).Agrees o o' (hdelOutcome args o') := by
  by_cases hlen : args.length < 3
  · simp only [hdelOutcome, if_pos hlen]
    exact agrees_of rfl h
  refine sameValue_cases h ?_ fun d d' e m m' hdata => ?_
  · simp only [hdelOutcome, if_neg hlen]
    exact agrees_of rfl .none
  cases hdata with
  | string s =>
    simp only [hdelOutcome, if_neg hlen]
    exact agrees_of rfl (sameValue_some (.string s))
  | list l =>
    simp only [hdelOutcome, if_neg hlen]
    exact agrees_of rfl (sameValue_some (.list l))
  | @hash g g' hd hd' heq =>
    obtain ⟨hget, hcount⟩ := @hdelLoop_congr (args.drop 2) g g' 0 false false hd hd' heq
    refine agrees_of ?_ ?_
    · simp only [hdelOutcome, if_neg hlen]
      exact congrArg (fun n : ℕ => sendInteger n) hcount
    · obtain ⟨n, hn⟩ := hdelOutcome_written hlen g e m
      obtain ⟨n', hn'⟩ := hdelOutcome_written hlen g' e m'
      rw [Effect.result_of_written hn, Effect.result_of_written hn']
      exact sameValue_some (.hash (hdelLoop_distinct _ hd) (hdelLoop_distinct _ hd') hget)
  | set t =>
    simp only [hdelOutcome, if_neg hlen]
    exact agrees_of rfl (sameValue_some (.set t))

theorem hlenOutcome_agrees (h : SameValue o o') :
    (hlenOutcome args o).Agrees o o' (hlenOutcome args o') := by
  unfold hlenOutcome
  split_ifs
  · exact agrees_of rfl h
  refine sameValue_cases h (agrees_of rfl .none) fun d d' e m m' hdata => ?_
  cases hdata with
  | string s => exact agrees_of rfl (sameValue_some (.string s))
  | list l => exact agrees_of rfl (sameValue_some (.list l))
  | hash hd hd' heq =>
    refine agrees_of ?_ (sameValue_some (.hash hd hd' heq))
    dsimp only
    rw [DrutaHash.size_eq_ncard hd, DrutaHash.size_eq_ncard hd', heq]
  | set t => exact agrees_of rfl (sameValue_some (.set t))

theorem saddOutcome_agrees (h : SameValue o o') :
    (saddOutcome args o).Agrees o o' (saddOutcome args o') := by
  refine sameValue_cases h (agrees_of rfl (sameValue_some (.set _))) fun d d' e m m' hdata => ?_
  cases hdata with
  | string s => exact agrees_of rfl (sameValue_some (.string s))
  | list l => exact agrees_of rfl (sameValue_some (.list l))
  | hash hd hd' heq => exact agrees_of rfl (sameValue_some (.hash hd hd' heq))
  | set t => exact agrees_of rfl (sameValue_some (.set _))

theorem sdelOutcome_agrees (h : SameValue o o') :
    (sdelOutcome args o).Agrees o o' (sdelOutcome args o') := by
  refine sameValue_cases h (agrees_of rfl .none) fun d d' e m m' hdata => ?_
  cases hdata with
  | string s => exact agrees_of rfl (sameValue_some (.string s))
  | list l => exact agrees_of rfl (sameValue_some (.list l))
  | hash hd hd' heq => exact agrees_of rfl (sameValue_some (.hash hd hd' heq))
  | set t => exact agrees_of rfl (sameValue_some (.set _))

theorem scardOutcome_agrees (h : SameValue o o') :
    (scardOutcome args o).Agrees o o' (scardOutcome args o') := by
  unfold scardOutcome
  split_ifs
  · exact agrees_of rfl h
  refine sameValue_cases h (agrees_of rfl .none) fun d d' e m m' hdata => ?_
  cases hdata with
  | hash hd hd' heq => exact agrees_of rfl (sameValue_some (.hash hd hd' heq))
  | string s => exact agrees_of rfl (sameValue_some (.string s))
  | list l => exact agrees_of rfl (sameValue_some (.list l))
  | set t => exact agrees_of rfl (sameValue_some (.set t))

theorem sismemberOutcome_agrees (h : SameValue o o') :
    (sismemberOutcome args o).Agrees o o' (sismemberOutcome args o') := by
  unfold sismemberOutcome
  split_ifs
  · exact agrees_of rfl h
  refine sameValue_cases h (agrees_of rfl .none) fun d d' e m m' hdata => ?_
  cases hdata with
  | string s => exact agrees_of rfl (sameValue_some (.string s))
  | list l => exact agrees_of rfl (sameValue_some (.list l))
  | hash hd hd' heq => exact agrees_of rfl (sameValue_some (.hash hd hd' heq))
  | set t => exact agrees_of rfl (sameValue_some (.set t))

theorem smismemberOutcome_agrees (h : SameValue o o') :
    (smismemberOutcome args o).Agrees o o' (smismemberOutcome args o') := by
  unfold smismemberOutcome
  split_ifs
  · exact agrees_of rfl h
  refine sameValue_cases h (agrees_of rfl .none) fun d d' e m m' hdata => ?_
  cases hdata with
  | string s => exact agrees_of rfl (sameValue_some (.string s))
  | list l => exact agrees_of rfl (sameValue_some (.list l))
  | hash hd hd' heq => exact agrees_of rfl (sameValue_some (.hash hd hd' heq))
  | set t => exact agrees_of rfl (sameValue_some (.set t))

/-- `SMEMBERS` fails where its buffer is too large, which depends on the counter. -/
theorem smembersOutcome_agrees (h : SameValue o o') :
    (smembersOutcome args o).Agrees o o' (smembersOutcome args o') := by
  unfold smembersOutcome
  split_ifs
  · exact agrees_of rfl h
  refine sameValue_cases h (agrees_of rfl .none) fun d d' e m m' hdata => ?_
  cases hdata with
  | string s => exact agrees_of rfl (sameValue_some (.string s))
  | list l => exact agrees_of rfl (sameValue_some (.list l))
  | hash hd hd' heq => exact agrees_of rfl (sameValue_some (.hash hd hd' heq))
  | set t =>
    dsimp only
    rcases reserve (addSize 1024 m) with f | u <;> rcases reserve (addSize 1024 m') with f' | u'
    · exact ⟨fun hf => absurd rfl (hf _), sameValue_some (.set t)⟩
    · exact ⟨fun hf => absurd rfl (hf _), sameValue_some (.set t)⟩
    · exact ⟨fun _ hf => absurd rfl (hf _), sameValue_some (.set t)⟩
    · exact agrees_of rfl (sameValue_some (.set t))

/-- `HGETALL` leaves its hash as it is. -/
theorem hgetallOutcome_result (o : Option DrutaValue) :
    (hgetallOutcome args o).effect.result o = o := by
  unfold hgetallOutcome
  split_ifs
  · rfl
  split
  · rfl
  split
  · split <;> rfl
  · rfl

/-- On keys that hold the same, a command sends the same and leaves the same. -/
theorem agrees_of_action {key : Bytes} {f : Option DrutaValue → Outcome} (h : SameValue o o')
    (ha : (callOf args).action now args = some (.access key f)) :
    (callOf args ≠ .hgetall → (f o).Agrees o o' (f o')) ∧
      SameValue ((f o).effect.result o) ((f o').effect.result o') := by
  have hboth : ∀ {out out' : Outcome}, out.Agrees o o' out' →
      (callOf args ≠ .hgetall → out.Agrees o o' out') ∧
        SameValue (out.effect.result o) (out'.effect.result o') := fun hagrees =>
    ⟨fun _ => hagrees, hagrees.2⟩
  rcases hcall : callOf args <;> rw [hcall] at ha <;>
    simp only [Call.action, Option.some.injEq, reduceCtorEq, Action.access.injEq] at ha <;>
    obtain ⟨-, rfl⟩ := ha <;> rw [← hcall]
  case set => exact hboth (setOutcome_agrees h)
  case get => exact hboth (getOutcome_agrees h)
  case rpush => exact hboth (pushOutcome_agrees h false)
  case lpush => exact hboth (pushOutcome_agrees h true)
  case lrange => exact hboth (lrangeOutcome_agrees h)
  case lpop => exact hboth (popOutcome_agrees h true)
  case rpop => exact hboth (popOutcome_agrees h false)
  case llen => exact hboth (llenOutcome_agrees h)
  case hset => exact hboth (hsetOutcome_agrees h)
  case hget => exact hboth (hgetOutcome_agrees h)
  case hgetall =>
    refine ⟨fun hne => absurd rfl hne, ?_⟩
    rwa [hgetallOutcome_result, hgetallOutcome_result]
  case hdel => exact hboth (hdelOutcome_agrees h)
  case hlen => exact hboth (hlenOutcome_agrees h)
  case sadd => exact hboth (saddOutcome_agrees h)
  case scard => exact hboth (scardOutcome_agrees h)
  case sismember => exact hboth (sismemberOutcome_agrees h)
  case smembers => exact hboth (smembersOutcome_agrees h)
  case smismember => exact hboth (smismemberOutcome_agrees h)
  case sdel => exact hboth (sdelOutcome_agrees h)

end Outcomes

/-! ## Commands on several keys -/

section Several

variable {s s' : Store} {args : List Bytes}

theorem members_of_same {o o' : Option DrutaValue} (h : SameValue o o') :
    members o' = members o := by
  refine sameValue_cases h rfl fun d d' e m m' hdata => ?_
  cases hdata <;> rfl

theorem firstSet_of_same {o o' : Option DrutaValue} (h : SameValue o o') :
    firstSet o' = firstSet o := by
  refine sameValue_cases h rfl fun d d' e m m' hdata => ?_
  cases hdata <;> rfl

theorem sinterLoop_same (h : ∀ key, SameValue (s.value key) (s'.value key)) :
    ∀ (keys : List Bytes) (inter : Std.ExtTreeSet Bytes), ∃ o, sinterLoop keys inter s = .ok (o, s) ∧
      sinterLoop keys inter s' = .ok (o, s')
  | [], inter => ⟨_, rfl, rfl⟩
  | key :: keys, inter => by
    unfold sinterLoop
    rw [bind_ok (find_value _ key), bind_ok (find_value _ key)]
    have hkey := h key
    generalize s.value key = o at hkey ⊢
    generalize s'.value key = o' at hkey ⊢
    refine sameValue_cases hkey ⟨_, rfl, rfl⟩ fun d d' e m m' hdata => ?_
    cases hdata with
    | set t =>
      dsimp only
      split_ifs
      · exact ⟨_, rfl, rfl⟩
      · exact sinterLoop_same h keys _
    | _ => exact ⟨_, rfl, rfl⟩

theorem commandSinter_same (h : ∀ key, SameValue (s.value key) (s'.value key)) :
    ∃ b, commandSinter args s = .ok ((b, false), s) ∧
      commandSinter args s' = .ok ((b, false), s') := by
  unfold commandSinter
  split_ifs
  · exact ⟨_, rfl, rfl⟩
  rw [bind_ok (find_value _ _), bind_ok (find_value _ _)]
  have hloop : ∀ inter : Std.ExtTreeSet Bytes, ∃ b,
      (sinterLoop (args.drop 2) inter >>= fun o => pure (sinterReply o, false)) s =
        .ok ((b, false), s) ∧
      (sinterLoop (args.drop 2) inter >>= fun o => pure (sinterReply o, false)) s' =
        .ok ((b, false), s') := fun inter => by
    obtain ⟨o, ho, ho'⟩ := sinterLoop_same h (args.drop 2) inter
    rw [bind_ok ho, bind_ok ho']
    exact ⟨_, rfl, rfl⟩
  have hkey := h (arg args 1)
  generalize s.value (arg args 1) = o at hkey ⊢
  generalize s'.value (arg args 1) = o' at hkey ⊢
  refine sameValue_cases hkey (hloop ∅) fun d d' e m m' hdata => ?_
  cases hdata with
  | set t => exact hloop t
  | _ => exact ⟨_, rfl, rfl⟩

/-- `DEL` counts the keys that are there. -/
theorem deleteAll_same : ∀ {keys : List Bytes} {r q : Recency},
    (∀ key, SameValue (r.find key) (q.find key)) →
      (Action.deleteAll keys r).1 = (Action.deleteAll keys q).1
  | [], _, _, _ => rfl
  | key :: keys, r, q, h => by
    have hdrop : ∀ key', SameValue ((r.drop key).find key') ((q.drop key).find key') := by
      intro key'
      rw [Effect.find_drop, Effect.find_drop]
      split_ifs
      · exact .none
      · exact h key'
    unfold Action.deleteAll
    have hkey := h key
    generalize r.find key = o at hkey ⊢
    generalize q.find key = o' at hkey ⊢
    cases hkey with
    | none => exact deleteAll_same h
    | some _ => exact congrArg (· + 1) (deleteAll_same hdrop)

end Several

/-! ## Replies -/

section Replies

variable {r q : Recency} {s s' : Server} {env : Env} {now fd : ℤ} {cmd : Bytes} {args : List Bytes}

/-- What an action sends is told from what the keys hold. -/
theorem reply_same {a : Action} {b b' : Bytes} {ok ok' : Bool} {r' q' : Recency}
    (h : ∀ key, SameValue (r.find key) (q.find key)) (ha : (callOf args).action now args = some a)
    (hhgetall : callOf args ≠ .hgetall) (hmemstats : callOf args ≠ .memstats)
    (hr : a.run r = .ok ((b, ok), r')) (hq : a.run q = .ok ((b', ok'), q')) : b = b' := by
  rcases a with ⟨key, f⟩ | m | keys
  · obtain ⟨rfl, -, hp⟩ := apply_ok hr
    obtain ⟨rfl, -, hp'⟩ := apply_ok hq
    refine ((agrees_of_action (h key) ha).1 hhgetall).1 (fun x hx => ?_) fun x hx => ?_
    · rw [hx] at hp
      cases hp
    · rw [hx] at hp'
      cases hp'
  · have hsame : ∀ key, SameValue (r.toStore.value key) (q.toStore.value key) := fun key => by
      rw [value_toStore, value_toStore]
      exact h key
    have hread : ∃ b, m r.toStore = .ok ((b, false), r.toStore) ∧
        m q.toStore = .ok ((b, false), q.toStore) := by
      rcases hcall : callOf args <;> rw [hcall] at ha <;>
        simp only [Call.action, Option.some.injEq, reduceCtorEq, Action.inspect.injEq] at ha <;>
        subst ha
      case sinter => exact commandSinter_same hsame
      case sunion => exact commandSunion_congr args fun key => members_of_same (hsame key)
      case sdiff =>
        exact commandSdiff_congr args (fun key => members_of_same (hsame key))
          (firstSet_of_same (hsame _))
      case memstats => exact absurd hcall hmemstats
    obtain ⟨c, hc, hc'⟩ := hread
    simp only [Action.run, hc, hc', Except.map, Except.ok.injEq, Prod.mk.injEq] at hr hq
    exact hr.1.1.symm.trans hq.1.1
  · have hb : sendInteger (Action.deleteAll keys r).1 = b :=
      congrArg (fun o => o.1.1) (Except.ok.inj hr)
    have hb' : sendInteger (Action.deleteAll keys q).1 = b' :=
      congrArg (fun o => o.1.1) (Except.ok.inj hq)
    rw [← hb, ← hb', deleteAll_same h]

theorem subscribeLoop_reply : ∀ (channels : List Bytes) {s s' : Server},
    (s'.client fd).subscribedChannels = (s.client fd).subscribedChannels →
      (subscribeLoop fd channels s').1 = (subscribeLoop fd channels s).1
  | [], _, _, _ => rfl
  | channel :: channels, s, s', h => by
    unfold subscribeLoop
    simp only [h]
    split_ifs
    · rfl
    · refine congrArg (_ ++ ·) (subscribeLoop_reply channels ?_)
      rw [Server.client_setClient, Server.client_setClient, if_pos rfl, if_pos rfl]

theorem unsubscribeLoop_reply : ∀ (channels : List Bytes) {s s' : Server},
    (s'.client fd).subscribedChannels = (s.client fd).subscribedChannels →
      (unsubscribeLoop fd channels s').1 = (unsubscribeLoop fd channels s).1
  | [], _, _, _ => rfl
  | channel :: channels, s, s', h => by
    unfold unsubscribeLoop
    simp only [h]
    refine congrArg (_ ++ ·) (unsubscribeLoop_reply channels ?_)
    rw [Server.client_setClient, Server.client_setClient, if_pos rfl, if_pos rfl]

theorem pubsubUnsubscribe_reply
    (h : (s'.client fd).subscribedChannels = (s.client fd).subscribedChannels) :
    (pubsubUnsubscribe fd args s').1 = (pubsubUnsubscribe fd args s).1 := by
  unfold pubsubUnsubscribe
  simp only [h]
  generalize (if args.length = 1 then _ else args.drop 1) = channels
  split_ifs
  · rfl
  · exact unsubscribeLoop_reply _ h

/-- The branch that a command is handled by. -/
theorem run_of_step {t : Server} (ht : turnedAway s fd (toUpper (args.headD [])) = false)
    (h : s.step (.command env fd args) = .ok t) : ∃ o u,
      (callOf args).run env.now fd (toUpper (args.headD [])) args (s.ensureClient fd) = .ok (o, u) ∧
        (handleCommand env fd args s).1 = o.1 := by
  rcases args with _ | ⟨a, as⟩
  · cases h
  have hcall : route (toUpper a) (a :: as).length = callOf (a :: as) := rfl
  have ht' : ¬ turnedAway s fd (toUpper a) = true := by
    rw [Bool.not_eq_true]
    exact ht
  change (handleCommand env fd (a :: as) s).2 = .ok t at h
  simp only [handleCommand, turnedAway_ensureClient, if_neg ht', hcall] at h ⊢
  change ∃ o u, (callOf (a :: as)).run env.now fd (toUpper a) (a :: as) (s.ensureClient fd) =
    .ok (o, u) ∧ _
  rcases hrun : (callOf (a :: as)).run env.now fd (toUpper a) (a :: as) (s.ensureClient fd) with
    f | ⟨⟨sends, ok⟩, u⟩ <;> rw [hrun] at h
  · cases h
  · exact ⟨_, u, rfl, rfl⟩

end Replies

/-! ## Evictions -/

section Evictions

variable {s t u : Server} {r : Recency} {e : Event}

/-- What is evicted stays on the list of the evicted. -/
theorem evicted_run : ∀ {events : List Event} {s : Server} {r : Recency}, s.store = r.toStore →
    run Server.step s events = .ok t → s.store.evicted <+: t.store.evicted
  | [], _, _, _, h => Except.ok.inj h ▸ List.prefix_rfl
  | e :: events, s, r, hr, h => by
    obtain ⟨u, hu, h⟩ := run_cons h
    obtain ⟨gone, hgone, -⟩ := step_cell hr hu
    obtain ⟨r', hr', -⟩ := step_took hr hu
    exact (hgone ▸ List.prefix_append _ _).trans (evicted_run hr' h)

/-- Where the run evicts nothing, neither its first step nor the rest does. -/
theorem evicted_run_cons {events : List Event} (hr : s.store = r.toStore) (hu : s.step e = .ok u)
    (h : run Server.step u events = .ok t) (hev : t.store.evicted = s.store.evicted) :
    u.store.evicted = s.store.evicted ∧ t.store.evicted = u.store.evicted := by
  obtain ⟨gone, hgone, -⟩ := step_cell hr hu
  obtain ⟨r', hr', -⟩ := step_took hr hu
  have hfirst :=
    Recency.eq_of_prefix_prefix (hgone ▸ List.prefix_append _ _) (evicted_run hr' h) hev
  exact ⟨hfirst, hev.trans hfirst.symm⟩

end Evictions

/-! ## Twins -/

theorem Call.action_of_change {c : Call} {now : ℤ} {args : List Bytes} {a : Action}
    (h : c.change now args = .act a) : c.action now args = some a := by
  unfold Call.change at h
  split at h
  · next b hb => rw [hb, Change.act.inj h]
  · split_ifs at h

/-- The same event at the same time, whatever the disks and the timers. -/
inductive Event.Same : Event → Event → Prop
  | connect (fd : ℤ) : Same (.connect fd) (.connect fd)
  | disconnect (fd : ℤ) : Same (.disconnect fd) (.disconnect fd)
  | command {env env' : Env} (hnow : env'.now = env.now) (fd : ℤ) (args : List Bytes) :
    Same (.command env fd args) (.command env' fd args)

/-- The command neither looks at the memory nor lists the fields of a hash. -/
def Event.Told : Event → Prop
  | .command _ _ args => callOf args ≠ .hgetall ∧ callOf args ≠ .memstats
  | _ => True

/-- The keys of the two servers hold the same, and their clients did the same about the channels. -/
structure Twins (before before' : List Event) (s s' : Server) : Prop where
  tracks : Tracks before s
  tracks' : Tracks before' s'
  moves : ∀ fd, DrutaDB.moves before' fd = DrutaDB.moves before fd
  opens : ∀ fd, isOpen before' fd = isOpen before fd
  store : ∃ r : Recency, s.store = r.toStore
  store' : ∃ q : Recency, s'.store = q.toStore
  values : ∀ key, SameValue (s.store.value key) (s'.store.value key)

namespace Twins

variable {before before' : List Event} {s s' t t' : Server} {env env' : Env} {fd : ℤ}
  {args : List Bytes} {e e' : Event}

theorem channels (h : Twins before before' s s') (fd : ℤ) :
    (s'.client fd).subscribedChannels = (s.client fd).subscribedChannels := by
  refine Std.ExtTreeSet.ext_mem fun channel => ?_
  rw [h.tracks'.follows fd channel, h.tracks.follows fd channel, h.moves]

theorem subscribers (h : Twins before before' s s') (channel : Bytes) :
    s'.subscribers channel = s.subscribers channel := by
  refine Std.ExtTreeSet.ext_mem fun fd => ?_
  rw [h.tracks'.mem_iff, h.tracks.mem_iff, h.channels]

theorem turnedAway_eq (h : Twins before before' s s') (fd : ℤ) (cmd : Bytes) :
    turnedAway s' fd cmd = turnedAway s fd cmd := by
  have hsub : (s'.client fd).isSubscriber = (s.client fd).isSubscriber := by
    rw [Bool.eq_iff_iff, h.tracks'.isSubscriber_iff, h.tracks.isSubscriber_iff, h.channels]
  rw [turnedAway, turnedAway, hsub]

/-- A command that works on no key. -/
theorem sends_none (h : Twins before before' s s') {now : ℤ} {cmd : Bytes} {o o' : Sends × Bool}
    (ha : (callOf args).action now args = none)
    (hr : (callOf args).run now fd cmd args (s.ensureClient fd) = .ok (o, t))
    (hr' : (callOf args).run now fd cmd args (s'.ensureClient fd) = .ok (o', t')) : o.1 = o'.1 := by
  have hchannels : ((s'.ensureClient fd).client fd).subscribedChannels =
      ((s.ensureClient fd).client fd).subscribedChannels := by
    rw [client_ensureClient, client_ensureClient, h.channels]
  rcases hcall : callOf args <;> rw [hcall] at ha hr hr' <;>
    simp only [Call.action, reduceCtorEq] at ha
  case flushdb =>
    have hflush := Except.ok.inj hr
    have hflush' := Except.ok.inj hr'
    unfold commandFlushdb at hflush hflush'
    split_ifs at hflush hflush'
    · rw [← (Prod.mk.inj hflush).1, ← (Prod.mk.inj hflush').1]
    · rw [← (Prod.mk.inj hflush).1, ← (Prod.mk.inj hflush').1]
  case subscribe =>
    rw [← (Prod.mk.inj (Except.ok.inj hr)).1, ← (Prod.mk.inj (Except.ok.inj hr')).1]
    exact congrArg (sendTo fd) (subscribeLoop_reply _ hchannels).symm
  case unsubscribe =>
    rw [← (Prod.mk.inj (Except.ok.inj hr)).1, ← (Prod.mk.inj (Except.ok.inj hr')).1]
    exact congrArg (sendTo fd) (pubsubUnsubscribe_reply hchannels).symm
  case publish =>
    have hi : Indexed (s.ensureClient fd) := h.tracks.setClient rfl rfl
    have hi' : Indexed (s'.ensureClient fd) := h.tracks'.setClient rfl rfl
    have hsize := (of_route (by decide) hcall).2
    obtain ⟨hcount, hsends, -⟩ := hi.pubsubPublish_eq args hsize
    obtain ⟨hcount', hsends', -⟩ := hi'.pubsubPublish_eq args hsize
    have hout := congrArg (fun p => p.1.1) (Except.ok.inj hr)
    have hout' := congrArg (fun p => p.1.1) (Except.ok.inj hr')
    simp only [commandPublish] at hout hout'
    rw [← hout, ← hout', hcount, hcount', hsends, hsends']
    simp only [Server.ensureClient, Server.subscribers_setClient, h.subscribers]
  all_goals rw [← (Prod.mk.inj (Except.ok.inj hr)).1, ← (Prod.mk.inj (Except.ok.inj hr')).1]

/-- A command sends the same from both servers. -/
theorem sends (h : Twins before before' s s') (hnow : env'.now = env.now)
    (hhgetall : callOf args ≠ .hgetall) (hmemstats : callOf args ≠ .memstats)
    (hs : s.step (.command env fd args) = .ok t) (hs' : s'.step (.command env' fd args) = .ok t') :
    (handleCommand env fd args s).1 = (handleCommand env' fd args s').1 := by
  rcases ht : turnedAway s fd (toUpper (args.headD [])) with _ | _
  · obtain ⟨o, u, hrun, hsends⟩ := run_of_step ht hs
    obtain ⟨o', u', hrun', hsends'⟩ := run_of_step ((h.turnedAway_eq _ _).trans ht) hs'
    rw [hsends, hsends']
    rw [hnow] at hrun'
    rcases ha : (callOf args).action env.now args with _ | a
    · exact h.sends_none ha hrun hrun'
    obtain ⟨r, hr⟩ := h.store
    obtain ⟨q, hq⟩ := h.store'
    rw [Call.run_action r env.now args ha fd _ (s := s.ensureClient fd) hr] at hrun
    rw [Call.run_action q env.now args ha fd _ (s := s'.ensureClient fd) hq] at hrun'
    rcases hra : a.run r with f | ⟨⟨b, ok⟩, r'⟩ <;> rw [hra] at hrun
    · cases hrun
    rcases hqa : a.run q with f | ⟨⟨b', ok'⟩, q'⟩ <;> rw [hqa] at hrun'
    · cases hrun'
    rw [← (Prod.mk.inj (Except.ok.inj hrun)).1, ← (Prod.mk.inj (Except.ok.inj hrun')).1]
    refine congrArg (sendTo fd) (reply_same (fun key => ?_) ha hhgetall hmemstats hra hqa)
    have hvalue := h.values key
    rwa [hr, hq, value_toStore, value_toStore] at hvalue
  · rcases args with _ | ⟨a, as⟩
    · cases hs
    have hsent : ∀ {env : Env} {u : Server}, turnedAway u fd (toUpper a) = true →
        (handleCommand env fd (a :: as) u).1 = sendTo fd subscriberMode := fun hu => by
      simp only [handleCommand, turnedAway_ensureClient, if_pos hu]
    have ht' : turnedAway s' fd (toUpper a) = true := (h.turnedAway_eq _ _).trans ht
    rw [hsent ht, hsent ht']

/-- Values that are the same stay so. -/
theorem cell_same {o o' : Option DrutaValue} (ho : SameValue o o') (e : Event) (key : Bytes) :
    SameValue ((changeOf before e).cell key o) ((changeOf before e).cell key o') := by
  rcases hc : changeOf before e with _ | _ | a
  · exact ho
  · exact .none
  rcases a with ⟨k, f⟩ | m | keys
  · rcases e with fd | fd | ⟨env, fd, args⟩
    · cases hc
    · cases hc
    have ha : (callOf args).action env.now args = some (.access k f) := by
      simp only [changeOf] at hc
      split_ifs at hc
      exact Call.action_of_change hc
    simp only [Change.cell]
    split_ifs
    · exact (agrees_of_action ho ha).2
    · exact ho
  · exact ho
  · simp only [Change.cell]
    split_ifs
    · exact .none
    · exact ho

theorem changeOf_eq (h : Twins before before' s s') (hsame : e.Same e') :
    changeOf before' e' = changeOf before e := by
  cases hsame with
  | connect fd => rfl
  | disconnect fd => rfl
  | command hnow fd args => simp only [changeOf, h.moves, hnow]

theorem follows (h : Twins before before' s s') (hsame : e.Same e') (he : e.Follows before) :
    e'.Follows before' := by
  cases hsame with
  | connect fd => exact ⟨he.1, (h.opens fd).trans he.2⟩
  | disconnect fd => exact (h.opens fd).trans he
  | command hnow fd args => exact he.imp_left (h.opens fd).trans

/-- One event each. -/
theorem step (h : Twins before before' s s') (hsame : e.Same e') (htold : e.Told)
    (he : e.Follows before) (hopen : isOpen before (-1) = false) (hs : s.step e = .ok t)
    (hs' : s'.step e' = .ok t') (hev : t.store.evicted = s.store.evicted)
    (hev' : t'.store.evicted = s'.store.evicted) :
    Twins (before ++ [e]) (before' ++ [e']) t t' ∧ e'.sends s' = e.sends s := by
  obtain ⟨r, hr⟩ := h.store
  obtain ⟨q, hq⟩ := h.store'
  obtain ⟨r', hr', -⟩ := step_took hr hs
  obtain ⟨q', hq', -⟩ := step_took hq hs'
  have hvalues : ∀ key, SameValue (t.store.value key) (t'.store.value key) := by
    obtain ⟨gone, hgone, hcell⟩ := step_cell hr hs
    obtain ⟨gone', hgone', hcell'⟩ := step_cell hq hs'
    obtain rfl : gone = [] := List.append_right_eq_self.1 (hgone.symm.trans hev)
    obtain rfl : gone' = [] := List.append_right_eq_self.1 (hgone'.symm.trans hev')
    intro key
    rw [hcell, hcell', if_neg List.not_mem_nil, if_neg List.not_mem_nil, change_eq h.tracks e,
      change_eq h.tracks' e', h.changeOf_eq hsame]
    exact cell_same (h.values key) e key
  have htracks := h.tracks.step he hopen hs
  have htracks' := h.tracks'.step (h.follows hsame he) ((h.opens _).trans hopen) hs'
  refine ⟨⟨htracks, htracks', fun fd => ?_, fun fd => ?_, ⟨r', hr'⟩, ⟨q', hq'⟩, hvalues⟩, ?_⟩
  · rw [moves_snoc, moves_snoc]
    cases hsame <;> simp only [h.moves]
  · rw [isOpen_snoc, isOpen_snoc]
    cases hsame <;> simp only [h.opens]
  · cases hsame with
    | connect fd => rfl
    | disconnect fd => rfl
    | command hnow fd args => exact (h.sends hnow htold.1 htold.2 hs hs').symm

/-- One run each. -/
theorem run_on {events events' : List Event} (h : Twins before before' s s')
    (hsame : List.Forall₂ Event.Same events events') :
    (∀ e ∈ events, e.Told) → Orderly (before ++ events) → run Server.step s events = .ok t →
      run Server.step s' events' = .ok t' → t.store.evicted = s.store.evicted →
        t'.store.evicted = s'.store.evicted →
          sendsOf s' events' = sendsOf s events ∧
            ∀ key, SameValue (t.store.value key) (t'.store.value key) := by
  induction hsame generalizing before before' s s' with
  | nil =>
    intro _ _ ht ht' _ _
    obtain rfl := Except.ok.inj ht
    obtain rfl := Except.ok.inj ht'
    exact ⟨rfl, h.values⟩
  | @cons e e' events events' hsame _ ih =>
    intro htold ho ht ht' hev hev'
    obtain ⟨u, hu, hrun⟩ := run_cons ht
    obtain ⟨u', hu', hrun'⟩ := run_cons ht'
    obtain ⟨r, hr⟩ := h.store
    obtain ⟨q, hq⟩ := h.store'
    obtain ⟨hfirst, hrest⟩ := evicted_run_cons hr hu hrun hev
    obtain ⟨hfirst', hrest'⟩ := evicted_run_cons hq hu' hrun' hev'
    have hopen : isOpen before (-1) = false :=
      isOpen_replay fun us d hd => ho us d (hd.trans (List.prefix_append _ _))
    have he : e.Follows before := ho before e ⟨events, by simp⟩
    obtain ⟨hnext, hsends⟩ :=
      h.step hsame (htold e List.mem_cons_self) he hopen hu hu' hfirst hfirst'
    rw [List.append_cons] at ho
    obtain ⟨hrests, hvalues⟩ := ih hnext (fun d hd => htold d (List.mem_cons_of_mem _ hd)) ho hrun
      hrun' hrest hrest'
    refine ⟨?_, hvalues⟩
    simp only [sendsOf, hu, hu', hsends, hrests]

end Twins

/-- Two servers whose keys hold the same and whose clients did the same about the channels send the
same from there on, and their keys go on holding the same, as long as neither evicts a key. -/
theorem run_twins {before before' events events' : List Event} {s s' t t' : Server}
    (ho : Orderly (before ++ events)) (ho' : Orderly before')
    (hs : run Server.step {} before = .ok s) (hs' : run Server.step {} before' = .ok s')
    (hmoves : ∀ fd, moves before' fd = moves before fd)
    (hopens : ∀ fd, isOpen before' fd = isOpen before fd)
    (hvalues : ∀ key, SameValue (s.store.value key) (s'.store.value key))
    (hsame : List.Forall₂ Event.Same events events') (htold : ∀ e ∈ events, e.Told)
    (ht : run Server.step s events = .ok t) (ht' : run Server.step s' events' = .ok t')
    (hev : t.store.evicted = s.store.evicted) (hev' : t'.store.evicted = s'.store.evicted) :
    sendsOf s' events' = sendsOf s events ∧
      ∀ key, SameValue (t.store.value key) (t'.store.value key) := by
  have hbefore : Orderly before := fun us d hd => ho us d (hd.trans (List.prefix_append _ _))
  have htwins : Twins before before' s s' :=
    ⟨run_tracks hbefore hs, run_tracks ho' hs', hmoves, hopens, exists_store hs, exists_store hs',
      hvalues⟩
  exact htwins.run_on hsame htold ho ht ht' hev hev'

/-- The list with one string. -/
def withOne : Recency := Recency.initial.add (ascii "k") (.ofString (ascii "v") 0)

theorem find_withOne (key : Bytes) :
    withOne.find key = if key = ascii "k" then some (.ofString (ascii "v") 0) else none := by
  have hadd : withOne.nodes = Recency.initial.nodes.push (ascii "k") (.ofString (ascii "v") 0) :=
    rfl
  rw [Recency.find, hadd, RecencyList.find_push]
  rfl

theorem withOne_same (key : Bytes) :
    SameValue (withOne.toStore.value key) (withOne.toStore.value key) := by
  rw [value_toStore, find_withOne]
  split_ifs
  · exact sameValue_some (.string _)
  · exact .none

/-- A connection that reads a key. -/
theorem exists_read {s : Server} (hs : s.store = withOne.toStore) : ∃ t, run Server.step s
    [.connect 5, .command {} 5 [ascii "GET", ascii "k"]] = .ok t ∧
      t.store.evicted = s.store.evicted := by
  have hfind : withOne.find (ascii "k") = some (.ofString (ascii "v") 0) := by
    rw [find_withOne, if_pos rfl]
  have hconnected : (s.setClient 5 {}).store = withOne.toStore := hs
  have hstep := step_formatted (s := s.setClient 5 {}) {} 5 [ascii "GET", ascii "k"] hconnected
    (by rw [Server.client_setClient, if_pos rfl]) rfl (run_get hfind) (by decide) (by decide)
    (formatRespCommand_eq (by decide))
  exact ⟨_, (run_cons_ok rfl _).trans (run_cons_ok hstep []), by rw [hs]; rfl⟩

/-- Two servers on which a key was set at different times. -/
theorem run_twins_read : ∃ s s' t t', run Server.step {}
      [.connect 4, .command { now := 0 } 4 [ascii "SET", ascii "k", ascii "v"]] = .ok s ∧
    run Server.step {}
      [.connect 4, .command { now := 5 } 4 [ascii "SET", ascii "k", ascii "v"]] = .ok s' ∧
    run Server.step s [.connect 5, .command {} 5 [ascii "GET", ascii "k"]] = .ok t ∧
    run Server.step s' [.connect 5, .command {} 5 [ascii "GET", ascii "k"]] = .ok t' ∧
    sendsOf s' [.connect 5, .command {} 5 [ascii "GET", ascii "k"]] =
      sendsOf s [.connect 5, .command {} 5 [ascii "GET", ascii "k"]] ∧
    ∀ key, SameValue (t.store.value key) (t'.store.value key) := by
  obtain ⟨s, hs, ho, hserves⟩ := exists_run_connected 0
  obtain ⟨s', hs', ho', hserves'⟩ := exists_run_connected 5
  obtain ⟨t, ht, hev⟩ := exists_read hserves.store
  obtain ⟨t', ht', hev'⟩ := exists_read hserves'.store
  have hread : Orderly [.connect 4, .command { now := 0 } 4 [ascii "SET", ascii "k", ascii "v"],
      .connect 5, .command {} 5 [ascii "GET", ascii "k"]] :=
    orderly_snoc [_, _, _] _ (orderly_snoc [_, _] _ ho ⟨by decide, by decide⟩) (.inl rfl)
  refine ⟨s, s', t, t', hs, hs', ht, ht', run_twins hread ho' hs hs' (fun fd => rfl) (fun fd => rfl)
    (fun key => ?_) (.cons (.connect 5) (.cons (.command rfl 5 _) .nil)) (fun e he => ?_) ht ht' hev
    hev'⟩
  · rw [hserves.store, hserves'.store]
    exact withOne_same key
  · simp only [List.mem_cons, List.not_mem_nil, or_false] at he
    rcases he with rfl | rfl
    · trivial
    · exact ⟨by decide, by decide⟩

/-! ## Restarts -/

section Restarts

variable {now : ℤ} {env : Env} {events : List Event} {s s' : Server} {o o' : Option DrutaValue}
  {cs : List (List Bytes)} {fd : ℤ}

/-- A connection that is closed listens to nothing. -/
theorem moves_of_closed (ho : Orderly events) (h : isOpen events fd = false) :
    moves events fd = [] := by
  induction events using List.reverseRecOn with
  | nil => rfl
  | append_singleton events e ih =>
    have hpre : Orderly events := fun pre d hd => ho pre d (hd.trans (List.prefix_append _ _))
    have he := ho events e List.prefix_rfl
    rw [isOpen_snoc] at h
    rw [moves_snoc]
    rcases e with fd' | fd' | ⟨env, fd', args⟩
    · obtain ⟨hclosed, hne⟩ := Bool.or_eq_false_iff.1 h
      simpa [of_decide_eq_false hne] using ih hpre hclosed
    · dsimp only
      split_ifs with hfd
      · rfl
      · refine ih hpre ?_
        rcases Bool.and_eq_false_iff.1 h with hclosed | heq
        · exact hclosed
        · exact absurd (not_not.1 (of_decide_eq_false heq)) hfd
    · dsimp only at h ⊢
      split_ifs with hfd
      · subst hfd
        rcases he with hopen | ⟨-, hlogs⟩
        · rw [h] at hopen
          cases hopen
        · rw [ih hpre h, movesOf_of_logs _ hlogs, List.append_nil]
      · exact ih hpre h

/-- A command that works on the store is no move. -/
theorem movesOf_of_action {args : List Bytes} (ms : List Move)
    (h : ((callOf args).action now args).isSome) : movesOf ms args = [] := by
  unfold movesOf
  rcases hc : callOf args <;> rw [hc] at h <;> first | rfl | cases h

/-- The replay opens no connection and listens to nothing. -/
theorem Tracks.replayed : ∀ {cs : List (List Bytes)} {s : Server}, Tracks [] s →
    (∀ c ∈ cs, Loggable c) → handleAll env (-1) cs s = .ok s' → Tracks [] s'
  | [], s, hs, _, h => Except.ok.inj h ▸ hs
  | args :: cs, s, hs, hl, h => by
    unfold handleAll at h
    rcases hstep : (handleCommand env (-1) args s).2 with f | u <;> rw [hstep] at h
    · cases h
    refine Tracks.replayed (s := u) ⟨hs.toConnected.replayed hstep, fun fd => ?_, rfl⟩
      (fun c hc => hl c (List.mem_cons_of_mem _ hc)) h
    by_cases hfd : -1 = fd
    · subst hfd
      have hfollows := handleCommand_follows (hs.follows (-1)) hstep
      rwa [movesOf_of_action _ ((hl args List.mem_cons_self).2 0), List.append_nil] at hfollows
    · rw [client_handleCommand hfd hstep]
      exact hs.follows fd

theorem tracks_file (file : Bytes) : Tracks [] { aof := file } :=
  ⟨connected_file file, fun _ channel =>
    iff_of_false Std.ExtTreeSet.not_mem_empty (not_listening_nil channel), rfl⟩

theorem Tracks.congr (h : Tracks events s) (hs : SameMaps s s') : Tracks events s' := by
  refine ⟨h.toConnected.congr hs, fun fd => ?_, h.replay⟩
  rw [hs.client]
  exact h.follows fd

/-- The file of a server of a run brings its values back. -/
theorem run_durable_file (hm : Meets Server.step Recoverable {} events)
    (h : run Server.step {} events = .ok s) (hev : s.store.evicted = []) :
    ∃ r cs, Durable now s r cs := by
  have hrun := run_invariant (I := fun s => (∃ r : Recency, s.store = r.toStore) ∧
    (s.store.evicted = [] → ∃ r cs, Durable now s r cs)) (fun s e t hs he hstep => ?_) ?_ hm h
  · exact hrun.2 hev
  · obtain ⟨⟨r, hr⟩, hd⟩ := hs
    obtain ⟨r', hr', -⟩ := step_took hr hstep
    refine ⟨⟨r', hr'⟩, fun hev => ?_⟩
    obtain ⟨gone, hgone, -⟩ := step_cell hr hstep
    rw [hgone, List.append_eq_nil_iff] at hev
    obtain ⟨r₁, cs, hd⟩ := hd hev.1
    obtain ⟨r₂, cs', hd', -⟩ := hd.step he hstep (by rw [hgone, hev.1, hev.2]; rfl)
    exact ⟨r₂, cs', hd'⟩
  · exact ⟨⟨.initial, rfl⟩, fun _ => ⟨.initial, [], ⟨rfl, rfl, by simp⟩, rfl, sound_initial,
      fun _ => ⟨.initial, rfl, fun _ => .missing⟩⟩⟩

/-- Paired values are the same, where nothing is empty. -/
theorem Paired.sameValue (h : Paired 0 o o') (hzero : ∀ v, o = some v → v.expiryTime = 0)
    (hfull : ∀ v, o = some v → v.data.isEmpty = false) : SameValue o o' := by
  cases h with
  | missing => exact .none
  | same e m m' hdata hd => exact sameValue_some hdata
  | @gone v hgone hd =>
    have hkind := hfull v rfl
    have hexpiry := hzero v rfl
    simp [DrutaValue.stays, DrutaValue.expired, hexpiry, hkind] at hgone

/-- What is started from the file of a server of a run holds the same. -/
theorem Twins.restart {calls : List (List Bytes)} (ho : Orderly events)
    (hs : run Server.step {} events = .ok s) (hclosed : ∀ fd, isOpen events fd = false)
    (hm : Meets Server.step Recoverable {} events) (hev : s.store.evicted = [])
    (hfull : ∀ key v, s.store.value key = some v → v.data.isEmpty = false)
    (hlen : s.aof.length < 2 ^ 31) (hcalls : (replayCalls s.aof).1 = calls)
    (hkeeps : KeepsReplay env.now calls .initial) (hs' : replayAof env { aof := s.aof } = .ok s') :
    Twins events [] s s' := by
  obtain ⟨r, cs, hd⟩ : ∃ r cs, Durable env.now s r cs := run_durable_file hm hs hev
  rw [hd.aof] at hlen
  have hread := replayCalls_log (fun c hc => deliverable_of_length (hd.loggable c hc).1
    ((length_le_flatMap hc).trans_lt hlen)) hlen
  rw [hd.aof, hread] at hcalls
  subst hcalls
  obtain ⟨q, hq, hpaired⟩ := hd.mends hkeeps
  obtain ⟨u, hu, hmaps, hstore⟩ := replayAof_ok hs'
  obtain ⟨v, hv, hvstore⟩ := replayCommands_log env hd.loggable hlen hq
  rw [hd.aof] at hu
  obtain rfl := Except.ok.inj (hu.symm.trans hv)
  have htracks : Tracks [] u := by
    unfold replayCommands at hu
    rw [hread] at hu
    rcases hall : handleAll env (-1) cs { aof := cs.flatMap respCommand } with f | w <;>
      rw [hall] at hu
    · cases hu
    · obtain rfl := Except.ok.inj hu
      exact (tracks_file _).replayed hd.loggable hall
  refine ⟨run_tracks ho hs, htracks.congr hmaps, fun fd => (moves_of_closed ho (hclosed fd)).symm,
    fun fd => (hclosed fd).symm, exists_store hs, ⟨q, hstore.trans hvstore⟩, fun key => ?_⟩
  have hvalue : s.store.value key = r.find key := by rw [hd.store, value_toStore]
  rw [hstore, hvstore, hvalue, value_toStore]
  refine (hpaired key).sameValue (fun v hv => (hd.sound key v hv).1.expiryTime) fun v hv => ?_
  exact hfull key v (hvalue.trans hv)

/-- A server that is started again from its file sends what it would have sent if it had gone on. -/
theorem restart_untold {before events events' : List Event} {t t' : Server}
    {calls : List (List Bytes)} (ho : Orderly (before ++ events))
    (hs : run Server.step {} before = .ok s) (hclosed : ∀ fd, isOpen before fd = false)
    (hm : Meets Server.step Recoverable {} before) (hnone : s.store.evicted = [])
    (hfull : ∀ key v, s.store.value key = some v → v.data.isEmpty = false)
    (hlen : s.aof.length < 2 ^ 31) (hcalls : (replayCalls s.aof).1 = calls)
    (hkeeps : KeepsReplay env.now calls .initial) (hs' : replayAof env { aof := s.aof } = .ok s')
    (hsame : List.Forall₂ Event.Same events events') (htold : ∀ e ∈ events, e.Told)
    (ht : run Server.step s events = .ok t) (ht' : run Server.step s' events' = .ok t')
    (hev : t.store.evicted = []) (hev' : t'.store.evicted = s'.store.evicted) :
    sendsOf s' events' = sendsOf s events ∧
      ∀ key, SameValue (t.store.value key) (t'.store.value key) := by
  have hbefore : Orderly before := fun us d hd => ho us d (hd.trans (List.prefix_append _ _))
  have htwins := Twins.restart hbefore hs hclosed hm hnone hfull hlen hcalls hkeeps hs'
  exact htwins.run_on hsame htold ho ht ht' (hev.trans hnone.symm) hev'

/-- The replay of a command that succeeds. -/
theorem handleCommand_replayed {r r' : Recency} {args : List Bytes} {a : Action} {reply : Bytes}
    {ok : Bool} (hs : s.store = r.toStore) (hsub : (s.client (-1)).isSubscriber = false)
    (hne : args ≠ []) (ha : (callOf args).action env.now args = some a)
    (hrun : a.run r = .ok ((reply, ok), r')) :
    ∃ t, (handleCommand env (-1) args s).2 = .ok t ∧ t.store = r'.toStore ∧ t.aof = s.aof := by
  rcases args with _ | ⟨b, bs⟩
  · exact absurd rfl hne
  have hcall : route (toUpper b) (b :: bs).length = callOf (b :: bs) := rfl
  have ht : ¬ turnedAway s (-1) (toUpper b) = true := by simp [turnedAway, hsub]
  simp only [handleCommand, turnedAway_ensureClient, if_neg ht, hcall,
    Call.run_action r env.now (b :: bs) ha (-1) (toUpper b) (s := s.ensureClient (-1)) hs, hrun]
  exact ⟨_, rfl, rfl, rfl⟩

/-- The end of a connection. -/
theorem Serves.disconnect {r : Recency} (h : Serves s r cs) (fd : ℤ) :
    ∃ t, s.step (.disconnect fd) = .ok t ∧ Serves t r cs := by
  obtain ⟨hstore, haof, hrewrites⟩ := pubsubCleanupClient_data fd s
  refine ⟨_, rfl, ⟨hstore.trans h.store, haof.trans h.aof, h.loggable⟩, hrewrites.trans h.rewrites,
    fun fd' => ?_⟩
  rw [client_disconnect]
  split_ifs
  · rfl
  · exact h.normal fd'

/-- A key that is read after a restart. -/
theorem restart_untold_read : ∃ s s' t t', run Server.step {}
      [.connect 4, .command { now := 0 } 4 [ascii "SET", ascii "k", ascii "v"], .disconnect 4] =
        .ok s ∧
    replayAof {} { aof := s.aof } = .ok s' ∧
    run Server.step s [.connect 5, .command {} 5 [ascii "GET", ascii "k"]] = .ok t ∧
    run Server.step s' [.connect 5, .command {} 5 [ascii "GET", ascii "k"]] = .ok t' ∧
    sendsOf s' [.connect 5, .command {} 5 [ascii "GET", ascii "k"]] =
      sendsOf s [.connect 5, .command {} 5 [ascii "GET", ascii "k"]] ∧
    ∀ key, SameValue (t.store.value key) (t'.store.value key) := by
  obtain ⟨u, hu, ho, hset⟩ := exists_run_connected 0
  obtain ⟨s, hdisconnect, hserves⟩ := hset.disconnect 4
  have hs : run Server.step {} [.connect 4,
      .command { now := 0 } 4 [ascii "SET", ascii "k", ascii "v"], .disconnect 4] = .ok s :=
    (run_append [_, _] [_] hu).trans ((run_cons_ok hdisconnect []).trans rfl)
  have hlen : s.aof.length < 2 ^ 31 := by
    rw [hserves.aof]
    decide
  have hread : replayCalls s.aof = ([[ascii "SET", ascii "k", ascii "v"]], .ok {}) := by
    rw [hserves.aof] at hlen ⊢
    exact replayCalls_log (fun c hc => deliverable_of_length (hserves.loggable c hc).1
      ((length_le_flatMap hc).trans_lt hlen)) hlen
  obtain ⟨s', hs', hstore'⟩ : ∃ s', replayAof {} { aof := s.aof } = .ok s' ∧
      s'.store = withOne.toStore := by
    obtain ⟨w, hw, hstore, haof⟩ : ∃ w, (handleCommand {} (-1)
        [ascii "SET", ascii "k", ascii "v"] { aof := s.aof }).2 = .ok w ∧
          w.store = withOne.toStore ∧ w.aof = s.aof :=
      handleCommand_replayed (r := .initial) rfl (by simp [Server.client]) (List.cons_ne_nil _ _) rfl
        (run_set rfl 0)
    have hreplay : replayCommands {} { aof := s.aof } = .ok w := by
      unfold replayCommands
      rw [hread]
      simp only [handleAll, hw]
      rfl
    have hsmall : ¬ rewriteThreshold < w.aof.length := by
      rw [haof, hserves.aof]
      decide
    refine ⟨{ w with lastRewriteSize := w.aof.length }, ?_, hstore⟩
    unfold replayAof
    rw [hreplay]
    exact if_neg hsmall
  obtain ⟨t, ht, hev⟩ := exists_read hserves.store
  obtain ⟨t', ht', hev'⟩ := exists_read hstore'
  have hread' : Orderly [.connect 4, .command { now := 0 } 4 [ascii "SET", ascii "k", ascii "v"],
      .disconnect 4, .connect 5, .command {} 5 [ascii "GET", ascii "k"]] :=
    orderly_snoc [_, _, _, _] _ (orderly_snoc [_, _, _] _ (orderly_snoc [_, _] _ ho rfl)
      ⟨by decide, by decide⟩) (.inl rfl)
  have hnone : s.store.evicted = [] := by
    rw [hserves.store]
    rfl
  refine ⟨s, s', t, t', hs, hs', ht, ht', restart_untold hread' hs (fun fd => ?_) ?_ hnone
    (fun key v hv => ?_) hlen (congrArg Prod.fst hread) ⟨by decide, trivial⟩ hs'
    (.cons (.connect 5) (.cons (.command rfl 5 _) .nil)) (fun e he => ?_) ht ht' (hev.trans hnone)
    hev'⟩
  · simp [isOpen]
  · refine Meets.of_mem fun e he s => ?_
    simp only [List.mem_cons, List.not_mem_nil, or_false] at he
    rcases he with rfl | rfl | rfl
    · exact ⟨trivial, trivial, trivial, trivial⟩
    · have hhset : callOf [ascii "SET", ascii "k", ascii "v"] ≠ .hset := by decide
      have hfd : (4 : ℤ) ≠ -1 := by decide
      exact ⟨hfd, fun _ => by decide, fun hc => absurd hc hhset, rfl⟩
    · exact ⟨trivial, trivial, trivial, trivial⟩
  · rw [hserves.store, value_toStore] at hv
    have hone : (if key = ascii "k" then some (DrutaValue.ofString (ascii "v") 0) else none) =
      some v := (find_withOne key).symm.trans hv
    split_ifs at hone
    exact Option.some.inj hone ▸ rfl
  · simp only [List.mem_cons, List.not_mem_nil, or_false] at he
    rcases he with rfl | rfl
    · trivial
    · exact ⟨by decide, by decide⟩

end Restarts

end DrutaDB
