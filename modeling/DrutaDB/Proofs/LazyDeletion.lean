import DrutaDB.Proofs.Expiry
import DrutaDB.Proofs.Logging

/-!
# Keys that `GET` deletes

`GET` deletes an expired key and is not logged, so the replay of the log still holds the key's
last `SET`.  The replayed list holds all keys of the run, with their contents, and such strings
besides (`Rebuilds`).  They do no harm until a push or an `SADD` creates one of these keys anew,
which the replay answers with `WRONGTYPE` (`run_rebuilds`).
-/

namespace DrutaDB

open Machine Decimal Capacity Run Store

/-- Of the commands in the log that set or delete the key, the last one is a `SET`. -/
def setStands (cs : List (List Bytes)) (k : Bytes) : Bool :=
  cs.foldl (fun b c =>
    if callOf c = .set then arg c 1 = k || b
    else if callOf c = .del then k ∉ c.drop 1 && b
    else b) false

/-- The commands of the runs: `SET` with no deadline or an absolute one, `GET`, `DEL`, and the
commands that write lists and sets. -/
def Event.OnThree : Event → Prop
  | .command _ _ args =>
    callOf args ∈ [Call.set, .get, .del, .lpush, .rpush, .lpop, .rpop, .sadd, .sdel] ∧
      (callOf args = .set → ∀ opt ∈ args.drop 3,
        toUpper opt ≠ ascii "EX" ∧ toUpper opt ≠ ascii "PX")
  | _ => True

/-- A push or an `SADD` that creates its key finds no `SET` of it standing in the log. -/
def FindsNoSet (s : Server) : Event → Prop
  | .command _ fd args => callOf args ∈ [Call.lpush, .rpush, .sadd] →
      turnedAway s fd (toUpper (args.headD [])) = false → s.store.value (arg args 1) = none →
        setStands (replayCalls s.aof).1 (arg args 1) = false
  | _ => True

/-- The memory limit is not reached while the commands are replayed. -/
def KeepsReplay (now : ℤ) : List (List Bytes) → Recency → Prop
  | [], _ => True
  | args :: cs, q =>
    match (callOf args).action now args with
    | some (.access key f) =>
      (∀ u ∈ (f (q.find key)).effect.counters key q.account, u ≤ lruMaxMemory) ∧
        KeepsReplay now cs ((f (q.find key)).effect.after key q)
    | some (.delete keys) => KeepsReplay now cs (Action.deleteAll keys q).2
    | _ => KeepsReplay now cs q

/-- What a value holds, and its deadline. -/
def DrutaValue.contents (v : DrutaValue) : Data × ℤ := (v.data, v.expiryTime)

/-! ## Successful commands -/

section Success

variable {now : ℤ} {args : List Bytes} {key : Bytes} {f : Option DrutaValue → Outcome}
  {o : Option DrutaValue} {v w : DrutaValue}

/-- A command that succeeds does not fail, and leaves a value at its key. -/
theorem result_of_success (ha : (callOf args).action now args = some (.access key f))
    (h : (f o).success = true) :
    (∀ x, (f o).effect ≠ .fail x) ∧ ∃ v, (f o).effect.result o = some v := by
  obtain ⟨out, hout⟩ : ∃ out, f o = out := ⟨_, rfl⟩
  rw [hout] at h ⊢
  rcases hcall : callOf args <;> rw [hcall] at ha <;>
    simp only [Call.action, Option.some.injEq, reduceCtorEq, Action.access.injEq] at ha <;>
    obtain ⟨-, rfl⟩ := ha
  all_goals
    rcases o with _ | ⟨_ | _ | _ | _, e, m⟩ <;>
      simp only [setOutcome, getOutcome, pushOutcome, lrangeOutcome, popOutcome, llenOutcome,
        hsetOutcome, hgetOutcome, hgetallOutcome, hdelOutcome, hlenOutcome, saddOutcome,
        scardOutcome, sismemberOutcome, smembersOutcome, smismemberOutcome, sdelOutcome] at hout
  all_goals
    repeat' split at hout
  all_goals
    subst hout
    first
      | (refine ⟨fun x hx => ?_, _, rfl⟩
         cases hx
         done)
      | cases h

/-- What a logged command does depends on the contents of the value it finds, but for the
counters. -/
theorem contents_of_action (ha : (callOf args).action now args = some (.access key f))
    (hl : (callOf args).logs) (h : v.contents = w.contents) :
    (f (some v)).success = (f (some w)).success ∧
      ((f (some v)).effect.result (some v)).map DrutaValue.contents =
        ((f (some w)).effect.result (some w)).map DrutaValue.contents := by
  obtain ⟨d, e, m⟩ := v
  obtain ⟨d', e', n⟩ := w
  obtain ⟨rfl, rfl⟩ : d = d' ∧ e = e' := Prod.mk.inj h
  rcases hcall : callOf args <;> rw [hcall] at ha hl <;>
    simp only [Call.logs, Bool.false_eq_true] at hl <;>
    simp only [Call.action, Option.some.injEq, reduceCtorEq, Action.access.injEq] at ha <;>
    obtain ⟨-, rfl⟩ := ha
  all_goals
    rcases d with _ | _ | _ | _ <;>
      simp only [setOutcome, pushOutcome, popOutcome, hsetOutcome, hsetValue, hdelOutcome,
        saddOutcome, sdelOutcome]
  all_goals
    repeat' split
  all_goals
    first
      | rfl
      | exact ⟨by trivial, rfl⟩

/-- What a command creates is a string only if it is a `SET`. -/
theorem created_of_success (ha : (callOf args).action now args = some (.access key f))
    (hl : (callOf args).logs) (hc : callOf args ≠ .set) (hh : callOf args ≠ .hset)
    (h : (f none).success = true) : callOf args ∈ [Call.lpush, .rpush, .sadd] ∧
      ∀ v, (f none).effect.result none = some v → v.data.kind ≠ .string := by
  rcases hcall : callOf args <;> rw [hcall] at ha hl hc hh <;>
    simp only [Call.logs, Bool.false_eq_true] at hl <;>
    simp only [Call.action, Option.some.injEq, reduceCtorEq, Action.access.injEq] at ha <;>
    obtain ⟨-, rfl⟩ := ha
  case set => exact absurd rfl hc
  case hset => exact absurd rfl hh
  case lpop | rpop =>
    unfold popOutcome at h
    split_ifs at h
  case hdel =>
    unfold hdelOutcome at h
    split_ifs at h
  case sdel => cases h
  all_goals
    refine ⟨by simp, fun v hv => ?_⟩
    obtain rfl := Option.some.inj hv
    exact Kind.noConfusion

end Success

/-! ## The replayed list -/

section SetStands

variable {cs : List (List Bytes)} {args : List Bytes} {k : Bytes}

theorem setStands_snoc (cs : List (List Bytes)) (args : List Bytes) (k : Bytes) :
    setStands (cs ++ [args]) k = if callOf args = .set then arg args 1 = k || setStands cs k
      else if callOf args = .del then k ∉ args.drop 1 && setStands cs k else setStands cs k := by
  simp [setStands]

theorem setStands_of_ne (hset : callOf args = .set → arg args 1 ≠ k)
    (hdel : callOf args = .del → k ∉ args.drop 1) :
    setStands (cs ++ [args]) k = setStands cs k := by
  rw [setStands_snoc]
  split_ifs with h₁ h₂
  · simp [hset h₁]
  · rw [decide_eq_true (hdel h₂), Bool.true_and]
  · rfl

theorem setStands_set (hset : callOf args = .set) : setStands (cs ++ [args]) (arg args 1) := by
  rw [setStands_snoc, if_pos hset]
  simp

end SetStands

/-- The replayed list holds what the list of the run holds, and besides only strings whose `SET`
stands in the log. -/
structure Rebuilds (cs : List (List Bytes)) (r q : Recency) : Prop where
  live : ∀ k v, r.find k = some v → ∃ w, q.find k = some w ∧ v.contents = w.contents
  stands : ∀ k w, q.find k = some w → w.data.kind = .string → setStands cs k
  ghost : ∀ k w, q.find k = some w → r.find k = none → w.data.kind = .string

section Steps

variable {now : ℤ} {cs : List (List Bytes)} {r r' q : Recency} {args : List Bytes} {a : Action}
  {reply : Bytes}

/-- A value of the run is written again with the same contents. -/
theorem Rebuilds.rewrite (h : Rebuilds cs r q) {key : Bytes} {v w : DrutaValue} {e : Effect}
    (hv : r.find key = some v) (hres : e.result (some v) = some w)
    (hcont : w.contents = v.contents) : Rebuilds cs (e.after key r) q := by
  refine ⟨fun k u hu => ?_, h.stands, fun k u hu hnone => h.ghost k u hu ?_⟩
  · rw [Effect.find_after, hv, hres] at hu
    split_ifs at hu with hk
    · obtain ⟨x, hx, hxv⟩ := h.live key v hv
      obtain rfl := Option.some.inj hu
      exact ⟨x, hk ▸ hx, hcont.trans hxv⟩
    · exact h.live k u hu
  · rw [Effect.find_after, hv, hres] at hnone
    split_ifs at hnone
    exact hnone

/-- A string of the run is deleted; the replayed list keeps it. -/
theorem Rebuilds.drop (h : Rebuilds cs r q) {key : Bytes} {v : DrutaValue}
    (hv : r.find key = some v) (hkind : v.data.kind = .string) : Rebuilds cs (r.drop key) q := by
  refine ⟨fun k u hu => ?_, h.stands, fun k u hu hnone => ?_⟩
  · rw [Effect.find_drop] at hu
    split_ifs at hu
    exact h.live k u hu
  · rw [Effect.find_drop] at hnone
    split_ifs at hnone with hk
    · obtain ⟨x, hx, hxv⟩ := h.live key v hv
      obtain rfl := Option.some.inj (hx.symm.trans (hk ▸ hu))
      have hdata : v.data = x.data := congrArg Prod.fst hxv
      rw [← hdata, hkind]
    · exact h.ghost k u hu hnone

/-- A key is written on both sides, with the same contents. -/
theorem Rebuilds.put {cs' : List (List Bytes)} (h : Rebuilds cs r q) {key : Bytes} {e e' : Effect}
    {v w : DrutaValue} (hv : e.result (r.find key) = some v) (hw : e'.result (q.find key) = some w)
    (hvw : v.contents = w.contents) (hset : w.data.kind = .string → setStands cs' key)
    (hother : ∀ k, k ≠ key → setStands cs' k = setStands cs k) :
    Rebuilds cs' (e.after key r) (e'.after key q) := by
  refine ⟨fun k u hu => ?_, fun k u hu hkind => ?_, fun k u hu hnone => ?_⟩
  · rw [Effect.find_after] at hu ⊢
    split_ifs at hu ⊢ with hk
    · obtain rfl := Option.some.inj (hv.symm.trans hu)
      exact ⟨w, hw, hvw⟩
    · exact h.live k u hu
  · rw [Effect.find_after] at hu
    split_ifs at hu with hk
    · obtain rfl := Option.some.inj (hw.symm.trans hu)
      exact hk ▸ hset hkind
    · rw [hother k hk]
      exact h.stands k u hu hkind
  · rw [Effect.find_after] at hu hnone
    split_ifs at hu hnone with hk
    · rw [hv] at hnone
      cases hnone
    · exact h.ghost k u hu hnone

/-- The same keys are deleted on both sides. -/
theorem Rebuilds.deleteAll (h : Rebuilds cs r q) (hdel : callOf args = .del) :
    Rebuilds (cs ++ [args]) (Action.deleteAll (args.drop 1) r).2
      (Action.deleteAll (args.drop 1) q).2 := by
  refine ⟨fun k v hv => ?_, fun k w hw hkind => ?_, fun k w hw hnone => ?_⟩
  · rw [find_deleteAll] at hv ⊢
    split_ifs at hv ⊢
    exact h.live k v hv
  · rw [find_deleteAll] at hw
    split_ifs at hw with hk
    rw [setStands_of_ne (fun hc => by rw [hdel] at hc; cases hc) fun _ => hk]
    exact h.stands k w hw hkind
  · rw [find_deleteAll] at hw hnone
    split_ifs at hw hnone
    exact h.ghost k w hw hnone

/-- A command that is not logged leaves every value, or deletes an expired string. -/
theorem Rebuilds.unlogged (h : Rebuilds cs r q) (ha : (callOf args).action now args = some a)
    (hh : callOf args ≠ .hset) (hrun : a.run r = .ok ((reply, false), r'))
    (hev : r'.account.evicted = r.account.evicted) : Rebuilds cs r' q := by
  rcases a with ⟨key, f⟩ | m | keys
  · obtain ⟨hok, rfl⟩ := access_after ha hrun hev
    rcases unlogged_of_action ha hok.symm with ⟨x, hx⟩ | hu
    · rw [hx]
      exact h
    · generalize (f (r.find key)).effect = e at hu
      cases hu with
      | keep => exact h
      | expire ho hd he => exact h.drop ho (by rw [hd]; rfl)
      | touch ho => exact h.rewrite ho rfl rfl
      | same ho hd => exact h.rewrite ho rfl rfl
      | overwrite ho hd hcall => exact absurd hcall hh
  · exact Action.eq_of_inspect ha hrun ▸ h
  · exact Action.eq_of_delete hrun ▸ h

/-- A logged command on one key leaves the same contents there on both sides, unless it creates the
key anew and its `SET` stands. -/
theorem Rebuilds.access {f : Option DrutaValue → Outcome} (h : Rebuilds cs r q)
    (ha : (callOf args).action now args = some (.access (arg args 1) f)) (hl : (callOf args).logs)
    (hh : callOf args ≠ .hset)
    (hfinds : callOf args ∈ [Call.lpush, .rpush, .sadd] → r.find (arg args 1) = none →
      setStands cs (arg args 1) = false)
    (hok : (f (r.find (arg args 1))).success = true) :
    (∀ x, (f (q.find (arg args 1))).effect ≠ .fail x) ∧
      ∃ v w, (f (r.find (arg args 1))).effect.result (r.find (arg args 1)) = some v ∧
        (f (q.find (arg args 1))).effect.result (q.find (arg args 1)) = some w ∧
        v.contents = w.contents ∧
        (w.data.kind = .string → setStands (cs ++ [args]) (arg args 1)) := by
  have hdel : callOf args ≠ .del := fun hc => by
    rw [hc] at ha
    cases ha
  rcases hr : r.find (arg args 1) with _ | v
  · rw [hr] at hok
    rcases hq : q.find (arg args 1) with _ | w
    · obtain ⟨hfail, v, hv⟩ := result_of_success ha hok
      refine ⟨hfail, v, v, hv, hv, rfl, fun hkind => ?_⟩
      by_cases hset : callOf args = .set
      · exact setStands_set hset
      · exact absurd hkind ((created_of_success ha hl hset hh hok).2 v hv)
    · -- the replay finds a string that the run deleted
      have hstands := h.stands _ w hq (h.ghost _ w hq hr)
      have hset : callOf args = .set := by
        by_contra hset
        rw [hfinds (created_of_success ha hl hset hh hok).1 hr] at hstands
        cases hstands
      rw [hset] at ha
      simp only [Call.action, Option.some.injEq, Action.access.injEq, true_and] at ha
      subst ha
      rcases hopt : setOptions now (args.drop 3) 0 with e | e <;>
        simp only [setOutcome, hopt] at hok ⊢
      · cases hok
      · exact ⟨fun x hx => (by cases hx), _, _, rfl, rfl, rfl, fun _ => setStands_set hset⟩
  · obtain ⟨w, hq, hvw⟩ := h.live _ v hr
    rw [hr] at hok
    rw [hq]
    obtain ⟨hsuccess, hresult⟩ := contents_of_action ha hl hvw
    obtain ⟨-, v', hv'⟩ := result_of_success ha hok
    obtain ⟨hfail, w', hw'⟩ := result_of_success ha (hsuccess.symm.trans hok)
    rw [hv', hw'] at hresult
    refine ⟨hfail, v', w', hv', hw', Option.some.inj hresult, fun hkind => ?_⟩
    by_cases hset : callOf args = .set
    · exact setStands_set hset
    · obtain ⟨-, hsame⟩ := keeps_of_action ha hset hw'
      rw [setStands_of_ne (fun hc => absurd hc hset) fun hc => absurd hc hdel]
      exact h.stands _ w hq (hsame.symm.trans hkind)

/-- A logged command does the same to the replayed list, unless it creates a key anew whose `SET`
stands. -/
theorem Rebuilds.logged (h : Rebuilds cs r q) (ha : (callOf args).action now args = some a)
    (hl : (callOf args).logs) (hh : callOf args ≠ .hset)
    (hfinds : callOf args ∈ [Call.lpush, .rpush, .sadd] → r.find (arg args 1) = none →
      setStands cs (arg args 1) = false)
    (hrun : a.run r = .ok ((reply, true), r')) (hev : r'.account.evicted = r.account.evicted)
    (hkeeps : KeepsReplay now [args] q) :
    ∃ q', (a.run q).map (·.2) = .ok q' ∧ Rebuilds (cs ++ [args]) r' q' := by
  rcases a with ⟨key, f⟩ | m | keys
  · obtain rfl := key_of_action ha
    obtain ⟨hok, rfl⟩ := access_after ha hrun hev
    simp only [KeepsReplay, ha, and_true] at hkeeps
    obtain ⟨hfail, v, w, hv, hw, hvw, hset⟩ := h.access ha hl hh hfinds hok.symm
    have hother : ∀ k, k ≠ arg args 1 → setStands (cs ++ [args]) k = setStands cs k := by
      refine fun k hk => setStands_of_ne (fun _ => hk.symm) fun hc => ?_
      rw [hc] at ha
      cases ha
    exact ⟨_, by rw [Action.run_access (fits_of_action _ ha) hfail hkeeps]; rfl,
      h.put hv hw hvw hset hother⟩
  · exact absurd ha (Call.logs_ne_inspect hl)
  · obtain ⟨hdel, rfl⟩ := Call.del_of_delete ha
    simp only [Action.run] at hrun
    obtain ⟨-, rfl⟩ := Prod.mk.inj (Except.ok.inj hrun)
    exact ⟨_, rfl, h.deleteAll hdel⟩

end Steps

/-! ## Runs -/

section Absolute

/-- Without a lifetime the clock does not matter. -/
theorem setOptions_absolute (now t : ℤ) : ∀ (l : List Bytes) (e : ℤ),
    (∀ opt ∈ l, toUpper opt ≠ ascii "EX" ∧ toUpper opt ≠ ascii "PX") →
      setOptions now l e = setOptions t l e
  | [], _, _ => rfl
  | [_], _, _ => rfl
  | opt :: val :: rest, e, h => by
    rw [List.forall_mem_cons] at h
    obtain ⟨⟨hex, hpx⟩, hrest⟩ := h
    unfold setOptions
    rw [if_neg hex, if_neg hpx, if_neg hex, if_neg hpx]
    split_ifs
    · rcases stoll val with f | ms
      · rfl
      · exact setOptions_absolute now t rest ms fun o ho => hrest o (List.mem_cons_of_mem _ ho)
    · exact setOptions_absolute now t (val :: rest) e hrest

theorem action_absolute {args : List Bytes} {now t : ℤ} {a : Action}
    (h : callOf args = .set → ∀ opt ∈ args.drop 3,
      toUpper opt ≠ ascii "EX" ∧ toUpper opt ≠ ascii "PX")
    (hl : (callOf args).logs) (ha : (callOf args).action now args = some a) :
    (callOf args).action t args = some a := by
  rw [← ha]
  rcases hc : callOf args <;> rw [hc] at hl <;> simp only [Call.logs, Bool.false_eq_true] at hl <;>
    simp only [Call.action]
  have hset : setOutcome t args = setOutcome now args := by
    funext o
    unfold setOutcome
    rw [setOptions_absolute t now _ 0 (h hc)]
  rw [hset]

end Absolute

/-- The limit for the first command, and for the others after it. -/
theorem keepsReplay_cons {now : ℤ} {args : List Bytes} {cs : List (List Bytes)} {q q' : Recency}
    (h : replayOne now q args = .ok q') :
    KeepsReplay now (args :: cs) q ↔ KeepsReplay now [args] q ∧ KeepsReplay now cs q' := by
  unfold replayOne at h
  rcases ha : (callOf args).action now args with _ | ⟨key, f⟩ | m | keys <;>
    simp only [ha] at h <;> simp only [KeepsReplay, ha, and_true, true_and]
  · rw [Except.ok.inj h]
  · refine and_congr_right fun hkeeps => ?_
    by_cases hf : ∃ x, (f (q.find key)).effect = .fail x
    · obtain ⟨x, hx⟩ := hf
      simp only [Action.run, Recency.apply, hx, Recency.perform] at h
      cases h
    · rw [Action.run_access (fits_of_action _ ha) (fun x hx => hf ⟨x, hx⟩) hkeeps] at h
      rw [← Except.ok.inj h]
  · obtain ⟨b, -, hb, -⟩ := (answers_of_action ha).run q
    rw [hb] at h
    rw [← Except.ok.inj h]
  · rw [← Except.ok.inj h]

theorem keepsReplay_append {now : ℤ} {ds : List (List Bytes)} :
    ∀ {cs : List (List Bytes)} {q q' : Recency}, replayList now cs q = .ok q' →
      (KeepsReplay now (cs ++ ds) q ↔ KeepsReplay now cs q ∧ KeepsReplay now ds q')
  | [], q, q', hq => by
    obtain rfl := Except.ok.inj hq
    exact ⟨fun h => ⟨trivial, h⟩, And.right⟩
  | args :: cs, q, q', hq => by
    unfold replayList at hq
    rcases hone : replayOne now q args with x | q₁
    · rw [hone] at hq
      cases hq
    · rw [hone] at hq
      rw [List.cons_append, keepsReplay_cons hone, keepsReplay_append hq, ← and_assoc,
        ← keepsReplay_cons hone]

theorem KeepsReplay.of_append {now : ℤ} {ds : List (List Bytes)} :
    ∀ {cs : List (List Bytes)} {q : Recency}, KeepsReplay now (cs ++ ds) q → KeepsReplay now cs q
  | [], _, _ => trivial
  | args :: cs, q, h => by
    rw [List.cons_append] at h
    rcases ha : (callOf args).action now args with _ | ⟨key, f⟩ | m | keys <;>
      simp only [KeepsReplay, ha] at h ⊢
    · exact of_append h
    · exact ⟨h.1, of_append h.2⟩
    · exact of_append h
    · exact of_append h

theorem rebuilds_nil {r : Recency} (h : ∀ k, r.find k = none) : Rebuilds [] r .initial where
  live k v hv := by
    rw [h k] at hv
    cases hv
  stands k w hw := by cases hw
  ghost k w hw := by cases hw

theorem Event.OnThree.ne_hset {env : Env} {fd : ℤ} {args : List Bytes}
    (h : (Event.command env fd args).OnThree) : callOf args ≠ .hset := by
  intro hc
  have hmem := h.1
  rw [hc] at hmem
  revert hmem
  decide

/-- One step of the run, and the replay of what it logs. -/
theorem rebuilds_step {t : ℤ} {s s' : Server} {r r' : Recency} {cs cs' : List (List Bytes)}
    {e : Event} (hk : Holds s r cs) (hk' : Holds s' r' cs') (hlog : Logged r cs s e r' cs')
    (hthree : e.OnThree) (hfinds : FindsNoSet s e)
    (hev : r'.account.evicted = r.account.evicted)
    (hR : (cs.flatMap respCommand).length < 2 ^ 31 → KeepsReplay t cs .initial →
      ∃ q, replayList t cs .initial = .ok q ∧ Rebuilds cs r q)
    (hlen : (cs'.flatMap respCommand).length < 2 ^ 31) (hkeeps : KeepsReplay t cs' .initial) :
    ∃ q, replayList t cs' .initial = .ok q ∧ Rebuilds cs' r' q := by
  cases hlog with
  | quiet _ => exact hR hlen hkeeps
  | flush _ => exact ⟨.initial, rfl, rebuilds_nil fun _ => rfl⟩
  | unlogged hc hrun =>
    obtain ⟨q, hq, hreb⟩ := hR hlen hkeeps
    exact ⟨q, hq, hreb.unlogged (action_of_change hc) hthree.ne_hset hrun hev⟩
  | @logged env fd args a reply _ hc hrun =>
    have hshort : (cs.flatMap respCommand).length < 2 ^ 31 := by
      rw [List.flatMap_append, List.length_append] at hlen
      omega
    have hcalls : (replayCalls s.aof).1 = cs := by
      rw [hk.aof, replayCalls_log (fun c hc => deliverable_of_length (hk.loggable c hc).1
        ((length_le_flatMap hc).trans_lt hshort)) hshort]
    have hl : (callOf args).logs := logs_of_success (action_of_change hc) hrun
    have ha : (callOf args).action t args = some a :=
      action_absolute hthree.2 hl (action_of_change hc)
    obtain ⟨q, hq, hreb⟩ := hR hshort hkeeps.of_append
    have hlast := ((keepsReplay_append hq).1 hkeeps).2
    obtain ⟨q', hq', hreb'⟩ := hreb.logged ha hl hthree.ne_hset (fun hcall hnone => by
      rw [← hcalls]
      exact hfinds hcall (turnedAway_of_change hc) (by rwa [hk.store, value_toStore])) hrun hev
        hlast
    refine ⟨q', ?_, hreb'⟩
    rw [replayList_snoc, hq]
    exact (replayOne_eq ha q).trans hq'

/-- The log of a run rebuilds every key that is there, in a run where no push and no `SADD` creates
a key whose `SET` stands in the log. -/
theorem run_rebuilds {events : List Event} {s : Server} {env : Env} {cs : List (List Bytes)}
    (hm : Meets Server.step (fun s e => e.FromClient ∧ e.OnThree ∧ FindsNoSet s e) {} events)
    (h : run Server.step {} events = .ok s) (hrw : s.rewrites = 0) (hev : s.store.evicted = [])
    (hlen : s.aof.length < 2 ^ 31) (hcs : (replayCalls s.aof).1 = cs)
    (hkeeps : KeepsReplay env.now cs .initial) :
    ∃ s', replayCommands env { aof := s.aof } = .ok s' ∧
      ∀ k v, s.store.value k = some v → ∃ w, s'.store.value k = some w ∧ v.contents = w.contents := by
  obtain ⟨r, ds, hholds, -, hR⟩ := run_logged
    (R := fun r cs => r.account.evicted = [] ∧ ((cs.flatMap respCommand).length < 2 ^ 31 →
      KeepsReplay env.now cs .initial →
        ∃ q, replayList env.now cs .initial = .ok q ∧ Rebuilds cs r q))
    (N := (· = [])) (fun hab hb => List.prefix_nil.1 (hb ▸ hab))
    ⟨rfl, fun _ _ => ⟨.initial, rfl, rebuilds_nil fun _ => rfl⟩⟩
    (fun hk hR hC _ hk' hev hlog =>
      ⟨hev, rebuilds_step hk hk' hlog hC.1 hC.2 (hev.trans hR.1.symm) hR.2⟩)
    hm h hrw hev
  rw [hholds.aof] at hlen hcs ⊢
  rw [replayCalls_log (fun c hc => deliverable_of_length (hholds.loggable c hc).1
    ((length_le_flatMap hc).trans_lt hlen)) hlen] at hcs
  subst hcs
  obtain ⟨q, hq, hreb⟩ := hR hlen hkeeps
  obtain ⟨s', hs', hst⟩ := replayCommands_log env hholds.loggable hlen hq
  refine ⟨s', hs', fun k v hv => ?_⟩
  rw [hholds.store, value_toStore] at hv
  rw [hst, value_toStore]
  exact hreb.live k v hv

section Anew

/-- The list with a string that expires. -/
def dueSoon : Recency := Recency.initial.add (ascii "k") (.ofString (ascii "v") 5)

theorem run_due : (Action.access (ascii "k") (setOutcome 0
    [ascii "SET", ascii "k", ascii "v", ascii "PXAT", ascii "5"])).run .initial =
      .ok ((okReply, true), dueSoon) :=
  run_setOptions rfl (show setOptions 0 [ascii "PXAT", ascii "5"] 0 = .ok 5 by decide)

theorem run_get_due : (Action.access (ascii "k") (getOutcome 10)).run dueSoon =
    .ok ((nilReply, false), dueSoon.drop (ascii "k")) :=
  Action.run_access (r := dueSoon) (by rfl) (fun _ h => by cases h) (by decide)

/-- What a push on a new key makes of the list. -/
def pushed (key : Bytes) (r : Recency) : Recency :=
  (pushOutcome [ascii "RPUSH", key, ascii "x"] false none).effect.after key r

theorem run_push_anew : (Action.access (ascii "k")
    (pushOutcome [ascii "RPUSH", ascii "k", ascii "x"] false)).run (dueSoon.drop (ascii "k")) =
      .ok ((sendInteger 1, true), pushed (ascii "k") (dueSoon.drop (ascii "k"))) :=
  Action.run_access (r := dueSoon.drop (ascii "k")) (by rfl) (fun _ h => by cases h) (by decide)

theorem run_push_beside : (Action.access (ascii "l")
    (pushOutcome [ascii "RPUSH", ascii "l", ascii "x"] false)).run (dueSoon.drop (ascii "k")) =
      .ok ((sendInteger 1, true), pushed (ascii "l") (dueSoon.drop (ascii "k"))) :=
  Action.run_access (r := dueSoon.drop (ascii "k")) (by rfl) (fun _ h => by cases h) (by decide)

/-- The replay answers the push with `WRONGTYPE`. -/
theorem run_push_due : (Action.access (ascii "k")
    (pushOutcome [ascii "RPUSH", ascii "k", ascii "x"] false)).run dueSoon =
      .ok ((wrongType, false), dueSoon) :=
  Action.run_access (r := dueSoon) trivial (fun _ h => by cases h) (by decide)

end Anew

/-- A string that expires, a read that finds it expired, and a push on another key. -/
theorem run_rebuilds_beside : ∃ s s' : Server, run Server.step {}
      [.command {} 4 [ascii "SET", ascii "k", ascii "v", ascii "PXAT", ascii "5"],
        .command { now := 10 } 4 [ascii "GET", ascii "k"],
        .command { now := 10 } 4 [ascii "RPUSH", ascii "l", ascii "x"]] = .ok s ∧
    s.store.value (ascii "k") = none ∧
    (∃ v, s.store.value (ascii "l") = some v ∧ v.data = .list [ascii "x"]) ∧
    replayCommands { now := 10 } { aof := s.aof } = .ok s' ∧
    ∀ k v, s.store.value k = some v → ∃ w, s'.store.value k = some w ∧ v.contents = w.contents := by
  obtain ⟨s₁, hs₁, h₁⟩ := step_serves {} 4
    [ascii "SET", ascii "k", ascii "v", ascii "PXAT", ascii "5"] serves_initial rfl run_due
    (by decide) (by decide) (by decide)
  obtain ⟨s₂, hs₂, h₂⟩ := step_serves { now := 10 } 4 [ascii "GET", ascii "k"] h₁ rfl run_get_due
    (by decide) (by decide) (by decide)
  obtain ⟨s, hs₃, h₃⟩ := step_serves { now := 10 } 4 [ascii "RPUSH", ascii "l", ascii "x"] h₂ rfl
    run_push_beside (by decide) (by decide) (by decide)
  have hm : Meets Server.step (fun s e => e.FromClient ∧ e.OnThree ∧ FindsNoSet s e) {}
      [.command {} 4 [ascii "SET", ascii "k", ascii "v", ascii "PXAT", ascii "5"],
        .command { now := 10 } 4 [ascii "GET", ascii "k"],
        .command { now := 10 } 4 [ascii "RPUSH", ascii "l", ascii "x"]] := by
    have hfd : (4 : ℤ) ≠ -1 := by decide
    refine ⟨⟨hfd, ⟨by decide, fun _ => by decide⟩, fun hc => absurd hc (by decide)⟩,
      fun t₁ ht₁ => ?_⟩
    obtain rfl := Except.ok.inj (hs₁.symm.trans ht₁)
    refine ⟨⟨hfd, ⟨by decide, fun hc => absurd hc (by decide)⟩, fun hc => absurd hc (by decide)⟩,
      fun t₂ ht₂ => ?_⟩
    obtain rfl := Except.ok.inj (hs₂.symm.trans ht₂)
    refine ⟨⟨hfd, ⟨by decide, fun hc => absurd hc (by decide)⟩, fun _ _ _ => ?_⟩,
      fun _ _ => trivial⟩
    -- the `SET` that stands in the log is of the other key
    rw [h₂.aof]
    decide
  have hlen : s.aof.length < 2 ^ 31 := by
    rw [h₃.aof]
    decide
  have hcs : (replayCalls s.aof).1 = [[ascii "SET", ascii "k", ascii "v", ascii "PXAT", ascii "5"],
      [ascii "RPUSH", ascii "l", ascii "x"]] := by
    rw [h₃.aof]
    decide
  have hkeeps : KeepsReplay 10 [[ascii "SET", ascii "k", ascii "v", ascii "PXAT", ascii "5"],
      [ascii "RPUSH", ascii "l", ascii "x"]] .initial := ⟨by decide, by decide, trivial⟩
  have hev : s.store.evicted = [] := by
    rw [h₃.store]
    rfl
  have hrun := (run_cons_ok hs₁ _).trans ((run_cons_ok hs₂ _).trans (run_cons_ok hs₃ []))
  obtain ⟨s', hs', hall⟩ := @run_rebuilds _ s { now := 10 } _ hm hrun h₃.rewrites hev hlen hcs hkeeps
  refine ⟨s, s', hrun, ?_, ?_, hs', hall⟩
  · rw [h₃.store, value_toStore, pushed, Effect.find_after, if_neg (by decide), Effect.find_drop,
      if_pos rfl]
  · rw [h₃.store, value_toStore, pushed, Effect.find_after, if_pos rfl]
    exact ⟨_, rfl, rfl⟩

/-- A list that took the place of an expired string is the string again after a restart. -/
theorem restart_loses_list : ∃ (events : List Event) (s s' : Server) (env : Env),
    (∀ e ∈ events, e.FromClient ∧ e.OnThree) ∧ run Server.step {} events = .ok s ∧
      s.rewrites = 0 ∧ s.store.evicted = [] ∧ s.aof.length < 2 ^ 31 ∧
      KeepsReplay env.now (replayCalls s.aof).1 .initial ∧
      replayCommands env { aof := s.aof } = .ok s' ∧ ∃ k v w, s.store.value k = some v ∧
        v.data.kind = .list ∧ s'.store.value k = some w ∧ w.data.kind = .string := by
  obtain ⟨s₁, hs₁, h₁⟩ := step_serves {} 4
    [ascii "SET", ascii "k", ascii "v", ascii "PXAT", ascii "5"] serves_initial rfl run_due
    (by decide) (by decide) (by decide)
  obtain ⟨s₂, hs₂, h₂⟩ := step_serves { now := 10 } 4 [ascii "GET", ascii "k"] h₁ rfl run_get_due
    (by decide) (by decide) (by decide)
  obtain ⟨s₃, hs₃, h₃⟩ := step_serves { now := 10 } 4 [ascii "RPUSH", ascii "k", ascii "x"] h₂ rfl
    run_push_anew (by decide) (by decide) (by decide)
  have hlog : replayList 10 [[ascii "SET", ascii "k", ascii "v", ascii "PXAT", ascii "5"],
      [ascii "RPUSH", ascii "k", ascii "x"]] .initial = .ok dueSoon := by
    have hset : replayOne 10 .initial
        [ascii "SET", ascii "k", ascii "v", ascii "PXAT", ascii "5"] = .ok dueSoon := by
      rw [replayOne_eq (a := .access (ascii "k") (setOutcome 10
        [ascii "SET", ascii "k", ascii "v", ascii "PXAT", ascii "5"])) rfl,
        run_setOptions rfl (show setOptions 10 [ascii "PXAT", ascii "5"] 0 = .ok 5 by decide)]
      rfl
    have hpush : replayOne 10 dueSoon [ascii "RPUSH", ascii "k", ascii "x"] = .ok dueSoon := by
      rw [replayOne_eq (a := .access (ascii "k")
        (pushOutcome [ascii "RPUSH", ascii "k", ascii "x"] false)) rfl, run_push_due]
      rfl
    simp only [replayList, hset, hpush]
  have hlen : s₃.aof.length < 2 ^ 31 := by
    rw [h₃.aof]
    decide
  have hcs : (replayCalls s₃.aof).1 = [[ascii "SET", ascii "k", ascii "v", ascii "PXAT", ascii "5"],
      [ascii "RPUSH", ascii "k", ascii "x"]] := by
    have hlen' := hlen
    rw [h₃.aof] at hlen' ⊢
    rw [replayCalls_log (fun c hc => deliverable_of_length (h₃.loggable c hc).1
      ((length_le_flatMap hc).trans_lt hlen')) hlen']
    rfl
  obtain ⟨s', hs', hst⟩ : ∃ s', replayCommands { now := 10 } { aof := s₃.aof } = .ok s' ∧
      s'.store = dueSoon.toStore := by
    have hlen' := hlen
    rw [h₃.aof] at hlen' ⊢
    exact replayCommands_log { now := 10 } h₃.loggable hlen' hlog
  refine ⟨_, s₃, s', { now := 10 }, ?_,
    (run_cons_ok hs₁ _).trans ((run_cons_ok hs₂ _).trans (run_cons_ok hs₃ [])), h₃.rewrites, ?_,
    hlen, ?_, hs', ascii "k", ?_⟩
  · intro e he
    fin_cases he
    · exact ⟨by simp [Event.FromClient], by decide, fun _ => by decide⟩
    · exact ⟨by simp [Event.FromClient], by decide, fun hc => by revert hc; decide⟩
    · exact ⟨by simp [Event.FromClient], by decide, fun hc => by revert hc; decide⟩
  · rw [h₃.store]
    rfl
  · rw [hcs]
    exact ⟨by decide, by decide, trivial⟩
  · rw [h₃.store, hst, value_toStore, value_toStore, pushed, Effect.find_after, if_pos rfl]
    exact ⟨_, _, rfl, rfl, rfl, rfl⟩

end DrutaDB
