import DrutaDB.Proofs.Hashes
import DrutaDB.Proofs.Lifetime
import DrutaDB.Proofs.Logging

/-!
# Durability

In a run that evicts nothing, a command that is not logged leaves every value as it was, unless
it is an `HSET` that overwrites (`find_of_unlogged`); and a logged command does the same to the
replayed list as to the list of the run (`Mirrors.logged`).  So the replay rebuilds the values
(`run_durable`).
-/

namespace DrutaDB

open Machine Decimal Capacity Run Store

/-- A value without a deadline whose counters are in their type. -/
structure DrutaValue.Counted (v : DrutaValue) : Prop where
  expiryTime : v.expiryTime = 0
  set : ∀ s, v.data = .set s → v.memoryUsage < 2 ^ 64
  hash : ∀ h, v.data = .hash h → h.memoryUsage < 2 ^ 64

/-- An `HSET` that creates no field writes only values that are there. -/
def OverwritesNothing (s : Server) : Event → Prop
  | .command _ fd args => callOf args = .hset → turnedAway s fd (toUpper (args.headD [])) = false →
      args.length % 2 = 0 → ∀ v h, s.store.value (arg args 1) = some v → v.data = .hash h →
        (∃ p ∈ pairs (args.drop 2), h.getHash p.1 = none) ∨
          ∀ p ∈ pairs (args.drop 2), h.getHash p.1 = some p.2
  | _ => True

/-- What it says about the value of the key. -/
def Data.KeepsFields (args : List Bytes) : Data → Prop
  | .hash h => (∃ p ∈ pairs (args.drop 2), h.getHash p.1 = none) ∨
      ∀ p ∈ pairs (args.drop 2), h.getHash p.1 = some p.2
  | _ => True

instance (args : List Bytes) : ∀ d : Data, Decidable (d.KeepsFields args)
  | .hash _ => inferInstanceAs (Decidable (_ ∨ _))
  | .string _ => .isTrue trivial
  | .list _ => .isTrue trivial
  | .set _ => .isTrue trivial

theorem overwritesNothing_iff {s : Server} {env : Env} {fd : ℤ} {args : List Bytes} :
    OverwritesNothing s (.command env fd args) ↔ (callOf args = .hset →
      turnedAway s fd (toUpper (args.headD [])) = false → args.length % 2 = 0 →
        ∀ v ∈ s.store.value (arg args 1), v.data.KeepsFields args) := by
  refine imp_congr_right fun _ => imp_congr_right fun _ => imp_congr_right fun _ =>
    forall_congr' fun v => ?_
  rcases v with ⟨_ | _ | h | _, e, m⟩ <;> simp [Data.KeepsFields]

instance (s : Server) : ∀ e : Event, Decidable (OverwritesNothing s e)
  | .connect _ => .isTrue trivial
  | .disconnect _ => .isTrue trivial
  | .command _ _ _ => decidable_of_iff _ overwritesNothing_iff.symm

section Counted

variable {now : ℤ} {args : List Bytes} {o : Option DrutaValue} {v : DrutaValue}

theorem setOutcome_counted (hplain : Plain args) (hc : callOf args = .set)
    (ho : ∀ v, o = some v → v.Counted) (h : (setOutcome now args o).effect.result o = some v) :
    v.Counted := by
  have hopt := setOptions_plain now _ 0 (hplain hc)
  have hv : v = .ofString (arg args 2) 0 := by
    cases o <;> simp only [setOutcome, hopt, Effect.result, Option.some.injEq] at h <;> exact h.symm
  subst hv
  exact ⟨rfl, fun s hd => by simp [DrutaValue.ofString] at hd,
    fun s hd => by simp [DrutaValue.ofString] at hd⟩

theorem pushOutcome_counted {b : Bool} (ho : ∀ v, o = some v → v.Counted)
    (h : (pushOutcome args b o).effect.result o = some v) : v.Counted := by
  rcases o with _ | w
  · simp only [pushOutcome, Effect.result, Option.some.injEq] at h
    subst h
    exact ⟨rfl, fun s hd => by simp at hd, fun s hd => by simp at hd⟩
  · have hw := ho w rfl
    rcases hd : w.data with s | l | g | s <;>
      simp only [pushOutcome, hd, Effect.result, Option.some.injEq] at h <;> subst h
    · exact hw
    · exact ⟨hw.expiryTime, fun s hd => by simp at hd, fun s hd => by simp at hd⟩
    · exact hw
    · exact hw

theorem popOutcome_counted {b : Bool} (ho : ∀ v, o = some v → v.Counted)
    (h : (popOutcome args b o).effect.result o = some v) : v.Counted := by
  by_cases hlen : 3 < args.length
  · cases o <;> simp only [popOutcome, hlen, if_true, Effect.result, Option.some.injEq,
      reduceCtorEq] at h
    exact h ▸ ho _ rfl
  rcases o with _ | w
  · simp only [popOutcome, hlen, if_false, Effect.result, reduceCtorEq] at h
  · have hw := ho w rfl
    simp only [popOutcome, hlen, if_false] at h
    rcases hd : w.data with s | l | g | s <;> simp only [hd] at h
    · exact Option.some.inj h ▸ hw
    · generalize popLoop (if b then l else l.reverse) (min (popCount args) (toInt l.length)) =
        popped at h
      rcases popped with f | ⟨taken, left⟩
      · exact Option.some.inj h ▸ hw
      · simp only [Effect.result, Option.some.injEq] at h
        subst h
        exact ⟨hw.expiryTime, fun s hd => by simp at hd, fun s hd => by simp at hd⟩
    · exact Option.some.inj h ▸ hw
    · exact Option.some.inj h ▸ hw

theorem hsetValue_counted {w : DrutaValue} {g : DrutaHash} (hw : w.expiryTime = 0)
    (hg : g.memoryUsage < 2 ^ 64) : (hsetValue args w g).Counted := by
  refine ⟨hw, fun s hd => by simp [hsetValue] at hd, fun g' hd => ?_⟩
  simp only [hsetValue, Data.hash.injEq] at hd
  exact hd ▸ hsetLoop_memoryUsage_lt _ 0 false hg

theorem hsetOutcome_counted (ho : ∀ v, o = some v → v.Counted)
    (h : (hsetOutcome args o).effect.result o = some v) : v.Counted := by
  unfold hsetOutcome at h
  split_ifs at h
  · exact ho v h
  rcases o with _ | w
  · exact Option.some.inj h ▸ hsetValue_counted rfl (by decide)
  · have hw := ho w rfl
    rcases hd : w.data with s | l | g | s <;> simp only [hd] at h
    · exact Option.some.inj h ▸ hw
    · exact Option.some.inj h ▸ hw
    · exact Option.some.inj h ▸ hsetValue_counted hw.expiryTime (hw.hash g hd)
    · exact Option.some.inj h ▸ hw

theorem hdelOutcome_counted (ho : ∀ v, o = some v → v.Counted)
    (h : (hdelOutcome args o).effect.result o = some v) : v.Counted := by
  unfold hdelOutcome at h
  split_ifs at h
  · exact ho v h
  rcases o with _ | w
  · cases h
  · have hw := ho w rfl
    rcases hd : w.data with s | l | g | s <;> simp only [hd] at h
    · exact Option.some.inj h ▸ hw
    · exact Option.some.inj h ▸ hw
    · have hlt := hdelLoop_memoryUsage_lt (args.drop 2) 0 false (hw.hash g hd)
      split_ifs at h
      · obtain rfl := Option.some.inj h
        exact ⟨hw.expiryTime, fun s hd => by simp at hd, fun g' hd => Data.hash.inj hd ▸ hlt⟩
      · obtain rfl := Option.some.inj h
        exact ⟨hw.expiryTime, fun s hd => by simp at hd, fun g' hd => Data.hash.inj hd ▸ hlt⟩
    · exact Option.some.inj h ▸ hw

theorem saddOutcome_counted (ho : ∀ v, o = some v → v.Counted)
    (h : (saddOutcome args o).effect.result o = some v) : v.Counted := by
  rcases o with _ | w
  · obtain rfl := Option.some.inj h
    exact ⟨rfl, fun s hd => saddNewLoop_usage_lt _ ∅ 0 (by decide), fun g hd => by simp at hd⟩
  · have hw := ho w rfl
    rcases hd : w.data with s | l | g | s <;> simp only [saddOutcome, hd] at h
    · exact Option.some.inj h ▸ hw
    · exact Option.some.inj h ▸ hw
    · exact Option.some.inj h ▸ hw
    · obtain rfl := Option.some.inj h
      exact ⟨hw.expiryTime, fun s hd => addSize_lt _ _, fun g hd => by simp at hd⟩

theorem sdelOutcome_counted (ho : ∀ v, o = some v → v.Counted)
    (h : (sdelOutcome args o).effect.result o = some v) : v.Counted := by
  rcases o with _ | w
  · cases h
  · have hw := ho w rfl
    rcases hd : w.data with s | l | g | s <;> simp only [sdelOutcome, hd] at h
    · exact Option.some.inj h ▸ hw
    · exact Option.some.inj h ▸ hw
    · exact Option.some.inj h ▸ hw
    · obtain rfl := Option.some.inj h
      exact ⟨hw.expiryTime, fun s hd => subSize_lt _ _, fun g hd => by simp at hd⟩

/-- What a logged command writes. -/
theorem counted_of_logs {key : Bytes} {f : Option DrutaValue → Outcome} (hplain : Plain args)
    (hl : (callOf args).logs) (hc : (callOf args).action now args = some (.access key f))
    (ho : ∀ v, o = some v → v.Counted) (h : (f o).effect.result o = some v) : v.Counted := by
  rcases hcall : callOf args <;> rw [hcall] at hc hl <;>
    simp only [Call.logs, Bool.false_eq_true] at hl <;>
    simp only [Call.action, Option.some.injEq, reduceCtorEq, Action.access.injEq] at hc <;>
    obtain ⟨-, rfl⟩ := hc
  · exact setOutcome_counted hplain hcall ho h
  · exact pushOutcome_counted ho h
  · exact pushOutcome_counted ho h
  · exact popOutcome_counted ho h
  · exact popOutcome_counted ho h
  · exact hsetOutcome_counted ho h
  · exact hdelOutcome_counted ho h
  · exact saddOutcome_counted ho h
  · exact sdelOutcome_counted ho h

end Counted

/-! ## The replayed list -/

/-- The same values and the same counter. -/
structure Mirrors (q r : Recency) : Prop where
  find : ∀ k, q.find k = r.find k
  usage : q.account.usage = r.account.usage

section Steps

variable {q r r' : Recency} {s : Server} {env : Env} {fd : ℤ} {args : List Bytes} {a : Action}
  {reply : Bytes} {ok : Bool}

/-- What an access that evicts nothing leaves. -/
theorem access_after {now : ℤ} {key : Bytes} {f : Option DrutaValue → Outcome}
    (ha : (callOf args).action now args = some (.access key f))
    (hrun : (Action.access key f).run r = .ok ((reply, ok), r'))
    (hev : r'.account.evicted = r.account.evicted) :
    ok = (f (r.find key)).success ∧ r' = (f (r.find key)).effect.after key r := by
  obtain ⟨-, hok, hp⟩ := apply_ok hrun
  exact ⟨hok, Recency.perform_after (fits_of_action _ ha) hp hev⟩

theorem deleteAll_mirrors : ∀ (keys : List Bytes) {q r : Recency}, Mirrors q r →
    Mirrors (Action.deleteAll keys q).2 (Action.deleteAll keys r).2
  | [], _, _, h => h
  | key :: keys, q, r, h => by
    unfold Action.deleteAll
    rw [h.find key]
    split
    · refine deleteAll_mirrors keys ⟨fun k => ?_, Effect.usage_drop (h.find key) h.usage⟩
      rw [Effect.find_drop, Effect.find_drop, h.find k]
    · exact deleteAll_mirrors keys h

/-- An `HSET` that is not logged and overwrites nothing leaves the hash. -/
theorem hsetValue_self {v : DrutaValue} {h : DrutaHash} (hh : h.memoryUsage < 2 ^ 64)
    (hd : v.data = .hash h) (hcreated : (hsetLoop (args.drop 2) h 0 false).2.1 = 0)
    (hkeeps : (∃ p ∈ pairs (args.drop 2), h.getHash p.1 = none) ∨
      ∀ p ∈ pairs (args.drop 2), h.getHash p.1 = some p.2) :
    (hsetLoop (args.drop 2) h 0 false).1 = h ∧ hsetValue args v h = v := by
  have hall : ∀ p ∈ pairs (args.drop 2), h.getHash p.1 = some p.2 := by
    refine hkeeps.resolve_left ?_
    rintro ⟨p, hp, hnone⟩
    have hsome := getHash_isSome_of_hsetLoop hcreated p hp
    rw [hnone] at hsome
    cases hsome
  have hself := hsetLoop_self (n := 0) (b := false) hh hall
  refine ⟨hself, ?_⟩
  unfold hsetValue
  simp only [hself, shiftUsage, lt_irrefl, if_false]
  rw [← hd]

/-- The value of a key is written again as it was. -/
theorem mirrors_after {key : Bytes} {v : DrutaValue} {e : Effect} (hv : r.find key = some v)
    (hres : e.result (some v) = some v)
    (hu : (e.after key r).account.usage = r.account.usage) : Mirrors r (e.after key r) := by
  refine ⟨fun k => ?_, hu.symm⟩
  rw [Effect.find_after, hv, hres]
  split_ifs with hk
  · rw [hk, hv]
  · rfl

/-- A command that is not logged leaves every value, unless it is an `HSET` that overwrites. -/
theorem find_of_unlogged (hs : s.store = r.toStore)
    (hc : (Event.command env fd args).change s = .act a)
    (hkeeps : OverwritesNothing s (.command env fd args))
    (hcounted : ∀ k v, r.find k = some v → v.Counted)
    (hrun : a.run r = .ok ((reply, false), r')) (hev : r'.account.evicted = r.account.evicted) :
    Mirrors r r' := by
  have ha := action_of_change hc
  rcases a with ⟨key, f⟩ | m | keys
  · obtain ⟨hok, rfl⟩ := access_after ha hrun hev
    have hkeep : Mirrors r r := ⟨fun _ => rfl, rfl⟩
    rcases unlogged_of_action ha hok.symm with ⟨x, hx⟩ | hu
    · rw [hx]
      exact hkeep
    · generalize (f (r.find key)).effect = e at hu
      cases hu with
      | keep => exact hkeep
      | expire ho hd he =>
        have hzero := (hcounted key _ ho).expiryTime
        simp [DrutaValue.expired, hzero] at he
      | touch ho => exact mirrors_after ho rfl rfl
      | same ho hd =>
        refine mirrors_after ho ?_ (notified_self _ 0)
        rename_i v set wraps
        have hadd : addSize v.memoryUsage 0 = v.memoryUsage :=
          addSize_eq ((hcounted key v ho).set set hd)
        rw [Effect.result, hadd]
      | overwrite ho hd hcall heven hcreated =>
        rename_i v hash wraps
        have hkey : key = arg args 1 := by
          rw [hcall] at ha
          exact (Action.access.inj (Option.some.inj ha)).1.symm
        have hvalue : s.store.value (arg args 1) = some v := by
          rw [hs, value_toStore, ← hkey]
          exact ho
        obtain ⟨hself, hv⟩ := hsetValue_self ((hcounted key _ ho).hash _ hd) hd hcreated
          (hkeeps hcall (turnedAway_of_change hc) heven _ _ hvalue hd)
        refine mirrors_after ho (congrArg some hv) ?_
        rw [hself]
        exact notified_self _ _
  · rw [Action.eq_of_inspect ha hrun]
    exact ⟨fun _ => rfl, rfl⟩
  · rw [Action.eq_of_delete hrun]
    exact ⟨fun _ => rfl, rfl⟩

/-- A logged command does the same to the replayed list. -/
theorem Mirrors.logged (h : Mirrors q r) (hl : (callOf args).logs)
    (ha : (callOf args).action env.now args = some a) (hrun : a.run r = .ok ((reply, ok), r'))
    (hev : r'.account.evicted = r.account.evicted) :
    ∃ q', (a.run q).map (·.2) = .ok q' ∧ Mirrors q' r' := by
  rcases a with ⟨key, f⟩ | m | keys
  · obtain ⟨-, -, hp⟩ := apply_ok hrun
    obtain ⟨-, rfl⟩ := access_after ha hrun hev
    have hq := Recency.perform_of_perform (fits_of_action _ ha) hp hev (h.find key) h.usage
    refine ⟨_, ?_, fun k => ?_, Effect.usage_after _ (h.find key) h.usage⟩
    · simp only [Action.run, Recency.apply, h.find key, hq]
      rfl
    · rw [Effect.find_after, Effect.find_after, h.find key, h.find k]
  · exact absurd ha (Call.logs_ne_inspect hl)
  · simp only [Action.run] at hrun
    obtain ⟨-, rfl⟩ := Prod.mk.inj (Except.ok.inj hrun)
    exact ⟨_, rfl, deleteAll_mirrors keys h⟩

/-- The values after a command are counted. -/
theorem counted_of_run (hplain : Plain args) (hl : (callOf args).logs)
    (ha : (callOf args).action env.now args = some a) (hrun : a.run r = .ok ((reply, ok), r'))
    (hev : r'.account.evicted = r.account.evicted)
    (hcounted : ∀ k v, r.find k = some v → v.Counted) : ∀ k v, r'.find k = some v → v.Counted := by
  rcases a with ⟨key, f⟩ | m | keys
  · obtain ⟨-, rfl⟩ := access_after ha hrun hev
    intro k v hv
    rw [Effect.find_after] at hv
    split_ifs at hv
    · exact counted_of_logs hplain hl ha (hcounted key) hv
    · exact hcounted k v hv
  · exact absurd ha (Call.logs_ne_inspect hl)
  · simp only [Action.run] at hrun
    obtain ⟨-, rfl⟩ := Prod.mk.inj (Except.ok.inj hrun)
    intro k v hv
    rw [find_deleteAll] at hv
    split_ifs at hv
    exact hcounted k v hv

end Steps

/-- The log of a run without deadlines, evictions and rewrites rebuilds every value, where each
`HSET` that creates no field writes only values that are there. -/
theorem run_durable {events : List Event} {s : Server}
    (hm : Meets Server.step (fun s e => e.FromClient ∧ e.Plain ∧ OverwritesNothing s e) {} events)
    (h : run Server.step {} events = .ok s) (hrw : s.rewrites = 0) (hev : s.store.evicted = [])
    (hlen : s.aof.length < 2 ^ 31) (env : Env) :
    ∃ s', replayCommands env { aof := s.aof } = .ok s'
      ∧ ∀ k, s'.store.value k = s.store.value k := by
  have hend : ∃ r cs, Holds s r cs ∧ (r.account.evicted = [] ∧
      (∀ k v, r.find k = some v → v.Counted) ∧
      ∃ q, replayList env.now cs .initial = .ok q ∧ Mirrors q r) := by
    refine run_logged (N := (· = [])) (fun hab hb => List.prefix_nil.1 (hb ▸ hab))
      ⟨rfl, fun k v hv => by simp [Recency.find, Recency.initial, RecencyList.find,
        RecencyList.empty] at hv, .initial, rfl, fun _ => rfl, rfl⟩ ?_ hm h hrw hev
    rintro s r cs e s' r' cs' hk ⟨hnil, hcounted, q, hq, hmir⟩ ⟨hplain, hkeeps⟩ hs hk' hev hlog
    have hsame : r'.account.evicted = r.account.evicted := hev.trans hnil.symm
    refine ⟨hev, ?_⟩
    cases hlog with
    | quiet _ => exact ⟨hcounted, q, hq, hmir⟩
    | flush _ =>
      exact ⟨fun k v hv => by simp [Recency.find, Recency.flush, RecencyList.find,
        RecencyList.empty] at hv, .initial, rfl, fun _ => rfl, rfl⟩
    | unlogged hc hrun =>
      have hr := find_of_unlogged hk.store hc hkeeps hcounted hrun hsame
      exact ⟨fun k v hv => hcounted k v ((hr.find k).trans hv), q, hq,
        fun k => (hmir.find k).trans (hr.find k), hmir.usage.trans hr.usage⟩
    | logged hc hrun =>
      have ha := action_of_change hc
      have hlogs := logs_of_success ha hrun
      obtain ⟨q', hq', hmir'⟩ := hmir.logged hlogs ha hrun hsame
      refine ⟨counted_of_run hplain hlogs ha hrun hsame hcounted, q', ?_, hmir'⟩
      rw [replayList_snoc, hq, Except.bind,
        replayOne_eq (action_of_plain hplain hlogs ha env.now), hq']
  obtain ⟨r, cs, hholds, -, -, q, hq, hmir⟩ := hend
  rw [hholds.aof] at hlen ⊢
  obtain ⟨s', hs', hst⟩ := replayCommands_log env hholds.loggable hlen hq
  refine ⟨s', hs', fun k => ?_⟩
  rw [hst, hholds.store, value_toStore, value_toStore, hmir.find k]

/-- A string, and a hash that another field is added to; the first field is written again as it
is. -/
def plainWrites : List Event :=
  [.command {} 4 [ascii "SET", ascii "k", ascii "v"],
    .command {} 4 [ascii "HSET", ascii "h", ascii "f", ascii "a"],
    .command {} 4 [ascii "HSET", ascii "h", ascii "g", ascii "b"],
    .command {} 4 [ascii "HSET", ascii "h", ascii "f", ascii "a"]]

theorem run_durable_hset : ∃ s, run Server.step {} plainWrites = .ok s ∧
    (replayCalls s.aof).1.length = 3 ∧ ∃ s', replayCommands {} { aof := s.aof } = .ok s' ∧
      ∀ k, s'.store.value k = s.store.value k := by
  obtain ⟨s, hs, hlogged, hrw, hev, hlen⟩ : ∃ s, run Server.step {} plainWrites = .ok s ∧
      (replayCalls s.aof).1.length = 3 ∧ s.rewrites = 0 ∧ s.store.evicted = [] ∧
      s.aof.length < 2 ^ 31 := exists_of_any (by decide +kernel)
  have hm : Meets Server.step (fun s e => e.FromClient ∧ e.Plain ∧ OverwritesNothing s e) {}
      plainWrites := by decide +kernel
  exact ⟨s, hs, hlogged, run_durable hm hs hrw hev hlen {}⟩

section Overwrite

/-- The list after an `HSET` of one field of a new hash. -/
def oneField : Recency :=
  (hsetOutcome [ascii "HSET", ascii "h", ascii "f", ascii "a"] none).effect.after (ascii "h")
    .initial

theorem run_hset_new : (Action.access (ascii "h")
    (hsetOutcome [ascii "HSET", ascii "h", ascii "f", ascii "a"])).run .initial =
      .ok ((sendInteger 1, true), oneField) :=
  Action.run_access (r := .initial) (by rfl) (fun _ h => by cases h) (by decide)

theorem find_oneField : oneField.find (ascii "h") =
    some (hsetValue [ascii "HSET", ascii "h", ascii "f", ascii "a"]
      { data := .hash .empty, memoryUsage := 0 } .empty) := by
  rw [oneField, Effect.find_after, if_pos rfl]
  rfl

/-- The value after the first write. -/
def firstWrite : DrutaValue := hsetValue [ascii "HSET", ascii "h", ascii "f", ascii "a"]
  { data := .hash .empty, memoryUsage := 0 } .empty

theorem run_hset_again : ∃ r, (Action.access (ascii "h")
    (hsetOutcome [ascii "HSET", ascii "h", ascii "f", ascii "b"])).run oneField =
      .ok ((sendInteger 0, false), r) ∧ r.account.evicted = [] ∧ ∃ v h,
        r.find (ascii "h") = some v ∧ v.data = .hash h ∧ h.getHash (ascii "f") = some (ascii "b") := by
  have ho : oneField.find (ascii "h") = some firstWrite := find_oneField
  refine ⟨_, Action.run_access (by rw [ho]; rfl) (fun x => by rw [ho]; exact fun h => by cases h) ?_,
    Effect.evicted_after _ _ _, ?_⟩
  · rw [ho]
    decide
  · rw [Effect.find_after, if_pos rfl, ho]
    exact ⟨_, _, rfl, rfl, rfl⟩

end Overwrite

/-- The second of two writes of one field of a hash is not logged. -/
theorem run_loses_overwrite : ∃ events s env s', (∀ e ∈ events, e.FromClient ∧ e.Plain)
    ∧ run Server.step {} events = .ok s ∧ s.rewrites = 0 ∧ s.store.evicted = []
    ∧ s.aof.length < 2 ^ 31 ∧ replayCommands env { aof := s.aof } = .ok s'
    ∧ ∃ k v h v' h' field, s.store.value k = some v ∧ v.data = .hash h
      ∧ s'.store.value k = some v' ∧ v'.data = .hash h' ∧ h.getHash field ≠ h'.getHash field := by
  obtain ⟨r, hrun, hev, v, h, hv, hd, hget⟩ := run_hset_again
  obtain ⟨s₁, hs₁, h₁⟩ := step_serves {} 4
    [ascii "HSET", ascii "h", ascii "f", ascii "a"] serves_initial rfl run_hset_new
    (by decide) (by decide) (by decide)
  obtain ⟨s₂, hs₂, h₂⟩ := step_serves {} 4
    [ascii "HSET", ascii "h", ascii "f", ascii "b"] h₁ rfl hrun (by decide) (by decide)
    (by decide)
  have hlog : replayList 0 [[ascii "HSET", ascii "h", ascii "f", ascii "a"]] .initial =
      .ok oneField := by
    have hone : replayOne 0 .initial [ascii "HSET", ascii "h", ascii "f", ascii "a"] =
        .ok oneField := by
      rw [replayOne_eq (a := .access (ascii "h")
        (hsetOutcome [ascii "HSET", ascii "h", ascii "f", ascii "a"])) rfl, run_hset_new]
      rfl
    simp only [replayList, hone]
  have hlen : s₂.aof.length < 2 ^ 31 := by
    rw [h₂.aof]
    decide
  obtain ⟨s', hs', hst⟩ : ∃ s', replayCommands {} { aof := s₂.aof } = .ok s'
      ∧ s'.store = oneField.toStore := by
    rw [h₂.aof] at hlen ⊢
    exact replayCommands_log {} h₂.loggable hlen hlog
  refine ⟨[.command {} 4 [ascii "HSET", ascii "h", ascii "f", ascii "a"],
    .command {} 4 [ascii "HSET", ascii "h", ascii "f", ascii "b"]], s₂, {}, s', ?_, ?_, h₂.rewrites,
    ?_, hlen, hs', ascii "h", v, h, firstWrite, _, ascii "f", ?_, hd, ?_, rfl, ?_⟩
  · intro e he
    fin_cases he
    · exact ⟨by simp [Event.FromClient], fun hc => by revert hc; decide⟩
    · exact ⟨by simp [Event.FromClient], fun hc => by revert hc; decide⟩
  · rw [run_cons_ok hs₁, run_cons_ok hs₂]
    rfl
  · rw [h₂.store]
    exact hev
  · rw [h₂.store, value_toStore]
    exact hv
  · rw [hst, value_toStore]
    exact find_oneField
  · rw [hget]
    decide

end DrutaDB
