import DrutaDB.Proofs.Lifetime
import DrutaDB.Proofs.Logging

/-!
# Eviction and restart

What a command does and which keys it evicts depends on the entries and the counter only
(`run_alike`).  So a run whose commands are logged wherever they change the order or the values of
the keys evicts what its replay evicts (`run_replay_alive`).
-/

namespace DrutaDB

open Machine Decimal Capacity Run Store

/-- The same entries and the same counter. -/
structure Alike (q r : Recency) : Prop where
  nodes : q.nodes = r.nodes
  usage : q.account.usage = r.account.usage

namespace Alike

variable {q r r' : Recency} {k : Bytes}

theorem find (h : Alike q r) (k : Bytes) : q.find k = r.find k := by
  unfold Recency.find
  rw [h.nodes]

theorem settle (h : Alike q r) : Alike q.settle r.settle := by
  have hq := relieve_usage q.account q.nodes.entries
  have hr := relieve_usage r.account r.nodes.entries
  rw [h.nodes, h.usage, hr, Prod.mk.injEq] at hq
  refine ⟨RecencyList.ext ?_, ?_⟩
  · change (RecencyList.shedList _ _ q.nodes.entries q.account).1 = _
    rw [h.nodes]
    exact hq.1.symm
  · change (RecencyList.shedList _ _ q.nodes.entries q.account).2.usage = _
    rw [h.nodes]
    exact hq.2.symm

theorem drop (h : Alike q r) (k : Bytes) : Alike (q.drop k) (r.drop k) := by
  refine ⟨?_, Effect.usage_drop (h.find k) h.usage⟩
  unfold Recency.drop
  rw [h.find k]
  split
  · exact congrArg (·.remove k) h.nodes
  · exact h.nodes

theorem add (h : Alike q r) (k : Bytes) (v : DrutaValue) : Alike (q.add k v) (r.add k v) :=
  settle ⟨congrArg (·.push k v) h.nodes, congrArg (addSize · (nodeUsage k v)) h.usage⟩

theorem write (h : Alike q r) (k : Bytes) (v : DrutaValue) (b : Bool) :
    Alike (q.write k v b) (r.write k v b) :=
  ⟨congrArg (·.replace k v) h.nodes, h.usage⟩

theorem notify (h : Alike q r) (m n : ℕ) : Alike (q.notify m n) (r.notify m n) :=
  settle ⟨h.nodes, congrArg (notified · m n) h.usage⟩

theorem touch (h : Alike q r) (hr : r.touch k = .ok r') : ∃ q', q.touch k = .ok q' ∧ Alike q' r' := by
  unfold Recency.touch at hr ⊢
  rw [h.find k]
  rcases hf : r.find k with _ | v <;> simp only [hf] at hr
  · cases hr
  · obtain rfl := Except.ok.inj hr
    exact ⟨_, rfl, congrArg (·.push k v) h.nodes, h.usage⟩

theorem assign (h : Alike q r) {v : DrutaValue} {c : Option (ℕ × ℕ)} {b : Bool}
    (hr : r.assign k v c b = .ok r') : ∃ q', q.assign k v c b = .ok q' ∧ Alike q' r' := by
  rcases c with _ | ⟨m, n⟩
  · exact (h.write k v b).touch hr
  · exact ((h.write k v b).notify m n).touch hr

theorem perform (h : Alike q r) {e : Effect} (hr : r.perform k e = .ok r') :
    ∃ q', q.perform k e = .ok q' ∧ Alike q' r' := by
  cases e with
  | keep =>
    obtain rfl := Except.ok.inj hr
    exact ⟨q, rfl, h⟩
  | drop =>
    obtain rfl := Except.ok.inj hr
    exact ⟨_, rfl, h.drop k⟩
  | assign v c b => exact h.assign hr
  | create v =>
    obtain rfl := Except.ok.inj hr
    exact ⟨_, rfl, h.add k v⟩
  | fail f => cases hr
  | pop v m n b =>
    simp only [Recency.perform] at hr ⊢
    rcases ht : r.touch k with f | r₁ <;> rw [ht] at hr
    · cases hr
    · obtain ⟨q₁, hq₁, h₁⟩ := h.touch ht
      obtain rfl := Except.ok.inj hr
      rw [hq₁]
      exact ⟨_, rfl, (h₁.write k v b).notify m n⟩
  | createAssign v₀ v m n b =>
    simp only [Recency.perform] at hr ⊢
    rw [(h.add k v₀).find k]
    split at hr
    · exact (h.add k v₀).assign hr
    · cases hr

theorem deleteAll : ∀ (keys : List Bytes) {q r : Recency}, Alike q r →
    (Action.deleteAll keys q).1 = (Action.deleteAll keys r).1
      ∧ Alike (Action.deleteAll keys q).2 (Action.deleteAll keys r).2
  | [], q, r, h => ⟨rfl, h⟩
  | key :: keys, q, r, h => by
    unfold Action.deleteAll
    rw [h.find key]
    split
    · obtain ⟨hn, hrest⟩ := deleteAll keys (h.drop key)
      exact ⟨congrArg (· + 1) hn, hrest⟩
    · exact deleteAll keys h

end Alike

/-- A logged command does the same to lists that are alike. -/
theorem run_alike {q r r' : Recency} {args : List Bytes} {now : ℤ} {a : Action} {x : Bytes × Bool}
    (h : Alike q r) (hl : (callOf args).logs) (ha : (callOf args).action now args = some a)
    (hr : a.run r = .ok (x, r')) : ∃ q', a.run q = .ok (x, q') ∧ Alike q' r' := by
  rcases a with ⟨key, f⟩ | m | keys
  · simp only [Action.run, Recency.apply] at hr ⊢
    rw [h.find key]
    rcases hp : r.perform key (f (r.find key)).effect with e | r₁ <;> rw [hp] at hr
    · cases hr
    · obtain ⟨q₁, hq₁, h₁⟩ := h.perform hp
      obtain ⟨rfl, rfl⟩ := Prod.mk.inj (Except.ok.inj hr)
      rw [hq₁]
      exact ⟨q₁, rfl, h₁⟩
  · exact absurd ha (Call.logs_ne_inspect hl)
  · obtain ⟨hn, hrest⟩ := h.deleteAll keys
    simp only [Action.run] at hr ⊢
    obtain ⟨rfl, rfl⟩ := Prod.mk.inj (Except.ok.inj hr)
    rw [hn]
    exact ⟨_, rfl, hrest⟩

/-! ## Commands that are not logged -/

section Silent

variable {r r' : Recency} {k : Bytes} {v : DrutaValue}

/-- Every entry shed is an eviction. -/
theorem length_shedList : ∀ (l : List (Bytes × DrutaValue)) (a : Account),
    (RecencyList.shedList Account.exceeds Account.evict l a).1.length +
      (RecencyList.shedList Account.exceeds Account.evict l a).2.evicted.length =
        l.length + a.evicted.length
  | [], _ => rfl
  | e :: l, a => by
    unfold RecencyList.shedList
    split_ifs
    · rw [length_shedList l, List.length_cons]
      simp only [Account.evict, List.length_append, List.length_singleton]
      omega
    · rfl

/-- Writing a value evicts nothing where no key is lost. -/
theorem evicted_of_assign {w : DrutaValue} {m n : ℕ} {b : Bool}
    (h : r.assign k w (some (m, n)) b = .ok r') (hn : r'.nodes = r.nodes) :
    r'.account.evicted = r.account.evicted := by
  have hlen := length_shedList (r.nodes.replace k w).entries
    ((r.write k w b).account.notify m n)
  have hpre : r.account.evicted <+: r'.account.evicted :=
    Recency.evicted_perform (e := .assign w (some (m, n)) b) h
  unfold Recency.assign Recency.touch at h
  rcases hf : ((r.write k w b).notify m n).find k with _ | v <;> simp only [hf] at h
  · cases h
  obtain rfl := Except.ok.inj h
  have hkept : ((r.write k w b).notify m n).nodes.entries.length = r.nodes.entries.length := by
    rw [← RecencyList.length_push_of_find hf v]
    exact congrArg (·.entries.length) hn
  have hrep : (r.nodes.replace k w).entries.length = r.nodes.entries.length := by
    simp [RecencyList.replace]
  have hev : ((r.write k w b).notify m n).account.evicted.length = r.account.evicted.length := by
    change _ = (r.nodes.replace k w).entries.length + r.account.evicted.length at hlen
    change ((r.write k w b).notify m n).nodes.entries.length +
      ((r.write k w b).notify m n).account.evicted.length = _ at hlen
    omega
  exact (hpre.eq_of_length_le hev.le).symm

/-- A command that is not logged and keeps the entries keeps the counter. -/
theorem usage_of_unlogged {now : ℤ} {args : List Bytes} {e : Effect}
    (hu : Unlogged now args (r.find k) e) (hfit : e.Fits (r.find k))
    (h : r.perform k e = .ok r') (hn : r'.nodes = r.nodes) :
    r'.account.usage = r.account.usage := by
  have hfind : ∀ k', r'.find k' = r.find k' := fun k' => by
    unfold Recency.find
    rw [hn]
  cases hu with
  | keep => rw [← Except.ok.inj h]
  | expire ho hd he =>
    obtain rfl := Except.ok.inj h
    have hk := hfind k
    rw [Effect.find_drop, if_pos rfl, ho] at hk
    cases hk
  | touch ho =>
    rw [Recency.perform_after hfit h (Recency.evicted_of_touch h)]
    rfl
  | same ho hd =>
    rw [Recency.perform_after hfit h (evicted_of_assign h hn)]
    exact notified_self _ 0
  | overwrite ho hd hcall heven hcreated =>
    rename_i v hash b
    have hafter := Recency.perform_after hfit h (evicted_of_assign h hn)
    have hk := hfind k
    rw [hafter, Effect.find_after, if_pos rfl, ho] at hk
    have hdata : (hsetValue args v hash).data = v.data := congrArg DrutaValue.data
      (Option.some.inj hk)
    have hself : (hsetLoop (args.drop 2) hash 0 false).1 = hash :=
      Data.hash.inj (hdata.trans hd)
    rw [hafter, hself]
    exact notified_self _ _

end Silent

/-! ## Runs -/

/-- The step is written to the file or leaves the keys, their values and their order. -/
def Recorded (s : Server) (e : Event) : Prop :=
  ∀ s', s.step e = .ok s' → s'.aof ≠ s.aof ∨ s'.store.order = s.store.order

/-- An action that is not logged and keeps the order is no action. -/
theorem alike_of_unlogged {r r' : Recency} {now : ℤ} {args : List Bytes} {a : Action}
    {reply : Bytes} (ha : (callOf args).action now args = some a)
    (hrun : a.run r = .ok ((reply, false), r')) (hn : r'.nodes = r.nodes) : Alike r r' := by
  refine ⟨hn.symm, Eq.symm ?_⟩
  rcases a with ⟨key, f⟩ | m | keys
  · obtain ⟨-, hok, hp⟩ := apply_ok hrun
    rcases unlogged_of_action ha hok.symm with ⟨x, hx⟩ | hu
    · rw [hx] at hp
      cases hp
    · exact usage_of_unlogged hu (fits_of_action _ ha) hp hn
  · rw [Action.eq_of_inspect ha hrun]
  · rw [Action.eq_of_delete hrun]

theorem mem_kvStore {s : Store} {k : Bytes} : k ∈ s.kvStore ↔ (s.value k).isSome := by
  rw [Store.value, Option.isSome_map, ← Std.ExtTreeMap.mem_iff_isSome_getElem?]

/-- A run whose silent commands leave the keys in their order is replayed to the same keys and
values in the same order. -/
theorem run_replay_alive {events : List Event} {s : Server}
    (hm : Meets Server.step (fun s e => e.FromClient ∧ e.Plain ∧ Recorded s e) {} events)
    (h : run Server.step {} events = .ok s) (hrw : s.rewrites = 0) (hlen : s.aof.length < 2 ^ 31)
    (env : Env) : ∃ s', replayCommands env { aof := s.aof } = .ok s'
      ∧ s'.store.order = s.store.order ∧ ∀ k, k ∈ s'.store.kvStore ↔ k ∈ s.store.kvStore := by
  have hend : ∃ r cs, Holds s r cs ∧ ∃ q, replayList env.now cs .initial = .ok q ∧ Alike q r := by
    refine run_logged (N := fun _ => True) (fun _ _ => trivial) ⟨.initial, rfl, rfl, rfl⟩ ?_ hm h
      hrw trivial
    rintro s r cs e s' r' cs' hk ⟨q, hq, halike⟩ ⟨hplain, hrec⟩ hs hk' - hlog
    cases hlog with
    | quiet _ => exact ⟨q, hq, halike⟩
    | flush _ => exact ⟨.initial, rfl, rfl, rfl⟩
    | unlogged hc hrun =>
      have horder : s'.store.order = s.store.order :=
        (hrec s' hs).resolve_left fun hne => hne (hk'.aof.trans hk.aof.symm)
      rw [hk'.store, hk.store, order_toStore, order_toStore] at horder
      have hr := alike_of_unlogged (action_of_change hc) hrun (RecencyList.ext horder)
      exact ⟨q, hq, halike.nodes.trans hr.nodes, halike.usage.trans hr.usage⟩
    | logged hc hrun =>
      have ha := action_of_change hc
      have hlogs := logs_of_success ha hrun
      obtain ⟨q', hq', halike'⟩ := run_alike halike hlogs ha hrun
      refine ⟨q', ?_, halike'⟩
      rw [replayList_snoc, hq, Except.bind,
        replayOne_eq (action_of_plain hplain hlogs ha env.now), hq']
      rfl
  obtain ⟨r, cs, hholds, q, hq, halike⟩ := hend
  rw [hholds.aof] at hlen ⊢
  obtain ⟨s', hs', hst⟩ := replayCommands_log env hholds.loggable hlen hq
  refine ⟨s', hs', ?_, fun k => ?_⟩
  · rw [hst, hholds.store, order_toStore, order_toStore, halike.nodes]
  · rw [mem_kvStore, mem_kvStore, hst, hholds.store, value_toStore, value_toStore, halike.find k]

/-- A write that made the file longer. -/
theorem recorded_of_serves {s s' : Server} {r r' : Recency} {cs : List (List Bytes)}
    {c : List Bytes} {e : Event} (h : Serves s r cs) (hs : s.step e = .ok s')
    (h' : Serves s' r' (cs ++ [c])) : Recorded s e := by
  intro t ht
  obtain rfl := Except.ok.inj (hs.symm.trans ht)
  refine .inl fun heq => ?_
  rw [h.aof, h'.aof, List.flatMap_append, List.append_right_eq_self] at heq
  simp [respCommand] at heq

/-! ## A read that saves a key -/

section Saved

variable {v : Bytes} {r : Recency}

/-- Two of these values stay below the limit, three do not. -/
theorem nodeUsage_thirty (hv : v.length = 30000000) {k : Bytes} (hk : k.length = 1) :
    nodeUsage k (.ofString v 0) = 30000207 := by
  have hmem : (DrutaValue.ofString v 0).memoryUsage = 30000032 := by
    simp [DrutaValue.ofString, sizeofString, copyCapacity, hv]
  have hcap : copyCapacity k = 15 := by simp [copyCapacity, hk]
  rw [nodeUsage, hmem, hcap]
  decide

theorem add_thirty (hv : v.length = 30000000) {k : Bytes} (hk : k.length = 1)
    (h : r.account.usage ≤ 30000207) : r.add k (.ofString v 0) =
      ⟨r.nodes.push k (.ofString v 0),
        { r.account with usage := r.account.usage + 30000207 }⟩ := by
  have husage : addSize r.account.usage (nodeUsage k (.ofString v 0)) =
      r.account.usage + 30000207 := by
    rw [nodeUsage_thirty hv hk, addSize_eq (by omega)]
  unfold Recency.add
  rw [husage, Recency.settle_of_le]
  change r.account.usage + 30000207 ≤ lruMaxMemory
  unfold lruMaxMemory
  omega

/-- The third value pushes the oldest key out. -/
theorem add_third (hv : v.length = 30000000) {a b c : Bytes} (ha : a.length = 1)
    (hc : c.length = 1) (hu : r.account.usage = 60000414)
    (hl : (r.nodes.push c (.ofString v 0)).entries =
      [(a, .ofString v 0), (b, .ofString v 0), (c, .ofString v 0)]) :
    (r.add c (.ofString v 0)).nodes.entries = [(b, .ofString v 0), (c, .ofString v 0)] ∧
      (r.add c (.ofString v 0)).account.evicted = r.account.evicted ++ [a] ∧
      (r.add c (.ofString v 0)).account.wrapped = r.account.wrapped := by
  have husage : addSize r.account.usage (nodeUsage c (.ofString v 0)) = 90000621 := by
    rw [nodeUsage_thirty hv hc, hu]
    decide
  have hfst : ({ r.account with usage := 90000621 } : Account).exceeds = true := by
    simp [Account.exceeds, lruMaxMemory]
  have hsnd : (({ r.account with usage := 90000621 } : Account).evict
      (a, .ofString v 0)).exceeds = false := by
    have hsub : subSize 90000621 30000207 = 60000414 := by decide
    simp [Account.exceeds, Account.evict, Account.release, nodeUsage_thirty hv ha, hsub,
      lruMaxMemory]
  simp only [Recency.add, husage, Recency.settle, RecencyList.shed, hl, RecencyList.shedList, hfst,
    hsnd, if_true, Bool.false_eq_true, if_false]
  refine ⟨trivial, rfl, ?_⟩
  simp [Account.evict, Account.release, nodeUsage_thirty hv ha]

/-- A `GET` of the oldest key makes it the most recent. -/
theorem run_get {k : Bytes} {now : ℤ} (h : r.find k = some (.ofString v 0)) :
    (Action.access k (getOutcome now)).run r =
      .ok ((respBulkString v, false), { r with nodes := r.nodes.push k (.ofString v 0) }) := by
  have hget : getOutcome now (some (.ofString v 0)) =
      { reply := respBulkString v, effect := .touch (.ofString v 0) } := by
    simp [getOutcome, DrutaValue.ofString, DrutaValue.expired]
  simp only [Action.run, h, hget]
  rw [Recency.apply, Effect.touch, Recency.perform, Recency.assign, Recency.touch_write r h,
    Recency.note_false]
  rfl

/-- A `SET` of a new key that a client sends. -/
theorem step_set {s : Server} {cs : List (List Bytes)} {k : Bytes} (h : Serves s r cs)
    (hv : v.length = 30000000) (hk : k.length = 1) (hf : r.find k = none) :
    ∃ s', s.step (.command {} 4 [ascii "SET", k, v]) = .ok s'
      ∧ Serves s' (r.add k (.ofString v 0)) (cs ++ [[ascii "SET", k, v]]) := by
  have ha : (callOf [ascii "SET", k, v]).action 0 [ascii "SET", k, v] =
      some (.access k (setOutcome 0 [ascii "SET", k, v])) := rfl
  refine step_serves _ _ _ h ha (run_set hf 0) (by decide) (by decide) ?_
  simp only [List.map_cons, List.map_nil, List.sum_cons, List.sum_nil, hv, hk]
  decide

/-- A `GET` that a client sends. -/
theorem step_get {s : Server} {cs : List (List Bytes)} {k : Bytes} (h : Serves s r cs)
    (hk : k.length = 1) (hf : r.find k = some (.ofString v 0)) :
    ∃ s', s.step (.command {} 4 [ascii "GET", k]) = .ok s'
      ∧ Serves s' { r with nodes := r.nodes.push k (.ofString v 0) } cs := by
  have ha : (callOf [ascii "GET", k]).action 0 [ascii "GET", k] =
      some (.access k (getOutcome 0)) := rfl
  refine step_serves _ _ _ h ha (run_get hf) (by decide) (by decide) ?_
  simp only [List.map_cons, List.map_nil, List.sum_cons, List.sum_nil, hk]
  decide

theorem replayOne_set {k : Bytes} (now : ℤ) (hf : r.find k = none) :
    replayOne now r [ascii "SET", k, v] = .ok (r.add k (.ofString v 0)) := by
  have ha : (callOf [ascii "SET", k, v]).action now [ascii "SET", k, v] =
      some (.access k (setOutcome now [ascii "SET", k, v])) := rfl
  rw [replayOne_eq ha, run_set hf]
  rfl

/-- Two keys of thirty million bytes. -/
theorem exists_two {s₀ : Server} (h₀ : Serves s₀ .initial []) (hv : v.length = 30000000) :
    ∃ r s₁ s₂, s₀.step (.command {} 4 [ascii "SET", ascii "a", v]) = .ok s₁ ∧
    Serves s₁ (Recency.initial.add (ascii "a") (.ofString v 0)) [[ascii "SET", ascii "a", v]] ∧
    s₁.step (.command {} 4 [ascii "SET", ascii "b", v]) = .ok s₂ ∧
    Serves s₂ r [[ascii "SET", ascii "a", v], [ascii "SET", ascii "b", v]] ∧
    replayList 0 [[ascii "SET", ascii "a", v], [ascii "SET", ascii "b", v]] .initial = .ok r ∧
    r.account.usage = 60000414 ∧ r.account.evicted = [] ∧ r.account.wrapped = false ∧
    r.nodes.entries = [(ascii "a", .ofString v 0), (ascii "b", .ofString v 0)] := by
  have hab : ascii "a" ≠ ascii "b" := by decide
  have hzero : Recency.initial.account.usage = 0 := rfl
  have hempty : Recency.initial.nodes.entries = [] := rfl
  have hadd₁ := add_thirty (r := .initial) hv (k := ascii "a") rfl (by omega)
  have hadd₂ := add_thirty (r := Recency.initial.add (ascii "a") (.ofString v 0)) hv
    (k := ascii "b") rfl (by simp [hadd₁, hzero])
  have hnone₂ : (Recency.initial.add (ascii "a") (.ofString v 0)).find (ascii "b") = none := by
    refine RecencyList.find_eq_none_iff.2 ?_
    simp [hadd₁, RecencyList.push, RecencyList.remove, RecencyList.keys, hempty, hab.symm]
  obtain ⟨s₁, hs₁, h₁⟩ := step_set (v := v) (k := ascii "a") h₀ hv rfl rfl
  obtain ⟨s₂, hs₂, h₂⟩ := step_set (k := ascii "b") h₁ hv rfl hnone₂
  refine ⟨_, s₁, s₂, hs₁, h₁, hs₂, h₂, ?_, ?_, ?_, ?_, ?_⟩
  · have hset₁ := replayOne_set (v := v) (r := .initial) (k := ascii "a") 0 rfl
    simp only [replayList, hset₁, replayOne_set 0 hnone₂]
  · rw [hadd₂]
    simp [hadd₁, hzero]
  · rw [hadd₂, hadd₁]
    rfl
  · rw [hadd₂, hadd₁]
    rfl
  · rw [hadd₂]
    simp [hadd₁, RecencyList.push, RecencyList.remove, hempty, hab]

/-- Three keys of thirty million bytes, of which the first is evicted. -/
theorem exists_three {s₀ : Server} (h₀ : Serves s₀ .initial []) (hv : v.length = 30000000) :
    ∃ r s₁ s₂ s₃, s₀.step (.command {} 4 [ascii "SET", ascii "a", v]) = .ok s₁ ∧
    s₁.step (.command {} 4 [ascii "SET", ascii "b", v]) = .ok s₂ ∧
    s₂.step (.command {} 4 [ascii "SET", ascii "c", v]) = .ok s₃ ∧
    Recorded s₀ (.command {} 4 [ascii "SET", ascii "a", v]) ∧
    Recorded s₁ (.command {} 4 [ascii "SET", ascii "b", v]) ∧
    Recorded s₂ (.command {} 4 [ascii "SET", ascii "c", v]) ∧
    Serves s₃ r [[ascii "SET", ascii "a", v], [ascii "SET", ascii "b", v],
      [ascii "SET", ascii "c", v]] ∧
    r.account.evicted = [ascii "a"] ∧ r.account.wrapped = false ∧ r.find (ascii "a") = none := by
  have hab : ascii "a" ≠ ascii "b" := by decide
  have hac : ascii "a" ≠ ascii "c" := by decide
  have hbc : ascii "b" ≠ ascii "c" := by decide
  obtain ⟨r, s₁, s₂, hs₁, h₁, hs₂, h₂, -, husage, hev, hwrapped, hnodes⟩ := exists_two h₀ hv
  have hnone : r.find (ascii "c") = none :=
    RecencyList.find_eq_none_iff.2 (by simp [RecencyList.keys, hnodes, hac.symm, hbc.symm])
  obtain ⟨s₃, hs₃, h₃⟩ := step_set (k := ascii "c") h₂ hv rfl hnone
  obtain ⟨hentries, hevicted, hwraps⟩ := add_third (r := r) (b := ascii "b") hv (a := ascii "a") rfl
    (c := ascii "c") rfl husage
    (by simp [RecencyList.push, RecencyList.remove, hnodes, hac, hbc])
  refine ⟨_, s₁, s₂, s₃, hs₁, hs₂, hs₃, recorded_of_serves h₀ hs₁ h₁,
    recorded_of_serves h₁ hs₂ h₂, recorded_of_serves h₂ hs₃ h₃, h₃, ?_, hwraps.trans hwrapped, ?_⟩
  · rw [hevicted, hev]
    rfl
  · exact RecencyList.find_eq_none_iff.2 (by simp [RecencyList.keys, hentries, hab, hac])

/-- The replay evicts the same key as the run. -/
theorem run_replay_alive_thirty : ∃ v s, v.length = 30000000 ∧ run Server.step {}
      [.command {} 4 [ascii "SET", ascii "a", v], .command {} 4 [ascii "SET", ascii "b", v],
        .command {} 4 [ascii "SET", ascii "c", v]] = .ok s ∧ s.store.evicted = [ascii "a"] ∧
    ascii "a" ∉ s.store.kvStore ∧ ∃ s', replayCommands {} { aof := s.aof } = .ok s' ∧
      s'.store.order = s.store.order ∧ ∀ k, k ∈ s'.store.kvStore ↔ k ∈ s.store.kvStore := by
  obtain ⟨v, hv⟩ : ∃ v : Bytes, v.length = 30000000 := ⟨_, List.length_replicate (a := 0)⟩
  obtain ⟨r, s₁, s₂, s, hs₁, hs₂, hs₃, hr₁, hr₂, hr₃, h, hev, -, hgone⟩ :=
    exists_three serves_initial hv
  have hplain : ∀ k, Plain [ascii "SET", k, v] := fun k _ opt hopt => by simp at hopt
  have hfd : (4 : ℤ) ≠ -1 := by decide
  have hm : Meets Server.step (fun s e => e.FromClient ∧ e.Plain ∧ Recorded s e) {}
      [.command {} 4 [ascii "SET", ascii "a", v], .command {} 4 [ascii "SET", ascii "b", v],
        .command {} 4 [ascii "SET", ascii "c", v]] := by
    refine ⟨⟨hfd, hplain _, hr₁⟩, fun t₁ ht₁ => ?_⟩
    obtain rfl := Except.ok.inj (hs₁.symm.trans ht₁)
    refine ⟨⟨hfd, hplain _, hr₂⟩, fun t₂ ht₂ => ?_⟩
    obtain rfl := Except.ok.inj (hs₂.symm.trans ht₂)
    exact ⟨⟨hfd, hplain _, hr₃⟩, fun _ _ => trivial⟩
  have hlen : s.aof.length < 2 ^ 31 := by
    rw [h.aof]
    simp [respCommand, respBulkString, hv]
    decide
  have hrun := (run_cons_ok hs₁ _).trans ((run_cons_ok hs₂ _).trans (run_cons_ok hs₃ []))
  refine ⟨v, s, hv, hrun, ?_, ?_, run_replay_alive hm hrun h.rewrites hlen {}⟩
  · rw [h.store]
    exact hev
  · rw [mem_kvStore, h.store, value_toStore, hgone]
    decide

end Saved

/-- Three keys of thirty million bytes: the read of the first saves it from the eviction in the
run, and in the replay it is the one evicted. -/
theorem run_replay_evicts : ∃ events s env s', (∀ e ∈ events, e.FromClient ∧ e.Plain)
    ∧ run Server.step {} events = .ok s ∧ s.rewrites = 0 ∧ s.aof.length < 2 ^ 31
    ∧ replayCommands env { aof := s.aof } = .ok s'
    ∧ ∃ k, k ∈ s.store.kvStore ∧ k ∉ s'.store.kvStore := by
  obtain ⟨v, hv⟩ : ∃ v : Bytes, v.length = 30000000 := ⟨_, List.length_replicate (a := 0)⟩
  have hab : ascii "a" ≠ ascii "b" := by decide
  have hac : ascii "a" ≠ ascii "c" := by decide
  have hbc : ascii "b" ≠ ascii "c" := by decide
  obtain ⟨r, s₁, s₂, hs₁, -, hs₂, h₂, htwo, husage, -, -, hnodes⟩ := exists_two serves_initial hv
  have hfinda : r.find (ascii "a") = some (.ofString v 0) :=
    RecencyList.find_eq_some_iff.2 (by simp [hnodes])
  have hfindc : r.find (ascii "c") = none :=
    RecencyList.find_eq_none_iff.2 (by simp [RecencyList.keys, hnodes, hac.symm, hbc.symm])
  -- after the read of the first key the second is the oldest
  let r₃ : Recency := { r with nodes := r.nodes.push (ascii "a") (.ofString v 0) }
  have hnone₃ : r₃.find (ascii "c") = none := by
    change (r.nodes.push (ascii "a") _).find (ascii "c") = none
    rw [RecencyList.find_push, if_neg hac.symm]
    exact hfindc
  obtain ⟨hlive, -, -⟩ := add_third (r := r₃) (b := ascii "a") hv (a := ascii "b") rfl
    (c := ascii "c") rfl husage (by simp [r₃, RecencyList.push, RecencyList.remove, hnodes, hac, hbc, hab.symm])
  obtain ⟨hreplay, -, -⟩ := add_third (r := r) (b := ascii "b") hv (a := ascii "a") rfl
    (c := ascii "c") rfl husage (by simp [RecencyList.push, RecencyList.remove, hnodes, hac, hbc])
  obtain ⟨s₃, hs₃, h₃⟩ := step_get h₂ rfl hfinda
  obtain ⟨s₄, hs₄, h₄⟩ := step_set (k := ascii "c") h₃ hv rfl hnone₃
  have hlog : replayList 0 [[ascii "SET", ascii "a", v], [ascii "SET", ascii "b", v],
      [ascii "SET", ascii "c", v]] .initial = .ok (r.add (ascii "c") (.ofString v 0)) := by
    have hsplit := replayList_append 0 [[ascii "SET", ascii "a", v], [ascii "SET", ascii "b", v]]
      [[ascii "SET", ascii "c", v]] .initial
    rw [htwo, Except.bind] at hsplit
    refine hsplit.trans ?_
    simp only [replayList, replayOne_set 0 hfindc]
  have hlen : s₄.aof.length < 2 ^ 31 := by
    rw [h₄.aof]
    simp [respCommand, respBulkString, hv]
    decide
  obtain ⟨s', hs', hst⟩ : ∃ s', replayCommands {} { aof := s₄.aof } = .ok s'
      ∧ s'.store = (r.add (ascii "c") (.ofString v 0)).toStore := by
    rw [h₄.aof] at hlen ⊢
    exact replayCommands_log {} h₄.loggable hlen hlog
  refine ⟨[.command {} 4 [ascii "SET", ascii "a", v], .command {} 4 [ascii "SET", ascii "b", v],
    .command {} 4 [ascii "GET", ascii "a"], .command {} 4 [ascii "SET", ascii "c", v]],
    s₄, {}, s', ?_, ?_, h₄.rewrites, hlen, hs', ascii "a", ?_, ?_⟩
  · simp [Event.FromClient, Event.Plain, Plain]
  · rw [run_cons_ok hs₁, run_cons_ok hs₂, run_cons_ok hs₃, run_cons_ok hs₄]
    rfl
  · rw [mem_kvStore, h₄.store, value_toStore, Option.isSome_iff_exists]
    exact ⟨_, RecencyList.find_eq_some_iff.2 (hlive ▸ List.mem_cons_self)⟩
  · rw [mem_kvStore, hst, value_toStore, Option.not_isSome_iff_eq_none]
    exact RecencyList.find_eq_none_iff.2 (by simp [RecencyList.keys, hreplay, hab, hac])

end DrutaDB
