import DrutaDB.Proofs.FailedRewrite

/-!
# Deadlines across a rewrite

`GET` takes every deadline but zero for one, `rewrite_aof` only the positive ones, so a string
whose deadline is negative answers again once it is rewritten and replayed, and no other string
answers differently (`get_rewritten_iff`).
-/

namespace DrutaDB

open Machine Decimal

/-- What `GET` answers. -/
def getReply (now : ℤ) (key : Bytes) (s : Store) : Option Bytes :=
  (commandGet now [ascii "GET", key] s).toOption.map (·.1.1)

/-- The nodes that a rewrite writes. -/
def writtenNodes (now : ℤ) (r : Recency) : List DrutaNode :=
  (nodeList none r.nodes.entries).filter fun n => (rewriteCommand now n).isSome

/-- The memory that a replay of the rewrite takes. -/
def rebuiltUsage (now : ℤ) (r : Recency) : ℕ :=
  ((writtenNodes now r).map fun n =>
    sizeofDrutaNode + Capacity.copyCapacity n.key + (rebuiltValue n).memoryUsage).sum

section Replay

variable {now t : ℤ} {n : DrutaNode} {c : List Bytes} {q : Recency}

/-- A command of a rewrite is replayed within the limit. -/
theorem replayOne_fits (hc : rewriteCommand now n = some c) (hexp : n.value.expiryTime < 2 ^ 63)
    (hnone : q.find n.key = none) (hfits : q.account.usage +
      (sizeofDrutaNode + Capacity.copyCapacity n.key + (rebuiltValue n).memoryUsage) ≤ lruMaxMemory) :
    ∃ q', replayOne t q c = .ok q' ∧ q'.account.evicted = q.account.evicted ∧
      q'.account.usage = q.account.usage +
        (sizeofDrutaNode + Capacity.copyCapacity n.key + (rebuiltValue n).memoryUsage) ∧
      ∀ key, key ≠ n.key → q'.find key = q.find key := by
  obtain ⟨f, ha, hmakes⟩ := makes_of_rewrite hc hexp t
  have hlimit : lruMaxMemory < 2 ^ 64 := by decide
  have hjoin : ∀ v : DrutaValue, v.memoryUsage ≤ (rebuiltValue n).memoryUsage →
      (q.account.join n.key v).usage = q.account.usage +
        (sizeofDrutaNode + Capacity.copyCapacity n.key + v.memoryUsage) := by
    intro v hv
    have hnode : nodeUsage n.key v =
        sizeofDrutaNode + Capacity.copyCapacity n.key + v.memoryUsage := addSize_eq (by omega)
    rw [Account.join, hnode, addSize_eq (by omega)]
  have hrun : ∀ {e : Effect}, (f none).effect = e →
      (∀ u ∈ e.counters n.key q.account, u ≤ lruMaxMemory) →
      replayOne t q c = .ok (e.after n.key q) := by
    rintro e rfl hle
    exact replayOne_of_makes ha hmakes hnone hle
  have hother : ∀ (e : Effect) (key : Bytes), key ≠ n.key →
      (e.after n.key q).find key = q.find key := by
    intro e key hkey
    rw [Effect.find_after, if_neg hkey]
  rcases hmakes with he | ⟨b, he⟩
  · have husage := hjoin (rebuiltValue n) le_rfl
    refine ⟨_, hrun he ?_, rfl, husage, hother _⟩
    intro u hu
    rw [List.mem_singleton.1 hu, husage]
    exact hfits
  · have hempty : (q.account.join n.key { data := .hash .empty, memoryUsage := 0 }).usage =
        q.account.usage + (sizeofDrutaNode + Capacity.copyCapacity n.key) :=
      hjoin { data := .hash .empty, memoryUsage := 0 } (Nat.zero_le _)
    -- the hash is counted empty first, and what it holds is notified
    have hnotified : Store.notified
        (q.account.join n.key { data := .hash .empty, memoryUsage := 0 }).usage 0
          (rebuiltValue n).memoryUsage = q.account.usage +
        (sizeofDrutaNode + Capacity.copyCapacity n.key + (rebuiltValue n).memoryUsage) := by
      have hnode : 0 < sizeofDrutaNode := by decide
      rw [hempty]
      unfold Store.notified
      split_ifs
      · rw [addSize_eq (by omega)]
        omega
      · omega
      · omega
    refine ⟨_, hrun he ?_, rfl, hnotified, hother _⟩
    intro u hu
    rcases List.mem_cons.1 hu with rfl | hu
    · rw [hempty]
      omega
    · rw [List.mem_singleton.1 hu, hnotified]
      exact hfits

theorem replayList_fits : ∀ {ns : List DrutaNode} {q : Recency},
    (ns.map (·.key)).Nodup → (∀ n ∈ ns, q.find n.key = none) →
    (∀ n ∈ ns, n.value.expiryTime < 2 ^ 63) →
    q.account.usage + ((ns.filter fun n => (rewriteCommand now n).isSome).map fun n =>
      sizeofDrutaNode + Capacity.copyCapacity n.key + (rebuiltValue n).memoryUsage).sum ≤
        lruMaxMemory →
    ∃ q', replayList t (ns.filterMap (rewriteCommand now)) q = .ok q' ∧
      q'.account.evicted = q.account.evicted
  | [], q, _, _, _, _ => ⟨q, rfl, rfl⟩
  | n :: ns, q, hnodup, hnone, hexp, hfits => by
    rw [List.map_cons, List.nodup_cons] at hnodup
    rw [List.forall_mem_cons] at hnone hexp
    rcases hc : rewriteCommand now n with _ | c
    · rw [List.filter_cons_of_neg (by simp [hc])] at hfits
      rw [List.filterMap_cons_none hc]
      exact replayList_fits hnodup.2 hnone.2 hexp.2 hfits
    · rw [List.filter_cons_of_pos (by simp [hc]), List.map_cons, List.sum_cons] at hfits
      rw [List.filterMap_cons_some hc]
      obtain ⟨q₁, hone, hev, husage, hother⟩ :=
        replayOne_fits (t := t) hc hexp.1 hnone.1 (by omega)
      have hns : ∀ m ∈ ns, q₁.find m.key = none := by
        intro m hm
        have hne : m.key ≠ n.key := fun heq => hnodup.1 (heq ▸ List.mem_map_of_mem hm)
        rw [hother m.key hne]
        exact hnone.2 m hm
      obtain ⟨q', hq', hev'⟩ := replayList_fits hnodup.2 hns hexp.2 (by omega)
      refine ⟨q', ?_, hev'.trans hev⟩
      unfold replayList
      simp only [hone]
      exact hq'

end Replay

section Reply

variable {r : Recency} {key : Bytes} {v : DrutaValue} {d : Bytes}

theorem getReply_toStore (now : ℤ) (key : Bytes) (r : Recency) :
    getReply now key r.toStore = some (getOutcome now (r.find key)).reply := by
  have hkey : arg [ascii "GET", key] 1 = key := rfl
  have hrun : ∃ r', r.apply key (getOutcome now (r.find key)) =
      .ok (((getOutcome now (r.find key)).reply, (getOutcome now (r.find key)).success), r') := by
    rcases hv : r.find key with _ | ⟨v, e, m⟩
    · exact ⟨r, rfl⟩
    · rcases v with s | l | h | t
      case string =>
        unfold getOutcome
        dsimp only
        split_ifs
        · exact ⟨r.drop key, rfl⟩
        · rw [Recency.apply, Recency.perform_touch r hv, Recency.touch_eq r hv]
          exact ⟨_, rfl⟩
      all_goals exact ⟨r, rfl⟩
  obtain ⟨r', hr'⟩ := hrun
  unfold getReply
  rw [commandGet_toStore, hkey, hr']
  rfl

/-- A string answers until its deadline; a string without one always. -/
theorem getOutcome_reply (hd : v.data = .string d) (now : ℤ) : (getOutcome now (some v)).reply =
    if v.expired now then nilReply else respBulkString d := by
  unfold getOutcome
  simp only [hd]
  split_ifs <;> rfl

theorem expired_eq_true (now : ℤ) (v : DrutaValue) :
    v.expired now = true ↔ v.expiryTime ≠ 0 ∧ v.expiryTime < now := by
  simp [DrutaValue.expired]

theorem respBulkString_ne_nil (d : Bytes) : respBulkString d ≠ nilReply := by
  intro h
  rcases hd : toDecimal d.length with _ | ⟨x, xs⟩
  · exact toDecimal_ne_nil _ hd
  · have hx : isDigit x := isDigit_of_mem_toDecimal (n := d.length) (by rw [hd]; simp)
    have hsecond := congrArg (fun b => b.tail.head?) h
    simp only [respBulkString, hd] at hsecond
    obtain rfl : x = byte '-' := Option.some.inj hsecond
    exact absurd hx (by decide)

end Reply

section Written

variable {t : ℤ} {r q : Recency} {n : DrutaNode} {key : Bytes} {v : DrutaValue} {d : Bytes}

theorem exists_node (hv : r.find key = some v) :
    ∃ n ∈ nodeList none r.nodes.entries, n.key = key ∧ n.value = v := by
  have hmem := RecencyList.find_eq_some_iff.1 hv
  rw [← nodeList_map none r.nodes.entries] at hmem
  obtain ⟨n, hn, he⟩ := List.mem_map.1 hmem
  exact ⟨n, hn, congrArg Prod.fst he, congrArg Prod.snd he⟩

/-- What the rewrite and its replay make of a node. -/
theorem find_written (hn : n ∈ nodeList none r.nodes.entries)
    (hentries : q.nodes.entries = (writtenNodes t r).map fun n => (n.key, rebuiltValue n)) :
    q.find n.key = if (rewriteCommand t n).isSome then some (rebuiltValue n) else none := by
  split_ifs with hsome
  · refine RecencyList.find_eq_some_iff.2 ?_
    rw [hentries]
    exact List.mem_map_of_mem (List.mem_filter.2 ⟨hn, hsome⟩)
  · refine RecencyList.find_eq_none_iff.2 fun hmem => ?_
    rw [RecencyList.keys, hentries, List.map_map] at hmem
    obtain ⟨m, hm, hmkey⟩ := List.mem_map.1 hmem
    obtain ⟨hm, hwritten⟩ := List.mem_filter.1 hm
    have hnodup : ((nodeList none r.nodes.entries).map (·.key)).Nodup := by
      rw [map_key_nodeList]
      exact r.nodes.nodup
    obtain rfl := List.inj_on_of_nodup_map hnodup hm hn hmkey
    exact hsome hwritten

/-- What the rewrite and its replay make of a string. -/
theorem find_rewritten (hv : r.find key = some v) (hd : v.data = .string d)
    (hentries : q.nodes.entries = (writtenNodes t r).map fun n => (n.key, rebuiltValue n)) :
    q.find key = if 0 < v.expiryTime ∧ v.expiryTime < t then none
      else some (.ofString d (if 0 < v.expiryTime then v.expiryTime else 0)) := by
  obtain ⟨n, hn, rfl, rfl⟩ := exists_node hv
  rw [find_written hn hentries]
  unfold rewriteCommand rebuiltValue
  rw [hd]
  by_cases hskip : 0 < n.value.expiryTime ∧ n.value.expiryTime < t
  · rw [if_pos hskip, if_pos hskip]
    rfl
  · rw [if_neg hskip, if_neg hskip]
    rfl

end Written

/-- What `GET` answers for a string once the store is rewritten and replayed. -/
theorem rewritten_reply {t : ℤ} {r : Recency} {s s' : Server} {key : Bytes} {v : DrutaValue}
    {d : Bytes} (hs : s.store = r.toStore) (hexp : ∀ e ∈ r.nodes.entries, e.2.expiryTime < 2 ^ 63)
    (hv : r.find key = some v) (hd : v.data = .string d)
    (hrewrite : rewriteAof { now := t } s = .ok s') (hlen : s'.aof.length < 2 ^ 31)
    (hfits : rebuiltUsage t r ≤ lruMaxMemory) (env : Env) :
    ∃ s'', replayCommands env { aof := s'.aof } = .ok s'' ∧ ∀ t', getReply t' key s''.store =
      some (getOutcome t' (if 0 < v.expiryTime ∧ v.expiryTime < t then none
        else some (.ofString d (if 0 < v.expiryTime then v.expiryTime else 0)))).reply := by
  have hfile : s'.aof = rewriteBytes t r := rewriteAof_file hs hrewrite
  have hl : ∀ c ∈ rewriteCommands t r, Loggable c := fun c hc => loggable_rewriteCommands hexp hc
  rw [hfile] at hlen
  have hdeliver : ∀ c ∈ rewriteCommands t r, Deliverable c := fun c hc =>
    deliverable_of_length (hl c hc).1 ((length_le_flatMap hc).trans_lt hlen)
  have hnodup : ((nodeList none r.nodes.entries).map (·.key)).Nodup := by
    rw [map_key_nodeList]
    exact r.nodes.nodup
  have hexp' : ∀ n ∈ nodeList none r.nodes.entries, n.value.expiryTime < 2 ^ 63 := fun n hn =>
    hexp _ (mem_nodeList hn)
  obtain ⟨q, hq, hev⟩ : ∃ q, replayList env.now (rewriteCommands t r) .initial = .ok q ∧
      q.account.evicted = [] :=
    replayList_fits hnodup (fun _ _ => rfl) hexp' ((Nat.zero_add _).trans_le hfits)
  have hentries := replayList_rebuilds hnodup (fun _ _ => rfl) hexp' hq hev
  obtain ⟨s'', hs'', hst⟩ :=
    replayCommands_of_calls env (replayCalls_log hdeliver hlen) hl hq
  refine ⟨s'', by rw [hfile]; exact hs'', fun t' => ?_⟩
  rw [hst, getReply_toStore, find_rewritten hv hd hentries]

/-- Once the store is rewritten and replayed, `GET` answers for a string as before at every later
time, if and only if the deadline is not negative. -/
theorem get_rewritten_iff {t : ℤ} {r : Recency} {s s' : Server} {key : Bytes} {v : DrutaValue}
    {d : Bytes} (hs : s.store = r.toStore) (hexp : ∀ e ∈ r.nodes.entries, e.2.expiryTime < 2 ^ 63)
    (hv : r.find key = some v) (hd : v.data = .string d)
    (hrewrite : rewriteAof { now := t } s = .ok s') (hlen : s'.aof.length < 2 ^ 31)
    (hfits : rebuiltUsage t r ≤ lruMaxMemory) (env : Env) :
    ∃ s'', replayCommands env { aof := s'.aof } = .ok s'' ∧
      ((∀ t', t ≤ t' → getReply t' key s''.store = getReply t' key s.store) ↔
        0 ≤ v.expiryTime) := by
  obtain ⟨s'', hs'', hreply⟩ := rewritten_reply hs hexp hv hd hrewrite hlen hfits env
  refine ⟨s'', hs'', ?_⟩
  simp only [hreply, hs, getReply_toStore, hv, Option.some_inj, getOutcome_reply hd]
  constructor
  · intro hall
    by_contra hneg
    have h := hall (max t 0) (le_max_left _ _)
    have hpos : 0 ≤ max t 0 := le_max_right _ _
    have hnot : ¬ (0 < v.expiryTime ∧ v.expiryTime < t) := by omega
    have hexpired : v.expired (max t 0) = true := (expired_eq_true _ _).2 (by omega)
    have hzero : ¬ 0 < v.expiryTime := by omega
    rw [if_neg hnot, if_pos hexpired, if_neg hzero, getOutcome_reply rfl] at h
    exact respBulkString_ne_nil d h
  · intro h0 t' hle
    by_cases hskip : 0 < v.expiryTime ∧ v.expiryTime < t
    · have hexpired : v.expired t' = true := (expired_eq_true _ _).2 (by omega)
      rw [if_pos hskip, if_pos hexpired]
      rfl
    · have hsame : (if 0 < v.expiryTime then v.expiryTime else 0) = v.expiryTime := by
        split_ifs <;> omega
      rw [if_neg hskip, hsame, getOutcome_reply rfl]
      rfl

/-- The store after `SET k v PXAT 50`. -/
def datedString : Recency := Recency.initial.add (ascii "k") (.ofString (ascii "v") 50)

/-- A string is read before and after its deadline. -/
theorem get_rewritten_dated : ∃ s' s'',
    rewriteAof { now := 10 } { store := datedString.toStore } = .ok s' ∧
    replayCommands {} { aof := s'.aof } = .ok s'' ∧
    (∀ t', 10 ≤ t' →
      getReply t' (ascii "k") s''.store = getReply t' (ascii "k") datedString.toStore) ∧
    getReply 20 (ascii "k") s''.store = some (respBulkString (ascii "v")) ∧
    getReply 60 (ascii "k") s''.store = some nilReply := by
  have htext : rewriteText 10 (nodeList none datedString.nodes.entries) =
      .ok (rewriteBytes 10 datedString) := by
    decide
  obtain ⟨s', hs'⟩ : ∃ s', rewriteAof { now := 10 } { store := datedString.toStore } = .ok s' :=
    rewriteAof_runs rfl rfl htext
  have haof : s'.aof = rewriteBytes 10 datedString := (rewriteAof_file rfl hs').trans rfl
  have hexp : ∀ e ∈ datedString.nodes.entries, e.2.expiryTime < 2 ^ 63 := by decide
  have hv : datedString.find (ascii "k") = some (.ofString (ascii "v") 50) := rfl
  obtain ⟨s'', hs'', hiff⟩ := get_rewritten_iff (t := 10) rfl hexp hv rfl hs'
    (by rw [haof]; decide) (by decide) {}
  have hreply := hiff.2 (by decide)
  have hbefore : getReply 20 (ascii "k") datedString.toStore =
      some (respBulkString (ascii "v")) := by
    rw [getReply_toStore, hv]
    rfl
  have hafter : getReply 60 (ascii "k") datedString.toStore = some nilReply := by
    rw [getReply_toStore, hv]
    rfl
  exact ⟨s', s'', hs', hs'', hreply, (hreply 20 (by decide)).trans hbefore,
    (hreply 60 (by decide)).trans hafter⟩

/-- The store after `SET k v PXAT -5`. -/
def pastString : Recency := Recency.initial.add (ascii "k") (.ofString (ascii "v") (-5))

/-- A string whose deadline is negative answers again. -/
theorem get_revives : ∃ s' s'',
    commandSet 0 [ascii "SET", ascii "k", ascii "v", ascii "PXAT", ascii "-5"]
      Recency.initial.toStore = .ok ((okReply, true), pastString.toStore) ∧
    rewriteAof {} { store := pastString.toStore } = .ok s' ∧
    replayCommands {} { aof := s'.aof } = .ok s'' ∧
    getReply 1 (ascii "k") pastString.toStore = some nilReply ∧
    getReply 1 (ascii "k") s''.store = some (respBulkString (ascii "v")) := by
  have htext : rewriteText 0 (nodeList none pastString.nodes.entries) =
      .ok (rewriteBytes 0 pastString) := by
    decide
  obtain ⟨s', hs'⟩ : ∃ s', rewriteAof {} { store := pastString.toStore } = .ok s' :=
    rewriteAof_runs rfl rfl htext
  have haof : s'.aof = rewriteBytes 0 pastString := (rewriteAof_file rfl hs').trans rfl
  have hexp : ∀ e ∈ pastString.nodes.entries, e.2.expiryTime < 2 ^ 63 := by decide
  have hv : pastString.find (ascii "k") = some (.ofString (ascii "v") (-5)) := rfl
  obtain ⟨s'', hs'', hreply⟩ := rewritten_reply rfl hexp hv rfl hs' (by rw [haof]; decide)
    (by decide) {}
  refine ⟨s', s'', ?_, hs', hs'', ?_, hreply 1⟩
  · rw [commandSet_toStore]
    rfl
  · rw [getReply_toStore, hv]
    rfl

end DrutaDB
