import DrutaDB.Proofs.Lifetime
import DrutaDB.Proofs.Rewrite

/-!
# A rewrite that fails

`rewrite_aof` renames the temporary file over the log whether or not it was written whole
(`rewriteAof_file`).  So the log survives where the file cannot be opened or renamed, or is
written whole; anywhere else the keys whose commands did not fit are lost (`rewriteAof_keeps_iff`).
-/

namespace DrutaDB

open Machine Decimal Feed RespParser

/-- The commands a rewrite writes for the entries. -/
def rewriteCommands (now : ℤ) (r : Recency) : List (List Bytes) :=
  (nodeList none r.nodes.entries).filterMap (rewriteCommand now)

/-- The bytes of a rewrite. -/
def rewriteBytes (now : ℤ) (r : Recency) : Bytes := (rewriteCommands now r).flatMap respCommand

/-- What can be written of the bytes. -/
def Disk.written (d : Disk) (text : Bytes) : Bytes :=
  match d.room with
  | none => text
  | some k => text.take k

/-- The keys and what they answer after the replay of a file, if it gets through. -/
def replayed (env : Env) (file : Bytes) : Option (Bytes → Option (View × ℤ)) :=
  (replayCommands env { aof := file }).toOption.map fun s key =>
    (s.store.value key).map DrutaValue.view

section File

variable {r : Recency} {s s' : Server} {env : Env}

/-- The log after a rewrite. -/
theorem rewriteAof_file (hs : s.store = r.toStore) (h : rewriteAof env s = .ok s') :
    s'.aof = if env.disk.opens ∧ env.disk.renames then
      env.disk.written (rewriteBytes env.now r) else s.aof := by
  have hwalk : s.store.walk s.store.kvStore.size s.store.tail =
      .ok (nodeList none r.nodes.entries) := by
    rw [hs]
    exact walk_toStore r
  unfold rewriteAof at h
  dsimp only at h
  by_cases ho : env.disk.opens
  · rw [if_pos ho, hwalk] at h
    change (uncaught (rewriteText env.now (nodeList none r.nodes.entries)) >>= _) = _ at h
    rcases ht : rewriteText env.now (nodeList none r.nodes.entries) with e | text <;> rw [ht] at h
    · cases h
    have htext : text = rewriteBytes env.now r := rewriteText_eq ht
    by_cases hr : env.disk.renames
    · simp only [hr, if_true, uncaught, Except.mapError, bind, Except.bind] at h
      rw [if_pos ⟨ho, hr⟩, ← Except.ok.inj h, ← htext]
      rfl
    · simp only [hr, uncaught, Except.mapError, bind, Except.bind] at h
      rw [if_neg (fun hc => hr hc.2), ← Except.ok.inj h]
  · rw [if_neg ho] at h
    rw [if_neg (fun hc => ho hc.1), ← Except.ok.inj h]

/-- A rewrite is done when its text can be written. -/
theorem rewriteAof_runs {text : Bytes} (ho : env.disk.opens = true) (hs : s.store = r.toStore)
    (htext : rewriteText env.now (nodeList none r.nodes.entries) = .ok text) :
    ∃ s', rewriteAof env s = .ok s' := by
  have hwalk : s.store.walk s.store.kvStore.size s.store.tail =
      .ok (nodeList none r.nodes.entries) := by
    rw [hs]
    exact walk_toStore r
  unfold rewriteAof
  dsimp only
  rw [if_pos ho, hwalk]
  simp only [bind, Except.bind, htext, uncaught, Except.mapError]
  split_ifs <;> exact ⟨_, rfl⟩

theorem replayed_of_calls (env : Env) {file : Bytes} {cs : List (List Bytes)}
    {p : RespParser} {q : Recency} (hcalls : replayCalls file = (cs, .ok p))
    (hl : ∀ c ∈ cs, Loggable c) (h : replayList env.now cs .initial = .ok q) :
    replayed env file = some fun key => (q.find key).map DrutaValue.view := by
  obtain ⟨s', hs', hst⟩ := replayCommands_of_calls env hcalls hl h
  unfold replayed
  rw [hs']
  change some (fun key => (s'.store.value key).map DrutaValue.view) = _
  simp only [hst, value_toStore]

end File

/-! ## Commands that did not fit -/

section Torn

variable {r : Recency} {now t : ℤ}

theorem prefix_of_completeIn : ∀ (cs : List (List Bytes)) (p : Bytes),
    completeIn cs p <+: cs ∧ (completeIn cs p).flatMap respCommand <+: p
  | [], p => ⟨List.prefix_rfl, List.nil_prefix⟩
  | c :: cs, p => by
    unfold completeIn
    split_ifs with hc
    · obtain ⟨rest, rfl⟩ := hc
      rw [List.drop_left]
      obtain ⟨hcs, hp⟩ := prefix_of_completeIn cs rest
      refine ⟨List.cons_prefix_cons.2 ⟨rfl, hcs⟩, ?_⟩
      rw [List.flatMap_cons, List.prefix_append_right_inj]
      exact hp
    · exact ⟨List.nil_prefix, List.nil_prefix⟩

/-- Of a text that was cut short, not all commands are complete. -/
theorem completeIn_take {cs : List (List Bytes)} {k : ℕ}
    (hk : k < (cs.flatMap respCommand).length) :
    ∃ c rest, cs = completeIn cs ((cs.flatMap respCommand).take k) ++ c :: rest := by
  obtain ⟨⟨rest, hrest⟩, hp⟩ := prefix_of_completeIn cs ((cs.flatMap respCommand).take k)
  rcases rest with _ | ⟨c, rest⟩
  · rw [List.append_nil] at hrest
    have hle := hp.length_le
    rw [hrest, List.length_take] at hle
    omega
  · exact ⟨c, rest, hrest.symm⟩

theorem mem_nodeList {n : DrutaNode} : ∀ {p : Option Bytes} {l : List (Bytes × DrutaValue)},
    n ∈ nodeList p l → (n.key, n.value) ∈ l
  | _, [], h => by cases h
  | p, (k, v) :: l, h => by
    rcases List.mem_cons.1 h with rfl | h
    · exact List.mem_cons_self
    · exact List.mem_cons_of_mem _ (mem_nodeList h)

theorem loggable_rewriteCommands (hexp : ∀ e ∈ r.nodes.entries, e.2.expiryTime < 2 ^ 63)
    {c : List Bytes} (hc : c ∈ rewriteCommands now r) : Loggable c := by
  obtain ⟨n, hn, hcmd⟩ := List.mem_filterMap.1 hc
  have hlt := hexp _ (mem_nodeList hn)
  refine ⟨?_, fun t => ?_⟩
  · rintro rfl
    obtain ⟨f, w, ha, -⟩ := action_of_rewrite hcmd hlt 0
    have hnone : Call.action 0 [] (callOf []) = none := by decide
    rw [hnone] at ha
    cases ha
  · obtain ⟨f, w, ha, -⟩ := action_of_rewrite hcmd hlt t
    rw [ha]
    rfl

theorem find_of_rebuilt {ns : List DrutaNode} {es : List (Bytes × DrutaValue)}
    (h : List.Forall₂ Rebuilt ns es) : es.map Prod.fst = ns.map (·.key) := by
  induction h with
  | nil => rfl
  | cons hn _ ih => rw [List.map_cons, List.map_cons, hn.1, ih]

/-- Replayed only in part, a rewrite leaves a key out that it has as a whole. -/
theorem exists_lost (hexp : ∀ e ∈ r.nodes.entries, e.2.expiryTime < 2 ^ 63)
    {pre : List (List Bytes)} {c : List Bytes} {rest : List (List Bytes)}
    (hcs : rewriteCommands now r = pre ++ c :: rest) {q : Recency}
    (h : replayList t (rewriteCommands now r) .initial = .ok q) (hev : q.account.evicted = []) :
    ∃ q' key, replayList t pre .initial = .ok q' ∧ q'.find key = none ∧ q.find key ≠ none := by
  obtain ⟨ns, ms, hnodes, hpre, hms⟩ := List.filterMap_eq_append_iff.1 hcs
  obtain ⟨skipped, n, after, rfl, hskip, hn, -⟩ := List.filterMap_eq_cons_iff.1 hms
  have hnodup : ((nodeList none r.nodes.entries).map (·.key)).Nodup := by
    rw [map_key_nodeList]
    exact r.nodes.nodup
  have hexp' : ∀ m ∈ nodeList none r.nodes.entries, m.value.expiryTime < 2 ^ 63 := fun m hm =>
    hexp _ (mem_nodeList hm)
  have hinit : ∀ key, Recency.initial.find key = none := fun _ => rfl
  -- the whole replay goes through the replay of the first commands
  have hsplit := h
  rw [hcs, replayList_append] at hsplit
  rcases hq' : replayList t pre .initial with f | q' <;> rw [hq'] at hsplit
  · cases hsplit
  have hev' : q'.account.evicted = [] := by
    have hmono := evicted_replayList (show replayList t (c :: rest) q' = .ok q from hsplit)
    rw [hev] at hmono
    exact List.prefix_nil.1 hmono
  obtain ⟨es, hes, hall⟩ := replayList_rewrite hnodup (fun m _ => hinit m.key) hexp' h hev
  rw [hnodes] at hnodup hexp'
  rw [List.map_append, List.nodup_append] at hnodup
  rw [← hpre] at hq'
  obtain ⟨es', hes', hall'⟩ := replayList_rewrite hnodup.1 (fun m _ => hinit m.key)
    (fun m hm => hexp' m (List.mem_append_left _ hm)) hq' hev'
  have hmem : n ∈ skipped ++ n :: after := by simp
  refine ⟨q', n.key, rfl, ?_, ?_⟩
  · refine RecencyList.find_eq_none_iff.2 fun hk => ?_
    have hkeys : q'.nodes.keys = es'.map Prod.fst := by
      rw [RecencyList.keys, hes']
      rfl
    rw [hkeys, find_of_rebuilt hall'] at hk
    obtain ⟨m, hm, hmn⟩ := List.mem_map.1 hk
    refine hnodup.2.2 m.key (List.mem_map_of_mem (List.mem_of_mem_filter hm)) n.key
      (List.mem_map_of_mem hmem) hmn
  · intro hk
    refine RecencyList.find_eq_none_iff.1 hk ?_
    have hkeys : q.nodes.keys = es.map Prod.fst := by
      rw [RecencyList.keys, hes]
      rfl
    rw [hkeys, find_of_rebuilt hall, hnodes]
    refine List.mem_map.2 ⟨n, List.mem_filter.2 ⟨List.mem_append_right _ hmem, ?_⟩, rfl⟩
    rw [hn]
    rfl

end Torn

/-! ## When the log survives -/

/-- The log replays to the store the old one gave or to that of the whole rewrite. -/
def KeepsLog (env : Env) (old new whole : Bytes) : Prop :=
  replayed env new = replayed env old ∨ replayed env new = replayed env whole

/-- The rewrite does not get as far as the log, or is written whole. -/
def Spares (env : Env) (r : Recency) : Prop :=
  env.disk.opens = false ∨ env.disk.renames = false ∨
    ∀ k, env.disk.room = some k → (rewriteBytes env.now r).length ≤ k

/-- The old log gives every key that the whole rewrite gives. -/
def HasKeys (env : Env) (old whole : Bytes) : Prop :=
  ∀ f g, replayed env old = some f → replayed env whole = some g →
    ∀ key, g key ≠ none → f key ≠ none

theorem written_of_fits {d : Disk} {text : Bytes} (h : ∀ k, d.room = some k → text.length ≤ k) :
    d.written text = text := by
  unfold Disk.written
  rcases hr : d.room with _ | k
  · rfl
  · exact List.take_of_length_le (h k hr)

/-- A rewrite that spares the log keeps it.  Where the old log has all keys, and the whole rewrite
is replayed within the memory limit, no other does. -/
theorem rewriteAof_keeps_iff {r : Recency} {s s' : Server} {env : Env} (hs : s.store = r.toStore)
    (hexp : ∀ e ∈ r.nodes.entries, e.2.expiryTime < 2 ^ 63) (h : rewriteAof env s = .ok s')
    (env' : Env) :
    (Spares env r → KeepsLog env' s.aof s'.aof (rewriteBytes env.now r)) ∧
    ((rewriteBytes env.now r).length < 2 ^ 31 →
      (∃ q, replayList env'.now (rewriteCommands env.now r) .initial = .ok q
        ∧ q.account.evicted = []) →
      HasKeys env' s.aof (rewriteBytes env.now r) →
      (KeepsLog env' s.aof s'.aof (rewriteBytes env.now r) ↔ Spares env r)) := by
  have hfile := rewriteAof_file hs h
  have hkeeps : Spares env r → KeepsLog env' s.aof s'.aof (rewriteBytes env.now r) := by
    intro hsp
    unfold KeepsLog
    rw [hfile]
    rcases hsp with ho | hr | hfits
    · rw [if_neg (by simp [ho])]
      exact .inl rfl
    · rw [if_neg (by simp [hr])]
      exact .inl rfl
    · rw [written_of_fits hfits]
      split_ifs
      · exact .inr rfl
      · exact .inl rfl
  refine ⟨hkeeps, fun hlen ⟨q, hq, hev⟩ hkeys => ⟨fun hk => ?_, hkeeps⟩⟩
  by_contra hsp
  unfold Spares at hsp
  rw [not_or, not_or, Bool.not_eq_false, Bool.not_eq_false] at hsp
  obtain ⟨ho, hr, hfits⟩ := hsp
  push Not at hfits
  obtain ⟨k, hroom, hlt⟩ := hfits
  have hwritten : env.disk.written (rewriteBytes env.now r) = (rewriteBytes env.now r).take k := by
    rw [Disk.written, hroom]
  unfold KeepsLog at hk
  rw [hfile, if_pos ⟨ho, hr⟩, hwritten] at hk
  obtain ⟨c, rest, hcs⟩ := completeIn_take hlt
  obtain ⟨q', key, hq', hnone, hsome⟩ := exists_lost hexp hcs hq hev
  have hl : ∀ c ∈ rewriteCommands env.now r, Loggable c := fun c hc =>
    loggable_rewriteCommands hexp hc
  have hd : ∀ c ∈ rewriteCommands env.now r, Deliverable c := fun c hc =>
    deliverable_of_length (hl c hc).1 ((length_le_flatMap hc).trans_lt hlen)
  obtain ⟨p, hp, -⟩ := feed_prefix_respCommand hd (List.take_prefix k (rewriteBytes env.now r))
  have hshort : ((rewriteBytes env.now r).take k).length < 2 ^ 31 :=
    (List.length_take_le' k _).trans_lt hlen
  have htorn := replayed_of_calls env' ((replayCalls_eq hshort).trans hp)
    (fun c hc => hl c ((prefix_of_completeIn _ _).1.subset hc)) hq'
  have hwhole := replayed_of_calls env' (replayCalls_log hd hlen) hl hq
  -- the key that was lost is in the whole rewrite, and so in the old log
  have hview : (q.find key).map DrutaValue.view ≠ none := fun hc =>
    hsome (Option.map_eq_none_iff.1 hc)
  have hlost : (q'.find key).map DrutaValue.view = none := by
    rw [hnone]
    rfl
  rcases hk with hold | hnew
  · exact hkeys _ _ (hold.symm.trans htorn) hwhole key hview hlost
  · have hviews := congrFun (Option.some.inj (htorn.symm.trans (hnew.trans hwhole))) key
    exact hview (hviews.symm.trans hlost)

/-! ## A full disk -/

/-- The store after `SET k v`. -/
def oneString : Recency := Recency.initial.add (ascii "k") (.ofString (ascii "v") 0)

theorem rewriteAof_oneString (d : Disk) (ho : d.opens = true) {s : Server}
    (hs : s.store = oneString.toStore) : ∃ s', rewriteAof { disk := d } s = .ok s' := by
  have htext : rewriteText 0 (nodeList none oneString.nodes.entries) =
      .ok (rewriteBytes 0 oneString) := by
    decide
  exact rewriteAof_runs ho hs htext

theorem replayList_oneString :
    replayList 0 [[ascii "SET", ascii "k", ascii "v"]] .initial = .ok oneString := by
  have hone : replayOne 0 .initial [ascii "SET", ascii "k", ascii "v"] = .ok oneString := by
    rw [replayOne_eq (a := .access (ascii "k")
      (setOutcome 0 [ascii "SET", ascii "k", ascii "v"])) rfl, run_set rfl]
    rfl
  simp only [replayList, hone]

theorem replayed_oneString : replayed {} (respCommand [ascii "SET", ascii "k", ascii "v"]) =
    some fun key => (oneString.find key).map DrutaValue.view := by
  have hl : ∀ c ∈ [[ascii "SET", ascii "k", ascii "v"]], Loggable c := fun c hc => by
    rw [List.mem_singleton.1 hc]
    exact ⟨by simp, fun _ => rfl⟩
  exact replayed_of_calls (p := {}) {} (by decide) hl replayList_oneString

/-- What `SET k v` left in the file is what a rewrite writes. -/
theorem rewriteBytes_oneString : rewriteBytes 0 oneString =
    respCommand [ascii "SET", ascii "k", ascii "v"] := by
  decide

/-- A rewrite that cannot be renamed, and one on a disk that is full after three bytes. -/
theorem rewriteAof_keeps_torn : ∃ s t u, Run.run Server.step {}
      [.command {} 4 [ascii "SET", ascii "k", ascii "v"]] = .ok s ∧
    rewriteAof { disk := { renames := false } } s = .ok t ∧
    KeepsLog {} s.aof t.aof (rewriteBytes 0 oneString) ∧
    rewriteAof { disk := { room := some 3 } } s = .ok u ∧
    ¬ KeepsLog {} s.aof u.aof (rewriteBytes 0 oneString) := by
  obtain ⟨s, hs, hserves⟩ := exists_run_set
  have hst : s.store = oneString.toStore := hserves.store
  obtain ⟨t, ht⟩ := rewriteAof_oneString { renames := false } rfl hst
  obtain ⟨u, hu⟩ := rewriteAof_oneString { room := some 3 } rfl hst
  have hexp : ∀ e ∈ oneString.nodes.entries, e.2.expiryTime < 2 ^ 63 := by decide
  have hcommands : rewriteCommands 0 oneString = [[ascii "SET", ascii "k", ascii "v"]] := by decide
  have hold : s.aof = rewriteBytes 0 oneString :=
    (hserves.aof.trans (List.append_nil _)).trans rewriteBytes_oneString.symm
  have hkeys : HasKeys {} s.aof (rewriteBytes 0 oneString) := by
    rintro f g hf hg key hkey
    rw [hold, hg] at hf
    exact Option.some.inj hf ▸ hkey
  have hspares : ¬ Spares { disk := { room := some 3 } } oneString := by
    rintro (ho | hr | hfits)
    · cases ho
    · cases hr
    · have hlen := hfits 3 rfl
      rw [rewriteBytes_oneString] at hlen
      exact absurd hlen (by decide)
  refine ⟨s, t, u, hs, ht, (rewriteAof_keeps_iff hst hexp ht {}).1 (.inr (.inl rfl)), hu,
    (((rewriteAof_keeps_iff hst hexp hu {}).2 ?_ ⟨oneString, ?_, rfl⟩ hkeys).not).2 hspares⟩
  · rw [rewriteBytes_oneString]
    decide
  · rw [hcommands]
    exact replayList_oneString

/-- A rewrite on a full disk leaves an empty log. -/
theorem rewriteAof_loses : ¬ ∀ (events : List Event) (s s' : Server) (env env' : Env) (r : Recency),
    Run.run Server.step {} events = .ok s → s.store = r.toStore → rewriteAof env s = .ok s' →
      KeepsLog env' s.aof s'.aof (rewriteBytes env.now r) := by
  intro h
  obtain ⟨s, hs, hserves⟩ := exists_run_set
  have hst : s.store = oneString.toStore := hserves.store
  obtain ⟨s', hs'⟩ := rewriteAof_oneString { room := some 0 } rfl hst
  have haof : s'.aof = [] := (rewriteAof_file hst hs').trans rfl
  have hold : s.aof = respCommand [ascii "SET", ascii "k", ascii "v"] :=
    hserves.aof.trans (List.append_nil _)
  have hnew : replayed {} [] = some fun key => (Recency.initial.find key).map DrutaValue.view :=
    replayed_of_calls {} (show replayCalls [] = ([], .ok {}) by decide) (by simp) rfl
  have hk := h _ s s' { disk := { room := some 0 } } {} oneString hs hst hs'
  unfold KeepsLog at hk
  rw [haof, hold, rewriteBytes_oneString, or_self, replayed_oneString, hnew] at hk
  have hkey := congrFun (Option.some.inj hk) (ascii "k")
  have hnone : (Recency.initial.find (ascii "k")).map DrutaValue.view = none := rfl
  have hsome : (oneString.find (ascii "k")).map DrutaValue.view =
      some (DrutaValue.ofString (ascii "v") 0).view := rfl
  rw [hnone, hsome] at hkey
  cases hkey

end DrutaDB
