import DrutaDB.Proofs.Compaction
import DrutaDB.Proofs.Durability
import DrutaDB.Proofs.Timers

/-!
# Crashes

What a process held back is lost when it ends without closing the file, in the middle of a command
or between two.  What is in the file then still brings back the contents the server had after some
of the commands on record, and at least those that were on record when all was written last
(`crash_recovers`).
-/

namespace DrutaDB

open Machine Decimal Capacity Feed Run RespParser

/-- What a key answers and its deadline, unless it is an empty container. -/
def Server.contents (s : Server) (key : Bytes) : Option (View × ℤ) :=
  ((s.store.value key).filter fun v => !v.data.isEmpty).map DrutaValue.view

/-- The values of the run: they have no deadline, their counters are in their type, and they answer
alike when they are written again. -/
def Recency.Sound (r : Recency) : Prop := ∀ k v, r.find k = some v → v.Counted ∧ v.Regular

/-- The commands bring the values back, where they are replayed within the limit. -/
def Mends (now : ℤ) (cs : List (List Bytes)) (r : Recency) : Prop :=
  KeepsReplay now cs .initial →
    ∃ q, replayList now cs .initial = .ok q ∧ ∀ k, Paired 0 (r.find k) (q.find k)

/-! ## Values -/

section Values

variable {r q : Recency} {v w : DrutaValue} {o o' : Option DrutaValue} {t : ℤ}

theorem regular_of_same (h : v.Same w) (hzero : v.expiryTime = 0) : v.Regular := by
  obtain ⟨d, e, m⟩ := v
  obtain ⟨d', e', m'⟩ := w
  obtain rfl : e = 0 := hzero
  obtain ⟨hdata, -⟩ : d.Same d' ∧ (0 : ℤ) = e' := ⟨h.data, h.expiryTime⟩
  cases hdata with
  | string s => exact le_refl (0 : ℤ)
  | list l => rfl
  | hash hd _ _ => exact ⟨rfl, hd⟩
  | set s => rfl

theorem regular_of_gone (h : v.stays t = false) (hd : v.Dated) (hzero : v.expiryTime = 0) :
    v.Regular := by
  rcases gone_cases h hd with ⟨d, e, m, rfl⟩ | ⟨m, rfl⟩ | ⟨g, m, hg, rfl⟩ | ⟨m, rfl⟩
  · exact hzero.ge
  · rfl
  · exact ⟨rfl, distinct_of_size hg⟩
  · rfl

/-- A regular value is paired with itself. -/
theorem paired_self (h : ∀ v, o = some v → v.Regular) : Paired t o o := by
  rcases o with _ | v
  · exact .missing
  · have hr := h v rfl
    have hsame : v.Same v := by
      obtain ⟨d, e, m⟩ := v
      refine ⟨?_, rfl⟩
      cases d with
      | string s => exact .string s
      | list l => exact .list l
      | hash g => exact .hash hr.2 hr.2 rfl
      | set s => exact .set s
    exact hsame.paired (dated_of_regular hr)

/-- Values without a deadline are paired at any time. -/
theorem Paired.at_zero (h : Paired t o o') (hzero : ∀ v, o = some v → v.expiryTime = 0) :
    Paired 0 o o' := by
  cases h with
  | missing => exact .missing
  | same e m m' hdata hd => exact .same e m m' hdata hd
  | @gone v hgone hd =>
    refine .gone ?_ hd
    have := hzero v rfl
    simpa [DrutaValue.stays, DrutaValue.expired, this] using hgone

/-- Paired values without a deadline have the same contents. -/
theorem Paired.contents_eq (h : Paired 0 o o') (hzero : ∀ v, o = some v → v.expiryTime = 0) :
    (o'.filter fun v => !v.data.isEmpty).map DrutaValue.view =
      (o.filter fun v => !v.data.isEmpty).map DrutaValue.view := by
  cases h with
  | missing => rfl
  | same e m m' hdata hd =>
    simp only [Option.filter_some, hdata.isEmpty_eq]
    split_ifs
    · simp only [Option.map_some, DrutaValue.view, hdata.view_eq]
    · rfl
  | @gone v hgone hd =>
    have hempty : v.data.isEmpty = true := by
      have := hzero v rfl
      simpa [DrutaValue.stays, DrutaValue.expired, this] using hgone
    simp only [Option.filter_some, hempty]
    rfl

theorem sound_initial : Recency.initial.Sound := by
  intro k v hv
  simp [Recency.find, Recency.initial, RecencyList.find, RecencyList.empty] at hv

theorem sound_flush : r.flush.Sound := by
  intro k v hv
  simp [Recency.find, Recency.flush, RecencyList.find, RecencyList.empty] at hv

end Values

/-! ## Commands -/

section Commands

variable {now : ℤ} {r r' : Recency} {cs : List (List Bytes)} {env : Env} {args : List Bytes}
  {a : Action} {reply : Bytes} {ok : Bool}

/-- The values after a logged command. -/
theorem Recency.Sound.logged (h : r.Sound) (hplain : Plain args)
    (ha : (callOf args).action env.now args = some a) (hrun : a.run r = .ok ((reply, true), r'))
    (hev : r'.account.evicted = r.account.evicted) : r'.Sound := by
  have hl := logs_of_success ha hrun
  have hcounted := counted_of_run hplain hl ha hrun hev fun k v hv => (h k v hv).1
  refine fun k v hv => ⟨hcounted k v hv, ?_⟩
  have hzero := (hcounted k v hv).expiryTime
  rcases a with ⟨key, f⟩ | m | keys
  · obtain ⟨hok, rfl⟩ := access_after ha hrun hev
    rw [Effect.find_after] at hv
    split_ifs at hv with hk
    · have hself : Paired 0 (r.find key) (r.find key) := paired_self fun v hv => (h key v hv).2
      obtain ⟨u, hu, hd, ⟨w, -, hsame⟩ | ⟨-, -, hgone⟩⟩ := pairs_of_success ha hl hself hok.symm
      all_goals
        rw [Effect.result_of_written hu] at hv
        obtain rfl := Option.some.inj hv
      · exact regular_of_same hsame hzero
      · exact regular_of_gone hgone hd hzero
    · exact (h k v hv).2
  · exact absurd ha (Call.logs_ne_inspect hl)
  · obtain ⟨-, rfl⟩ := Prod.mk.inj (Except.ok.inj hrun)
    rw [find_deleteAll] at hv
    split_ifs at hv
    exact (h k v hv).2

/-- A logged command brings its change back. -/
theorem Mends.logged (h : Mends now cs r) (hplain : Plain args)
    (ha : (callOf args).action env.now args = some a) (hrun : a.run r = .ok ((reply, true), r'))
    (hev : r'.account.evicted = r.account.evicted) : Mends now (cs ++ [args]) r' := by
  intro hkeeps
  have hl := logs_of_success ha hrun
  have ha' := action_of_plain hplain hl ha now
  obtain ⟨q, hq, hpaired⟩ := h hkeeps.of_append
  have hlast := ((keepsReplay_append hq).1 hkeeps).2
  suffices hone : ∃ q', replayOne now q args = .ok q' ∧ ∀ k, Paired 0 (r'.find k) (q'.find k) by
    obtain ⟨q', hq', hpaired'⟩ := hone
    refine ⟨q', ?_, hpaired'⟩
    rw [replayList_snoc, hq]
    exact hq'
  rw [replayOne_eq ha']
  rcases a with ⟨key, f⟩ | m | keys
  · obtain ⟨hok, rfl⟩ := access_after ha hrun hev
    have hpairs := pairs_of_success ha hl (hpaired key) hok.symm
    simp only [KeepsReplay, ha', and_true] at hlast
    rw [Action.run_access (fits_of_action _ ha') hpairs.ne_fail.2 hlast]
    exact ⟨_, rfl, paired_after hpaired hpairs⟩
  · exact absurd ha (Call.logs_ne_inspect hl)
  · obtain ⟨-, rfl⟩ := Prod.mk.inj (Except.ok.inj hrun)
    refine ⟨_, rfl, fun k => ?_⟩
    rw [find_deleteAll, find_deleteAll]
    split_ifs
    · exact .missing
    · exact hpaired k

/-- The commands of a rewrite bring the values back. -/
theorem mends_rewrite (h : r.Sound) (t : ℤ) : Mends now (rewriteCommands t r) r := by
  intro hkeeps
  have hreg : r.Each DrutaValue.Regular := Recency.each_iff.2 fun k v hv => (h k v hv).2
  have hexp : ∀ n ∈ nodeList none r.nodes.entries, n.value.expiryTime < 2 ^ 63 := by
    intro n hn
    have hzero := (h n.key n.value (RecencyList.find_eq_some_iff.2 (mem_nodeList hn))).1.expiryTime
    rw [hzero]
    decide
  have hnodup : ((nodeList none r.nodes.entries).map (·.key)).Nodup := by
    rw [map_key_nodeList]
    exact r.nodes.nodup
  obtain ⟨q, hq, hev⟩ := replayList_keeps hnodup (fun _ _ => rfl) hexp hkeeps
  have hentries := replayList_rebuilds hnodup (fun _ _ => rfl) hexp hq hev
  refine ⟨q, hq, fun k => ?_⟩
  exact ((compacted_rewrite hreg hentries).paired k).at_zero fun v hv => (h k v hv).1.expiryTime

end Commands

/-! ## Steps of the server -/

/-- A rewrite has room on the disk. -/
def Event.Fits : Event → Prop
  | .command env _ _ => env.disk.room = none
  | _ => True

/-- The event sets no deadline, overwrites nothing that is not logged, and has room on the disk. -/
structure Recoverable (s : Server) (e : Event) : Prop where
  fromClient : e.FromClient
  plain : e.Plain
  overwrites : OverwritesNothing s e
  fits : e.Fits

/-- The file holds commands that bring the values back. -/
structure Durable (now : ℤ) (s : Server) (r : Recency) (cs : List (List Bytes)) : Prop
    extends Holds s r cs where
  evicted : r.account.evicted = []
  sound : r.Sound
  mends : Mends now cs r

/-- The commands in the file stay, or all of them go, or one is added. -/
def Grows (cs cs' : List (List Bytes)) : Prop := cs' = cs ∨ cs' = [] ∨ ∃ args, cs' = cs ++ [args]

section Steps

variable {now : ℤ} {s s' : Server} {r : Recency} {cs : List (List Bytes)} {e : Event} {env : Env}
  {fd : ℤ} {args : List Bytes}

/-- A step without a rewrite. -/
theorem Durable.untimed (hd : Durable now s r cs) (he : Recoverable s e)
    (h : s.step e.untimed = .ok s') (hrw : s'.rewrites = s.rewrites) (hev : s'.store.evicted = []) :
    ∃ r' cs', Durable now s' r' cs' ∧ Grows cs cs' := by
  have hfd : e.untimed.FromClient := by
    rcases e with _ | _ | _ <;> exact he.fromClient
  obtain ⟨r', cs', hholds, hlog⟩ := step_logged hd.toHolds hfd h hrw
  rw [hholds.store] at hev
  have hsame : r'.account.evicted = r.account.evicted := hev.trans hd.evicted.symm
  refine ⟨r', cs', ?_⟩
  generalize heq : e.untimed = e' at hlog
  cases hlog with
  | quiet _ => exact ⟨⟨hholds, hev, hd.sound, hd.mends⟩, .inl rfl⟩
  | flush _ =>
    exact ⟨⟨hholds, hev, sound_flush, fun _ => ⟨.initial, rfl, fun _ => .missing⟩⟩, .inr (.inl rfl)⟩
  | unlogged hc hrun =>
    rcases e with _ | _ | ⟨env, fd, args⟩ <;> cases heq
    have hmir := find_of_unlogged hd.store hc he.overwrites (fun k v hv => (hd.sound k v hv).1)
      hrun hsame
    refine ⟨⟨hholds, hev, fun k v hv => hd.sound k v ((hmir.find k).trans hv), fun hkeeps => ?_⟩,
      .inl rfl⟩
    obtain ⟨q, hq, hpaired⟩ := hd.mends hkeeps
    exact ⟨q, hq, fun k => hmir.find k ▸ hpaired k⟩
  | logged hc hrun =>
    rcases e with _ | _ | ⟨env, fd, args⟩ <;> cases heq
    have ha := action_of_change hc
    exact ⟨⟨hholds, hev, hd.sound.logged he.plain ha hrun hsame,
      hd.mends.logged he.plain ha hrun hsame⟩, .inr (.inr ⟨_, rfl⟩)⟩

/-- A rewrite that has room leaves commands that bring the values back. -/
theorem Durable.rewrite (hd : Durable now s r cs) (hroom : env.disk.room = none)
    (h : rewriteAof env s = .ok s') :
    ∃ cs', Durable now s' r cs' ∧ (cs' = cs ∨ env.disk.opens = true) := by
  have hstore : s'.store = r.toStore := (rewriteAof_store h).trans hd.store
  have hfile := rewriteAof_file hd.store h
  split_ifs at hfile with hdisk
  · have hloggable : ∀ c ∈ rewriteCommands env.now r, Loggable c := by
      refine fun c hc => loggable_rewriteCommands (fun e he => ?_) hc
      have hzero := (hd.sound e.1 e.2 (RecencyList.find_eq_some_iff.2 he)).1.expiryTime
      rw [hzero]
      decide
    refine ⟨rewriteCommands env.now r, ⟨⟨hstore, ?_, hloggable⟩, hd.evicted, hd.sound,
      mends_rewrite hd.sound env.now⟩, .inr hdisk.1⟩
    rw [hfile, Disk.written, hroom]
    rfl
  · exact ⟨cs, ⟨⟨hstore, hfile.trans hd.aof, hd.loggable⟩, hd.evicted, hd.sound, hd.mends⟩,
      .inl rfl⟩

/-- A step, with or without a rewrite. -/
theorem Durable.step (hd : Durable now s r cs) (he : Recoverable s e) (h : s.step e = .ok s')
    (hev : s'.store.evicted = []) :
    ∃ r' cs', Durable now s' r' cs' ∧
      (Grows cs cs' ∨ s'.rewrites ≠ s.rewrites ∧ e.opens = true) := by
  obtain ⟨s₁, hs₁, hsame, -, rfl | ⟨env, fd, args, rfl, -, hrewrite⟩⟩ := step_untimed h
  · obtain ⟨r', cs', hd', hgrows⟩ := hd.untimed he hs₁ hsame hev
    exact ⟨r', cs', hd', .inl hgrows⟩
  · obtain ⟨r', cs₁, hd₁, hgrows⟩ := hd.untimed he hs₁ hsame (rewriteAof_store hrewrite ▸ hev)
    obtain ⟨cs', hd', rfl | hopens⟩ := hd₁.rewrite he.fits hrewrite
    · exact ⟨r', cs', hd', .inl hgrows⟩
    · refine ⟨r', cs', hd', .inr ⟨?_, hopens⟩⟩
      rw [rewriteAof_rewrites hrewrite]
      omega

end Steps

/-! ## Steps of the process -/

/-- The commands bring back the contents the server had at some moment that is on record since the
base. -/
def Recalls (now : ℤ) (base record : List Event) (cs : List (List Bytes)) : Prop :=
  ∃ pre s, base <+: pre ∧ pre <+: record ∧ run Server.step {} pre = .ok s ∧
    (KeepsReplay now cs .initial → ∃ q, replayList now cs .initial = .ok q ∧
      ∀ k, ((q.find k).filter fun v => !v.data.isEmpty).map DrutaValue.view = s.contents k)

/-- Of the commands that are written or held back, some are written for certain, and wherever the
others are cut off, those before the cut bring back the contents at some moment. -/
def Survives (now : ℤ) (base : List Event) (p : Process) : Prop :=
  base <+: p.record ∧ ∃ r cs b, Durable now p.logical r cs ∧ b ≤ cs.length ∧
    (cs.take b).flatMap respCommand <+: p.server.aof ∧
    ∀ j, b ≤ j → j ≤ cs.length → Recalls now base p.record (cs.take j)

section Survives

variable {now : ℤ} {base record record' : List Event} {p p' : Process} {r : Recency}
  {cs : List (List Bytes)}

theorem Recalls.mono (h : Recalls now base record cs) (hrecord : record <+: record') :
    Recalls now base record' cs := by
  obtain ⟨pre, s, hbase, hpre, hs⟩ := h
  exact ⟨pre, s, hbase, hpre.trans hrecord, hs⟩

/-- All commands together bring back the present. -/
theorem Durable.recalls (hd : Durable now p.logical r cs) (hbase : base <+: p.record)
    (hrun : run Server.step {} p.record = .ok p.logical) : Recalls now base p.record cs := by
  refine ⟨p.record, p.logical, hbase, List.prefix_rfl, hrun, fun hkeeps => ?_⟩
  obtain ⟨q, hq, hpaired⟩ := hd.mends hkeeps
  refine ⟨q, hq, fun k => ?_⟩
  rw [Server.contents, hd.store, value_toStore]
  exact (hpaired k).contents_eq fun v hv => (hd.sound k v hv).1.expiryTime

/-- Where all is written, nothing can be cut off. -/
theorem Durable.survives (hd : Durable now p.logical r cs) (hbase : base <+: p.record)
    (hrun : run Server.step {} p.record = .ok p.logical) (hheld : p.pending = []) :
    Survives now base p := by
  have hfile : cs.flatMap respCommand = p.server.aof := by
    rw [← hd.aof, Process.logical, Server.logical, hheld, List.append_nil]
  refine ⟨hbase, r, cs, cs.length, hd, le_rfl, ?_, fun j hj hj' => ?_⟩
  · rw [List.take_length, hfile]
  · rw [List.take_of_length_le hj]
    exact hd.recalls hbase hrun

/-- A step of the server takes the process from where it survives to where it does. -/
theorem Survives.steps {e : Event} (h : Survives now base p) (he : Recoverable p.logical e)
    (hrecord : p'.record = p.record ++ [e]) (hstep : p.logical.step e = .ok p'.logical)
    (hfile : Process.Settles e.opens p p') (hrun : run Server.step {} p'.record = .ok p'.logical)
    (hev : p'.server.store.evicted = []) : Survives now base p' := by
  obtain ⟨hbase, r, cs, b, hd, hb, hdisk, hrecalls⟩ := h
  obtain ⟨r', cs', hd', hgrows⟩ := hd.step he hstep hev
  have hpast : p.record <+: p'.record := ⟨[e], hrecord.symm⟩
  have hbase' : base <+: p'.record := hbase.trans hpast
  rcases hfile with hheld | ⟨hkept, hrewrites⟩
  · exact hd'.survives hbase' hrun hheld
  have hgrows : Grows cs cs' := by
    refine hgrows.resolve_right fun ⟨hne, hopens⟩ => hrewrites.elim hne fun hclosed => ?_
    rw [hclosed] at hopens
    cases hopens
  have hnew := hd'.recalls hbase' hrun
  rcases hgrows with rfl | rfl | ⟨args, rfl⟩
  · exact ⟨hbase', r', cs', b, hd', hb, hdisk.trans hkept, fun j hj hj' =>
      (hrecalls j hj hj').mono hpast⟩
  · exact ⟨hbase', r', [], 0, hd', le_rfl, List.nil_prefix, fun j _ _ => by
      rwa [List.take_nil]⟩
  · refine ⟨hbase', r', cs ++ [args], b, hd', ?_, ?_, fun j hj hj' => ?_⟩
    · exact hb.trans (by simp)
    · rw [List.take_append_of_le_length hb]
      exact hdisk.trans hkept
    · rcases Nat.lt_or_ge cs.length j with hlt | hle
      · rw [List.take_of_length_le (by simpa using hlt)]
        exact hnew
      · rw [List.take_append_of_le_length hle]
        exact (hrecalls j hj hle).mono hpast

/-- What holds of every process of a run. -/
structure Survivor (now : ℤ) (base : List Event) (p : Process) : Prop where
  list : ∃ r : Recency, p.server.store = r.toStore
  runs : run Server.step {} p.record = .ok p.logical
  survives : Meets Server.step Recoverable {} p.record → p.server.store.evicted = [] →
    Survives now base p

theorem Survivor.advances (h : Survivor now base p) (ha : Advances p p') :
    Survivor now base p' := by
  obtain ⟨⟨r, hr⟩, hruns, hsurvives⟩ := h
  cases ha with
  | stays hrecord hlogical hfile =>
    have hstore := congrArg Server.store hlogical
    change p'.server.store = p.server.store at hstore
    refine ⟨⟨r, hstore.trans hr⟩, by rw [hrecord, hlogical, hruns], fun hm hev => ?_⟩
    rw [hrecord] at hm
    rw [hstore] at hev
    obtain ⟨hbase, r, cs, b, hd, hb, hdisk, hrecalls⟩ := hsurvives hm hev
    refine ⟨hrecord ▸ hbase, r, cs, b, hlogical ▸ hd, hb, hdisk.trans hfile, ?_⟩
    rw [hrecord]
    exact hrecalls
  | @steps e hrecord hstep hfile =>
    obtain ⟨r', hr', htook⟩ := step_took (s := p.logical) hr hstep
    have hrun : run Server.step {} p'.record = .ok p'.logical := by
      rw [hrecord, run_append _ _ hruns, run_cons_ok hstep]
      rfl
    refine ⟨⟨r', hr'⟩, hrun, fun hm hev => ?_⟩
    rw [hrecord] at hm
    obtain ⟨hpast, hlast⟩ := hm.append
    have hnone : p.server.store.evicted = [] := by
      have hsub := htook.evicted
      have hr₁ : r'.account.evicted = [] := (congrArg Store.evicted hr').symm.trans hev
      rw [hr₁] at hsub
      exact (congrArg Store.evicted hr).trans (List.prefix_nil.1 hsub)
    exact (hsurvives hpast hnone).steps (hlast _ hruns).1 hrecord hstep hfile hrun hev

/-- Commands that are written are complete. -/
theorem take_prefix_completeIn : ∀ {cs : List (List Bytes)} {b : ℕ} {file : Bytes},
    (cs.take b).flatMap respCommand <+: file → cs.take b <+: completeIn cs file
  | [], b, file, _ => by
    rw [List.take_nil]
    exact List.nil_prefix
  | c :: cs, 0, file, _ => List.nil_prefix
  | c :: cs, b + 1, file, h => by
    rw [List.take_succ_cons, List.flatMap_cons] at h
    obtain ⟨rest, rfl⟩ := (List.prefix_append _ _).trans h
    rw [List.prefix_append_right_inj] at h
    rw [completeIn, if_pos (List.prefix_append _ _), List.drop_left, List.take_succ_cons,
      List.cons_prefix_cons]
    exact ⟨rfl, take_prefix_completeIn h⟩

/-- What a crash leaves in the file is replayed to the contents at some moment. -/
theorem Survives.recovers {env : Env} {calls : List (List Bytes)} (h : Survives env.now base p)
    (hlen : p.logical.aof.length < 2 ^ 31) (hcalls : (replayCalls p.server.aof).1 = calls)
    (hkeeps : KeepsReplay env.now calls .initial) :
    ∃ pre s s', base <+: pre ∧ pre <+: p.record ∧ run Server.step {} pre = .ok s ∧
      replayCommands env { aof := p.server.aof } = .ok s' ∧ s'.contents = s.contents := by
  obtain ⟨-, r, cs, b, hd, hb, hdisk, hrecalls⟩ := h
  have hwritten : p.server.aof <+: cs.flatMap respCommand := by
    rw [← hd.aof]
    exact List.prefix_append _ _
  rw [hd.aof] at hlen
  have hcs : ∀ c ∈ cs, Deliverable c := fun c hc =>
    deliverable_of_length (hd.loggable c hc).1 ((length_le_flatMap hc).trans_lt hlen)
  obtain ⟨parser, hfeed, -⟩ := feed_prefix_respCommand hcs hwritten
  have hread : replayCalls p.server.aof = (completeIn cs p.server.aof, .ok parser) := by
    rw [replayCalls_eq (hwritten.length_le.trans_lt hlen)]
    exact hfeed
  rw [hread] at hcalls
  subst hcalls
  have hcomplete := (prefix_of_completeIn cs p.server.aof).1
  have htake := List.prefix_iff_eq_take.1 hcomplete
  have hle : b ≤ (completeIn cs p.server.aof).length := by
    have := (take_prefix_completeIn hdisk).length_le
    rwa [List.length_take_of_le hb] at this
  obtain ⟨pre, s, hbase, hpre, hs, hreplay⟩ := hrecalls _ hle hcomplete.length_le
  rw [← htake] at hreplay
  obtain ⟨q, hq, hcontents⟩ := hreplay hkeeps
  have hloggable : ∀ c ∈ completeIn cs p.server.aof, Loggable c := fun c hc =>
    hd.loggable c (hcomplete.subset hc)
  obtain ⟨s', hs', hstore⟩ := replayCommands_of_calls env hread hloggable hq
  refine ⟨pre, s, s', hbase, hpre, hs, hs', funext fun k => ?_⟩
  rw [Server.contents, hstore, value_toStore]
  exact hcontents k

end Survives

/-! ## Crashes -/

section Crashes

variable {rounds : List Round} {r : Round} {ticks : List Tick} {p q : Process} {env : Env}
  {calls : List (List Bytes)}

theorem logical_initial : ({} : Process).logical = {} := by
  unfold Process.logical Server.logical
  congr 1

theorem survivor_initial (now : ℤ) : Survivor now [] {} where
  list := ⟨.initial, rfl⟩
  runs := by
    rw [logical_initial]
    rfl
  survives _ _ := by
    have hd : Durable now ({} : Process).logical .initial [] := by
      rw [logical_initial]
      exact ⟨⟨rfl, rfl, by simp⟩, rfl, sound_initial, fun _ => ⟨.initial, rfl, fun _ => .missing⟩⟩
    refine hd.survives List.prefix_rfl ?_ rfl
    rw [logical_initial]
    rfl

/-- A process that has all written may lose what comes after that, and nothing else. -/
theorem Survivor.rebase {now : ℤ} {base : List Event} (h : Survivor now base q)
    (hheld : q.pending = []) : Survivor now q.record q where
  list := h.list
  runs := h.runs
  survives hm hev := by
    obtain ⟨-, r, cs, b, hd, -⟩ := h.survives hm hev
    exact hd.survives List.prefix_rfl h.runs hheld

/-- Of a process that had all written once, only what came after that can be lost. -/
theorem survivor_run (now : ℤ)
    (ho : Orderly ((rounds.flatMap Round.ticks ++ ticks).flatMap Tick.events))
    (hq : run Process.round {} rounds = .ok q) (hheld : q.pending = [])
    (hp : run Process.tick q ticks = .ok p) : Survivor now q.record p := by
  rw [run_round_eq] at hq
  have hstart : Process.start {} [] = .ok {} := rfl
  have ho₁ : Orderly (([] ++ rounds.flatMap Round.ticks).flatMap Tick.events) := by
    refine fun us e hus => ho us e (hus.trans ?_)
    rw [List.nil_append, List.flatMap_append]
    exact List.prefix_append _ _
  obtain ⟨⟨d, hd, hrefines⟩, hsurvivor⟩ := (refines_start hstart).runs_on (l := [])
    (fun _ _ h ha => h.advances ha) rfl (survivor_initial now) ho₁ hq
  rw [List.nil_append] at hd hrefines
  exact (hrefines.runs_on (fun _ _ h ha => h.advances ha) hd (hsurvivor.rebase hheld) ho hp).2

/-- A process that crashes, in the middle of a round or between two, comes back with the contents it
had after some of the commands on record, not fewer than when all was written last. -/
theorem crash_recovers (ho : Orderly ((rounds.flatMap Round.ticks ++ ticks).flatMap Tick.events))
    (hq : run Process.round {} rounds = .ok q) (hheld : q.pending = [])
    (hp : run Process.tick q ticks = .ok p)
    (hm : Meets Server.step Recoverable {} p.record) (hev : p.server.store.evicted = [])
    (hlen : p.logical.aof.length < 2 ^ 31) (hcalls : (replayCalls p.server.aof).1 = calls)
    (hkeeps : KeepsReplay env.now calls .initial) :
    ∃ pre s s', q.record <+: pre ∧ pre <+: p.record ∧ run Server.step {} pre = .ok s ∧
      replayCommands env { aof := p.server.aof } = .ok s' ∧ s'.contents = s.contents :=
  ((survivor_run env.now ho hq hheld hp).survives hm hev).recovers hlen hcalls hkeeps

/-- A process is about to take another connection and crashes.  The first push is in the file, which
is replayed, and the second one was held back. -/
theorem exists_crash : ∃ q u p, run Process.round {} [firstPush, quietRound] = .ok q ∧
    q.pending = [] ∧ run Process.round {} ([firstPush, quietRound] ++ [secondPush]) = .ok u ∧
    run Process.tick q (secondPush.ticks ++ [.accept 5]) = .ok p ∧
    run Process.tick u [.accept 5] = .ok p ∧ p.server.aof = respCommand (pushOf "a") ∧
    p.pending = respCommand (pushOf "b") ∧ p.server.store.evicted = [] ∧
    Meets Server.step Recoverable {} p.record ∧ p.logical.aof.length < 2 ^ 31 ∧
    (replayCalls p.server.aof).1 = [pushOf "a"] := by
  obtain ⟨q, hq, hheld⟩ : ∃ q, run Process.round {} [firstPush, quietRound] = .ok q ∧
      q.pending = [] := exists_of_any (by decide +kernel)
  obtain ⟨u, hu, -⟩ := exists_pushes
  obtain ⟨p, hp, hrecord, haof, hlost, hev⟩ : ∃ p, run Process.tick {}
      ([firstPush, quietRound].flatMap Round.ticks ++ (secondPush.ticks ++ [.accept 5])) = .ok p ∧
      p.record = [.connect 4, .command {} 4 (pushOf "a"), .command {} 4 (pushOf "b"),
        .connect 5] ∧ p.server.aof = respCommand (pushOf "a") ∧
      p.pending = respCommand (pushOf "b") ∧ p.server.store.evicted = [] :=
    exists_of_any (by decide +kernel)
  refine ⟨q, u, p, hq, hheld, hu, ?_, ?_, haof, hlost, hev, ?_, ?_, ?_⟩
  · rwa [run_append _ _ ((run_round_eq _ _).symm.trans hq)] at hp
  · have hticks : [firstPush, quietRound].flatMap Round.ticks ++ (secondPush.ticks ++ [.accept 5]) =
        [firstPush, quietRound, secondPush].flatMap Round.ticks ++ [.accept 5] := by simp
    rwa [hticks, run_append _ _ ((run_round_eq _ _).symm.trans hu)] at hp
  · rw [hrecord]
    have hfd : (4 : ℤ) ≠ -1 := by decide
    have hpush : ∀ v s, callOf (pushOf v) = .rpush → Recoverable s (.command {} 4 (pushOf v)) := by
      intro v s hv
      exact ⟨hfd, fun hc => by simp [hv] at hc, fun hc => by simp [hv] at hc, rfl⟩
    refine Meets.of_mem fun e he s => ?_
    simp only [List.mem_cons, List.not_mem_nil, or_false] at he
    rcases he with rfl | rfl | rfl | rfl
    · exact ⟨trivial, trivial, trivial, trivial⟩
    · exact hpush "a" s (by decide)
    · exact hpush "b" s (by decide)
    · exact ⟨trivial, trivial, trivial, trivial⟩
  · rw [Process.logical, Server.logical, haof, hlost]
    exact (by decide : (respCommand (pushOf "a") ++ respCommand (pushOf "b")).length < 2 ^ 31)
  · rw [haof]
    decide +kernel

/-- The file is replayed without an eviction. -/
theorem keepsReplay_push : KeepsReplay ({} : Env).now [pushOf "a"] .initial :=
  ⟨by decide +kernel, trivial⟩

/-- A restart brings the first push back. -/
theorem exists_restart : ∃ s, replayCommands {} { aof := respCommand (pushOf "a") } = .ok s ∧
    (handleCommand {} 4 readCommand s).1 = [(4, ascii "*1\r\n$1\r\na\r\n")] :=
  exists_of_any (by decide +kernel)

theorem orderly_crash : Orderly (([firstPush, quietRound].flatMap Round.ticks ++
    (secondPush.ticks ++ [Tick.accept 5])).flatMap Tick.events) := by
  decide +kernel

theorem crash_recovers_push : ∃ q p, run Process.round {} [firstPush, quietRound] = .ok q ∧
    run Process.tick q (secondPush.ticks ++ [.accept 5]) = .ok p ∧
    p.pending = respCommand (pushOf "b") ∧
    ∃ pre s s', q.record <+: pre ∧ pre <+: p.record ∧ run Server.step {} pre = .ok s ∧
      replayCommands {} { aof := p.server.aof } = .ok s' ∧ s'.contents = s.contents ∧
      (handleCommand {} 4 readCommand s').1 = [(4, ascii "*1\r\n$1\r\na\r\n")] := by
  obtain ⟨q, u, p, hq, hheld, -, hp, -, haof, hlost, hev, hm, hlen, hcalls⟩ := exists_crash
  obtain ⟨pre, s, s', hbase, hpre, hs, hs', hcontents⟩ := crash_recovers orderly_crash hq
    hheld hp hm hev hlen hcalls keepsReplay_push
  obtain ⟨t, ht, hread⟩ := exists_restart
  obtain rfl : s' = t := Except.ok.inj (hs'.symm.trans (haof ▸ ht))
  exact ⟨q, p, hq, hp, hlost, pre, s, s', hbase, hpre, hs, hs', hcontents, hread⟩

/-- A process that crashes loses no more than what came in during the second before it last looked
at the clock, and what came in after that. -/
theorem crash_loses_a_second
    (ho : Orderly (((rounds ++ [r]).flatMap Round.ticks ++ ticks).flatMap Tick.events))
    (hsteady : Steady (rounds ++ [r])) (hq : run Process.round {} (rounds ++ [r]) = .ok q)
    (hp : run Process.tick q ticks = .ok p)
    (hm : Meets Server.step Recoverable {} p.record) (hev : p.server.store.evicted = [])
    (hlen : p.logical.aof.length < 2 ^ 31) (hcalls : (replayCalls p.server.aof).1 = calls)
    (hkeeps : KeepsReplay env.now calls .initial) :
    ∃ done later u, rounds ++ [r] = done ++ later ∧ (∀ l ∈ later, r.now - l.now < second) ∧
      run Process.round {} done = .ok u ∧
      ∃ pre s s', u.record <+: pre ∧ pre <+: p.record ∧ run Server.step {} pre = .ok s ∧
        replayCommands env { aof := p.server.aof } = .ok s' ∧ s'.contents = s.contents := by
  obtain ⟨v, hv, hr⟩ := run_snoc hq
  obtain ⟨hflushes, mark, hmark, hnow⟩ :=
    (flushes_run rfl rfl hsteady.of_append hv).round rfl hsteady hv hr
  obtain ⟨done, later, u, happ, hdone, hheld, hlater, hpast⟩ := hflushes.at_mark mark hmark
  refine ⟨done, later, u, happ, fun l hl => ?_, hdone, ?_⟩
  · have := hpast l hl
    omega
  have hticks : run Process.tick u (later.flatMap Round.ticks ++ ticks) = .ok p := by
    rw [run_round_eq] at hlater
    rw [run_append _ _ hlater, hp]
  have happend : (rounds ++ [r]).flatMap Round.ticks ++ ticks =
      done.flatMap Round.ticks ++ (later.flatMap Round.ticks ++ ticks) := by
    rw [happ, List.flatMap_append, List.append_assoc]
  rw [happend] at ho
  exact ((survivor_run env.now ho hdone hheld hticks).survives hm hev).recovers hlen hcalls hkeeps

theorem crash_loses_a_second_push : ∃ q p,
    run Process.round {} ([firstPush, quietRound] ++ [secondPush]) = .ok q ∧
    run Process.tick q [.accept 5] = .ok p ∧ p.pending = respCommand (pushOf "b") ∧
    ∃ done later u, [firstPush, quietRound] ++ [secondPush] = done ++ later ∧
      (∀ l ∈ later, secondPush.now - l.now < second) ∧ run Process.round {} done = .ok u ∧
      ∃ pre s s', u.record <+: pre ∧ pre <+: p.record ∧ run Server.step {} pre = .ok s ∧
        replayCommands {} { aof := p.server.aof } = .ok s' ∧ s'.contents = s.contents ∧
        (handleCommand {} 4 readCommand s').1 = [(4, ascii "*1\r\n$1\r\na\r\n")] := by
  obtain ⟨-, q, p, -, -, hq, -, hp, haof, hlost, hev, hm, hlen, hcalls⟩ := exists_crash
  have hsteady : Steady ([firstPush, quietRound] ++ [secondPush]) := by unfold Steady; decide
  have ho : Orderly ((([firstPush, quietRound] ++ [secondPush]).flatMap Round.ticks ++
      [Tick.accept 5]).flatMap Tick.events) := by
    decide +kernel
  obtain ⟨done, later, u, happ, hpast, hdone, pre, s, s', hbase, hpre, hs, hs', hcontents⟩ :=
    crash_loses_a_second ho hsteady hq hp hm hev hlen hcalls keepsReplay_push
  obtain ⟨t, ht, hread⟩ := exists_restart
  obtain rfl : s' = t := Except.ok.inj (hs'.symm.trans (haof ▸ ht))
  exact ⟨q, p, hq, hp, hlost, done, later, u, happ, hpast, hdone, pre, s, s', hbase, hpre, hs, hs',
    hcontents, hread⟩

end Crashes

end DrutaDB
