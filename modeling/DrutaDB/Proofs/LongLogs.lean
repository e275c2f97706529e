import DrutaDB.Proofs.Emptied
import DrutaDB.Proofs.FailedRewrite

/-!
# Long logs

`replay_aof` hands the length of the file to the parser as an `int`.  A log is replayed to its end,
and what is rewritten after that holds every key, exactly if the length fits (`replayAof_covers_iff`);
a log of two to four gigabytes is not read at all, and the rewrite leaves an empty one
(`replayAof_loses`).
-/

namespace DrutaDB

open Machine Decimal Feed RespParser Store

/-- The file is a log with the command that makes the node. -/
def Restores (now : ℤ) (file : Bytes) (n : DrutaNode) : Prop :=
  ∃ cs : List (List Bytes), file = cs.flatMap respCommand ∧ ∃ c ∈ cs, rewriteCommand now n = some c

/-- The replay of the log of the commands executes them all, and a rewrite after it writes every
key they leave, empty and expired ones apart. -/
structure ReplayCovers (cs : List (List Bytes)) : Prop where
  calls : (replayCalls (cs.flatMap respCommand)).1 = cs
  executes : ∀ (env : Env) (s : Server), s.aof = cs.flatMap respCommand →
    replayCommands env s = handleAll env (-1) cs s
  restores : ∀ (env : Env) (s t : Server),
    handleAll env (-1) cs { aof := cs.flatMap respCommand } = .ok t →
    replayAof env { aof := cs.flatMap respCommand } = .ok s → rewriteThreshold < t.aof.length →
    env.disk.opens = true → env.disk.renames = true → env.disk.room = none →
    ∀ (key : Bytes) (n : DrutaNode), t.store.kvStore[key]? = some n →
      n.value.expired env.now = false → n.value.data.isEmpty = false → Restores env.now s.aof n

section Covers

variable {cs : List (List Bytes)} {env : Env} {s t : Server} {r : Recency}

theorem handleAll_store : ∀ {cs : List (List Bytes)} {s t : Server} {r : Recency},
    s.store = r.toStore → handleAll env (-1) cs s = .ok t → ∃ r' : Recency, t.store = r'.toStore
  | [], s, t, r, hs, h => ⟨r, Except.ok.inj h ▸ hs⟩
  | args :: cs, s, t, r, hs, h => by
    unfold handleAll at h
    rcases ha : (handleCommand env (-1) args s).2 with f | s' <;> rw [ha] at h
    · cases h
    · obtain ⟨r', hr', -⟩ := step_took (e := .command env (-1) args) hs ha
      exact handleAll_store hr' h

/-- A node that neither expired nor is empty is written. -/
theorem rewriteCommand_isSome {now : ℤ} {n : DrutaNode} (hexp : n.value.expired now = false)
    (hfull : n.value.data.isEmpty = false) : ∃ c, rewriteCommand now n = some c := by
  have hlive : ¬ (0 < n.value.expiryTime ∧ n.value.expiryTime < now) := by
    rintro ⟨hpos, hlt⟩
    rw [Bool.eq_false_iff] at hexp
    exact hexp (by simp [DrutaValue.expired, hpos.ne', hlt])
  unfold rewriteCommand
  rw [if_neg hlive]
  rcases hd : n.value.data with b | l | h | t <;> rw [hd] at hfull <;> dsimp only
  · exact ⟨_, rfl⟩
  · rw [if_neg (List.isEmpty_eq_false_iff.1 hfull)]
    exact ⟨_, rfl⟩
  · rw [if_neg (of_decide_eq_false hfull)]
    exact ⟨_, rfl⟩
  · rw [show t.isEmpty = false from hfull]
    exact ⟨_, rfl⟩

theorem mem_nodeList_of_kvStore {key : Bytes} {n : DrutaNode}
    (hn : r.toStore.kvStore[key]? = some n) : n ∈ nodeList none r.nodes.entries := by
  have hat : nodeAt none none r.nodes.entries key = some n := by
    simpa [Recency.toStore, linked] using hn
  exact ((nodeAt_eq_some_iff r.nodes.nodup).1 hat).1

/-- A log that is too long is cut off, and its last command is not executed. -/
theorem replayCalls_ne_of_long (hcs : ∀ c ∈ cs, Deliverable c)
    (h : 2 ^ 31 ≤ (cs.flatMap respCommand).length) :
    (replayCalls (cs.flatMap respCommand)).1 ≠ cs := by
  intro hcalls
  have hk : (toInt (cs.flatMap respCommand).length).toNat < (cs.flatMap respCommand).length := by
    have hlt := toInt_lt (cs.flatMap respCommand).length
    omega
  obtain ⟨q, hq, -⟩ := feed_prefix_respCommand hcs (List.take_prefix
    (toInt (cs.flatMap respCommand).length).toNat (cs.flatMap respCommand))
  obtain ⟨c, rest, hrest⟩ := completeIn_take hk
  have hcomplete : completeIn cs ((cs.flatMap respCommand).take
      (toInt (cs.flatMap respCommand).length).toNat) = cs := by
    rw [replayCalls, parseAndExecute, hq] at hcalls
    exact hcalls
  rw [hcomplete] at hrest
  have hlen := congrArg List.length hrest
  simp at hlen

theorem replayCommands_eq (hcs : ∀ c ∈ cs, Deliverable c)
    (h : (cs.flatMap respCommand).length < 2 ^ 31) (hs : s.aof = cs.flatMap respCommand) :
    replayCommands env s = handleAll env (-1) cs s := by
  unfold replayCommands
  rw [hs, replayCalls_log hcs h]
  rcases handleAll env (-1) cs s with f | t <;> rfl

/-- What a rewrite after the replay writes. -/
theorem restores_of_lt (hcs : ∀ c ∈ cs, Deliverable c)
    (hlen : (cs.flatMap respCommand).length < 2 ^ 31)
    (ht : handleAll env (-1) cs { aof := cs.flatMap respCommand } = .ok t)
    (hs : replayAof env { aof := cs.flatMap respCommand } = .ok s)
    (hsize : rewriteThreshold < t.aof.length) (ho : env.disk.opens = true)
    (hr : env.disk.renames = true) (hroom : env.disk.room = none) {key : Bytes} {n : DrutaNode}
    (hn : t.store.kvStore[key]? = some n) (hexp : n.value.expired env.now = false)
    (hfull : n.value.data.isEmpty = false) : Restores env.now s.aof n := by
  obtain ⟨r, hst⟩ := handleAll_store (r := .initial) rfl ht
  have hrewrite : rewriteAof env { t with lastRewriteSize := t.aof.length } = .ok s := by
    unfold replayAof at hs
    rw [replayCommands_eq hcs hlen rfl, ht] at hs
    simp only [bind, Except.bind] at hs
    rwa [if_pos hsize] at hs
  have haof := rewriteAof_file (s := { t with lastRewriteSize := t.aof.length }) hst hrewrite
  rw [if_pos ⟨ho, hr⟩, Disk.written, hroom] at haof
  obtain ⟨c, hc⟩ := rewriteCommand_isSome hexp hfull
  rw [hst] at hn
  exact ⟨rewriteCommands env.now r, haof, c,
    List.mem_filterMap.2 ⟨n, mem_nodeList_of_kvStore hn, hc⟩, hc⟩

/-- The replay covers a log exactly if its length fits an `int`. -/
theorem replayAof_covers_iff (hcs : ∀ c ∈ cs, Deliverable c) :
    ReplayCovers cs ↔ (cs.flatMap respCommand).length < 2 ^ 31 := by
  constructor
  · intro h
    by_contra hlong
    exact replayCalls_ne_of_long hcs (not_lt.1 hlong) h.calls
  · intro h
    refine ⟨?_, fun env s hs => replayCommands_eq hcs h hs, ?_⟩
    · rw [replayCalls_log hcs h]
    · intro env s t ht hs hsize ho hr hroom key n hn hexp hfull
      exact restores_of_lt hcs h ht hs hsize ho hr hroom hn hexp hfull

/-- A hash and many writes of one key. -/
def manyWrites : List (List Bytes) :=
  [ascii "HSET", ascii "h", ascii "f", ascii "a"] ::
    List.replicate 400 [ascii "SET", ascii "k", ascii "v"]

/-- A log that is rewritten once it is replayed. -/
theorem replayAof_covers_iff_many : rewriteThreshold < (manyWrites.flatMap respCommand).length ∧
    ReplayCovers manyWrites :=
  ⟨by decide +kernel, (replayAof_covers_iff (by decide +kernel)).2 (by decide +kernel)⟩

/-- Of a log of two to four gigabytes nothing is read, and the rewrite leaves an empty file. -/
theorem replayAof_loses {log : Bytes} (hlow : 2 ^ 31 ≤ log.length) (hhigh : log.length < 2 ^ 32)
    (ho : env.disk.opens = true) (hr : env.disk.renames = true) (hroom : env.disk.room = none) :
    replayCalls log = ([], .ok {}) ∧ ∃ s, replayAof env { aof := log } = .ok s ∧ s.aof = [] := by
  have hneg : (toInt log.length).toNat = 0 := by
    unfold toInt
    rw [Int.bmod_def]
    split_ifs <;> omega
  have hcalls : replayCalls log = ([], .ok {}) := by
    rw [replayCalls, parseAndExecute, hneg, List.take_zero, feed_nil]
  refine ⟨hcalls, ?_⟩
  have hreplay : replayCommands env { aof := log } = .ok { aof := log } := by
    unfold replayCommands
    rw [hcalls]
    rfl
  have hsize : rewriteThreshold < log.length := lt_of_lt_of_le (by decide) hlow
  unfold replayAof
  rw [hreplay]
  simp only [bind, Except.bind]
  rw [if_pos hsize]
  have htext : rewriteText env.now (nodeList none Recency.initial.nodes.entries) = .ok [] := rfl
  obtain ⟨s, hs⟩ := rewriteAof_runs (s := { aof := log, lastRewriteSize := log.length })
    (r := .initial) ho rfl htext
  refine ⟨s, hs, ?_⟩
  rw [rewriteAof_file (r := .initial) (s := { aof := log, lastRewriteSize := log.length }) rfl hs,
    if_pos ⟨ho, hr⟩, Disk.written, hroom]
  rfl

/-- Enough writes of one key. -/
theorem not_replayCovers : ¬ ∀ cs : List (List Bytes), (∀ c ∈ cs, Deliverable c) →
    ReplayCovers cs := by
  intro h
  obtain ⟨n, hn⟩ : ∃ n : ℕ, n = 2 ^ 27 := ⟨_, rfl⟩
  have hdeliver : ∀ c ∈ List.replicate n [ascii "SET", ascii "k", ascii "v"], Deliverable c :=
    fun c hc => by
      rw [(List.mem_replicate.1 hc).2]
      decide
  have hone : (respCommand [ascii "SET", ascii "k", ascii "v"]).length = 27 := by decide
  have hlen : ((List.replicate n [ascii "SET", ascii "k", ascii "v"]).flatMap respCommand).length =
      n * 27 := by
    rw [List.length_flatMap, List.map_replicate, List.sum_replicate, hone, smul_eq_mul]
  have hshort := (replayAof_covers_iff hdeliver).1 (h _ hdeliver)
  rw [hlen] at hshort
  omega

end Covers

end DrutaDB
