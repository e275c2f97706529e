import DrutaDB.Proofs.RoundTrip
import DrutaDB.Server

/-!
# The log read back

A log that was written whole is replayed command by command (`replayCalls_log`).  A log whose
tail was torn off is replayed up to the tear, and what was appended behind the tear is read from
the middle of the torn command (`replayCalls_torn`).
-/

namespace DrutaDB

open Machine Decimal Feed RespParser

theorem replayCalls_eq {data : Bytes} (h : data.length < 2 ^ 31) :
    replayCalls data = feed step {} data :=
  parseAndExecute_eq {} h

/-- The replay of a whole log. -/
theorem replayCalls_log {cs : List (List Bytes)} (hcs : ∀ c ∈ cs, Deliverable c)
    (h : (cs.flatMap respCommand).length < 2 ^ 31) :
    replayCalls (cs.flatMap respCommand) = (cs, .ok {}) := by
  obtain ⟨q, hq, hb⟩ := feed_prefix_respCommand hcs List.prefix_rfl
  have hself := completeIn_flatMap cs cs.length
  rw [List.take_length] at hself
  rw [replayCalls_eq h, hq, hself, hb ⟨cs.length, by rw [List.take_length]⟩]

theorem length_le_flatMap {cs : List (List Bytes)} {c : List Bytes} (h : c ∈ cs) :
    (respCommand c).length ≤ (cs.flatMap respCommand).length := by
  obtain ⟨as, bs, rfl⟩ := List.append_of_mem h
  rw [List.flatMap_append, List.flatMap_cons, List.length_append, List.length_append]
  omega

/-- A command whose text is short enough is read back. -/
theorem deliverable_of_length {args : List Bytes} (hne : args ≠ [])
    (h : (respCommand args).length < 2 ^ 31) : Deliverable args := by
  have hbulk : ∀ a : Bytes, a.length < (respBulkString a).length := fun a => by
    simp only [respBulkString, List.length_append, List.length_cons]
    omega
  have htail : (args.flatMap respBulkString).length ≤ (respCommand args).length := by
    simp only [respCommand, List.length_append]
    omega
  have hargs : ∀ as : List Bytes, as.length ≤ (as.flatMap respBulkString).length := fun as => by
    induction as with
    | nil => simp
    | cons a as ih =>
      have := hbulk a
      rw [List.flatMap_cons, List.length_append, List.length_cons]
      omega
  refine ⟨hne, ((hargs args).trans htail).trans_lt h, fun a ha => ?_⟩
  obtain ⟨as, bs, rfl⟩ := List.append_of_mem ha
  have hle : (respBulkString a).length ≤ ((as ++ a :: bs).flatMap respBulkString).length := by
    rw [List.flatMap_append, List.flatMap_cons, List.length_append, List.length_append]
    omega
  exact (hbulk a).trans_le (hle.trans htail) |>.trans h

/-- Whatever follows a torn log, the commands that are complete in it are replayed first; where
it was not torn inside a command, exactly those appended to it follow. -/
theorem replayCalls_torn {cs ds : List (List Bytes)} (hcs : ∀ c ∈ cs, Deliverable c)
    (hds : ∀ d ∈ ds, Deliverable d) {p : Bytes} (hp : p <+: cs.flatMap respCommand)
    (h : (p ++ ds.flatMap respCommand).length < 2 ^ 31) :
    completeIn cs p <+: (replayCalls (p ++ ds.flatMap respCommand)).1
      ∧ ((∃ k, p = (cs.take k).flatMap respCommand) →
        replayCalls (p ++ ds.flatMap respCommand) = (completeIn cs p ++ ds, .ok {})) := by
  obtain ⟨q, hq, hb⟩ := feed_prefix_respCommand hcs hp
  rw [replayCalls_eq h]
  refine ⟨?_, fun hk => ?_⟩
  · have hpre := feed_prefix step {} p (ds.flatMap respCommand)
    rw [hq] at hpre
    exact hpre
  · have hlen : (ds.flatMap respCommand).length < 2 ^ 31 :=
      lt_of_le_of_lt (by rw [List.length_append]; exact Nat.le_add_left _ _) h
    have hd := replayCalls_log hds hlen
    rw [replayCalls_eq hlen] at hd
    rw [hb hk] at hq
    rw [feed_append_ok step _ hq, hd]

/-- A log cut behind a whole command. -/
theorem replayCalls_torn_boundary :
    replayCalls (respCommand [ascii "DEL", ascii "a"] ++ respCommand [ascii "DEL", ascii "b"]) =
      ([[ascii "DEL", ascii "a"], [ascii "DEL", ascii "b"]], .ok {}) :=
  have hcs : ∀ c ∈ [[ascii "DEL", ascii "a"], [ascii "DEL", ascii "c"]], Deliverable c := by decide
  have hds : ∀ d ∈ [[ascii "DEL", ascii "b"]], Deliverable d := by decide
  (replayCalls_torn hcs hds (by decide) (by decide)).2 ⟨1, by decide⟩

/-- Where the crash cut the log inside a command, the command appended after the restart is not
replayed. -/
theorem replayCalls_torn_lost :
    ∃ (cs ds : List (List Bytes)) (p : Bytes), (∀ c ∈ cs, Deliverable c)
      ∧ (∀ d ∈ ds, Deliverable d) ∧ p <+: cs.flatMap respCommand ∧ p.length ≤ rewriteThreshold
      ∧ (replayCalls (p ++ ds.flatMap respCommand)).1 ≠ completeIn cs p ++ ds :=
  ⟨[[ascii "DEL", ascii "a"]], [[ascii "DEL", ascii "b"]], ascii "*2\r\n$3\r\nDE",
    by decide, by decide, by decide, by decide, by decide⟩

end DrutaDB
