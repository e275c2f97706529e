import DrutaDB.Proofs.Frames

/-!
# Which bytes stop the parser

An exception leaves `parse_and_execute` exactly where a line that opens a frame holds no number of
an `int` (`feed_ok_iff`); the length of an argument is converted under a handler.
-/

namespace DrutaDB

open Machine Decimal Feed RespParser

namespace RespParser

/-- The one place where a step fails. -/
theorem step_error {p : RespParser} {c : UInt8} {e : StdException} (h : step p c = .error e) :
    p.state = .readingArraySize ∧ c = lf ∧ stoi p.currentBuffer = .error e := by
  rcases hst : p.state with _ | _ | _ | _
  case readingArraySize =>
    simp only [step, hst] at h
    split_ifs at h with hlf
    rcases hn : stoi p.currentBuffer with e' | n <;> simp only [hn] at h
    · exact ⟨rfl, hlf, congrArg Except.error (Except.error.inj h)⟩
    · cases h
  case readingBulkSize =>
    simp only [step, hst] at h
    split_ifs at h
    split at h <;> cases h
  all_goals
    simp only [step, hst] at h
    split_ifs at h

/-- The text between a `*` that opens a frame and the next LF, CRs left out, is a number. -/
def HeadersRead (xs : Bytes) : Prop :=
  ∀ u line rest, xs = u ++ byte '*' :: line ++ lf :: rest → Between u → lf ∉ line →
    ∃ n, stoi (line.filter (· ≠ cr)) = .ok n

theorem feed_ok_iff (xs : Bytes) : (∃ p, (feed step {} xs).2 = .ok p) ↔ HeadersRead xs := by
  constructor
  · rintro ⟨p, hp⟩ u line rest rfl hu hline
    by_contra hn
    obtain ⟨os, hos⟩ := feed_between hu
    have hopen := feed_append_ok step (byte '*' :: line) hos
    rw [feed_opening hline] at hopen
    have hlf : ∃ e, step { state := .readingArraySize, currentBuffer := line.filter (· ≠ cr) } lf =
        .error e := by
      rcases hs : stoi (line.filter (· ≠ cr)) with e | n
      · exact ⟨e, by simp only [step, if_pos, hs]⟩
      · exact absurd ⟨n, hs⟩ hn
    obtain ⟨e, he⟩ := hlf
    rw [feed_append_ok step _ hopen, feed_cons_error step he] at hp
    cases hp
  · intro h
    rcases hxs : feed step {} xs with ⟨os, e | p⟩
    · obtain ⟨pre, c, rest, p, rfl, hpre, hc⟩ := exists_of_error step hxs
      obtain ⟨hst, rfl, he⟩ := step_error hc
      obtain ⟨u, f, rfl, -, hu, ⟨rfl, rfl⟩ | hf⟩ := feed_opened hpre
      · cases hst
      · cases hf with
        | array line _ _ hline hbuf hf =>
          subst hf
          obtain ⟨n, hn⟩ := h u line rest rfl hu hline
          rw [← hbuf, he] at hn
          cases hn
        | bulk _ _ _ hst' => exact absurd (hst.symm.trans hst') (by decide)
        | data _ _ _ hst' => exact absurd (hst.symm.trans hst') (by decide)
    · exact ⟨p, rfl⟩

end RespParser

/-- Every call over the chunks returns if and only if every line that opens a frame in them holds a
number. -/
theorem parseChunks_returns_iff (chunks : List Bytes) :
    (∃ p, (parseChunks {} chunks).2 = .ok p) ↔ HeadersRead (chunks.map readBytes).flatten := by
  rw [parseChunks_readBytes]
  exact RespParser.feed_ok_iff _

/-- A header without a number. -/
theorem parseChunks_throws : ¬ ∀ chunks : List Bytes, ∃ p, (parseChunks {} chunks).2 = .ok p := by
  intro h
  obtain ⟨p, hp⟩ := h [ascii "*x\r\n"]
  have herr : (parseChunks {} [ascii "*x\r\n"]).2 = .error .invalidArgument := by decide
  rw [herr] at hp
  cases hp

end DrutaDB
