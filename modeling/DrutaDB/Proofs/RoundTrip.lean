import DrutaDB.Parser

/-!
# Reading commands back

The parser reads the text of a command in one quiet stretch up to its last byte, where it hands
the arguments on and is fresh again (`feed_respCommand`).  So over any prefix of a stream of
commands it hands on the commands that are complete in it (`feed_prefix_respCommand`), however
the prefix is cut into chunks (`parseChunks_respCommand`).
-/

namespace DrutaDB

open Machine Decimal Feed

/-- What the parser can deliver, and `format_resp_command` write so that it is read back. -/
def Deliverable (args : List Bytes) : Prop :=
  args ≠ [] ∧ args.length < 2 ^ 31 ∧ ∀ a ∈ args, a.length < 2 ^ 31

/-- The commands of the list whose texts lie completely inside `p`, which starts as the texts of
the list do. -/
def completeIn : List (List Bytes) → Bytes → List (List Bytes)
  | [], _ => []
  | c :: cs, p =>
    if respCommand c <+: p then c :: completeIn cs (p.drop (respCommand c).length) else []

instance (args : List Bytes) : Decidable (Deliverable args) := by
  unfold Deliverable
  infer_instance

theorem respCommand_ne_nil (args : List Bytes) : respCommand args ≠ [] := by
  simp [respCommand]

/-- What is complete in the text of commands are these commands. -/
theorem completeIn_flatMap : ∀ (cs : List (List Bytes)) (k : ℕ),
    completeIn cs ((cs.take k).flatMap respCommand) = cs.take k
  | [], _ => by simp [completeIn]
  | c :: cs, 0 => by simp [completeIn, respCommand_ne_nil]
  | c :: cs, k + 1 => by
    rw [List.take_succ_cons, List.flatMap_cons, completeIn, if_pos (List.prefix_append _ _),
      List.drop_left, completeIn_flatMap cs k]

namespace RespParser

theorem ne_of_isDigit {c : UInt8} (h : isDigit c) : c ≠ lf ∧ c ≠ cr ∧ c ≠ byte '$' := by
  refine ⟨?_, ?_, ?_⟩ <;> rintro rfl <;> revert h <;> decide

theorem feed_digits_array : ∀ {p : RespParser} {ds : Bytes}, p.state = .readingArraySize →
    (∀ c ∈ ds, isDigit c) →
      feed step p ds = ([], .ok { p with currentBuffer := p.currentBuffer ++ ds })
  | p, [], _, _ => by simp
  | p, c :: ds, hp, hd => by
    obtain ⟨h1, h2, -⟩ := ne_of_isDigit (hd c List.mem_cons_self)
    have hs : step p c = .ok (none, { p with currentBuffer := p.currentBuffer ++ [c] }) := by
      simp [step, hp, h1, h2]
    rw [feed_cons_ok step hs, feed_digits_array (p := { p with
      currentBuffer := p.currentBuffer ++ [c] }) hp fun d h => hd d (List.mem_cons_of_mem _ h)]
    simp

theorem feed_digits_bulk : ∀ {p : RespParser} {ds : Bytes}, p.state = .readingBulkSize →
    (∀ c ∈ ds, isDigit c) →
      feed step p ds = ([], .ok { p with currentBuffer := p.currentBuffer ++ ds })
  | p, [], _, _ => by simp
  | p, c :: ds, hp, hd => by
    obtain ⟨h1, h2, h3⟩ := ne_of_isDigit (hd c List.mem_cons_self)
    have hs : step p c = .ok (none, { p with currentBuffer := p.currentBuffer ++ [c] }) := by
      simp [step, hp, h1, h2, h3]
    rw [feed_cons_ok step hs, feed_digits_bulk (p := { p with
      currentBuffer := p.currentBuffer ++ [c] }) hp fun d h => hd d (List.mem_cons_of_mem _ h)]
    simp

/-- The header of a command. -/
theorem feed_header {p : RespParser} (hp : p.state = .idle) {n : ℕ} (hn : n < 2 ^ 31) :
    feed step p (byte '*' :: toDecimal n ++ crlf) =
      ([], .ok { p with arrayCount := n, currentBuffer := [], state := .readingBulkSize }) := by
  have h1 : step p (byte '*') =
      .ok (none, { p with state := .readingArraySize, currentBuffer := [] }) := by
    simp [step, hp]
  have h2 := feed_digits_array (p := { p with state := .readingArraySize, currentBuffer := [] })
    rfl fun c (hc : c ∈ toDecimal n) => isDigit_of_mem_toDecimal hc
  rw [List.cons_append, feed_cons_ok step h1, feed_append_ok step crlf h2]
  have hcr : cr ≠ lf := by decide
  simp [feed, step, crlf, hcr, stoi_toDecimal hn]

/-- The length of an argument. -/
theorem feed_length {p : RespParser} (hp : p.state = .readingBulkSize) {n : ℕ}
    (hn : n < 2 ^ 31) :
    feed step p (byte '$' :: toDecimal n ++ crlf) =
      ([], .ok { p with
        currentBulkLen := n, currentBuffer := [], dataAccumulator := [],
        state := .readingData }) := by
  have h1 : step p (byte '$') = .ok (none, { p with currentBuffer := [] }) := by
    simp [step, hp]
  have h2 := feed_digits_bulk (p := { p with currentBuffer := [] }) hp
    fun c (hc : c ∈ toDecimal n) => isDigit_of_mem_toDecimal hc
  rw [List.cons_append, feed_cons_ok step h1, feed_append_ok step crlf h2]
  have hcr : cr ≠ lf := by decide
  have hd : cr ≠ byte '$' := by decide
  have hl : lf ≠ byte '$' := by decide
  simp [feed, step, crlf, hcr, hd, hl, hp, stoi_toDecimal hn, toDecimal_ne_nil]

/-- Data is taken as it is until the announced length is reached. -/
theorem feed_data : ∀ {p : RespParser} {d : Bytes} {n : ℕ}, p.state = .readingData →
    p.currentBulkLen = n → n < 2 ^ 31 → p.dataAccumulator.length + d.length ≤ n →
      feed step p d = ([], .ok { p with dataAccumulator := p.dataAccumulator ++ d })
  | p, [], n, _, _, _, _ => by simp
  | p, c :: d, n, hp, hb, hn, hl => by
    rw [List.length_cons] at hl
    have hlt : toInt p.dataAccumulator.length < p.currentBulkLen := by
      rw [toInt_natCast (by omega), hb]
      omega
    have hs : step p c = .ok (none, { p with dataAccumulator := p.dataAccumulator ++ [c] }) := by
      simp [step, hp, hlt]
    rw [feed_cons_ok step hs, feed_data (p := { p with
      dataAccumulator := p.dataAccumulator ++ [c] }) hp hb hn (by simp; omega)]
    simp

theorem feed_single {p q : RespParser} {c : UInt8} (h : step p c = .ok (none, q)) :
    feed step p [c] = ([], .ok q) := by
  rw [feed_cons_ok step h]
  rfl

theorem step_data_full {p : RespParser} (hp : p.state = .readingData)
    (hl : ¬ toInt p.dataAccumulator.length < p.currentBulkLen) {c : UInt8} (hc : c ≠ lf) :
    step p c = .ok (none, p) := by
  simp only [step, hp, if_neg hl, if_neg hc]

theorem step_data_next {p : RespParser} (hp : p.state = .readingData)
    (hl : ¬ toInt p.dataAccumulator.length < p.currentBulkLen)
    (hn : ¬ toInt (p.args ++ [p.dataAccumulator]).length = p.arrayCount) :
    step p lf = .ok (none, { p with
      args := p.args ++ [p.dataAccumulator], currentBuffer := [], state := .readingBulkSize }) := by
  simp only [step, hp, if_neg hl, if_pos, if_neg hn]

theorem step_data_last {p : RespParser} (hp : p.state = .readingData)
    (hl : ¬ toInt p.dataAccumulator.length < p.currentBulkLen)
    (hn : toInt (p.args ++ [p.dataAccumulator]).length = p.arrayCount) :
    step p lf = .ok (some (p.args ++ [p.dataAccumulator]), {}) := by
  simp only [step, hp, if_neg hl, if_pos, hn, reset]

theorem not_toInt_lt {n : ℕ} (h : n < 2 ^ 31) : ¬ toInt n < n := by
  rw [toInt_natCast h]
  exact lt_irrefl _

/-- An argument up to the CR after its data. -/
theorem feed_argument {p : RespParser} (hp : p.state = .readingBulkSize) {a : Bytes}
    (ha : a.length < 2 ^ 31) :
    feed step p (byte '$' :: toDecimal a.length ++ crlf ++ a ++ [cr]) =
      ([], .ok { p with
        currentBulkLen := a.length, currentBuffer := [], dataAccumulator := a,
        state := .readingData }) := by
  have hcr : cr ≠ lf := by decide
  have hd : feed step { p with
      currentBulkLen := a.length, currentBuffer := [], dataAccumulator := [],
      state := .readingData } a = ([], .ok { p with
        currentBulkLen := a.length, currentBuffer := [], dataAccumulator := a,
        state := .readingData }) := feed_data rfl rfl ha (by simp)
  have hs := step_data_full (p := { p with
    currentBulkLen := a.length, currentBuffer := [], dataAccumulator := a,
    state := .readingData }) rfl (not_toInt_lt ha) hcr
  rw [List.append_assoc (byte '$' :: toDecimal a.length ++ crlf),
    feed_append_ok step _ (feed_length hp ha), feed_append_ok step [cr] hd, feed_single hs]
  rfl

/-- An argument that is not the last. -/
theorem feed_bulk {p : RespParser} (hp : p.state = .readingBulkSize) {a : Bytes}
    (ha : a.length < 2 ^ 31) {n : ℕ} (hc : p.arrayCount = n) (hn : n < 2 ^ 31)
    (hl : p.args.length + 1 < n) :
    feed step p (respBulkString a) =
      ([], .ok { p with
        args := p.args ++ [a], currentBulkLen := a.length, currentBuffer := [],
        dataAccumulator := a, state := .readingBulkSize }) := by
  have hlen : (p.args ++ [a]).length = p.args.length + 1 := by simp
  have hne : ¬ toInt (p.args ++ [a]).length = p.arrayCount := by
    rw [hlen, toInt_natCast (hl.trans hn), hc]
    exact fun h => hl.ne (Int.ofNat.inj h)
  have hs := step_data_next (p := { p with
    currentBulkLen := a.length, currentBuffer := [], dataAccumulator := a,
    state := .readingData }) rfl (not_toInt_lt ha) hne
  have he : respBulkString a =
      (byte '$' :: toDecimal a.length ++ crlf ++ a ++ [cr]) ++ [lf] := by
    simp [respBulkString, crlf]
  rw [he, feed_append_ok step [lf] (feed_argument hp ha), feed_single hs]
  rfl

theorem feed_bulks : ∀ {l : List Bytes} {p : RespParser} {n : ℕ}, p.state = .readingBulkSize →
    (∀ a ∈ l, a.length < 2 ^ 31) → p.arrayCount = n → n < 2 ^ 31 →
    p.args.length + l.length < n →
      ∃ q, feed step p (l.flatMap respBulkString) = ([], .ok q) ∧ q.state = .readingBulkSize
        ∧ q.args = p.args ++ l ∧ q.arrayCount = p.arrayCount
  | [], p, n, hp, _, _, _, _ => ⟨p, by simp, hp, by simp, rfl⟩
  | a :: as, p, n, hp, ha, hc, hn, hl => by
    rw [List.length_cons] at hl
    have h1 := feed_bulk hp (ha a List.mem_cons_self) hc hn (by omega)
    obtain ⟨q, hq, hqs, hqa, hqc⟩ := feed_bulks (l := as) (p := { p with
      args := p.args ++ [a], currentBulkLen := a.length, currentBuffer := [],
      dataAccumulator := a, state := .readingBulkSize }) (n := n) rfl
      (fun b hb => ha b (List.mem_cons_of_mem _ hb)) hc hn (by simp; omega)
    refine ⟨q, ?_, hqs, by simp [hqa], hqc⟩
    rw [List.flatMap_cons, feed_append_ok step _ h1, hq]
    rfl

/-- A command is read quietly up to its last byte, which hands its arguments on and leaves a
fresh parser. -/
theorem feed_quiet {args : List Bytes} (h : Deliverable args) :
    ∃ quiet q, respCommand args = quiet ++ [lf] ∧ feed step {} quiet = ([], .ok q)
      ∧ step q lf = .ok (some args, {}) := by
  obtain ⟨hne, hlen, hargs⟩ := h
  obtain ⟨as, a, rfl⟩ : ∃ as a, args = as ++ [a] :=
    ⟨args.dropLast, args.getLast hne, (List.dropLast_append_getLast hne).symm⟩
  rw [List.length_append, List.length_singleton] at hlen
  have ha : a.length < 2 ^ 31 := hargs a (by simp)
  have h1 := feed_header (p := {}) rfl (n := as.length + 1) hlen
  obtain ⟨q, hq, hqs, hqa, hqc⟩ := feed_bulks (l := as) (p := { ({} : RespParser) with
    arrayCount := (as.length + 1 : ℕ), currentBuffer := [], state := .readingBulkSize })
    (n := as.length + 1) rfl (fun b hb => hargs b (by simp [hb])) rfl hlen (by simp)
  have hlast : toInt (q.args ++ [a]).length = q.arrayCount := by
    have hl : (q.args ++ [a]).length = as.length + 1 := by simp [hqa]
    rw [hl, toInt_natCast hlen, hqc]
  refine ⟨(byte '*' :: toDecimal (as.length + 1) ++ crlf) ++ (as.flatMap respBulkString ++
    (byte '$' :: toDecimal a.length ++ crlf ++ a ++ [cr])), { q with
      currentBulkLen := a.length, currentBuffer := [], dataAccumulator := a,
      state := .readingData }, ?_, ?_, ?_⟩
  · simp [respCommand, respBulkString, crlf]
  · rw [feed_append_ok step _ h1, feed_append_ok step _ hq, feed_argument hqs ha]
    rfl
  · have hs := step_data_last (p := { q with
      currentBulkLen := a.length, currentBuffer := [], dataAccumulator := a,
      state := .readingData }) rfl (not_toInt_lt ha) hlast
    rw [hs, hqa]
    rfl

theorem feed_respCommand {args : List Bytes} (h : Deliverable args) :
    feed step {} (respCommand args) = ([args], .ok {}) := by
  obtain ⟨quiet, q, he, hq, hs⟩ := feed_quiet h
  rw [he, feed_append_ok step [lf] hq]
  simp [feed, hs]

/-- Nothing is handed on before the end of a command. -/
theorem feed_of_proper_prefix {args : List Bytes} (h : Deliverable args) {xs : Bytes}
    (hx : xs <+: respCommand args) (hne : xs ≠ respCommand args) :
    ∃ q, feed step {} xs = ([], .ok q) := by
  obtain ⟨quiet, q, he, hq, -⟩ := feed_quiet h
  obtain ⟨ys, rfl⟩ : xs <+: quiet := by
    rw [he, List.prefix_concat_iff] at hx
    exact hx.resolve_left fun hc => hne (hc.trans he.symm)
  rcases hf : feed step {} xs with ⟨os, e | r⟩
  · rw [feed_append_error step ys hf] at hq
    simp at hq
  · have hp := feed_prefix step {} xs ys
    rw [hq, hf, List.prefix_nil] at hp
    simp only at hp
    exact ⟨r, by rw [hp]⟩

/-- Over a prefix of a stream of commands the parser hands on those that are complete in it, and
at the end of a command it is fresh. -/
theorem feed_prefix_respCommand : ∀ {cs : List (List Bytes)} {p : Bytes},
    (∀ c ∈ cs, Deliverable c) → p <+: cs.flatMap respCommand →
      ∃ q, feed step {} p = (completeIn cs p, .ok q)
        ∧ ((∃ k, p = (cs.take k).flatMap respCommand) → q = {})
  | [], p, _, hp => by
    rw [List.flatMap_nil, List.prefix_nil] at hp
    subst hp
    exact ⟨{}, by simp [completeIn], fun _ => rfl⟩
  | c :: cs, p, hcs, hp => by
    have hc := hcs c List.mem_cons_self
    by_cases hpre : respCommand c <+: p
    · obtain ⟨t, rfl⟩ := hpre
      rw [List.flatMap_cons, List.prefix_append_right_inj] at hp
      obtain ⟨q, hq, hb⟩ :=
        feed_prefix_respCommand (fun d hd => hcs d (List.mem_cons_of_mem _ hd)) hp
      refine ⟨q, ?_, ?_⟩
      · rw [feed_append_ok step t (feed_respCommand hc), hq]
        simp [completeIn]
      · rintro ⟨_ | k, hk⟩
        · simp [respCommand_ne_nil] at hk
        · exact hb ⟨k, by simpa using hk⟩
    · have hp' : p <+: respCommand c := by
        rw [List.flatMap_cons] at hp
        exact (List.prefix_or_prefix_of_prefix hp (List.prefix_append _ _)).resolve_right hpre
      have hne : p ≠ respCommand c := fun h => hpre (h ▸ List.prefix_rfl)
      obtain ⟨q, hq⟩ := feed_of_proper_prefix hc hp' hne
      refine ⟨q, by rw [hq, completeIn, if_neg hpre], ?_⟩
      rintro ⟨_ | k, hk⟩
      · subst hk
        simp only [List.take_zero, List.flatMap_nil, feed_nil, Prod.mk.injEq,
          Except.ok.injEq, true_and] at hq
        exact hq.symm
      · rw [List.take_succ_cons, List.flatMap_cons] at hk
        exact absurd ⟨_, hk.symm⟩ hpre

theorem parseAndExecute_eq (p : RespParser) {b : Bytes} (hb : b.length < 2 ^ 31) :
    p.parseAndExecute b (toInt b.length) = feed step p b := by
  have ht : (toInt b.length).toNat = b.length := by
    rw [toInt_natCast hb, Int.toNat_natCast]
  unfold parseAndExecute
  rw [ht, List.take_length]

theorem parseChunks_eq {chunks : List Bytes} (p : RespParser)
    (h : ∀ b ∈ chunks, b.length < 2 ^ 31) : parseChunks p chunks = feed step p chunks.flatten :=
  batches_eq step p chunks fun q b hb => parseAndExecute_eq q (h b hb)

end RespParser

open RespParser

/-- Whatever prefix of a stream of commands arrives, in whatever chunks, `handle_command` is
called for the commands complete in it, in order and with their arguments; at the end of a
command the parser is as it was at first. -/
theorem parseChunks_respCommand {cs : List (List Bytes)} (hcs : ∀ c ∈ cs, Deliverable c)
    {chunks : List Bytes} (hch : ∀ b ∈ chunks, b.length < 2 ^ 31)
    (hp : chunks.flatten <+: cs.flatMap respCommand) :
    ∃ p, parseChunks {} chunks = (completeIn cs chunks.flatten, .ok p)
      ∧ ((∃ k, chunks.flatten = (cs.take k).flatMap respCommand) → p = {}) := by
  rw [parseChunks_eq {} hch]
  exact feed_prefix_respCommand hcs hp

/-- Two chunks that cut the first command inside its argument, and the second one between the CR and
the LF after an argument. -/
theorem parseChunks_respCommand_torn : ∃ p, parseChunks {} [ascii "*1\r\n$4\r\nPI",
    ascii "NG\r\n*2\r\n$3\r\nGET\r\n$1\r\nk\r"] = ([[ascii "PING"]], .ok p) := by
  have hcs : ∀ c ∈ [[ascii "PING"], [ascii "GET", ascii "k"]], Deliverable c := by decide
  have hch : ∀ b ∈ [ascii "*1\r\n$4\r\nPI", ascii "NG\r\n*2\r\n$3\r\nGET\r\n$1\r\nk\r"],
      b.length < 2 ^ 31 := by decide
  obtain ⟨p, hp, -⟩ := parseChunks_respCommand hcs hch (by decide)
  have hcomplete : completeIn [[ascii "PING"], [ascii "GET", ascii "k"]]
      [ascii "*1\r\n$4\r\nPI", ascii "NG\r\n*2\r\n$3\r\nGET\r\n$1\r\nk\r"].flatten =
        [[ascii "PING"]] := by
    decide
  exact ⟨p, hp.trans (by rw [hcomplete])⟩

end DrutaDB
