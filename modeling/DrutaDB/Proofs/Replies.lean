import DrutaDB.Lib.Resp
import DrutaDB.Proofs.Errors

/-!
# Replies

What a command sends to its client is the text of exactly one RESP value (`Resp.IsValue`), but for
the commands that say otherwise (`Call.Replies`), and those that are turned away or fail
(`reply_iff`).
-/

namespace DrutaDB

open Machine Decimal Resp Run

/-- The bytes that go to the descriptor. -/
def sentTo (fd : ℤ) (sends : Sends) : Bytes := (sends.filter fun p => p.1 = fd).flatMap (·.2)

/-- The command replies with one value, when its key holds this. -/
def Call.Replies (args : List Bytes) (o : Option DrutaValue) : Call → Prop
  /- Its error has no end of line. -/
  | .sdel => o ≠ none
  /- It sends two lines. -/
  | .memstats => False
  /- The name of the command is sent back. -/
  | .unknown => Line (toUpper (args.headD []))
  /- The loop of the elements does not end. -/
  | .lpop | .rpop => args.length ≤ 3 → ∀ v l, o = some v → v.data = .list l →
      0 ≤ min (popCount args) (toInt l.length)
  /- The buffer is reserved by the counter. -/
  | .hgetall => ∀ v h, o = some v → v.data = .hash h → addSize 1024 h.memoryUsage ≤ maxSize
  | .smembers => ∀ v t, o = some v → v.data = .set t → addSize 1024 v.memoryUsage ≤ maxSize
  | _ => True

/-! ## The texts -/

section Texts

theorem isValue_sendInteger (n : ℤ) : IsValue (sendInteger n) := .integer _

theorem isValue_respBulkString (s : Bytes) : IsValue (respBulkString s) := .bulk s

theorem isValue_nilReply : IsValue nilReply := .nil

theorem isValue_okReply : IsValue okReply := (IsValue.line_iff (.inl rfl)).2 (by decide)

theorem isValue_wrongType : IsValue wrongType := (IsValue.line_iff (.inr rfl)).2 (by decide)

theorem isValue_notInteger : IsValue notInteger := (IsValue.line_iff (.inr rfl)).2 (by decide)

theorem line_append {a b : Bytes} : Line (a ++ b) ↔ Line a ∧ Line b := by
  unfold Line
  simp only [List.mem_append, not_or]
  tauto

/-- An error that names something. -/
theorem isValue_named_iff (before after : Bytes) {name : Bytes} (hb : Line before) (ha : Line after) :
    IsValue (byte '-' :: before ++ name ++ after ++ crlf) ↔ Line name := by
  change IsValue (byte '-' :: (before ++ name ++ after) ++ lineEnd) ↔ _
  rw [IsValue.line_iff (.inr rfl), line_append, line_append]
  exact ⟨fun h => h.1.2, fun h => ⟨⟨hb, h⟩, ha⟩⟩

theorem isValue_wrongNumber {name : String} (h : Line (ascii name)) : IsValue (wrongNumber name) :=
  (isValue_named_iff (ascii "ERR wrong number of arguments for '") (ascii "' command")
    (by decide) (by decide)).2 h

theorem isValue_unknownCommand {cmd : Bytes} : IsValue (unknownCommand cmd) ↔ Line cmd :=
  isValue_named_iff (ascii "ERR unknown command or incorrect number of arguments for '")
    (ascii "'") (by decide) (by decide)

theorem not_isValue_noSuchKey : ¬ IsValue noSuchKey := fun h =>
  absurd (h.getLast (.inr rfl)) (by decide)

theorem not_isValue_subscriberMode : ¬ IsValue subscriberMode := fun h =>
  absurd (h.getLast (.inr rfl)) (by decide)

theorem not_isValue_memstats (n : ℕ) : ¬ IsValue (ascii "+Memory Usage: " ++ toDecimal n ++
    ascii " bytes" ++ crlf ++ ascii " +Memory Limit: " ++ toDecimal lruMaxMemory ++
      ascii " bytes" ++ crlf) := by
  change ¬ IsValue (byte '+' :: (ascii "Memory Usage: " ++ toDecimal n ++ ascii " bytes" ++ crlf ++
    ascii " +Memory Limit: " ++ toDecimal lruMaxMemory ++ ascii " bytes") ++ lineEnd)
  rw [IsValue.line_iff (.inl rfl)]
  exact fun h => h.1 (by simp [crlf, cr])

theorem respArray_natCast (n : ℕ) : respArray n = byte '*' :: toDecimal n ++ lineEnd := by
  have hn : ¬ (n : ℤ) < 0 := by omega
  simp only [respArray, toDecimalInt, hn, if_false, Int.natAbs_natCast]
  rfl

/-- An array reply, its elements written one by one. -/
theorem isValue_respArray {α : Type*} {f : α → Bytes} (as : List α) (h : ∀ a ∈ as, IsValue (f a)) :
    IsValue (respArray as.length ++ as.flatMap f) := by
  rw [respArray_natCast]
  exact .map as h

theorem isValue_respArrayOf (l : List Bytes) : IsValue (respArrayOf l) :=
  isValue_respArray l fun s _ => isValue_respBulkString s

theorem isValue_noElements : IsValue (ascii "*0" ++ crlf) := @IsValue.array [] (by simp)

theorem isValue_lrangeReply (l : List Bytes) (li ri : ℤ) : IsValue (lrangeReply l li ri) := by
  unfold lrangeReply
  dsimp only
  split_ifs with h
  · exact isValue_noElements
  · generalize (lrangeBounds (toInt l.length) li ri).1 = i,
      (lrangeBounds (toInt l.length) li ri).2 = j at h ⊢
    obtain ⟨n, hn⟩ : ∃ n : ℕ, j - i + 1 = n := ⟨(j - i + 1).toNat, by omega⟩
    rw [hn, Int.toNat_natCast]
    have harray := isValue_respArray (f := fun m => respBulkString (l.getD (m + i.toNat) []))
      (List.range n) fun _ _ => isValue_respBulkString _
    rwa [List.length_range] at harray

/-- The reply of `HGETALL`: the fields and the values, one after the other. -/
theorem isValue_pairs (ps : List (Bytes × Bytes)) : IsValue (respArray (ps.length * 2 : ℕ) ++
    ps.flatMap fun p => respBulkString p.1 ++ respBulkString p.2) := by
  have harray := isValue_respArrayOf (ps.flatMap fun p => [p.1, p.2])
  have hlen : (ps.flatMap fun p => [p.1, p.2]).length = ps.length * 2 := by
    rw [List.length_flatMap]
    simp
  rw [respArrayOf, hlen, List.flatMap_assoc] at harray
  simpa using harray

/-- The loop of the elements ends where there are as many. -/
theorem popLoop_isOk_iff {l : List Bytes} {n : ℤ} (hle : n ≤ l.length) :
    (∃ p, popLoop l n = .ok p) ↔ 0 ≤ n := by
  rw [popLoop_eq]
  split_ifs with h
  · exact iff_of_true ⟨_, rfl⟩ h.1
  · exact iff_of_false (fun hc => by obtain ⟨p, hp⟩ := hc; cases hp) fun h0 => h ⟨h0, hle⟩

theorem length_popLoop {l : List Bytes} {n : ℤ} {taken left : List Bytes}
    (h : popLoop l n = .ok (taken, left)) : n = taken.length := by
  rw [popLoop_eq] at h
  split_ifs at h with hn
  obtain ⟨rfl, -⟩ := Prod.mk.inj (Except.ok.inj h)
  rw [List.length_take_of_le] <;> omega

end Texts

/-! ## The outcomes -/

section Outcomes

variable {now : ℤ} {args : List Bytes} {o : Option DrutaValue}

/-- The outcome is one value that is sent. -/
def Outcome.Replies (out : Outcome) : Prop := IsValue out.reply ∧ ∀ x, out.effect ≠ .fail x

theorem popOutcome_replies (b : Bool) : (popOutcome args b o).Replies ↔ (args.length ≤ 3 →
    ∀ v l, o = some v → v.data = .list l → 0 ≤ min (popCount args) (toInt l.length)) := by
  have hkeep : ∀ {reply : Bytes}, IsValue reply → ({ reply := reply } : Outcome).Replies :=
    fun h => ⟨h, fun x hx => by cases hx⟩
  by_cases hlen : 3 < args.length
  · refine iff_of_true ?_ fun hle => by omega
    cases o <;> simp only [popOutcome, if_pos hlen] <;>
      exact hkeep ((IsValue.line_iff (.inr rfl)).2 (by decide))
  rcases o with _ | ⟨d, e, m⟩
  · refine iff_of_true ?_ fun _ v l hv => by cases hv
    simp only [popOutcome, if_neg hlen]
    exact hkeep isValue_noElements
  · rcases d with s | l | h | t
    case list =>
      simp only [popOutcome, if_neg hlen]
      have hle : min (popCount args) (toInt l.length) ≤ (if b then l else l.reverse).length := by
        have hint := toInt_le l.length
        split_ifs
        · omega
        · rw [List.length_reverse]
          omega
      have hiff := popLoop_isOk_iff hle
      have hgoal : (args.length ≤ 3 → ∀ v l', some (DrutaValue.mk (.list l) e m) = some v →
          v.data = .list l' → 0 ≤ min (popCount args) (toInt l'.length)) ↔
          0 ≤ min (popCount args) (toInt l.length) := by
        refine ⟨fun h => h (by omega) _ l rfl rfl, fun h _ v l' hv hl => ?_⟩
        obtain rfl := Option.some.inj hv
        obtain rfl := Data.list.inj hl
        exact h
      rw [hgoal, ← hiff]
      rcases hp : popLoop (if b then l else l.reverse) (min (popCount args) (toInt l.length)) with
        f | ⟨taken, left⟩
      · exact iff_of_false (fun hc => hc.2 _ rfl) fun hc => by
          obtain ⟨p, hp⟩ := hc
          cases hp
      · refine iff_of_true ⟨?_, fun x hx => by cases hx⟩ ⟨_, rfl⟩
        dsimp only
        rw [length_popLoop hp]
        exact isValue_respArrayOf taken
    all_goals
      refine iff_of_true ?_ fun _ v l hv hl => ?_
      · simp only [popOutcome, if_neg hlen]
        exact hkeep isValue_wrongType
      · obtain rfl := Option.some.inj hv
        cases hl

theorem hgetallOutcome_replies (h2 : args.length = 2) : (hgetallOutcome args o).Replies ↔
    ∀ v h, o = some v → v.data = .hash h → addSize 1024 h.memoryUsage ≤ maxSize := by
  unfold hgetallOutcome
  rw [if_neg (not_not.2 h2)]
  rcases o with _ | ⟨d, e, m⟩
  · exact iff_of_true ⟨isValue_noElements, fun x hx => by cases hx⟩ fun v h hv => by cases hv
  · rcases d with s | l | h | t
    case hash =>
      have hgoal : (∀ v h', some (DrutaValue.mk (.hash h) e m) = some v → v.data = .hash h' →
          addSize 1024 h'.memoryUsage ≤ maxSize) ↔ addSize 1024 h.memoryUsage ≤ maxSize := by
        refine ⟨fun hc => hc _ h rfl rfl, fun hc v h' hv hd => ?_⟩
        obtain rfl := Option.some.inj hv
        obtain rfl := Data.hash.inj hd
        exact hc
      rw [hgoal]
      dsimp only
      unfold reserve
      split_ifs with hmax
      · exact iff_of_false (fun hc => hc.2 _ rfl) (by omega)
      · exact iff_of_true ⟨isValue_pairs _, fun x hx => by cases hx⟩ (by omega)
    all_goals
      refine iff_of_true ⟨isValue_wrongType, fun x hx => by cases hx⟩ fun v h' hv hd => ?_
      obtain rfl := Option.some.inj hv
      cases hd

theorem smembersOutcome_replies (h2 : args.length = 2) : (smembersOutcome args o).Replies ↔
    ∀ v t, o = some v → v.data = .set t → addSize 1024 v.memoryUsage ≤ maxSize := by
  unfold smembersOutcome
  rw [if_neg (not_not.2 h2)]
  rcases o with _ | ⟨d, e, m⟩
  · exact iff_of_true ⟨isValue_noElements, fun x hx => by cases hx⟩ fun v h hv => by cases hv
  · rcases d with s | l | h | t
    case set =>
      have hgoal : (∀ v t', some (DrutaValue.mk (.set t) e m) = some v → v.data = .set t' →
          addSize 1024 v.memoryUsage ≤ maxSize) ↔ addSize 1024 m ≤ maxSize := by
        refine ⟨fun hc => hc _ t rfl rfl, fun hc v t' hv hd => ?_⟩
        obtain rfl := Option.some.inj hv
        exact hc
      rw [hgoal]
      dsimp only
      unfold reserve
      split_ifs with hmax
      · exact iff_of_false (fun hc => hc.2 _ rfl) (by omega)
      · exact iff_of_true ⟨isValue_respArrayOf _, fun x hx => by cases hx⟩ (by omega)
    all_goals
      refine iff_of_true ⟨isValue_wrongType, fun x hx => by cases hx⟩ fun v h' hv hd => ?_
      obtain rfl := Option.some.inj hv
      cases hd

theorem smismemberOutcome_replies (h3 : 3 ≤ args.length) : (smismemberOutcome args o).Replies := by
  unfold smismemberOutcome
  rw [if_neg (by omega)]
  rcases o with _ | ⟨d, e, m⟩
  · exact ⟨isValue_sendInteger 0, fun x hx => by cases hx⟩
  · rcases d with s | l | h | t
    case set =>
      refine ⟨?_, fun x hx => by cases hx⟩
      have harray := isValue_respArray (f := fun a =>
        (if t.contains a then ascii ":1" else ascii ":0") ++ crlf) (args.drop 2) fun a _ => by
          split_ifs
          · exact .integer 1
          · exact .integer 0
      rwa [List.length_drop] at harray
    all_goals exact ⟨isValue_wrongType, fun x hx => by cases hx⟩

theorem replies_of {b : Bytes} {ok : Bool} {e : Effect} (h : IsValue b) (he : ∀ x, e ≠ .fail x) :
    ({ reply := b, success := ok, effect := e } : Outcome).Replies := ⟨h, he⟩

theorem setOutcome_replies : (setOutcome now args o).Replies := by
  unfold setOutcome
  split
  · exact replies_of isValue_notInteger (by simp)
  · refine replies_of isValue_okReply ?_
    cases o <;> simp

theorem getOutcome_replies : (getOutcome now o).Replies := by
  unfold getOutcome
  split
  · exact replies_of isValue_nilReply (by simp)
  · split
    · split_ifs
      · exact replies_of isValue_nilReply (by simp)
      · exact replies_of (isValue_respBulkString _) (by simp [Effect.touch])
    · exact replies_of isValue_wrongType (by simp)

theorem pushOutcome_replies (b : Bool) : (pushOutcome args b o).Replies := by
  unfold pushOutcome
  split
  · split
    · exact replies_of (isValue_sendInteger _) (by simp)
    · exact replies_of isValue_wrongType (by simp)
  · exact replies_of (isValue_sendInteger _) (by simp)

theorem lrangeOutcome_replies : (lrangeOutcome args o).Replies := by
  unfold lrangeOutcome
  split
  · exact replies_of isValue_noElements (by simp)
  · split
    · split
      · exact replies_of (isValue_lrangeReply _ _ _) (by simp [Effect.touch])
      · exact replies_of ((IsValue.line_iff (.inr rfl)).2 (by decide)) (by simp [Effect.touch])
    · exact replies_of isValue_wrongType (by simp)

theorem llenOutcome_replies : (llenOutcome o).Replies := by
  unfold llenOutcome
  split
  · exact replies_of (.integer 0) (by simp)
  · split
    · exact replies_of (isValue_sendInteger _) (by simp [Effect.touch])
    · exact replies_of isValue_wrongType (by simp)

theorem hsetOutcome_replies : (hsetOutcome args o).Replies := by
  unfold hsetOutcome
  split_ifs
  · exact replies_of (isValue_wrongNumber (by decide)) (by simp)
  · split
    · split
      · exact replies_of (isValue_sendInteger _) (by simp)
      · exact replies_of isValue_wrongType (by simp)
    · exact replies_of (isValue_sendInteger _) (by simp)

theorem hgetOutcome_replies : (hgetOutcome args o).Replies := by
  unfold hgetOutcome
  split_ifs
  · exact replies_of (isValue_wrongNumber (by decide)) (by simp)
  · split
    · exact replies_of isValue_nilReply (by simp)
    · split
      · split
        · exact replies_of (isValue_respBulkString _) (by simp [Effect.touch])
        · exact replies_of isValue_nilReply (by simp)
      · exact replies_of isValue_wrongType (by simp)

theorem hdelOutcome_replies : (hdelOutcome args o).Replies := by
  unfold hdelOutcome
  split_ifs
  · exact replies_of (isValue_wrongNumber (by decide)) (by simp)
  · split
    · exact replies_of (isValue_sendInteger _) (by simp)
    · split
      · refine replies_of (isValue_sendInteger _) ?_
        split_ifs <;> simp
      · exact replies_of isValue_wrongType (by simp)

theorem hlenOutcome_replies : (hlenOutcome args o).Replies := by
  unfold hlenOutcome
  split_ifs
  · exact replies_of (isValue_wrongNumber (by decide)) (by simp)
  · split
    · exact replies_of (isValue_sendInteger _) (by simp)
    · split
      · exact replies_of (isValue_sendInteger _) (by simp)
      · exact replies_of isValue_wrongType (by simp)

theorem saddOutcome_replies : (saddOutcome args o).Replies := by
  unfold saddOutcome
  split
  · split
    · exact replies_of (isValue_sendInteger _) (by simp)
    · exact replies_of isValue_wrongType (by simp)
  · exact replies_of (isValue_sendInteger _) (by simp)

theorem scardOutcome_replies : (scardOutcome args o).Replies := by
  unfold scardOutcome
  split_ifs
  · exact replies_of (isValue_wrongNumber (by decide)) (by simp)
  · split
    · exact replies_of (isValue_sendInteger _) (by simp)
    · split
      · exact replies_of (isValue_sendInteger _) (by simp)
      · exact replies_of isValue_wrongType (by simp)

theorem sismemberOutcome_replies : (sismemberOutcome args o).Replies := by
  unfold sismemberOutcome
  split_ifs
  · exact replies_of (isValue_wrongNumber (by decide)) (by simp)
  · split
    · exact replies_of (isValue_sendInteger _) (by simp)
    · split
      · exact replies_of (isValue_sendInteger _) (by simp)
      · exact replies_of isValue_wrongType (by simp)

theorem sdelOutcome_replies : (sdelOutcome args o).Replies ↔ o ≠ none := by
  unfold sdelOutcome
  split
  · refine iff_of_true ?_ (by simp)
    split
    · exact replies_of (isValue_sendInteger _) (by simp)
    · exact replies_of isValue_wrongType (by simp)
  · exact iff_of_false (fun hc => not_isValue_noSuchKey hc.1) fun hc => hc rfl

/-- Which commands on one key send one value. -/
theorem replies_of_action {key : Bytes} {f : Option DrutaValue → Outcome}
    (ha : (callOf args).action now args = some (.access key f)) :
    (f o).Replies ↔ (callOf args).Replies args o := by
  have hsize : ∀ {c : Call}, callOf args = c → c ≠ .unknown → c.Takes args.length :=
    fun hc hne => (of_route hne hc).2
  rcases hcall : callOf args <;> rw [hcall] at ha <;>
    simp only [Call.action, Option.some.injEq, reduceCtorEq, Action.access.injEq] at ha <;>
    obtain ⟨-, rfl⟩ := ha
  case set => exact iff_of_true setOutcome_replies trivial
  case get => exact iff_of_true getOutcome_replies trivial
  case rpush => exact iff_of_true (pushOutcome_replies false) trivial
  case lpush => exact iff_of_true (pushOutcome_replies true) trivial
  case lrange => exact iff_of_true lrangeOutcome_replies trivial
  case lpop => exact popOutcome_replies true
  case rpop => exact popOutcome_replies false
  case llen => exact iff_of_true llenOutcome_replies trivial
  case hset => exact iff_of_true hsetOutcome_replies trivial
  case hget => exact iff_of_true hgetOutcome_replies trivial
  case hgetall => exact hgetallOutcome_replies (hsize hcall (by decide))
  case hdel => exact iff_of_true hdelOutcome_replies trivial
  case hlen => exact iff_of_true hlenOutcome_replies trivial
  case sadd => exact iff_of_true saddOutcome_replies trivial
  case scard => exact iff_of_true scardOutcome_replies trivial
  case sismember => exact iff_of_true sismemberOutcome_replies trivial
  case smembers => exact smembersOutcome_replies (hsize hcall (by decide))
  case smismember => exact iff_of_true (smismemberOutcome_replies (hsize hcall (by decide))) trivial
  case sdel => exact sdelOutcome_replies

end Outcomes

/-! ## Commands -/

section Commands

variable {events : List Event} {s : Server} {r : Recency} {env : Env} {fd : ℤ} {args : List Bytes}
  {key : Bytes} {f : Option DrutaValue → Outcome}

theorem sentTo_sendTo (hfd : fd ≠ -1) (b : Bytes) : sentTo fd (sendTo fd b) = b := by
  simp [sentTo, sendTo, hfd]

theorem perform_error {e : Effect} {x : Fault} (h : r.perform key e = .error x) :
    x = .useAfterFree ∨ e = .fail x := by
  have htouch : ∀ {q : Recency}, q.touch key = .error x → x = .useAfterFree := by
    intro q hq
    unfold Recency.touch at hq
    split at hq
    · cases hq
    · exact (Except.error.inj hq).symm
  have hassign : ∀ {q : Recency} {v : DrutaValue} {c : Option (ℕ × ℕ)} {b : Bool},
      q.assign key v c b = .error x → x = .useAfterFree := by
    intro q v c b hq
    unfold Recency.assign at hq
    split at hq
    · exact htouch hq
    · exact htouch hq
  cases e with
  | keep => cases h
  | drop => cases h
  | create v => cases h
  | fail g => exact .inr (congrArg _ (Except.error.inj h))
  | assign v c b => exact .inl (hassign h)
  | pop v oldSize newSize b =>
    simp only [Recency.perform] at h
    rcases ht : r.touch key with g | q <;> rw [ht] at h
    · exact .inl (htouch (ht.trans h))
    · cases h
  | createAssign v₀ v oldSize newSize b =>
    simp only [Recency.perform] at h
    split at h
    · exact .inl (hassign h)
    · exact .inl (Except.error.inj h).symm

/-- What a branch of `handle_command` sends to its client. -/
def Call.sent (env : Env) (fd : ℤ) (args : List Bytes) (s : Server) (c : Call) : Bytes :=
  match c.run env.now fd (toUpper (args.headD [])) args s with
  | .ok p => sentTo fd p.1.1
  | .error _ => []

theorem handleCommand_sent (hargs : args ≠ []) :
    sentTo fd (handleCommand env fd args s).1 =
      if turnedAway s fd (toUpper (args.headD [])) then sentTo fd (sendTo fd subscriberMode)
      else (callOf args).sent env fd args (s.ensureClient fd) := by
  obtain ⟨a, as, rfl⟩ := List.exists_cons_of_ne_nil hargs
  have hcall : route (toUpper a) (a :: as).length = callOf (a :: as) := rfl
  by_cases ht : turnedAway s fd (toUpper a)
  · have ht' : turnedAway s fd (toUpper ((a :: as).headD [])) = true := ht
    rw [if_pos ht']
    simp only [handleCommand, turnedAway_ensureClient]
    rw [if_pos ht]
  · have ht' : ¬ turnedAway s fd (toUpper ((a :: as).headD [])) = true := ht
    rw [if_neg ht', Call.sent]
    simp only [handleCommand, turnedAway_ensureClient, hcall]
    rw [if_neg ht]
    change _ = match (callOf (a :: as)).run env.now fd (toUpper a) (a :: as) (s.ensureClient fd) with
      | .ok p => sentTo fd p.1.1
      | .error _ => []
    rcases (callOf (a :: as)).run env.now fd (toUpper a) (a :: as) (s.ensureClient fd) with
      g | ⟨⟨sends, ok⟩, t⟩
    · rfl
    · rfl

/-- A command on one key sends one value where it spares its key and replies with one. -/
theorem sent_access (hs : s.store = r.toStore) (hfd : fd ≠ -1)
    (ha : (callOf args).action env.now args = some (.access key f)) :
    IsValue ((callOf args).sent env fd args s) ↔
      (f (r.find key)).effect.Spares r.toStore key ∧ (callOf args).Replies args (r.find key) := by
  rw [← replies_of_action ha]
  unfold Call.sent
  rw [Call.run_action r env.now args ha fd _ hs]
  have hfree := perform_useAfterFree_iff (fits_of_action (r.find key) ha)
  simp only [Action.run, Recency.apply]
  rcases hp : r.perform key (f (r.find key)).effect with x | r'
  · refine iff_of_false (fun h => h.ne_nil rfl) fun hc => ?_
    rcases perform_error hp with rfl | hx
    · exact hfree.1 hp hc.1
    · exact hc.2.2 x hx
  · rw [hp] at hfree
    have hspares : (f (r.find key)).effect.Spares r.toStore key := by
      by_contra hc
      cases hfree.2 hc
    have hfail : ∀ x, (f (r.find key)).effect ≠ .fail x := by
      intro x hx
      rw [hx] at hp
      cases hp
    simp only [Except.map, sentTo_sendTo hfd]
    exact ⟨fun h => ⟨hspares, h, hfail⟩, fun h => h.2.1⟩

/-- A command that only reads. -/
theorem sent_inspect {m : StoreM (Bytes × Bool)} {P : Bytes → Prop} (hs : s.store = r.toStore)
    (hfd : fd ≠ -1) (ha : (callOf args).action env.now args = some (.inspect m))
    (hm : Answers P m) : P ((callOf args).sent env fd args s) := by
  obtain ⟨b, hb, hrun, -⟩ := hm.run r
  unfold Call.sent
  rw [Call.run_action r env.now args ha fd _ hs, hrun]
  simpa only [Except.map, sentTo_sendTo hfd] using hb

/-- A publisher that is no subscriber is sent the number alone. -/
theorem sent_publish (hi : Indexed s) (hfd : fd ≠ -1) (hsub : (s.client fd).isSubscriber = false)
    (hargs : args.length = 3) : IsValue (Call.publish.sent env fd args s) := by
  obtain ⟨-, hsends, -⟩ := hi.pubsubPublish_eq args hargs
  have hnone : fd ∉ (s.subscribers (arg args 1)).toList := fun hc => by
    rw [Std.ExtTreeSet.mem_toList, hi.mem_iff] at hc
    have hempty : (s.client fd).subscribedChannels = ∅ := by
      by_contra hne
      rw [(hi.isSubscriber_iff fd).2 hne] at hsub
      cases hsub
    rw [hempty] at hc
    exact Std.ExtTreeSet.not_mem_empty hc
  have hfilter : ((s.subscribers (arg args 1)).toList.map fun fd' =>
      (fd', messageFrame (arg args 1) (arg args 2))).filter (fun p => p.1 = fd) = [] := by
    refine List.filter_eq_nil_iff.2 fun p hp => ?_
    obtain ⟨fd', hmem, rfl⟩ := List.mem_map.1 hp
    simp only [decide_eq_true_eq]
    rintro rfl
    exact hnone hmem
  simp only [Call.sent, Call.run, commandPublish, hsends]
  rw [sentTo, List.filter_append, hfilter, List.nil_append, ← sentTo, sentTo_sendTo hfd]
  exact isValue_sendInteger _

/-- A command that looks at no key. -/
theorem sent_none_iff (hi : Indexed s) (hfd : fd ≠ -1)
    (ht : turnedAway s fd (toUpper (args.headD [])) = false)
    (hname : toUpper (args.headD []) ≠ ascii "SUBSCRIBE" ∧
      toUpper (args.headD []) ≠ ascii "UNSUBSCRIBE")
    (ha : (callOf args).action env.now args = none) :
    IsValue ((callOf args).sent env fd args s) ↔
      (callOf args).Replies args (s.store.value (arg args 1)) := by
  have hof : ∀ {c : Call}, callOf args = c → c ≠ .unknown →
      toUpper (args.headD []) = ascii c.name ∧ c.Takes args.length := fun hc hne => of_route hne hc
  rcases hcall : callOf args <;> rw [hcall] at ha <;> simp only [Call.action, reduceCtorEq] at ha
  case subscribe => exact absurd (hof hcall (by decide)).1 hname.1
  case unsubscribe => exact absurd (hof hcall (by decide)).1 hname.2
  case publish =>
    refine iff_of_true (sent_publish hi hfd ?_ (hof hcall (by decide)).2) trivial
    rw [turnedAway, (hof hcall (by decide)).1] at ht
    simpa +decide using ht
  case ping =>
    simp only [Call.sent, Call.run, sentTo_sendTo hfd]
    exact iff_of_true ((IsValue.line_iff (.inl rfl)).2 (by decide)) trivial
  case echo =>
    simp only [Call.sent, Call.run, sentTo_sendTo hfd]
    exact iff_of_true (isValue_respBulkString _) trivial
  case command =>
    simp only [Call.sent, Call.run, sentTo_sendTo hfd]
    exact iff_of_true isValue_noElements trivial
  case unknown =>
    simp only [Call.sent, Call.run, sentTo_sendTo hfd]
    exact isValue_unknownCommand
  case flushdb =>
    refine iff_of_true ?_ trivial
    simp only [Call.sent, Call.run, commandFlushdb]
    split_ifs
    · rw [sentTo_sendTo hfd]
      exact (IsValue.line_iff (.inr rfl)).2 (by decide)
    · rw [sentTo_sendTo hfd]
      exact (IsValue.line_iff (.inl rfl)).2 (by decide)

/-- A command that reads several keys, or the counter. -/
theorem sent_inspect_iff {m : StoreM (Bytes × Bool)} (hs : s.store = r.toStore) (hfd : fd ≠ -1)
    (ha : (callOf args).action env.now args = some (.inspect m)) :
    IsValue ((callOf args).sent env fd args s) ↔
      (callOf args).Replies args (s.store.value (arg args 1)) := by
  rcases hcall : callOf args <;> rw [hcall] at ha <;>
    simp only [Call.action, Option.some.injEq, reduceCtorEq, Action.inspect.injEq] at ha <;>
    subst ha <;> rw [← hcall]
  case sinter =>
    refine iff_of_true (sent_inspect hs hfd (by rw [hcall]; rfl) ?_) (by rw [hcall]; trivial)
    exact commandSinter_answers args (isValue_wrongNumber (by decide)) isValue_wrongType
      isValue_respArrayOf
  case sunion =>
    refine iff_of_true (sent_inspect hs hfd (by rw [hcall]; rfl) ?_) (by rw [hcall]; trivial)
    exact commandSunion_answers args (isValue_wrongNumber (by decide)) isValue_respArrayOf
  case sdiff =>
    refine iff_of_true (sent_inspect hs hfd (by rw [hcall]; rfl) ?_) (by rw [hcall]; trivial)
    exact commandSdiff_answers args (isValue_wrongNumber (by decide)) isValue_wrongType
      isValue_respArrayOf
  case memstats =>
    refine iff_of_false ?_ (by rw [hcall]; exact id)
    exact sent_inspect (P := fun b => ¬ IsValue b) hs hfd (by rw [hcall]; rfl)
      (commandMemstats_answers not_isValue_memstats)

theorem sent_delete {keys : List Bytes} (hs : s.store = r.toStore) (hfd : fd ≠ -1)
    (ha : (callOf args).action env.now args = some (.delete keys)) :
    IsValue ((callOf args).sent env fd args s) := by
  unfold Call.sent
  rw [Call.run_action r env.now args ha fd _ hs]
  simp only [Action.run, Except.map, sentTo_sendTo hfd]
  exact isValue_sendInteger _

/-- Only an access to a key can fail to spare it. -/
theorem sparesOwnKey_of_action
    (hchange : (Event.command env fd args).change s = (callOf args).change env.now args)
    (ha : ∀ key f, (callOf args).action env.now args ≠ some (.access key f)) :
    SparesOwnKey s (.command env fd args) := by
  unfold SparesOwnKey
  rw [hchange, Call.change]
  rcases hact : (callOf args).action env.now args with _ | ⟨key, f⟩ | m | keys
  · dsimp only
    split_ifs <;> trivial
  · exact absurd hact (ha key f)
  · trivial
  · trivial

/-- What a client that is not turned away is sent. -/
theorem sent_iff (hs : s.store = r.toStore) (hi : Indexed s) (hfd : fd ≠ -1)
    (ht : turnedAway s fd (toUpper (args.headD [])) = false)
    (hname : toUpper (args.headD []) ≠ ascii "SUBSCRIBE" ∧
      toUpper (args.headD []) ≠ ascii "UNSUBSCRIBE") :
    IsValue ((callOf args).sent env fd args s) ↔ SparesOwnKey s (.command env fd args) ∧
      (callOf args).Replies args (s.store.value (arg args 1)) := by
  have hchange : (Event.command env fd args).change s = (callOf args).change env.now args := by
    simp only [Event.change, ht, Bool.false_eq_true, if_false]
  rcases ha : (callOf args).action env.now args with _ | ⟨key, f⟩ | m | keys
  · have hspares := sparesOwnKey_of_action hchange (by simp [ha])
    rw [and_iff_right hspares]
    exact sent_none_iff hi hfd ht hname ha
  · have hkey : key = arg args 1 := key_of_action ha
    rw [sent_access hs hfd ha, hs, value_toStore, ← hkey]
    refine and_congr_left' ?_
    unfold SparesOwnKey
    rw [hchange, hs]
    simp only [Call.change, ha, value_toStore]
  · have hspares := sparesOwnKey_of_action hchange (by simp [ha])
    rw [and_iff_right hspares]
    exact sent_inspect_iff hs hfd ha
  · have hdel : callOf args = .del := (Call.del_of_delete ha).1
    have hspares := sparesOwnKey_of_action hchange (by simp [ha])
    exact iff_of_true (sent_delete hs hfd ha) ⟨hspares, by rw [hdel]; trivial⟩

end Commands

/-- A command is answered with exactly one value where its client is not turned away, its key is
spared, and its reply is one. -/
theorem reply_iff {events : List Event} {s : Server} (ho : Orderly events)
    (h : run Server.step {} events = .ok s) (env : Env) {fd : ℤ} (hfd : fd ≠ -1)
    {args : List Bytes} (hargs : args ≠ []) (hname : toUpper (args.headD []) ≠ ascii "SUBSCRIBE" ∧
      toUpper (args.headD []) ≠ ascii "UNSUBSCRIBE") :
    IsValue (sentTo fd (handleCommand env fd args s).1) ↔
      turnedAway s fd (toUpper (args.headD [])) = false ∧ SparesOwnKey s (.command env fd args) ∧
        (callOf args).Replies args (s.store.value (arg args 1)) := by
  obtain ⟨r, hr⟩ := exists_store h
  have hi : Indexed (s.ensureClient fd) := (run_connected ho h).setClient rfl rfl
  rw [handleCommand_sent hargs]
  by_cases ht : turnedAway s fd (toUpper (args.headD []))
  · rw [if_pos ht, sentTo_sendTo hfd]
    exact iff_of_false not_isValue_subscriberMode fun hc => by
      rw [ht] at hc
      cases hc.1
  · rw [if_neg ht, sent_iff (s := s.ensureClient fd) hr hi hfd
      (by simpa [turnedAway_ensureClient] using ht) hname]
    have hchange : (Event.command env fd args).change (s.ensureClient fd) =
        (Event.command env fd args).change s := by
      simp only [Event.change, turnedAway_ensureClient]
    unfold SparesOwnKey
    rw [hchange]
    exact ⟨fun hc => ⟨by simpa using ht, hc⟩, And.right⟩

/-- A list of two values and a set of two members. -/
def listAndSet : List Event :=
  [.connect 4, .command {} 4 [ascii "RPUSH", ascii "l", ascii "a", ascii "b"],
    .command {} 4 [ascii "SADD", ascii "s", ascii "a", ascii "b"]]

/-- A pop of more values than there are, and the removal of a member. -/
theorem reply_pop : ∃ s, run Server.step {} listAndSet = .ok s ∧
    IsValue (sentTo 4 (handleCommand {} 4 [ascii "RPOP", ascii "l", ascii "3"] s).1) ∧
    IsValue (sentTo 4 (handleCommand {} 4 [ascii "SDEL", ascii "s", ascii "a"] s).1) := by
  obtain ⟨s, hs, ⟨hpop, hdel⟩, ⟨hpopped, hdeleted⟩, hlist, hset⟩ : ∃ s,
      run Server.step {} listAndSet = .ok s ∧
      (turnedAway s 4 (ascii "RPOP") = false ∧ turnedAway s 4 (ascii "SDEL") = false) ∧
      (SparesOwnKey s (.command {} 4 [ascii "RPOP", ascii "l", ascii "3"]) ∧
        SparesOwnKey s (.command {} 4 [ascii "SDEL", ascii "s", ascii "a"])) ∧
      (∀ v ∈ s.store.value (ascii "l"), v.data.isShort = true) ∧
      (s.store.value (ascii "s")).isSome = true :=
    exists_of_any (by decide +kernel)
  have ho : Orderly listAndSet := by decide +kernel
  refine ⟨s, hs, (reply_iff ho hs {} (by decide) (by decide) (by decide)).2 ⟨hpop, hpopped, ?_⟩,
    (reply_iff ho hs {} (by decide) (by decide) (by decide)).2 ⟨hdel, hdeleted, ?_⟩⟩
  · intro _ v l hv hd
    rw [toInt_natCast (Data.isShort_iff.1 (hlist v hv) l hd)]
    exact le_min (by decide) (Int.natCast_nonneg _)
  · exact Option.isSome_iff_ne_none.1 hset

/-- The error of `SDEL` is no line. -/
theorem reply_sdel : ∃ (events : List Event) (s : Server), Orderly events ∧
    run Server.step {} events = .ok s ∧ isOpen events 4 = true ∧
      ¬ IsValue (sentTo 4 (handleCommand {} 4 [ascii "SDEL", ascii "k", ascii "a"] s).1) := by
  refine ⟨[.connect 4], ({} : Server).setClient 4 {}, orderly_snoc [] _ orderly_nil ⟨by decide, rfl⟩,
    rfl, by decide, ?_⟩
  have hsent : sentTo 4 (handleCommand {} 4 [ascii "SDEL", ascii "k", ascii "a"]
      (({} : Server).setClient 4 {})).1 = noSuchKey := rfl
  rw [hsent]
  exact not_isValue_noSuchKey

end DrutaDB
