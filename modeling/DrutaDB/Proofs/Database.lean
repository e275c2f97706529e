import DrutaDB.Proofs.ListCommands
import DrutaDB.Proofs.Meaning
import DrutaDB.Proofs.SetAlgebra

/-!
# The server and the database

What a client asks for by a command (`requestOf`) is what the database is asked for, and what it is
sent is a form of the database's answer.  So a run of the server is a run of the database that loses
the keys the server evicts (`run_implements`), and so is what a process does on the bytes that come
in (`process_implements`); what is true of the database is then true of what clients are sent
(`run_reads_back`).
-/

namespace DrutaDB

open Machine Decimal Run

/-! ## Requests and answers -/

/-- The forms an answer is sent in; a number goes through an `int`. -/
def Answer.Sent : Answer Bytes → Bytes → Prop
  | .ok, b => b = okReply
  | .nil, b => b = nilReply
  | .count n, b => b = sendInteger n
  | .bulk s, b => b = respBulkString s
  | .bulks l, b => b = respArrayOf l
  | .flags l, b => b = respArray l.length ++ l.flatMap fun x =>
      (if x then ascii ":1" else ascii ":0") ++ crlf
  /- In any order. -/
  | .fields h, b => ∃ l : List (Bytes × Bytes), (l.map Prod.fst).Nodup ∧
      (∀ field value, (field, value) ∈ l ↔ h.lookup field = some value) ∧
        b = respArrayOf (fieldArgs l)
  | .members s, b => ∃ l : List Bytes, l.Pairwise (· < ·) ∧ l.toFinset = s ∧ b = respArrayOf l
  | .wrongType, b => b = DrutaDB.wrongType
  | .noIndices, b => b = ascii "-WRONGTYPE Non-numeric values given for range" ++ crlf
  | .noKey, b => b = noSuchKey
  | .flushed, b => b = ascii "+SUCCESS Database flushed" ++ crlf
  | .refused reason, b => b = reason

/-- A `SET`, if its options can be read. -/
def setRequest (now : ℤ) (args : List Bytes) : Request Bytes :=
  match setOptions now (args.drop 3) 0 with
  | .ok deadline => .query (arg args 1) (.set (arg args 2) deadline)
  | .error _ => .refused notInteger

def indices (args : List Bytes) : Option (ℤ × ℤ) :=
  match stoi (arg args 2), stoi (arg args 3) with
  | .ok i, .ok j => some (i, j)
  | _, _ => none

def popRequest (args : List Bytes) (fromFront : Bool) : Request Bytes :=
  if 3 < args.length then .refused (ascii "-ERR Invalid number of arguments" ++ crlf)
  else .query (arg args 1) (.pop fromFront (popCount args).toNat)

def hsetRequest (args : List Bytes) : Request Bytes :=
  if args.length < 4 ∨ args.length % 2 ≠ 0 then .refused (wrongNumber "hset")
  else .query (arg args 1) (.hset (pairs (args.drop 2)))

/-- What a command asks the database for, if it does. -/
def requestOf (now : ℤ) (args : List Bytes) : Option (Request Bytes) :=
  match callOf args with
  | .set => some (setRequest now args)
  | .get => some (.query (arg args 1) (.get now))
  | .rpush => some (.query (arg args 1) (.push false (args.drop 2)))
  | .lpush => some (.query (arg args 1) (.push true (args.drop 2)))
  | .lrange => some (.query (arg args 1) (.range (indices args)))
  | .lpop => some (popRequest args true)
  | .rpop => some (popRequest args false)
  | .llen => some (.query (arg args 1) .llen)
  | .del => some (.del (args.drop 1).toFinset)
  | .hset => some (hsetRequest args)
  | .hget => some (.query (arg args 1) (.hget (arg args 2)))
  | .hgetall => some (.query (arg args 1) .hgetall)
  | .hdel => some (.query (arg args 1) (.hdel (args.drop 2)))
  | .hlen => some (.query (arg args 1) .hlen)
  | .sadd => some (.query (arg args 1) (.sadd (args.drop 2).toFinset))
  | .sdel => some (.query (arg args 1) (.sdel (args.drop 2).toFinset))
  | .sismember => some (.query (arg args 1) (.sismember (arg args 2)))
  | .smismember => some (.query (arg args 1) (.smismember (args.drop 2)))
  | .scard => some (.query (arg args 1) .scard)
  | .smembers => some (.query (arg args 1) .smembers)
  | .sinter => some (.sinter (arg args 1) (args.drop 2))
  | .sunion => some (.sunion (args.drop 1).toFinset)
  | .sdiff => some (.sdiff (arg args 1) (args.drop 2).toFinset)
  | .flushdb => some (if flushes args then .flush
      else .refused (ascii "-ERR add --sure flag to flush db" ++ crlf))
  | _ => none

/-- What the client of a command asks the database for, and what it is sent. -/
def Event.asked (s : Server) : Event → List (Label Bytes)
  | .command env fd args =>
    if turnedAway s fd (toUpper (args.headD [])) then []
    else (requestOf env.now args).toList.map fun q =>
      .asked fd q (sentTo fd (handleCommand env fd args s).1)
  | _ => []

/-- What goes on in the database when the server takes a step. -/
def Server.labels (s : Server) (e : Event) (s' : Server) : List (Label Bytes) :=
  e.asked s ++ [.lost (s'.store.evicted.drop s.store.evicted.length).toFinset]

/-- The length of every list is an `int`. -/
def Store.Short (s : Store) : Prop :=
  ∀ key v l, s.value key = some v → v.data = .list l → l.length < 2 ^ 31

theorem Store.short_iff {s : Store} :
    s.Short ↔ ∀ p ∈ s.kvStore.toList, p.2.value.data.isShort = true := by
  simp only [Data.isShort_iff]
  constructor
  · rintro h ⟨key, n⟩ hp
    have hn := Std.ExtTreeMap.mem_toList_iff_getElem?_eq_some.1 hp
    exact fun l => h key n.value l (by rw [Store.value, hn]; rfl)
  · intro h key v l hv
    obtain ⟨n, hn, rfl⟩ := Option.map_eq_some_iff.1 hv
    exact h (key, n) (Std.ExtTreeMap.mem_toList_iff_getElem?_eq_some.2 hn) l

instance (s : Store) : Decidable s.Short := decidable_of_iff _ Store.short_iff.symm

/-! ## One key -/

/-- The outcome is what the query is answered with and makes of the value, unless it fails. -/
def Outcome.Serves (q : Query Bytes) (o : Option DrutaValue) (out : Outcome) : Prop :=
  (∀ x, out.effect ≠ .fail x) → (q.answer (o.map DrutaValue.meaning)).Sent out.reply ∧
    (out.effect.result o).map DrutaValue.meaning = q.result (o.map DrutaValue.meaning)

section Outcomes

variable {now : ℤ} {args : List Bytes} {o : Option DrutaValue}

theorem setOutcome_serves {deadline : ℤ} (h : setOptions now (args.drop 3) 0 = .ok deadline) :
    (setOutcome now args o).Serves (.set (arg args 2) deadline) o := by
  intro _
  unfold setOutcome
  simp only [h]
  refine ⟨rfl, ?_⟩
  rcases o with _ | v
  · rfl
  · rfl

theorem getOutcome_serves : (getOutcome now o).Serves (.get now) o := by
  intro _
  rcases o with _ | ⟨s | l | h | t, e, m⟩
  case some.string =>
    have hexpired : (⟨.string s, e, m⟩ : DrutaValue).expired now = true ↔ e ≠ 0 ∧ e < now := by
      simp [DrutaValue.expired]
    unfold getOutcome
    simp only [hexpired, Option.map_some, DrutaValue.meaning, Query.answer, Query.result]
    split_ifs
    · exact ⟨rfl, rfl⟩
    · exact ⟨rfl, rfl⟩
  all_goals exact ⟨rfl, rfl⟩

theorem pushLoop_front : ∀ (as l : List Bytes) (d : ℕ),
    (pushLoop true as l d).1 = as.reverse ++ l
  | [], _, _ => rfl
  | a :: as, l, d => by
    rw [pushLoop, pushLoop_front as]
    simp

theorem pushLoop_eq (b : Bool) (as l : List Bytes) (d : ℕ) :
    (pushLoop b as l d).1 = if b then as.reverse ++ l else l ++ as := by
  cases b with
  | false => exact pushLoop_back as l d
  | true => exact pushLoop_front as l d

theorem pushOutcome_serves (b : Bool) :
    (pushOutcome args b o).Serves (.push b (args.drop 2)) o := by
  intro _
  rcases o with _ | ⟨s | l | h | t, e, m⟩
  case none =>
    unfold pushOutcome
    refine ⟨?_, ?_⟩
    · have hlen := pushLoop_length b (args.drop 2) [] 0
      rw [List.length_nil, Nat.add_zero] at hlen
      change sendInteger _ = sendInteger _
      rw [hlen]
    · change some (Value.list _) = some (Value.list _)
      rw [pushLoop_eq, List.append_nil, List.nil_append]
  case some.list =>
    unfold pushOutcome
    refine ⟨?_, ?_⟩
    · change sendInteger _ = sendInteger ((l.length + (args.drop 2).length : ℕ) : ℤ)
      rw [pushLoop_length, Nat.add_comm]
    · change some (Value.list _) = some (Value.list _)
      rw [pushLoop_eq]
  all_goals exact ⟨rfl, rfl⟩

theorem slice_eq (l : List Bytes) (i j : ℤ) :
    slice l i j = elementsBetween l (max 0 (positionOf l.length i))
      (min ((l.length : ℤ) - 1) (positionOf l.length j)) := by
  have hslice : slice l i j =
      (l.take (positionOf l.length j + 1).toNat).drop (positionOf l.length i).toNat := rfl
  rw [hslice, elementsBetween]
  generalize positionOf l.length i = first
  generalize positionOf l.length j = last
  have hfirst : (max 0 first).toNat = first.toNat := by omega
  rw [hfirst]
  congr 1
  by_cases hlast : last ≤ l.length - 1
  · rw [min_eq_right hlast]
  · rw [min_eq_left (by omega), List.take_of_length_le (by omega),
      List.take_of_length_le (by omega)]

theorem lrangeOutcome_serves
    (hshort : ∀ v l, o = some v → v.data = .list l → l.length < 2 ^ 31) :
    (lrangeOutcome args o).Serves (.range (indices args)) o := by
  intro _
  rcases o with _ | ⟨s | l | h | t, e, m⟩
  case some.list =>
    unfold lrangeOutcome indices
    dsimp only
    rcases hi : stoi (arg args 2) with x | i
    · exact ⟨rfl, rfl⟩
    rcases hj : stoi (arg args 3) with x | j
    · exact ⟨rfl, rfl⟩
    refine ⟨?_, rfl⟩
    change lrangeReply l i j = respArrayOf (slice l i j)
    rw [lrangeReply_eq (hshort _ l rfl rfl) (fitsInt_of_stoi hi) (fitsInt_of_stoi hj), slice_eq]
  all_goals
    unfold indices
    rcases stoi (arg args 2) with x | i <;> rcases stoi (arg args 3) with y | j <;>
      exact ⟨rfl, rfl⟩

/-- What a pop takes and leaves, if it does not count below zero. -/
theorem popLoop_min (l : List Bytes) (count : ℤ) :
    popLoop l (min count l.length) = .ok (l.take count.toNat, l.drop count.toNat) ∧
        min count l.length = (l.take count.toNat).length ∨
      popLoop l (min count l.length) = .error .emptyDeque := by
  rw [popLoop_eq]
  by_cases hcount : 0 ≤ min count l.length ∧ min count l.length ≤ l.length
  · rw [if_pos hcount]
    refine .inl ⟨?_, ?_⟩
    · rcases le_or_gt count l.length with hle | hgt
      · rw [min_eq_left hle]
      · rw [min_eq_right hgt.le, List.take_of_length_le (by omega),
          List.take_of_length_le (by omega), List.drop_eq_nil_of_le (by omega),
          List.drop_eq_nil_of_le (by omega)]
    · rw [List.length_take]
      omega
  · rw [if_neg hcount]
    exact .inr rfl

theorem popOutcome_serves (b : Bool) (hlen : ¬ 3 < args.length)
    (hshort : ∀ v l, o = some v → v.data = .list l → l.length < 2 ^ 31) :
    (popOutcome args b o).Serves (.pop b (popCount args).toNat) o := by
  intro hf
  unfold popOutcome at hf ⊢
  rcases o with _ | ⟨s | l | h | t, e, m⟩ <;> simp only [if_neg hlen] at hf ⊢
  case some.list =>
    have hint : toInt l.length = l.length := toInt_natCast (hshort _ l rfl rfl)
    rw [hint] at hf ⊢
    cases b with
    | true =>
      simp only [if_true] at hf ⊢
      rcases popLoop_min l (popCount args) with ⟨hpop, hcount⟩ | hpop <;> rw [hpop] at hf ⊢
      · rw [hcount]
        exact ⟨rfl, rfl⟩
      · exact absurd rfl (hf _)
    | false =>
      simp only [Bool.false_eq_true, if_false] at hf ⊢
      rw [← List.length_reverse] at hf ⊢
      rcases popLoop_min l.reverse (popCount args) with ⟨hpop, hcount⟩ | hpop <;>
        rw [hpop] at hf ⊢
      · rw [hcount]
        refine ⟨rfl, ?_⟩
        change some (Value.list (l.reverse.drop (popCount args).toNat).reverse) =
          some (Value.list (l.take (l.length - (popCount args).toNat)))
        rw [List.reverse_drop, List.reverse_reverse, List.length_reverse]
      · exact absurd rfl (hf _)
  all_goals exact ⟨rfl, rfl⟩

theorem llenOutcome_serves : (llenOutcome o).Serves .llen o := by
  intro _
  rcases o with _ | ⟨s | l | h | t, e, m⟩
  case none =>
    refine ⟨?_, rfl⟩
    change ascii ":0" ++ crlf = sendInteger 0
    decide
  all_goals exact ⟨rfl, rfl⟩

/-- A value that holds a hash holds each field once. -/
theorem distinct_of_same {h : DrutaHash} {e : ℤ} {m : ℕ}
    (hsame : SameValue (some ⟨.hash h, e, m⟩) (some ⟨.hash h, e, m⟩)) : h.Distinct := by
  cases hsame with
  | some hs =>
    cases hs.data with
    | hash hd _ _ => exact hd

theorem hsetOutcome_serves (hlen : ¬ (args.length < 4 ∨ args.length % 2 ≠ 0))
    (hsame : SameValue o o) : (hsetOutcome args o).Serves (.hset (pairs (args.drop 2))) o := by
  intro _
  unfold hsetOutcome
  rw [if_neg hlen]
  rcases o with _ | ⟨s | l | h | t, e, m⟩
  case none =>
    have hempty : DrutaHash.empty.Distinct := List.nodup_nil
    obtain ⟨hfields, hcount⟩ := @fields_hsetLoop (args.drop 2) .empty 0 false hempty
    refine ⟨?_, ?_⟩
    · change sendInteger _ = sendInteger _
      rw [hcount, Nat.zero_add]
      rfl
    · change some (Value.hash _) = some (Value.hash _)
      rw [hfields]
      rfl
  case some.hash =>
    obtain ⟨hfields, hcount⟩ := @fields_hsetLoop (args.drop 2) h 0 false (distinct_of_same hsame)
    refine ⟨?_, ?_⟩
    · change sendInteger _ = sendInteger _
      rw [hcount, Nat.zero_add]
    · change some (Value.hash _) = some (Value.hash _)
      rw [hfields]
  all_goals exact ⟨rfl, rfl⟩

theorem hgetOutcome_serves (hlen : args.length = 3) (hsame : SameValue o o) :
    (hgetOutcome args o).Serves (.hget (arg args 2)) o := by
  intro _
  unfold hgetOutcome
  rw [if_neg (not_not.2 hlen)]
  rcases o with _ | ⟨s | l | h | t, e, m⟩
  case some.hash =>
    have hlookup := lookup_fields (distinct_of_same hsame) (arg args 2)
    simp only [Option.map_some, DrutaValue.meaning, Query.answer, Query.result, hlookup]
    rcases h.getHash (arg args 2) with _ | v
    · exact ⟨rfl, rfl⟩
    · exact ⟨rfl, rfl⟩
  all_goals exact ⟨rfl, rfl⟩

theorem hgetallOutcome_serves (hlen : args.length = 2) (hsame : SameValue o o) :
    (hgetallOutcome args o).Serves .hgetall o := by
  intro hf
  refine ⟨?_, ?_⟩
  · unfold hgetallOutcome at hf ⊢
    rw [if_neg (not_not.2 hlen)] at hf ⊢
    rcases o with _ | ⟨s | l | h | t, e, m⟩
    case some.hash =>
      have hd := distinct_of_same hsame
      dsimp only at hf ⊢
      rcases hr : reserve (addSize 1024 h.memoryUsage) with x | u <;> rw [hr] at hf
      · exact absurd rfl (hf _)
      refine ⟨h.toList, DrutaHash.nodup_fields hd, fun field value => ?_, ?_⟩
      · rw [DrutaHash.mem_toList_iff hd, lookup_fields hd]
      · have hlength : (fieldArgs h.toList).length = h.toList.length * 2 := by
          simp [fieldArgs, List.length_flatMap, Nat.mul_comm]
        rw [respArrayOf, hlength, fieldArgs, List.flatMap_assoc]
        simp only [List.flatMap_cons, List.flatMap_nil, List.append_nil]
    all_goals rfl
  · rw [hgetallOutcome_result]
    rcases o with _ | ⟨s | l | h | t, e, m⟩ <;> rfl

theorem hdelOutcome_serves (hlen : ¬ args.length < 3) (hsame : SameValue o o) :
    (hdelOutcome args o).Serves (.hdel (args.drop 2)) o := by
  intro _
  rcases o with _ | ⟨s | l | h | t, e, m⟩
  case some.hash =>
    obtain ⟨hfields, hcount⟩ := @fields_hdelLoop (args.drop 2) h 0 false (distinct_of_same hsame)
    obtain ⟨n, hn⟩ := hdelOutcome_written hlen h e m
    refine ⟨?_, ?_⟩
    · unfold hdelOutcome
      rw [if_neg hlen]
      change sendInteger _ = sendInteger _
      rw [hcount, Nat.zero_add]
    · rw [Effect.result_of_written hn]
      change some (Value.hash _) = some (Value.hash _)
      rw [hfields]
  all_goals
    unfold hdelOutcome
    rw [if_neg hlen]
    exact ⟨rfl, rfl⟩

theorem hlenOutcome_serves (hlen : args.length = 2) (hsame : SameValue o o) :
    (hlenOutcome args o).Serves .hlen o := by
  intro _
  unfold hlenOutcome
  rw [if_neg (not_not.2 hlen)]
  rcases o with _ | ⟨s | l | h | t, e, m⟩
  case some.hash =>
    refine ⟨?_, rfl⟩
    change sendInteger _ = sendInteger _
    rw [size_eq_card (distinct_of_same hsame)]
  all_goals exact ⟨rfl, rfl⟩

theorem saddOutcome_serves : (saddOutcome args o).Serves (.sadd (args.drop 2).toFinset) o := by
  intro _
  unfold saddOutcome
  rcases o with _ | ⟨s | l | h | t, e, m⟩
  case none =>
    obtain ⟨hset, hcount⟩ := elements_saddNewLoop (args.drop 2) ∅ 0 0
    rw [elements_empty, Finset.empty_union] at hset
    rw [elements_empty, Finset.sdiff_empty, Nat.zero_add] at hcount
    refine ⟨?_, ?_⟩
    · change sendInteger _ = sendInteger _
      rw [hcount]
    · change some (Value.set _) = some (Value.set _)
      rw [hset]
  case some.set =>
    obtain ⟨hset, hcount⟩ := elements_saddLoop (args.drop 2) t 0 0
    refine ⟨?_, ?_⟩
    · change sendInteger _ = sendInteger _
      rw [hcount, Nat.zero_add]
    · change some (Value.set _) = some (Value.set _)
      rw [hset]
  all_goals exact ⟨rfl, rfl⟩

theorem sdelOutcome_serves : (sdelOutcome args o).Serves (.sdel (args.drop 2).toFinset) o := by
  intro _
  unfold sdelOutcome
  rcases o with _ | ⟨s | l | h | t, e, m⟩
  case some.set =>
    obtain ⟨hset, hcount⟩ := elements_sdelLoop (args.drop 2) t 0 0
    refine ⟨?_, ?_⟩
    · change sendInteger _ = sendInteger _
      rw [hcount, Nat.zero_add]
    · change some (Value.set _) = some (Value.set _)
      rw [hset]
  all_goals exact ⟨rfl, rfl⟩

theorem sismemberOutcome_serves (hlen : args.length = 3) :
    (sismemberOutcome args o).Serves (.sismember (arg args 2)) o := by
  intro _
  unfold sismemberOutcome
  rw [if_neg (not_not.2 hlen)]
  rcases o with _ | ⟨s | l | h | t, e, m⟩
  case some.set =>
    refine ⟨?_, rfl⟩
    change sendInteger (if t.contains (arg args 2) then 1 else 0) =
      sendInteger ((if arg args 2 ∈ elements t then 1 else 0 : ℕ) : ℤ)
    simp only [contains_iff_elements]
    split_ifs
    · rfl
    · rfl
  all_goals exact ⟨rfl, rfl⟩

theorem smismemberOutcome_serves (hlen : 3 ≤ args.length) :
    (smismemberOutcome args o).Serves (.smismember (args.drop 2)) o := by
  intro _
  unfold smismemberOutcome
  rw [if_neg (not_lt.2 hlen)]
  rcases o with _ | ⟨s | l | h | t, e, m⟩
  case some.set =>
    refine ⟨?_, rfl⟩
    have hflags : ∀ l : List Bytes, (l.flatMap fun a =>
        (if t.contains a then ascii ":1" else ascii ":0") ++ crlf) =
          (l.map fun a => decide (a ∈ elements t)).flatMap fun x =>
            (if x then ascii ":1" else ascii ":0") ++ crlf := fun l => by
      rw [List.flatMap_map]
      simp only [contains_iff_elements, decide_eq_true_eq]
    change respArray _ ++ _ = respArray _ ++ _
    rw [hflags, List.length_map, List.length_drop]
  all_goals exact ⟨rfl, rfl⟩

theorem scardOutcome_serves (hlen : args.length = 2) :
    (scardOutcome args o).Serves .scard o := by
  intro _
  unfold scardOutcome
  rw [if_neg (not_not.2 hlen)]
  rcases o with _ | ⟨s | l | h | t, e, m⟩
  case some.set =>
    refine ⟨?_, rfl⟩
    change sendInteger _ = sendInteger _
    rw [size_eq_elements]
  all_goals exact ⟨rfl, rfl⟩

/-- The members of a tree are listed in ascending order. -/
theorem sent_elements (t : Std.ExtTreeSet Bytes) :
    (Answer.members (elements t)).Sent (respArrayOf t.toList) :=
  ⟨t.toList, Std.ExtTreeSet.ordered_toList.imp fun {a b} hab => (compare_lt_iff a b).1 hab, rfl,
    rfl⟩

theorem smembersOutcome_serves (hlen : args.length = 2) :
    (smembersOutcome args o).Serves .smembers o := by
  intro hf
  unfold smembersOutcome at hf ⊢
  rw [if_neg (not_not.2 hlen)] at hf ⊢
  rcases o with _ | ⟨s | l | h | t, e, m⟩
  case some.set =>
    dsimp only at hf ⊢
    rcases hr : reserve (addSize 1024 m) with x | u <;> rw [hr] at hf
    · exact absurd rfl (hf _)
    · exact ⟨sent_elements t, rfl⟩
  all_goals exact ⟨rfl, rfl⟩

/-- On a database whose key stands for the value, the request is answered by the outcome, and makes
of the key what it does. -/
def Request.Meets (q : Request Bytes) (key : Bytes) (o : Option DrutaValue) (out : Outcome) :
    Prop :=
  ∀ d : Database Bytes, d key = o.map DrutaValue.meaning → (q.answer d).Sent out.reply ∧
    q.result d = Function.update d key ((out.effect.result o).map DrutaValue.meaning)

theorem Outcome.Serves.meets {out : Outcome} {q : Query Bytes} (h : out.Serves q o)
    (hf : ∀ x, out.effect ≠ .fail x) (key : Bytes) : (Request.query key q).Meets key o out := by
  intro d hd
  obtain ⟨hsent, hresult⟩ := h hf
  rw [Request.answer, Request.result, hd, hresult]
  exact ⟨hsent, rfl⟩

theorem refused_meets (text key : Bytes) :
    (Request.refused text).Meets key o { reply := text } := by
  intro d hd
  refine ⟨rfl, ?_⟩
  change d = Function.update d key (o.map DrutaValue.meaning)
  rw [← hd, Function.update_eq_self]

/-- A command on one key does what it asks for. -/
theorem access_meets {key : Bytes} {f : Option DrutaValue → Outcome} (hsame : SameValue o o)
    (hshort : ∀ v l, o = some v → v.data = .list l → l.length < 2 ^ 31)
    (ha : (callOf args).action now args = some (.access key f))
    (hf : ∀ x, (f o).effect ≠ .fail x) :
    ∃ q, requestOf now args = some q ∧ q.Meets key o (f o) := by
  have hquery : ∀ {q : Query Bytes}, (f o).Serves q o → requestOf now args = some (.query key q) →
      ∃ q, requestOf now args = some q ∧ q.Meets key o (f o) :=
    fun h hq => ⟨_, hq, h.meets hf key⟩
  have hrefused : ∀ text : Bytes, f o = { reply := text } →
      requestOf now args = some (.refused text) →
        ∃ q, requestOf now args = some q ∧ q.Meets key o (f o) :=
    fun text h hq => ⟨_, hq, h ▸ refused_meets text key⟩
  have hpop : ∀ b, f = popOutcome args b → key = arg args 1 →
      requestOf now args = some (popRequest args b) →
        ∃ q, requestOf now args = some q ∧ q.Meets key o (f o) := by
    rintro b rfl rfl hq
    by_cases hlen : 3 < args.length
    · refine hrefused _ ?_ (hq.trans (congrArg some (if_pos hlen)))
      cases o <;> simp only [popOutcome, if_pos hlen]
    · exact hquery (popOutcome_serves b hlen hshort) (hq.trans (congrArg some (if_neg hlen)))
  have htakes : callOf args ≠ .unknown → (callOf args).Takes args.length := fun hne =>
    (of_route hne rfl).2
  rcases hcall : callOf args <;> rw [hcall] at ha htakes <;>
    simp only [Call.action, Option.some.injEq, reduceCtorEq, Action.access.injEq] at ha <;>
    obtain ⟨rfl, rfl⟩ := ha <;> replace htakes := htakes (by decide)
  case set =>
    rcases hopt : setOptions now (args.drop 3) 0 with x | deadline
    · refine hrefused notInteger ?_ (by simp only [requestOf, hcall, setRequest, hopt])
      simp only [setOutcome, hopt]
    · exact hquery (setOutcome_serves hopt) (by simp only [requestOf, hcall, setRequest, hopt])
  case get => exact hquery getOutcome_serves (by simp only [requestOf, hcall])
  case rpush => exact hquery (pushOutcome_serves false) (by simp only [requestOf, hcall])
  case lpush => exact hquery (pushOutcome_serves true) (by simp only [requestOf, hcall])
  case lrange => exact hquery (lrangeOutcome_serves hshort) (by simp only [requestOf, hcall])
  case lpop => exact hpop true rfl rfl (by simp only [requestOf, hcall])
  case rpop => exact hpop false rfl rfl (by simp only [requestOf, hcall])
  case llen => exact hquery llenOutcome_serves (by simp only [requestOf, hcall])
  case hset =>
    by_cases hlen : args.length < 4 ∨ args.length % 2 ≠ 0
    · refine hrefused _ ?_ (by rw [requestOf, hcall]; exact congrArg some (if_pos hlen))
      simp only [hsetOutcome, if_pos hlen]
    · exact hquery (hsetOutcome_serves hlen hsame)
        (by simp only [requestOf, hcall, hsetRequest, if_neg hlen])
  case hget => exact hquery (hgetOutcome_serves htakes hsame) (by simp only [requestOf, hcall])
  case hgetall =>
    exact hquery (hgetallOutcome_serves htakes hsame) (by simp only [requestOf, hcall])
  case hdel =>
    exact hquery (hdelOutcome_serves (not_lt.2 htakes) hsame) (by simp only [requestOf, hcall])
  case hlen => exact hquery (hlenOutcome_serves htakes hsame) (by simp only [requestOf, hcall])
  case sadd => exact hquery saddOutcome_serves (by simp only [requestOf, hcall])
  case scard => exact hquery (scardOutcome_serves htakes) (by simp only [requestOf, hcall])
  case sismember => exact hquery (sismemberOutcome_serves htakes) (by simp only [requestOf, hcall])
  case smembers => exact hquery (smembersOutcome_serves htakes) (by simp only [requestOf, hcall])
  case smismember =>
    exact hquery (smismemberOutcome_serves htakes) (by simp only [requestOf, hcall])
  case sdel => exact hquery sdelOutcome_serves (by simp only [requestOf, hcall])

end Outcomes

/-! ## Several keys -/

section Several

variable {s : Store} {d : Database Bytes} {args : List Bytes}

/-- The database is what the keys of the store stand for. -/
def Store.Means (s : Store) (d : Database Bytes) : Prop :=
  ∀ key, d key = (s.value key).map DrutaValue.meaning

theorem mem_membersAt (hd : s.Means d) (key a : Bytes) :
    a ∈ d.membersAt key ↔ a ∈ setAt s key := by
  have hkey := hd key
  unfold Database.membersAt
  change _ ↔ HoldsMember s a key
  rcases hv : s.value key with _ | ⟨x | l | h | t, e, m⟩ <;> rw [hv] at hkey <;> rw [hkey]
  case some.set =>
    refine mem_elements.trans ⟨fun ha => ⟨_, t, hv, rfl, ha⟩, ?_⟩
    rintro ⟨v, t', hv', ht', ha⟩
    obtain rfl := Option.some.inj (hv.symm.trans hv')
    obtain rfl := Data.set.inj ht'
    exact ha
  all_goals
    refine iff_of_false (Finset.notMem_empty a) ?_
    rintro ⟨v, t', hv', ht', -⟩
    rw [hv] at hv'
    cases hv'
    try cases ht'

theorem mem_biUnion_membersAt (hd : s.Means d) (keys : List Bytes) (a : Bytes) :
    a ∈ keys.toFinset.biUnion d.membersAt ↔ ∃ key ∈ keys, a ∈ setAt s key := by
  rw [Finset.mem_biUnion]
  simp only [List.mem_toFinset, mem_membersAt hd]

theorem AnswersSet.sent {m : StoreM (Bytes × Bool)} {A : Set Bytes} {t : Finset Bytes}
    (h : AnswersSet m s A) (ht : ∀ a, a ∈ t ↔ a ∈ A) :
    ∃ b, m s = .ok ((b, false), s) ∧ (Answer.members t).Sent b := by
  obtain ⟨l, hm, hl, hmem⟩ := h
  refine ⟨_, hm, l, hl, ?_, rfl⟩
  ext a
  rw [List.mem_toFinset, hmem, ht]

/-- The loop of `SINTER` and the intersection. -/
theorem sinterLoop_sent (hd : s.Means d) : ∀ (keys : List Bytes) (inter : Std.ExtTreeSet Bytes),
    ∃ o, sinterLoop keys inter s = .ok (o, s) ∧
      (d.inter keys (elements inter)).Sent (sinterReply o)
  | [], inter => ⟨_, rfl, sent_elements inter⟩
  | key :: keys, inter => by
    have hkey := hd key
    unfold sinterLoop Database.inter
    rw [bind_ok (find_value s key)]
    rcases hv : s.value key with _ | ⟨x | l | h | t, e, m⟩ <;> rw [hv] at hkey <;> rw [hkey]
    case none => exact ⟨_, rfl, sent_elements ∅⟩
    case some.set =>
      simp only [Option.map_some, DrutaValue.meaning]
      set next := inter.toList.foldl
        (fun n a => if t.contains a then n.insert a else n) (∅ : Std.ExtTreeSet Bytes) with hnext
      have hmeet : elements inter ∩ elements t = elements next := by
        ext a
        rw [Finset.mem_inter, mem_elements, mem_elements, mem_elements, hnext, mem_foldl_insert,
          Std.ExtTreeSet.mem_toList]
        simp
      have hempty : next.isEmpty = true ↔ elements next = ∅ := by
        rw [Std.ExtTreeSet.isEmpty_iff]
        refine ⟨fun h => by rw [h]; rfl, fun h => Std.ExtTreeSet.ext_mem fun a => ?_⟩
        rw [← mem_elements, h]
        simp
      rw [hmeet]
      by_cases h : elements next = ∅
      · rw [if_pos (hempty.2 h), if_pos h, ← h]
        exact ⟨_, rfl, sent_elements next⟩
      · rw [if_neg fun hc => h (hempty.1 hc), if_neg h]
        exact sinterLoop_sent hd keys next
    all_goals exact ⟨_, rfl, rfl⟩

theorem commandSinter_sent (hd : s.Means d) (hlen : 2 ≤ args.length) :
    ∃ b, commandSinter args s = .ok ((b, false), s) ∧
      ((Request.sinter (arg args 1) (args.drop 2)).answer d).Sent b := by
  have hkey := hd (arg args 1)
  have hloop : ∀ inter : Std.ExtTreeSet Bytes, ∃ b,
      (sinterLoop (args.drop 2) inter >>= fun o => pure (sinterReply o, false)) s =
        .ok ((b, false), s) ∧ (d.inter (args.drop 2) (elements inter)).Sent b := fun inter => by
    obtain ⟨o, ho, hsent⟩ := sinterLoop_sent hd (args.drop 2) inter
    exact ⟨_, bind_ok ho, hsent⟩
  unfold commandSinter
  rw [if_neg (not_lt.2 hlen), bind_ok (find_value s _), Request.answer]
  rcases hv : s.value (arg args 1) with _ | ⟨x | l | h | t, e, m⟩ <;> rw [hv] at hkey <;> rw [hkey]
  case none => exact hloop ∅
  case some.set => exact hloop t
  all_goals exact ⟨_, rfl, rfl⟩

/-- A command that names a key. -/
theorem first_of_length (hlen : 2 ≤ args.length) :
    ∃ cmd first rest, args = cmd :: first :: rest := by
  rcases args with _ | ⟨cmd, _ | ⟨first, rest⟩⟩
  · simp at hlen
  · simp at hlen
  · exact ⟨cmd, first, rest, rfl⟩

theorem commandSunion_sent (hd : s.Means d) (hlen : 2 ≤ args.length) :
    ∃ b, commandSunion args s = .ok ((b, false), s) ∧
      ((Request.sunion (args.drop 1).toFinset).answer d).Sent b := by
  obtain ⟨cmd, first, rest, rfl⟩ := first_of_length hlen
  refine (commandSunion_answers_set s cmd first rest).sent fun a => ?_
  rw [List.drop_one, List.tail_cons, mem_biUnion_membersAt hd, Set.mem_iUnion₂]
  simp only [exists_prop]

theorem commandSdiff_sent (hd : s.Means d) (hlen : 2 ≤ args.length) :
    ∃ b, commandSdiff args s = .ok ((b, false), s) ∧
      ((Request.sdiff (arg args 1) (args.drop 2).toFinset).answer d).Sent b := by
  obtain ⟨cmd, first, rest, rfl⟩ := first_of_length hlen
  have hkey := hd first
  have hmem := mem_membersAt hd first
  have hnone : ∀ v, s.value first = some v → v.data.kind = .set → ¬ HoldsOther s first := by
    rintro v hv hkind ⟨w, hw, hother⟩
    obtain rfl := Option.some.inj (hv.symm.trans hw)
    exact hother hkind
  have hanswer : ¬ HoldsOther s first → ∃ b, commandSdiff (cmd :: first :: rest) s =
      .ok ((b, false), s) ∧ (Answer.members
        (d.membersAt first \ rest.toFinset.biUnion d.membersAt)).Sent b := fun hfirst => by
    refine (commandSdiff_answers_set cmd hfirst rest).sent fun a => ?_
    rw [Finset.mem_sdiff, mem_biUnion_membersAt hd, Set.mem_sdiff, Set.mem_iUnion₂, hmem]
    simp only [exists_prop]
  have harg : arg (cmd :: first :: rest) 1 = first := rfl
  unfold Database.membersAt at hanswer
  rw [harg, Request.answer]
  rcases hv : s.value first with _ | ⟨x | l | h | t, e, m⟩ <;> rw [hv] at hkey <;>
    rw [hkey] at hanswer ⊢
  case none =>
    have hfirst : ¬ HoldsOther s first := by
      rintro ⟨w, hw, -⟩
      rw [hv] at hw
      cases hw
    have hempty := hanswer hfirst
    simp only [Option.map_none, Finset.empty_sdiff] at hempty
    exact hempty
  case some.set => exact hanswer (hnone _ hv rfl)
  all_goals
    refine ⟨wrongType, ?_, rfl⟩
    unfold commandSdiff
    rw [if_neg (by simp), bind_ok (find_value s _), harg, hv]
    rfl

/-- `DEL` counts the keys that are there, each once. -/
theorem deleteAll_card : ∀ (keys : List Bytes) (r : Recency), (Action.deleteAll keys r).1 =
    (keys.toFinset.filter fun key => (r.find key).isSome).card
  | [], _ => rfl
  | key :: keys, r => by
    unfold Action.deleteAll
    rw [List.toFinset_cons, Finset.filter_insert]
    rcases hkey : r.find key with _ | v
    · rw [if_neg (by simp)]
      exact deleteAll_card keys r
    · have hdrop : insert key (keys.toFinset.filter fun k => (r.find k).isSome) =
          insert key (keys.toFinset.filter fun k => ((r.drop key).find k).isSome) := by
        ext k
        simp only [Finset.mem_insert, Finset.mem_filter, Effect.find_drop]
        by_cases hk : k = key <;> simp [hk]
      have hkey : key ∉ keys.toFinset.filter fun k => ((r.drop key).find k).isSome := by
        simp [Effect.find_drop]
      rw [if_pos (by simp), hdrop, Finset.card_insert_of_notMem hkey, ← deleteAll_card keys]

end Several

/-! ## Steps -/

section Steps

variable {s s' : Server} {r : Recency} {env : Env} {fd : ℤ} {args : List Bytes} {e : Event}

/-- Every hash has each field once. -/
def Store.Distinct (s : Store) : Prop := ∀ key, SameValue (s.value key) (s.value key)

theorem distinct_step (hs : s.store = r.toStore) (hd : s.store.Distinct) (h : s.step e = .ok s') :
    s'.store.Distinct := by
  obtain ⟨gone, -, hcell⟩ := step_cell hs h
  intro key
  rw [hcell key]
  split_ifs
  · exact .none
  rcases hc : e.change s with _ | _ | a
  · exact hd key
  · exact .none
  rcases a with ⟨k, f⟩ | m | keys
  · rcases e with fd | fd | ⟨env, fd, args⟩
    · cases hc
    · cases hc
    have ha : (callOf args).action env.now args = some (.access k f) := by
      simp only [Event.change] at hc
      split_ifs at hc
      exact Call.action_of_change hc
    simp only [Change.cell]
    split_ifs
    · exact (agrees_of_action (hd key) ha).2
    · exact hd key
  · exact hd key
  · simp only [Change.cell]
    split_ifs
    · exact .none
    · exact hd key

/-- What the keys stand for after a change, evictions left aside. -/
def Change.database (s : Store) (c : Change) : Database Bytes := fun key =>
  (c.cell key (s.value key)).map DrutaValue.meaning

/-- The action of a command is what the command asks for. -/
theorem action_meets {a : Action} {b : Bytes} {ok : Bool} {r' : Recency}
    (hs : s.store = r.toStore) (hd : s.store.Distinct) (hshort : s.store.Short)
    (hmemstats : callOf args ≠ .memstats) (ha : (callOf args).action env.now args = some a)
    (hrun : a.run r = .ok ((b, ok), r')) : ∃ q, requestOf env.now args = some q ∧
      (q.answer s.database).Sent b ∧ q.result s.database = (Change.act a).database s.store := by
  have hmeans : s.store.Means s.database := fun key => rfl
  rcases a with ⟨key, f⟩ | m | keys
  · obtain ⟨rfl, -, hp⟩ := apply_ok hrun
    have hvalue : r.find key = s.store.value key := by rw [hs, value_toStore]
    rw [hvalue] at hp ⊢
    have hf : ∀ x, (f (s.store.value key)).effect ≠ .fail x := fun x hx => by
      rw [hx] at hp
      cases hp
    obtain ⟨q, hq, hmeets⟩ := access_meets (hd key) (hshort key) ha hf
    obtain ⟨hsent, hresult⟩ := hmeets s.database rfl
    refine ⟨q, hq, hsent, hresult.trans (funext fun k => ?_)⟩
    rw [Function.update_apply, Change.database, Change.cell]
    split_ifs with hk
    · rw [hk]
    · rfl
  · have hinspect : ∃ q, requestOf env.now args = some q ∧
        (∃ b, m s.store = .ok ((b, false), s.store) ∧ (q.answer s.database).Sent b) ∧
          q.result s.database = s.database := by
      have htakes : callOf args ≠ .unknown → (callOf args).Takes args.length := fun hne =>
        (of_route hne rfl).2
      rcases hcall : callOf args <;> rw [hcall] at ha htakes <;>
        simp only [Call.action, Option.some.injEq, reduceCtorEq, Action.inspect.injEq] at ha <;>
        subst ha <;> replace htakes := htakes (by decide)
      case sinter =>
        exact ⟨_, by rw [requestOf, hcall], commandSinter_sent hmeans htakes, rfl⟩
      case sunion =>
        exact ⟨_, by rw [requestOf, hcall], commandSunion_sent hmeans htakes, rfl⟩
      case sdiff =>
        exact ⟨_, by rw [requestOf, hcall], commandSdiff_sent hmeans htakes, rfl⟩
      case memstats => exact absurd hcall hmemstats
    obtain ⟨q, hq, ⟨b', hm, hsent⟩, hresult⟩ := hinspect
    rw [Action.run, ← hs, hm] at hrun
    obtain rfl : b' = b := congrArg (fun o => o.1.1) (Except.ok.inj hrun)
    exact ⟨q, hq, hsent, hresult⟩
  · obtain ⟨hcall, rfl⟩ := Call.del_of_delete ha
    refine ⟨.del (args.drop 1).toFinset, by rw [requestOf, hcall], ?_, funext fun key => ?_⟩
    · have hb : sendInteger (Action.deleteAll (args.drop 1) r).1 = b :=
        congrArg (fun o => o.1.1) (Except.ok.inj hrun)
      rw [← hb, deleteAll_card]
      have hthere : ∀ key, (s.database key).isSome = (r.find key).isSome := fun key => by
        rw [Server.database, Option.isSome_map, hs, value_toStore]
      simp only [Request.answer, hthere]
      rfl
    · rw [Request.result, Database.without, Change.database, Change.cell]
      simp only [List.mem_toFinset, List.contains_iff_mem]
      split_ifs
      · rfl
      · rfl

/-- What the keys stand for after a step: the change, and the evicted keys are gone. -/
theorem step_database (hs : s.store = r.toStore) (h : s.step e = .ok s') :
    s'.database = ((e.change s).database s.store).without
      (s'.store.evicted.drop s.store.evicted.length).toFinset := by
  obtain ⟨gone, hgone, hcell⟩ := step_cell hs h
  funext key
  rw [hgone, List.drop_left, Server.database, hcell key, Database.without, Change.database]
  simp only [List.mem_toFinset]
  split_ifs
  · rfl
  · rfl

/-- A branch that works on no key asks for nothing, `FLUSHDB` apart. -/
theorem requestOf_none (ha : (callOf args).action env.now args = none)
    (hflush : callOf args ≠ .flushdb) : requestOf env.now args = none := by
  unfold requestOf
  cases hcall : callOf args <;> rw [hcall] at ha hflush
  case flushdb => exact absurd rfl hflush
  all_goals first | rfl | cases ha

theorem flushdb_meets (hcall : callOf args = .flushdb) (hfd : fd ≠ -1) : ∃ q,
    requestOf env.now args = some q ∧
      (q.answer s.database).Sent (sentTo fd (commandFlushdb fd args s).1.1) ∧
      q.result s.database = ((callOf args).change env.now args).database s.store := by
  have hchange : (callOf args).change env.now args =
      if flushes args then .flush else .quiet := by
    rw [hcall]
    simp only [Call.change, Call.action, true_and]
  have hrequest : requestOf env.now args = some (if flushes args then .flush
      else .refused (ascii "-ERR add --sure flag to flush db" ++ crlf)) := by
    simp only [requestOf, hcall]
  have hsure : (args.length < 2 ∨ arg args 1 ≠ ascii "--sure") ↔ ¬ flushes args = true := by
    simp only [flushes, Bool.and_eq_true, decide_eq_true_eq, not_and_or, not_le, ne_eq]
  refine ⟨_, hrequest, ?_⟩
  unfold commandFlushdb
  rw [hchange]
  by_cases hflushes : flushes args = true
  · rw [if_neg (hsure.not.2 (not_not.2 hflushes)), if_pos hflushes, if_pos hflushes]
    exact ⟨sentTo_sendTo hfd _, rfl⟩
  · rw [if_pos (hsure.2 hflushes), if_neg hflushes, if_neg hflushes]
    exact ⟨sentTo_sendTo hfd _, rfl⟩

/-- What a client is sent for its command is an answer of the database, which takes the change. -/
theorem asked_path (hs : s.store = r.toStore) (hd : s.store.Distinct) (hshort : s.store.Short)
    (he : e.FromClient) (h : s.step e = .ok s') : Path (Database.Step Answer.Sent) s.database
      (e.asked s) ((e.change s).database s.store) := by
  rcases e with fd | fd | ⟨env, fd, args⟩
  · exact .nil _
  · exact .nil _
  have hfd : fd ≠ -1 := he
  simp only [Event.asked, Event.change]
  rcases ht : turnedAway s fd (toUpper (args.headD [])) with _ | _
  case true => exact .nil _
  simp only [Bool.false_eq_true, if_false]
  obtain ⟨o, u, hrun, hsends⟩ := run_of_step ht h
  rw [hsends]
  have hasked : ∀ {q : Request Bytes}, requestOf env.now args = some q →
      (q.answer s.database).Sent (sentTo fd o.1) →
      q.result s.database = ((callOf args).change env.now args).database s.store →
        Path (Database.Step Answer.Sent) s.database
          ((requestOf env.now args).toList.map fun q => .asked fd q (sentTo fd o.1))
          (((callOf args).change env.now args).database s.store) := by
    intro q hq hsent hresult
    rw [hq, ← hresult]
    exact .cons (.asked hsent) (.nil _)
  rcases ha : (callOf args).action env.now args with _ | a
  · by_cases hflush : callOf args = .flushdb
    · obtain ⟨q, hq, hsent, hresult⟩ := @flushdb_meets s env fd args hflush hfd
      rw [hflush] at hrun
      have ho : (commandFlushdb fd args (s.ensureClient fd)).1 = o :=
        congrArg Prod.fst (Except.ok.inj hrun)
      refine hasked hq ?_ hresult
      rw [← ho]
      unfold commandFlushdb at hsent ⊢
      split_ifs at hsent ⊢ <;> exact hsent
    · have hquiet : (callOf args).change env.now args = .quiet := by
        simp only [Call.change, ha, hflush, false_and, if_false]
      rw [requestOf_none ha hflush, hquiet]
      exact .nil _
  · have hchange : (callOf args).change env.now args = .act a := by
      simp only [Call.change, ha]
    by_cases hmemstats : callOf args = .memstats
    · have hrequest : requestOf env.now args = none := by
        simp only [requestOf, hmemstats]
      rw [hmemstats] at ha
      rw [hrequest, hchange]
      obtain rfl := Option.some.inj ha
      exact .nil _
    · have hclient : (s.ensureClient fd).store = r.toStore := hs
      rw [Call.run_action r env.now args ha fd _ hclient] at hrun
      rcases hact : a.run r with x | ⟨⟨b, ok⟩, r'⟩ <;> rw [hact] at hrun
      · cases hrun
      obtain rfl := congrArg Prod.fst (Except.ok.inj hrun)
      obtain ⟨q, hq, hsent, hresult⟩ := action_meets hs hd hshort hmemstats ha hact
      refine hasked hq ?_ (hchange ▸ hresult)
      rw [sentTo_sendTo hfd]
      exact hsent

end Steps

/-! ## Runs -/

section Runs

variable {s s' : Server} {e : Event} {events : List Event} {env : Env} {p p' : Process}

/-- The store is that of a list, and every hash has each field once. -/
structure Server.Sound (s : Server) : Prop where
  recency : ∃ r : Recency, s.store = r.toStore
  distinct : s.store.Distinct

theorem sound_empty (aof : Bytes) : ({ aof := aof } : Server).Sound :=
  ⟨⟨.initial, rfl⟩, fun _ => .none⟩

theorem Server.Sound.step (hs : s.Sound) (h : s.step e = .ok s') : s'.Sound := by
  obtain ⟨r, hr⟩ := hs.recency
  obtain ⟨r', hr', -⟩ := step_took hr h
  exact ⟨⟨r', hr'⟩, distinct_step hr hs.distinct h⟩

/-- A step answers what its client asks for, and then loses what it evicts. -/
theorem step_path (hs : s.Sound) (hshort : s.store.Short) (he : e.FromClient)
    (h : s.step e = .ok s') :
    Path (Database.Step Answer.Sent) s.database (s.labels e s') s'.database := by
  obtain ⟨r, hr⟩ := hs.recency
  have hlost : Path (Database.Step Answer.Sent) ((e.change s).database s.store)
      [.lost (s'.store.evicted.drop s.store.evicted.length).toFinset] s'.database := by
    rw [step_database hr h]
    exact .cons (.lost _ _) (.nil _)
  exact hlost.append (asked_path hr hs.distinct hshort he h)

theorem Server.Sound.path (hs : s.Sound) (h : run Server.step s events = .ok s')
    (hm : Meets Server.step (fun s e => e.FromClient ∧ s.store.Short) s events) :
    Path (Database.Step Answer.Sent) s.database (trace Server.step Server.labels s events)
      s'.database := by
  refine run_path (I := Server.Sound) ?_ hs hm h
  rintro s e s' hsound ⟨he, hshort⟩ ht
  exact ⟨hsound.step ht, step_path hsound hshort he ht⟩

/-- Whatever the clients send, what they are sent is what the database answers, where keys may be
lost; the keys that are left stand for what is in it. -/
theorem run_implements (h : run Server.step {} events = .ok s)
    (hm : Meets Server.step (fun s e => e.FromClient ∧ s.store.Short) {} events) :
    Path (Database.Step Answer.Sent) .empty (trace Server.step Server.labels {} events)
      s.database :=
  (sound_empty []).path h hm

theorem run_implements_set : ∃ s, run Server.step {}
      [.connect 4, .command {} 4 [ascii "SET", ascii "k", ascii "v"]] = .ok s ∧
    Path (Database.Step Answer.Sent) .empty (trace Server.step Server.labels {}
      [.connect 4, .command {} 4 [ascii "SET", ascii "k", ascii "v"]]) s.database := by
  obtain ⟨s, hs, -, -⟩ := exists_run_connected 0
  have hshort : ({} : Server).store.Short := fun key v l hv => by cases hv
  refine ⟨s, hs, run_implements hs ⟨⟨trivial, hshort⟩, fun s' hs' => ⟨⟨?_, ?_⟩, ?_⟩⟩⟩
  · change (4 : ℤ) ≠ -1
    decide
  · obtain rfl := Except.ok.inj hs'
    exact hshort
  · exact fun _ _ => trivial

/-- Who reads a string is sent what was set last, until its deadline; what the clients do to other
keys, and which of these are evicted, does not matter. -/
theorem run_reads_back {pre mid post : List (Label Bytes)} {fd fd' now deadline : ℤ}
    {key v sent sent' : Bytes} (h : run Server.step {} events = .ok s)
    (hm : Meets Server.step (fun s e => e.FromClient ∧ s.store.Short) {} events)
    (htrace : trace Server.step Server.labels {} events =
      pre ++ .asked fd (.query key (.set v deadline)) sent ::
        (mid ++ .asked fd' (.query key (.get now)) sent' :: post))
    (hmid : ∀ l ∈ mid, l.Spares key now) :
    sent' = if deadline ≠ 0 ∧ deadline < now then nilReply else respBulkString v := by
  have hpath := (sound_empty []).path h hm
  rw [htrace] at hpath
  obtain ⟨d, -, hrest⟩ := hpath.split
  have hsent := Database.get_of_set hrest hmid
  split_ifs at hsent ⊢
  · exact hsent
  · exact hsent

/-- A command of a client that listens to nothing. -/
theorem asked_of_normal {fd : ℤ} {args : List Bytes} {q : Request Bytes}
    (hs : (s.client fd).isSubscriber = false) (hq : requestOf env.now args = some q) :
    (Event.command env fd args).asked s =
      [.asked fd q (sentTo fd (handleCommand env fd args s).1)] := by
  have ht : turnedAway s fd (toUpper (args.headD [])) = false := by
    rw [turnedAway, hs]
    rfl
  simp only [Event.asked, ht, hq, Bool.false_eq_true, if_false]
  rfl

theorem short_withOne (hs : s.store = withOne.toStore) : s.store.Short := by
  intro key v l hv hl
  rw [hs, value_toStore, find_withOne] at hv
  split_ifs at hv
  obtain rfl := Option.some.inj hv
  cases hl

/-- A connection that sets a key and reads it back. -/
theorem run_reads_back_get : ∃ s sent sent', ∃ pre mid post : List (Label Bytes),
    run Server.step {} [.connect 4, .command {} 4 [ascii "SET", ascii "k", ascii "v"],
      .command {} 4 [ascii "GET", ascii "k"]] = .ok s ∧
    trace Server.step Server.labels {} [.connect 4,
        .command {} 4 [ascii "SET", ascii "k", ascii "v"], .command {} 4 [ascii "GET", ascii "k"]] =
      pre ++ .asked 4 (.query (ascii "k") (.set (ascii "v") 0)) sent ::
        (mid ++ .asked 4 (.query (ascii "k") (.get 0)) sent' :: post) ∧
    sent' = respBulkString (ascii "v") := by
  obtain ⟨t₀, ht, -, hserves⟩ := exists_run_connected 0
  obtain ⟨s, hs, hrest⟩ := run_cons ht
  obtain ⟨t, hset, hnil⟩ := run_cons hrest
  obtain rfl := Except.ok.inj hnil
  have hcheck : ({} : Env).sinceCheck < 5 := by simp
  obtain ⟨u, hu, -⟩ := step_serves {} 4 [ascii "GET", ascii "k"] hserves rfl
    (run_get (v := ascii "v") rfl) hcheck (by decide) (by decide)
  have hrun : run Server.step {} [.connect 4, .command {} 4 [ascii "SET", ascii "k", ascii "v"],
      .command {} 4 [ascii "GET", ascii "k"]] = .ok u :=
    (run_append [_, _] [_] ht).trans (run_cons_ok hu [])
  have hempty : ({} : Server).store.Short := fun key v l hv => by cases hv
  have hshort : s.store.Short := Except.ok.inj hs ▸ hempty
  have hfd : (4 : ℤ) ≠ -1 := by decide
  have hm : Meets Server.step (fun s e => e.FromClient ∧ s.store.Short) {} [.connect 4,
      .command {} 4 [ascii "SET", ascii "k", ascii "v"],
      .command {} 4 [ascii "GET", ascii "k"]] := by
    refine ⟨⟨trivial, hempty⟩, fun w hw => ⟨⟨hfd, ?_⟩, fun w' hw' => ⟨⟨hfd, ?_⟩, ?_⟩⟩⟩
    · obtain rfl := Except.ok.inj (hs.symm.trans hw)
      exact hshort
    · obtain rfl := Except.ok.inj (hs.symm.trans hw)
      obtain rfl := Except.ok.inj (hset.symm.trans hw')
      exact short_withOne hserves.store
    · exact fun _ _ => trivial
  have hnormal : (s.client 4).isSubscriber = false := by
    rw [← Except.ok.inj hs, Server.client_setClient, if_pos rfl]
  have hwrite : requestOf ({} : Env).now [ascii "SET", ascii "k", ascii "v"] =
      some (.query (ascii "k") (.set (ascii "v") 0)) := rfl
  have hread : requestOf ({} : Env).now [ascii "GET", ascii "k"] =
      some (.query (ascii "k") (.get 0)) := rfl
  have htrace : trace Server.step Server.labels {} [.connect 4,
      .command {} 4 [ascii "SET", ascii "k", ascii "v"], .command {} 4 [ascii "GET", ascii "k"]] =
        [.lost s.store.evicted.toFinset] ++ .asked 4 (.query (ascii "k") (.set (ascii "v") 0))
          (sentTo 4 (handleCommand {} 4 [ascii "SET", ascii "k", ascii "v"] s).1) ::
        ([.lost (t.store.evicted.drop s.store.evicted.length).toFinset] ++
          .asked 4 (.query (ascii "k") (.get 0))
            (sentTo 4 (handleCommand {} 4 [ascii "GET", ascii "k"] t).1) ::
          [.lost (u.store.evicted.drop t.store.evicted.length).toFinset]) := by
    rw [trace_cons_ok hs, trace_cons_ok hset, trace_cons_ok hu]
    simp only [Server.labels, asked_of_normal hnormal hwrite,
      asked_of_normal (hserves.normal 4) hread]
    rfl
  have hmid : ∀ l ∈ [Label.lost (t.store.evicted.drop s.store.evicted.length).toFinset],
      l.Spares (ascii "k") 0 := by
    intro l hl
    have hnone : t.store.evicted = [] := by
      rw [hserves.store]
      rfl
    rw [List.mem_singleton.1 hl, hnone, List.drop_nil]
    exact List.not_mem_nil
  exact ⟨u, _, _, _, _, _, hrun, htrace, run_reads_back hrun hm htrace hmid⟩

theorem handleAll_sound : ∀ {calls : List (List Bytes)} {s : Server}, s.Sound →
    handleAll env (-1) calls s = .ok s' → s'.Sound
  | [], _, hs, h => Except.ok.inj h ▸ hs
  | args :: calls, s, hs, h => by
    unfold handleAll at h
    rcases hc : (handleCommand env (-1) args s).2 with f | t <;> rw [hc] at h
    · cases h
    have hstep : s.step (.command env (-1) args) = .ok t := hc
    exact handleAll_sound (hs.step hstep) h

/-- What is read back from a file is sound. -/
theorem start_sound {m : Moment} {file : Bytes} (h : Process.start m file = .ok p) :
    p.logical.Sound := by
  unfold Process.start at h
  generalize ({ now := m.now, disk := m.disk } : Env) = env at h
  rcases hr : replayAof env { aof := file } with f | t <;> rw [hr] at h
  · cases h
  obtain rfl := Except.ok.inj h
  obtain ⟨u, hu, -, hstore⟩ := replayAof_ok hr
  have hsound : u.Sound := by
    unfold replayCommands at hu
    rcases hcalls : replayCalls file with ⟨calls, f | parser⟩ <;> simp only [hcalls] at hu <;>
      rcases hc : handleAll env (-1) calls { aof := file } with g | v <;> simp only [hc] at hu
    · cases hu
    · cases hu
    · cases hu
    · exact Except.ok.inj hu ▸ handleAll_sound (sound_empty file) hc
  have hlogical : t.store = u.store := hstore
  constructor
  · exact ⟨_, hlogical.trans hsound.recency.choose_spec⟩
  · change t.store.Distinct
    rw [hlogical]
    exact hsound.distinct

/-- What is decoded comes from clients. -/
theorem fromClient_of_decoded {ticks : List Tick} {d : Decoder}
    (ho : Orderly (ticks.flatMap Tick.events)) (h : run Decoder.step {} ticks = .ok d) :
    ∀ e ∈ d.events, e.FromClient := by
  refine run_all (J := fun _ d => ∀ e ∈ d.events, e.FromClient) (fun pre t d d' hpre hd ht => ?_)
    (fun e he => absurd he List.not_mem_nil) h
  have hbyte : ∀ fd b, t = .byte fd b → fd ≠ -1 := by
    rintro fd b rfl rfl
    obtain ⟨post, rfl⟩ := hpre
    have happend : (pre ++ [Tick.byte (-1) b] ++ post).flatMap Tick.events =
        pre.flatMap Tick.events ++ [.command {} (-1) []] ++ post.flatMap Tick.events := by
      simp [Tick.events]
    rw [happend] at ho
    have hpre : Orderly (pre.flatMap Tick.events) := fun us e hus =>
      ho us e (hus.trans ((List.prefix_append _ _).trans (List.prefix_append _ _)))
    have hopen := isOpen_of_follows (ho _ _ (List.prefix_append _ _))
    rw [isOpen_replay hpre] at hopen
    cases hopen
  have hsnoc : ∀ e : Event, e.FromClient → ∀ e' ∈ d.events ++ [e], e'.FromClient := by
    intro e he e' he'
    rcases List.mem_append.1 he' with hmem | hmem
    · exact hd e' hmem
    · rw [List.mem_singleton.1 hmem]
      exact he
  rcases t with fd | fd | ⟨fd, b⟩ | fd | _ <;> simp only [Decoder.step] at ht
  case accept => exact Except.ok.inj ht ▸ hsnoc _ trivial
  case byte =>
    rcases hp : (d.parsers fd).step b.2 with x | ⟨_ | args, parser⟩ <;> simp only [hp] at ht
    · cases ht
    · exact Except.ok.inj ht ▸ hd
    · exact Except.ok.inj ht ▸ hsnoc _ (hbyte fd b rfl)
  case close => exact Except.ok.inj ht ▸ hsnoc _ trivial
  all_goals exact Except.ok.inj ht ▸ hd

/-- A process is the database that its file is read back into: what comes in on the connections, in
whatever pieces, is what the database is asked for, and what it holds back does not matter. -/
theorem process_implements {m : Moment} {file : Bytes} {rounds : List Round}
    (hstart : Process.start m file = .ok p) (ho : Orderly (reported rounds))
    (h : run Process.round p rounds = .ok p')
    (hm : Meets Server.step (fun s _ => s.store.Short) p.logical p'.record) :
    (∃ d, run Decoder.step {} (rounds.flatMap Round.ticks) = .ok d ∧
      p'.record.map Event.untimed = d.events) ∧ p'.sent = sendsOf p.logical p'.record ∧
    Path (Database.Step Answer.Sent) p.logical.database
      (trace Server.step Server.labels p.logical p'.record) p'.logical.database := by
  rw [run_round_eq] at h
  obtain ⟨d, hd, hr⟩ := refines_run hstart ho h
  have hclients : ∀ e ∈ p'.record, e.FromClient := by
    intro e he
    have hmem : e.untimed ∈ d.events := hr.decoded ▸ List.mem_map_of_mem he
    have hclient := fromClient_of_decoded ho hd _ hmem
    rcases e with fd | fd | ⟨env, fd, args⟩
    · trivial
    · trivial
    · exact hclient
  have hmeets := (Meets.of_mem fun e he _ => hclients e he).and hm
  exact ⟨⟨d, hd, hr.decoded⟩, hr.sent, (start_sound hstart).path hr.runs hmeets⟩

/-- A connection pushes two values and reads the list. -/
def pushAndRead : Round where
  reports := [.accept 4, .recv 4 (typed (respCommand (pushOf "a") ++ respCommand (pushOf "b") ++
    respCommand readCommand))]
  started := 0
  now := 0

theorem process_implements_push : ∃ p', run Process.round {} [pushAndRead] = .ok p' ∧
    p'.record = [.connect 4, .command {} 4 (pushOf "a"), .command {} 4 (pushOf "b"),
      .command {} 4 readCommand] ∧
    p'.sent = [(4, ascii ":1\r\n"), (4, ascii ":2\r\n"),
      (4, ascii "*2\r\n$1\r\na\r\n$1\r\nb\r\n")] ∧ p'.sent = sendsOf {} p'.record ∧
    Path (Database.Step Answer.Sent) .empty (trace Server.step Server.labels {} p'.record)
      p'.logical.database := by
  obtain ⟨p', hp', hrecord, hread⟩ : ∃ p', run Process.round {} [pushAndRead] = .ok p' ∧
      p'.record = [.connect 4, .command {} 4 (pushOf "a"), .command {} 4 (pushOf "b"),
        .command {} 4 readCommand] ∧
      p'.sent = [(4, ascii ":1\r\n"), (4, ascii ":2\r\n"),
        (4, ascii "*2\r\n$1\r\na\r\n$1\r\nb\r\n")] := exists_of_any (by decide +kernel)
  have ho : Orderly (reported [pushAndRead]) := by decide +kernel
  have hm : Meets Server.step (fun s _ => s.store.Short) {} p'.record := by
    rw [hrecord]
    decide +kernel
  have hstart : Process.start {} [] = .ok {} := rfl
  obtain ⟨-, hsent, hpath⟩ := process_implements hstart ho hp' hm
  exact ⟨p', hp', hrecord, hread, hsent, hpath⟩

end Runs

end DrutaDB
