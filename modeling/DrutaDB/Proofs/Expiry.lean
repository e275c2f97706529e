import DrutaDB.Proofs.Durability
import DrutaDB.Proofs.Visible

/-!
# Expired keys

Nothing but `GET` looks at a deadline, and nothing but `SET` gives one, so only strings have them
(`run_dated`).  A command that names no expired key cannot tell whether the expired keys were
removed first, and of the others only `GET`, `SET` and `SUNION` never can (`expired_iff`).
-/

namespace DrutaDB

open Machine Decimal Capacity Run Store

/-- What is not expired. -/
def unexpired (now : ℤ) : Visible := fun e => !e.2.expired now

def Recency.expiredKeys (now : ℤ) (r : Recency) : List Bytes :=
  (r.nodes.entries.filter fun e => e.2.expired now).map Prod.fst

/-- The list after the removal of the expired keys. -/
def Recency.purge (now : ℤ) (r : Recency) : Recency := (Action.deleteAll (r.expiredKeys now) r).2

/-- Only strings have a deadline. -/
def DrutaValue.Dated (v : DrutaValue) : Prop := v.data.kind = .string ∨ v.expiryTime = 0

/-- The key holds an expired value. -/
def ExpiredAt (now : ℤ) (s : Store) (key : Bytes) : Bool := (s.value key).any (·.expired now)

/-- A command that cannot tell the store from the second one, where the expired keys are removed. -/
def Call.Unaware (now : ℤ) (s s' : Store) (args : List Bytes) : Call → Prop
  | .rpush | .lpush | .lrange | .llen | .hget | .hgetall | .hdel | .hlen | .sadd | .scard
  | .sismember | .smembers | .smismember | .sdel | .sdiff => ¬ ExpiredAt now s (arg args 1)
  | .lpop | .rpop => 3 < args.length ∨ ¬ ExpiredAt now s (arg args 1)
  | .hset => args.length % 2 ≠ 0 ∨ ¬ ExpiredAt now s (arg args 1)
  | .del => ∀ key ∈ args.drop 1, ¬ ExpiredAt now s key
  | .sinter => SinterNotices s (args.drop 1) → SinterNotices s' (args.drop 1)
  | .memstats => s'.currentMemoryUsage = s.currentMemoryUsage
  | _ => True

/-! ## Only strings have deadlines -/

namespace Recency

/-- Every key holds a value of the kind. -/
def Each (Q : DrutaValue → Prop) (r : Recency) : Prop := ∀ e ∈ r.nodes.entries, Q e.2

variable {Q : DrutaValue → Prop} {r r' : Recency} {k : Bytes} {v : DrutaValue}

theorem each_iff : r.Each Q ↔ ∀ k v, r.find k = some v → Q v := by
  constructor
  · intro h k v hv
    exact h _ (RecencyList.find_eq_some_iff.1 hv)
  · rintro h ⟨k, v⟩ he
    exact h k v (RecencyList.find_eq_some_iff.2 he)

theorem each_initial : initial.Each Q := by
  intro e he
  cases he

theorem each_settle (h : r.Each Q) : r.settle.Each Q := fun e he =>
  h e ((RecencyList.shedList_suffix _ _ _ _).subset he)

theorem each_push {a : Account} (h : r.Each Q) (hv : Q v) : Each Q ⟨r.nodes.push k v, a⟩ := by
  intro e he
  rcases List.mem_append.1 he with he | he
  · exact h e (List.mem_of_mem_filter he)
  · rw [List.mem_singleton.1 he]
    exact hv

theorem each_write (b : Bool) (h : r.Each Q) (hv : Q v) : (r.write k v b).Each Q := by
  intro e he
  obtain ⟨e', he', rfl⟩ := List.mem_map.1 he
  split_ifs
  · exact hv
  · exact h e' he'

theorem each_drop (h : r.Each Q) : (r.drop k).Each Q := by
  rw [each_iff] at h ⊢
  intro k' v hv
  rw [Effect.find_drop] at hv
  split_ifs at hv
  exact h k' v hv

theorem each_touch (h : r.Each Q) (ht : r.touch k = .ok r') : r'.Each Q := by
  unfold touch at ht
  rcases hf : r.find k with _ | v <;> rw [hf] at ht
  · cases ht
  · obtain rfl := Except.ok.inj ht
    exact each_push h (each_iff.1 h k v hf)

theorem each_assign {c : Option (ℕ × ℕ)} {b : Bool} (h : r.Each Q) (hv : Q v)
    (ha : r.assign k v c b = .ok r') : r'.Each Q := by
  rcases c with _ | ⟨m, n⟩
  · exact each_touch (each_write b h hv) ha
  · exact each_touch (r := (r.write k v b).notify m n) (each_settle (each_write b h hv)) ha

/-- What a command leaves, evictions included. -/
theorem each_perform {e : Effect} (h : r.Each Q) (hv : ∀ v, e.result (r.find k) = some v → Q v)
    (hcreate : ∀ v₀ v m n b, e = .createAssign v₀ v m n b → Q v₀)
    (hp : r.perform k e = .ok r') : r'.Each Q := by
  cases e with
  | keep => exact Except.ok.inj hp ▸ h
  | drop => exact Except.ok.inj hp ▸ each_drop h
  | fail f => cases hp
  | assign v c b => exact each_assign h (hv v rfl) hp
  | create v => exact Except.ok.inj hp ▸ each_settle (each_push h (hv v rfl))
  | pop v m n b =>
    unfold perform at hp
    rcases ht : r.touch k with f | q <;> rw [ht] at hp
    · cases hp
    · exact Except.ok.inj hp ▸ each_settle (each_write b (each_touch h ht) (hv v rfl))
  | createAssign v₀ v m n b =>
    unfold perform at hp
    dsimp only at hp
    split at hp
    · exact each_assign (each_settle (each_push h (hcreate v₀ v m n b rfl))) (hv v rfl) hp
    · cases hp

end Recency

/-- The values that the effect makes of the one found are of the kind. -/
structure Effect.Leaves (Q : DrutaValue → Prop) (o : Option DrutaValue) (e : Effect) : Prop where
  result : ∀ v, e.result o = some v → Q v
  made : ∀ v₀ v m n b, e = .createAssign v₀ v m n b → Q v₀

/-- A step leaves values of a kind if the effect of its command on its key does. -/
theorem Took.each {Q : DrutaValue → Prop} {r r' : Recency} {s s' : Server} {e : Event}
    (ht : Took r s e s' r') (hr : r.Each Q)
    (hleaves : ∀ env fd args key f, e = .command env fd args →
      (callOf args).action env.now args = some (.access key f) →
        (f (r.find key)).effect.Leaves Q (r.find key)) : r'.Each Q := by
  cases ht with
  | quiet => exact hr
  | flush =>
    intro e he
    cases he
  | @act env fd args a _ _ _ _ hc hrun =>
    have ha := action_of_change hc
    rcases a with ⟨key, f⟩ | m | keys
    · obtain ⟨-, -, hp⟩ := apply_ok hrun
      obtain ⟨hresult, hmade⟩ := hleaves env fd args key f rfl ha
      exact Recency.each_perform hr hresult hmade hp
    · exact Action.eq_of_inspect ha hrun ▸ hr
    · obtain ⟨-, rfl⟩ := Prod.mk.inj (Except.ok.inj hrun)
      rw [Recency.each_iff] at hr ⊢
      intro k v hv
      rw [find_deleteAll] at hv
      split_ifs at hv
      exact hr k v hv

/-- The value has the deadline and the type of the one before it, and none if there was none. -/
def DrutaValue.Keeps (v : DrutaValue) : Option DrutaValue → Prop
  | none => v.expiryTime = 0
  | some w => v.expiryTime = w.expiryTime ∧ v.data.kind = w.data.kind

section Dated

variable {now : ℤ} {args : List Bytes} {key : Bytes} {f : Option DrutaValue → Outcome}
  {o : Option DrutaValue} {v : DrutaValue}

/-- No command but `SET` gives a deadline or changes a type. -/
theorem keeps_of_action (ha : (callOf args).action now args = some (.access key f))
    (hc : callOf args ≠ .set) (h : (f o).effect.result o = some v) : v.Keeps o := by
  rcases hcall : callOf args <;> rw [hcall] at ha hc <;>
    simp only [Call.action, Option.some.injEq, reduceCtorEq, Action.access.injEq] at ha <;>
    obtain ⟨-, rfl⟩ := ha
  case set => exact absurd rfl hc
  all_goals
    rcases o with _ | ⟨_ | _ | _ | _, e, m⟩ <;>
      simp only [getOutcome, pushOutcome, lrangeOutcome, popOutcome, llenOutcome, hsetOutcome,
        hsetValue, hgetOutcome, hgetallOutcome, hdelOutcome, hlenOutcome, saddOutcome,
        scardOutcome, sismemberOutcome, smembersOutcome, smismemberOutcome, sdelOutcome] at h
  all_goals
    repeat' split at h
  all_goals
    first
      | (cases h; rfl)
      | (cases h; exact ⟨rfl, rfl⟩)
      | cases h

/-- A value that is written before the command's own has no deadline. -/
theorem dated_of_createAssign {v₀ : DrutaValue} {m n : ℕ} {b : Bool}
    (ha : (callOf args).action now args = some (.access key f))
    (h : (f o).effect = .createAssign v₀ v m n b) : v₀.Dated := by
  rcases hcall : callOf args <;> rw [hcall] at ha <;>
    simp only [Call.action, Option.some.injEq, reduceCtorEq, Action.access.injEq] at ha <;>
    obtain ⟨-, rfl⟩ := ha
  all_goals
    rcases o with _ | ⟨_ | _ | _ | _, e, m⟩ <;>
      simp only [setOutcome, getOutcome, pushOutcome, lrangeOutcome, popOutcome, llenOutcome,
        hsetOutcome, hgetOutcome, hgetallOutcome, hdelOutcome, hlenOutcome, saddOutcome,
        scardOutcome, sismemberOutcome, smembersOutcome, smismemberOutcome, sdelOutcome] at h
  all_goals
    repeat' split at h
  all_goals
    cases h
    try exact .inr rfl

theorem dated_of_action (ha : (callOf args).action now args = some (.access key f))
    (ho : ∀ w, o = some w → w.Dated) (h : (f o).effect.result o = some v) : v.Dated := by
  by_cases hc : callOf args = .set
  · rw [hc] at ha
    simp only [Call.action, Option.some.injEq, Action.access.injEq] at ha
    obtain ⟨-, rfl⟩ := ha
    rcases hopt : setOptions now (args.drop 3) 0 with e | expireAt <;>
      simp only [setOutcome, hopt] at h
    · exact ho v h
    · rcases o with _ | w <;> exact .inl (Option.some.inj h ▸ rfl)
  · have hkeeps := keeps_of_action ha hc h
    rcases o with _ | w
    · exact .inr hkeeps
    · obtain ⟨hexp, hkind⟩ := hkeeps
      refine (ho w rfl).imp (fun hw => hkind.trans hw) fun hw => hexp.trans hw

end Dated

/-- The store of a server is the store of a list where only strings have a deadline. -/
def Server.Dated (s : Server) : Prop :=
  ∃ r : Recency, s.store = r.toStore ∧ r.Each DrutaValue.Dated

theorem step_dated {s s' : Server} {e : Event} (hd : s.Dated) (h : s.step e = .ok s') :
    s'.Dated := by
  obtain ⟨r, hs, hr⟩ := hd
  obtain ⟨r', hs', ht⟩ := step_took hs h
  refine ⟨r', hs', ht.each hr fun env fd args key f _ ha => ⟨fun v hv => ?_, ?_⟩⟩
  · exact dated_of_action ha (fun w hw => Recency.each_iff.1 hr key w hw) hv
  · intro v₀ v m n b he
    exact dated_of_createAssign ha he

/-- In every store a server reaches, only strings have a deadline. -/
theorem run_dated {events : List Event} {s : Server} (h : run Server.step {} events = .ok s) :
    s.Dated :=
  run_invariant (fun _ _ _ hd _ hs => step_dated hd hs) ⟨.initial, rfl, Recency.each_initial⟩
    (.of_forall (fun _ _ => trivial) _ _) h

/-! ## The store without the expired keys -/

namespace Recency

variable {now : ℤ} {r : Recency} {k : Bytes}

theorem mem_expiredKeys : k ∈ r.expiredKeys now ↔ ∃ v, r.find k = some v ∧ v.expired now := by
  unfold expiredKeys
  rw [List.mem_map]
  constructor
  · rintro ⟨⟨k, v⟩, hmem, rfl⟩
    obtain ⟨hin, he⟩ := List.mem_filter.1 hmem
    exact ⟨v, RecencyList.find_eq_some_iff.2 hin, he⟩
  · rintro ⟨v, hv, he⟩
    exact ⟨(k, v), List.mem_filter.2 ⟨RecencyList.find_eq_some_iff.1 hv, he⟩, rfl⟩

theorem expiredAt_toStore : ExpiredAt now r.toStore k ↔ ∃ v, r.find k = some v ∧ v.expired now := by
  unfold ExpiredAt
  rw [value_toStore, Option.any_eq_true]

theorem find_purge : (r.purge now).find k = if ExpiredAt now r.toStore k then none else r.find k := by
  unfold purge
  rw [find_deleteAll]
  simp only [expiredAt_toStore, mem_expiredKeys]

theorem shows_purge : (r.purge now).shows (unexpired now) = r.shows (unexpired now) := by
  refine shows_deleteAll_of_hidden _ fun k hk v hv => ?_
  obtain ⟨w, hw, he⟩ := mem_expiredKeys.1 hk
  obtain rfl := Option.some.inj (hv.symm.trans hw)
  simp only [unexpired, he, Bool.not_true]

/-- An expired key is not seen. -/
theorem filter_shows_unexpired (hk : ExpiredAt now r.toStore k) :
    (r.shows (unexpired now)).filter (·.1 ≠ k) = r.shows (unexpired now) := by
  rw [← shows_purge]
  refine filter_shows _ fun v hv => ?_
  rw [find_purge, if_pos hk] at hv
  cases hv

theorem find_purge_of_expired (hk : ExpiredAt now r.toStore k) : (r.purge now).find k = none := by
  rw [find_purge, if_pos hk]

theorem find_purge_of_not (hk : ¬ ExpiredAt now r.toStore k) :
    (r.purge now).find k = r.find k := by
  rw [find_purge, if_neg hk]

/-- An expired key holds a string. -/
theorem exists_expired_string (hdated : r.Each DrutaValue.Dated) (hk : ExpiredAt now r.toStore k) :
    ∃ v, r.find k = some v ∧ v.data.kind = .string ∧ v.expired now := by
  obtain ⟨v, hv, he⟩ := expiredAt_toStore.1 hk
  refine ⟨v, hv, (each_iff.1 hdated k v hv).resolve_right fun hzero => ?_, he⟩
  simp [DrutaValue.expired, hzero] at he

/-- Without the expired keys another key holds what it held, and an expired one held a string. -/
theorem value_purge (hdated : r.Each DrutaValue.Dated) (key : Bytes) :
    (r.purge now).toStore.value key = r.toStore.value key ∨
      (r.purge now).toStore.value key = none ∧
        ∃ v, r.toStore.value key = some v ∧ v.data.kind = .string := by
  rw [value_toStore, value_toStore]
  by_cases he : ExpiredAt now r.toStore key
  · obtain ⟨v, hv, hd, -⟩ := exists_expired_string hdated he
    exact .inr ⟨find_purge_of_expired he, v, hv, hd⟩
  · exact .inl (find_purge_of_not he)

theorem members_purge (hdated : r.Each DrutaValue.Dated) (key : Bytes) :
    members ((r.purge now).toStore.value key) = members (r.toStore.value key) := by
  rcases value_purge hdated key with h | ⟨hnone, ⟨d, e, m⟩, hv, hkind⟩
  · rw [h]
  · rw [hnone, hv]
    cases d <;> first
      | rfl
      | cases hkind

theorem holdsOther_purge (hdated : r.Each DrutaValue.Dated) (key : Bytes) :
    (r.purge now).toStore.value key = r.toStore.value key ∨ HoldsOther r.toStore key := by
  refine (value_purge hdated key).imp_right fun ⟨_, v, hv, hkind⟩ => ⟨v, hv, ?_⟩
  rw [hkind]
  exact Kind.noConfusion

end Recency

/-! ## Deleted keys -/

section Deleted

variable {P : Visible} {q r : Recency}

theorem deleteAll_congr : ∀ {keys : List Bytes} {q r : Recency},
    (∀ k ∈ keys, q.find k = r.find k) → (Action.deleteAll keys q).1 = (Action.deleteAll keys r).1
  | [], _, _, _ => rfl
  | key :: keys, q, r, h => by
    rw [List.forall_mem_cons] at h
    unfold Action.deleteAll
    rw [h.1]
    split
    · rw [deleteAll_congr]
      intro k hk
      rw [Effect.find_drop, Effect.find_drop, h.2 k hk]
    · exact deleteAll_congr h.2

theorem deleteAll_le : ∀ (keys : List Bytes) (r : Recency),
    (Action.deleteAll keys r).1 ≤ keys.length
  | [], _ => le_rfl
  | key :: keys, r => by
    unfold Action.deleteAll
    rw [List.length_cons]
    split
    · have := deleteAll_le keys (r.drop key)
      omega
    · have := deleteAll_le keys r
      omega

/-- Fewer keys are deleted where fewer are there. -/
theorem deleteAll_mono : ∀ {keys : List Bytes} {q r : Recency},
    (∀ k, (q.find k).isSome → (r.find k).isSome) →
      (Action.deleteAll keys q).1 ≤ (Action.deleteAll keys r).1 ∧
        ∀ k ∈ keys, q.find k = none → (r.find k).isSome →
          (Action.deleteAll keys q).1 < (Action.deleteAll keys r).1
  | [], _, _, _ => ⟨le_rfl, by simp⟩
  | key :: keys, q, r, h => by
    have hdrop : ∀ k, ((q.drop key).find k).isSome → ((r.drop key).find k).isSome := by
      intro k hk
      rw [Effect.find_drop] at hk ⊢
      split_ifs at hk ⊢
      · cases hk
      · exact h k hk
    unfold Action.deleteAll
    rcases hq : q.find key with _ | v <;> rcases hr : r.find key with _ | w <;> dsimp only
    · obtain ⟨hle, hlt⟩ := @deleteAll_mono keys _ _ h
      refine ⟨hle, fun k hk hkq hkr => ?_⟩
      rcases List.mem_cons.1 hk with rfl | hk
      · rw [hr] at hkr
        cases hkr
      · exact hlt k hk hkq hkr
    · have hsub : ∀ k, (q.find k).isSome → ((r.drop key).find k).isSome := by
        intro k hk
        rw [Effect.find_drop]
        split_ifs with hkey
        · rw [hkey, hq] at hk
          cases hk
        · exact h k hk
      have hle := (@deleteAll_mono keys _ _ hsub).1
      exact ⟨by omega, fun _ _ _ _ => by omega⟩
    · have hsome := h key (by rw [hq]; rfl)
      rw [hr] at hsome
      cases hsome
    · obtain ⟨hle, hlt⟩ := @deleteAll_mono keys _ _ hdrop
      refine ⟨by omega, fun k hk hkq hkr => ?_⟩
      have hne : k ≠ key := by
        rintro rfl
        rw [hq] at hkq
        cases hkq
      have := hlt k ((List.mem_cons.1 hk).resolve_left hne)
        (by rw [Effect.find_drop, if_neg hne]; exact hkq)
        (by rw [Effect.find_drop, if_neg hne]; exact hkr)
      omega

/-- As many keys are deleted without the expired ones exactly where none of them is expired. -/
theorem deleteAll_purge_iff {now : ℤ} {keys : List Bytes} :
    (Action.deleteAll keys r).1 = (Action.deleteAll keys (r.purge now)).1 ↔
      ∀ key ∈ keys, ¬ ExpiredAt now r.toStore key := by
  have hsub : ∀ k, ((r.purge now).find k).isSome → (r.find k).isSome := by
    intro k hk
    rw [Recency.find_purge] at hk
    split_ifs at hk
    · cases hk
    · exact hk
  constructor
  · intro heq key hkey he
    obtain ⟨v, hv, -⟩ := Recency.expiredAt_toStore.1 he
    have hlt := (deleteAll_mono hsub).2 key hkey (Recency.find_purge_of_expired he)
      (by rw [hv]; rfl)
    omega
  · intro hno
    exact deleteAll_congr fun k hk => (Recency.find_purge_of_not (hno k hk)).symm

end Deleted

/-! ## Commands on one key -/

section One

variable {P : Visible} {now fd : ℤ} {args : List Bytes} {k : Bytes} {v : DrutaValue}
  {l : List (Bytes × View × ℤ)}

/-- `GET` of an expired string. -/
theorem getOutcome_expired (hd : v.data.kind = .string) (he : v.expired now)
    (hl : l.filter (·.1 ≠ k) = l) :
    (getOutcome now (some v)).answer P fd k l = (getOutcome now none).answer P fd k l := by
  rcases v with ⟨d | l | h | t, e, m⟩
  case string =>
    unfold getOutcome
    simp only [he, if_true]
    exact answer_eq nofun nofun rfl hl
  all_goals cases hd

/-- `SET` writes the same over a value and beside it. -/
theorem setOutcome_replaces :
    (setOutcome now args (some v)).answer P fd k l = (setOutcome now args none).answer P fd k l := by
  unfold setOutcome
  rcases setOptions now (args.drop 3) 0 with f | expireAt <;> rfl

theorem popOutcome_error {b : Bool} (hlen : 3 < args.length) (o o' : Option DrutaValue) :
    popOutcome args b o = popOutcome args b o' := by
  unfold popOutcome
  rcases o with _ | v <;> rcases o' with _ | w <;> simp only [hlen, if_true]

end One

theorem toDecimal_inj {m n : ℕ} : toDecimal m = toDecimal n ↔ m = n := by
  refine ⟨fun h => ?_, congrArg toDecimal⟩
  rw [← digitsValue_toDecimal m, h, digitsValue_toDecimal]

/-- `MEMSTATS` shows nothing of the store but its counter. -/
theorem memstats_eq_iff (m n : ℕ) :
    ascii "+Memory Usage: " ++ toDecimal m ++ ascii " bytes" ++ crlf ++ ascii " +Memory Limit: " ++
        toDecimal lruMaxMemory ++ ascii " bytes" ++ crlf =
      ascii "+Memory Usage: " ++ toDecimal n ++ ascii " bytes" ++ crlf ++ ascii " +Memory Limit: " ++
        toDecimal lruMaxMemory ++ ascii " bytes" ++ crlf ↔ n = m := by
  simp only [List.append_assoc, List.append_cancel_left_eq, List.append_cancel_right_eq,
    toDecimal_inj]
  exact eq_comm

theorem sendInteger_inj {m n : ℕ} (hm : m < 2 ^ 31) (hn : n < 2 ^ 31)
    (h : sendInteger m = sendInteger n) : m = n := by
  unfold sendInteger at h
  rw [toInt_natCast hm, toInt_natCast hn, List.cons_append, List.cons_append] at h
  have htail := List.append_cancel_right (List.cons.inj h).2
  have hval := congrArg strtol htail
  rw [strtol_toDecimalInt, strtol_toDecimalInt] at hval
  exact_mod_cast Option.some.inj hval

/-! ## Expired keys and removed keys -/

section Answers

variable {s : Server} {r : Recency} {now fd : ℤ} {args : List Bytes}

/-- A typed command finds no fault with a missing key. -/
theorem reply_none {key : Bytes} {f : Option DrutaValue → Outcome} {kind : Kind}
    (ha : (callOf args).action now args = some (.access key f))
    (hkind : (callOf args).kind = some kind) (hsize : (callOf args).Takes args.length)
    (heven : callOf args = .hset → args.length % 2 = 0)
    (hcount : callOf args = .lpop ∨ callOf args = .rpop → args.length ≤ 3) :
    ((f none).reply ≠ wrongType) ∧ ∀ g, (f none).effect ≠ .fail g := by
  cases hc : callOf args <;> rw [hc] at ha hkind hsize heven hcount <;>
    simp only [Call.action, Option.some.injEq, reduceCtorEq, Action.access.injEq] at ha <;>
    simp only [Call.kind, reduceCtorEq] at hkind <;> simp only [Call.Takes] at hsize <;>
    obtain ⟨-, rfl⟩ := ha
  case lpop | rpop =>
    have hle := hcount (by simp)
    unfold popOutcome
    rw [if_neg (by omega)]
    exact ⟨ne_of_head rfl wrongType_head (by decide), fun g h => by cases h⟩
  case hset =>
    have hmod := heven rfl
    unfold hsetOutcome
    rw [if_neg (by omega)]
    exact ⟨ne_of_head rfl wrongType_head (by decide), fun g h => by cases h⟩
  case sdel => exact ⟨wrongType_ne_noSuchKey.symm, fun g h => by cases h⟩
  case hget | hgetall | hdel | hlen | scard | sismember | smembers | smismember =>
    first
      | unfold hgetOutcome
      | unfold hgetallOutcome
      | unfold hdelOutcome
      | unfold hlenOutcome
      | unfold scardOutcome
      | unfold sismemberOutcome
      | unfold smembersOutcome
      | unfold smismemberOutcome
    rw [if_neg (by omega)]
    exact ⟨ne_of_head rfl wrongType_head (by decide), fun g h => by cases h⟩
  all_goals exact ⟨ne_of_head rfl wrongType_head (by decide), fun g h => by cases h⟩

/-- A command that names an expired string, which is a value of another type to it, tells it from a
missing key. -/
theorem answer_ne_of_expired {kind : Kind} {v : DrutaValue} (hs : s.store = r.toStore)
    (hfd : fd ≠ -1) (hv : r.find (arg args 1) = some v) (hd : v.data.kind = .string)
    (he : v.expired now) {f : Option DrutaValue → Outcome}
    (ha : (callOf args).action now args = some (.access (arg args 1) f))
    (hkind : (callOf args).kind = some kind) (hstring : kind ≠ .string)
    (hsize : (callOf args).Takes args.length)
    (heven : callOf args = .hset → args.length % 2 = 0)
    (hcount : callOf args = .lpop ∨ callOf args = .rpop → args.length ≤ 3)
    (hl' : KeepsLimit now args { s with store := (r.purge now).toStore }) :
    s.answer (unexpired now) now fd args ≠
      ({ s with store := (r.purge now).toStore } : Server).answer (unexpired now) now fd args := by
  have hone : callOf args ≠ .sinter ∧ callOf args ≠ .sunion ∧ callOf args ≠ .sdiff := by
    refine ⟨?_, ?_, ?_⟩
    all_goals
      intro hc
      rw [hc] at ha
      cases ha
  have hvalue : s.store.value (arg args 1) = some v := by rw [hs, value_toStore, hv]
  have hrun := Call.run_wrongType (s := s) now fd (toUpper (args.headD [])) hkind hone hsize heven
    hcount hvalue (hd.trans_ne hstring.symm)
  obtain ⟨hreply, hfail⟩ := reply_none ha hkind hsize heven hcount
  have hgone : ExpiredAt now r.toStore (arg args 1) :=
    Recency.expiredAt_toStore.2 ⟨v, hv, he⟩
  rw [Server.answer_access (r := r.purge now) rfl ha hl', Recency.find_purge_of_expired hgone,
    answer_of_effect _ _ hfail, Server.answer, hrun]
  intro heq
  simp only [Except.map, sendTo, hfd, if_false, Except.ok.injEq, Prod.mk.injEq, List.cons.injEq,
    and_true, true_and] at heq
  exact hreply heq.1.symm

/-- A typed command that names a key tells the stores apart exactly if the key is expired. -/
theorem answer_purge_iff {kind : Kind} {f : Option DrutaValue → Outcome} (hs : s.store = r.toStore)
    (hfd : fd ≠ -1) (hdated : r.Each DrutaValue.Dated)
    (ha : (callOf args).action now args = some (.access (arg args 1) f))
    (hkind : (callOf args).kind = some kind) (hstring : kind ≠ .string)
    (hsize : (callOf args).Takes args.length)
    (heven : callOf args = .hset → args.length % 2 = 0)
    (hcount : callOf args = .lpop ∨ callOf args = .rpop → args.length ≤ 3)
    (hl : KeepsLimit now args s)
    (hl' : KeepsLimit now args { s with store := (r.purge now).toStore }) :
    s.answer (unexpired now) now fd args =
        ({ s with store := (r.purge now).toStore } : Server).answer (unexpired now) now fd args ↔
      ¬ ExpiredAt now s.store (arg args 1) := by
  refine ⟨fun heq h => ?_, fun h => ?_⟩
  · obtain ⟨v, hv, hd, he⟩ := Recency.exists_expired_string hdated (hs ▸ h)
    exact answer_ne_of_expired hs hfd hv hd he ha hkind hstring hsize heven hcount hl' heq
  · rw [Server.answer_access_iff hs Recency.shows_purge ha hl hl',
      Recency.find_purge_of_not (hs ▸ h)]

theorem getOutcome_purge (hdated : r.Each DrutaValue.Dated) (k : Bytes) :
    (getOutcome now (r.find k)).answer (unexpired now) fd k (r.shows (unexpired now)) =
      (getOutcome now ((r.purge now).find k)).answer (unexpired now) fd k
        (r.shows (unexpired now)) := by
  by_cases he : ExpiredAt now r.toStore k
  · obtain ⟨v, hv, hd, hexp⟩ := Recency.exists_expired_string hdated he
    rw [hv, Recency.find_purge_of_expired he]
    exact getOutcome_expired hd hexp (Recency.filter_shows_unexpired he)
  · rw [Recency.find_purge_of_not he]

theorem setOutcome_purge (hdated : r.Each DrutaValue.Dated) (k : Bytes) :
    (setOutcome now args (r.find k)).answer (unexpired now) fd k (r.shows (unexpired now)) =
      (setOutcome now args ((r.purge now).find k)).answer (unexpired now) fd k
        (r.shows (unexpired now)) := by
  by_cases he : ExpiredAt now r.toStore k
  · obtain ⟨v, hv, -, -⟩ := Recency.exists_expired_string hdated he
    rw [hv, Recency.find_purge_of_expired he]
    exact setOutcome_replaces
  · rw [Recency.find_purge_of_not he]

theorem answer_del_iff (hs : s.store = r.toStore) (hfd : fd ≠ -1) (hargs : args.length < 2 ^ 31)
    (hdel : callOf args = .del) :
    s.answer (unexpired now) now fd args =
        ({ s with store := (r.purge now).toStore } : Server).answer (unexpired now) now fd args ↔
      ∀ key ∈ args.drop 1, ¬ ExpiredAt now s.store key := by
  have ha : (callOf args).action now args = some (.delete (args.drop 1)) := by rw [hdel]; rfl
  rw [Server.answer_delete hs ha, Server.answer_delete (r := r.purge now) rfl ha,
    Recency.shows_deleteAll, Recency.shows_deleteAll, Recency.shows_purge]
  simp only [Except.ok.injEq, Prod.mk.injEq, sendTo, hfd, if_false, List.cons.injEq, and_true,
    true_and]
  rw [hs, ← deleteAll_purge_iff]
  refine ⟨fun heq => ?_, fun heq => by rw [heq]⟩
  have hle := deleteAll_le (args.drop 1) r
  have hle' := deleteAll_le (args.drop 1) (r.purge now)
  rw [List.length_drop] at hle hle'
  exact sendInteger_inj (by omega) (by omega) heq

theorem commandSdiff_purge (now : ℤ) (hdated : r.Each DrutaValue.Dated) (hsize : 2 ≤ args.length) :
    ∃ b b', commandSdiff args r.toStore = .ok ((b, false), r.toStore) ∧
      commandSdiff args (r.purge now).toStore = .ok ((b', false), (r.purge now).toStore) ∧
        (b = b' ↔ ¬ ExpiredAt now r.toStore (arg args 1)) := by
  by_cases he : ExpiredAt now r.toStore (arg args 1)
  · obtain ⟨v, hv, hd, -⟩ := Recency.exists_expired_string hdated he
    have hother : HoldsOther r.toStore (arg args 1) :=
      ⟨v, by rw [value_toStore, hv], by rw [hd]; exact Kind.noConfusion⟩
    have hno : ¬ HoldsOther (r.purge now).toStore (arg args 1) :=
      not_holdsOther_of_none (by rw [value_toStore, Recency.find_purge_of_expired he])
    obtain ⟨b, b', hb, hb', hne⟩ := commandSdiff_other hother hno hsize
    exact ⟨b, b', hb, hb', iff_of_false hne fun hnot => hnot he⟩
  · have hvalue : (r.purge now).toStore.value (arg args 1) = r.toStore.value (arg args 1) := by
      rw [value_toStore, value_toStore, Recency.find_purge_of_not he]
    obtain ⟨b, hb, hb'⟩ := commandSdiff_congr args (Recency.members_purge hdated)
      (congrArg firstSet hvalue)
    exact ⟨b, b, hb, hb', iff_of_true rfl he⟩

/-- In a store where only strings have a deadline, a command answers the same, and leaves the same
but for expired keys, as where the expired keys are removed first, exactly where it cannot tell. -/
theorem expired_iff (hs : s.store = r.toStore) (hfd : fd ≠ -1)
    (hdated : r.Each DrutaValue.Dated) (hargs : args.length < 2 ^ 31)
    (hl : KeepsLimit now args s)
    (hl' : KeepsLimit now args { s with store := (r.purge now).toStore }) :
    s.answer (unexpired now) now fd args =
        ({ s with store := (r.purge now).toStore } : Server).answer (unexpired now) now fd args ↔
      (callOf args).Unaware now s.store (r.purge now).toStore args := by
  have hone : ∀ {f}, (callOf args).action now args = some (.access (arg args 1) f) →
      (f (r.find (arg args 1))).answer (unexpired now) fd (arg args 1) (r.shows (unexpired now)) =
        (f ((r.purge now).find (arg args 1))).answer (unexpired now) fd (arg args 1)
          (r.shows (unexpired now)) →
      s.answer (unexpired now) now fd args =
        ({ s with store := (r.purge now).toStore } : Server).answer (unexpired now) now fd args :=
    fun ha => (Server.answer_access_iff hs Recency.shows_purge ha hl hl').2
  have hreads : ∀ {m} {b b' : Bytes}, (callOf args).action now args = some (.inspect m) →
      m r.toStore = .ok ((b, false), r.toStore) →
      m (r.purge now).toStore = .ok ((b', false), (r.purge now).toStore) →
      (s.answer (unexpired now) now fd args =
        ({ s with store := (r.purge now).toStore } : Server).answer (unexpired now) now fd args ↔
          b = b') := fun ha => Server.answer_inspect_iff hs hfd Recency.shows_purge ha
  have hquiet : (callOf args).action now args = none →
      s.answer (unexpired now) now fd args =
        ({ s with store := (r.purge now).toStore } : Server).answer (unexpired now) now fd args := by
    intro ha
    refine (Server.answer_of_none ha ?_).symm
    rw [hs, Recency.shows_toStore, Recency.shows_toStore, Recency.shows_purge]
  have htyped : ∀ {f} {kind : Kind}, (callOf args).action now args = some (.access (arg args 1) f) →
      (callOf args).kind = some kind → kind ≠ .string → (callOf args).Takes args.length →
      (callOf args = .hset → args.length % 2 = 0) →
      (callOf args = .lpop ∨ callOf args = .rpop → args.length ≤ 3) →
      (s.answer (unexpired now) now fd args =
        ({ s with store := (r.purge now).toStore } : Server).answer (unexpired now) now fd args ↔
          ¬ ExpiredAt now s.store (arg args 1)) := fun ha hkind hstring hsize heven hcount =>
    answer_purge_iff hs hfd hdated ha hkind hstring hsize heven hcount hl hl'
  have hsize : callOf args ≠ .unknown → (callOf args).Takes args.length := fun h =>
    (of_route h rfl).2
  cases hc : callOf args <;> rw [hc] at hone hreads hquiet htyped hsize <;>
    simp only [reduceCtorEq, false_implies, true_implies, or_self] at htyped hsize
  case get => exact iff_of_true (hone rfl (getOutcome_purge hdated _)) trivial
  case set => exact iff_of_true (hone rfl (setOutcome_purge hdated _)) trivial
  case del => exact answer_del_iff hs hfd hargs hc
  case sunion =>
    obtain ⟨b, hb, hb'⟩ := commandSunion_congr args (Recency.members_purge hdated)
    exact iff_of_true ((hreads rfl hb hb').2 rfl) trivial
  case sdiff =>
    obtain ⟨b, b', hb, hb', hiff⟩ := commandSdiff_purge now hdated (hsize (by simp))
    exact (hreads rfl hb hb').trans (hs ▸ hiff)
  case sinter =>
    obtain ⟨b, b', hb, hb', hiff⟩ := commandSinter_other (s := r.toStore)
      (Recency.holdsOther_purge hdated) (hsize (by simp))
    rw [← hs] at hiff
    exact (hreads rfl hb hb').trans hiff
  case memstats =>
    rw [hs]
    exact (hreads rfl rfl rfl).trans (memstats_eq_iff _ _)
  case lpop | rpop =>
    by_cases hlen : 3 < args.length
    · refine iff_of_true (hone rfl ?_) (.inl hlen)
      rw [popOutcome_error hlen (r.find _) ((r.purge now).find _)]
    · exact (htyped rfl rfl (by simp) (hsize (by simp)) (by omega)).trans (or_iff_right hlen).symm
  case hset =>
    by_cases hodd : args.length % 2 ≠ 0
    · refine iff_of_true (hone rfl ?_) (.inl hodd)
      unfold hsetOutcome
      rw [if_pos (.inr hodd), if_pos (.inr hodd)]
    · exact (htyped rfl rfl (by simp) (hsize (by simp)) (by omega)).trans (or_iff_right hodd).symm
  case ping | echo | flushdb | subscribe | unsubscribe | publish | command | unknown =>
    exact iff_of_true (hquiet rfl) trivial
  all_goals exact htyped rfl rfl (by simp) (hsize (by simp))

end Answers

/-- A string whose deadline passes. -/
theorem exists_expired : ∃ (s : Server) (r : Recency), run Server.step {} [.command {} 4
      [ascii "SET", ascii "k", ascii "v", ascii "PXAT", ascii "5"]] = .ok s ∧
    s.store = r.toStore ∧ r.Each DrutaValue.Dated ∧
      r.find (ascii "k") = some (.ofString (ascii "v") 5) := by
  obtain ⟨s, hs, h⟩ := step_serves {} 4
    [ascii "SET", ascii "k", ascii "v", ascii "PXAT", ascii "5"] serves_initial rfl
    rfl (by decide) (by decide) (by decide)
  refine ⟨s, _, run_cons_ok hs [], h.store, ?_, rfl⟩
  intro e he
  obtain rfl := List.mem_singleton.1 he
  exact .inl rfl

/-- `GET` of a string whose deadline passed. -/
theorem expired_iff_get : ∃ (s : Server) (r : Recency), run Server.step {} [.command {} 4
      [ascii "SET", ascii "k", ascii "v", ascii "PXAT", ascii "5"]] = .ok s ∧
    s.store = r.toStore ∧ s.answer (unexpired 10) 10 4 [ascii "GET", ascii "k"] =
      ({ s with store := (r.purge 10).toStore } : Server).answer (unexpired 10) 10 4
        [ascii "GET", ascii "k"] := by
  obtain ⟨s, r, hs, hst, hdated, -⟩ := exists_expired
  have hlimit : ∀ t : Server, KeepsLimit 10 [ascii "GET", ascii "k"] t := by
    intro t
    change ∀ u ∈ (getOutcome 10 (t.store.value (ascii "k"))).effect.counters _ _, u ≤ lruMaxMemory
    rcases t.store.value (ascii "k") with _ | ⟨d, e, m⟩
    · nofun
    · unfold getOutcome
      cases d <;> dsimp only <;> (try split_ifs) <;> nofun
  have hget : callOf [ascii "GET", ascii "k"] = .get := rfl
  refine ⟨s, r, hs, hst, (expired_iff hst (by decide) hdated (by decide) (hlimit _) (hlimit _)).2 ?_⟩
  rw [hget]
  trivial

/-- `LLEN` answers `WRONGTYPE` for an expired string. -/
theorem llen_tells_expired : ¬ ∀ (s : Server) (r : Recency) (now fd : ℤ) (args : List Bytes),
    s.store = r.toStore → fd ≠ -1 → r.Each DrutaValue.Dated → args.length < 2 ^ 31 →
      KeepsLimit now args s → KeepsLimit now args { s with store := (r.purge now).toStore } →
        s.answer (unexpired now) now fd args =
          ({ s with store := (r.purge now).toStore } : Server).answer (unexpired now) now fd args := by
  intro hall
  obtain ⟨s, r, -, hst, hdated, hfind⟩ := exists_expired
  have hargs : arg [ascii "LLEN", ascii "k"] 1 = ascii "k" := rfl
  have hgone : (r.purge 10).find (ascii "k") = none :=
    Recency.find_purge_of_expired (Recency.expiredAt_toStore.2 ⟨_, hfind, rfl⟩)
  have heq := hall s r 10 4 [ascii "LLEN", ascii "k"] hst (by decide) hdated (by decide)
    (keepsLimit_llen _ _ _) (keepsLimit_llen _ _ _)
  rw [Server.answer_access hst rfl (keepsLimit_llen _ _ _),
    Server.answer_access (r := r.purge 10) rfl rfl (keepsLimit_llen _ _ _), hargs, hfind,
    hgone] at heq
  cases heq

end DrutaDB
