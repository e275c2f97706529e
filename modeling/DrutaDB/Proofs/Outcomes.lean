import DrutaDB.Proofs.Steps

/-!
# What the effects of commands are

A command writes, pops or drops only a key it found, and makes only a key it did not find
(`fits_of_action`).  A command that is not logged leaves the value it found, but for the deadline
that `GET` enforces and the fields that `HSET` overwrites (`unlogged_of_action`).
-/

namespace DrutaDB

open Machine Decimal Capacity

/-- The effect agrees with what was found, and its failure is not an access to a freed node. -/
def Effect.Fits (o : Option DrutaValue) : Effect → Prop
  | .keep => True
  | .drop => o.isSome
  | .assign _ _ _ => o.isSome
  | .pop _ _ _ _ => o.isSome
  | .create _ => o = none
  | .createAssign _ _ _ _ _ => o = none
  | .fail f => f ≠ .useAfterFree

section Fits

variable (now : ℤ) (args : List Bytes) (o : Option DrutaValue)

theorem setOutcome_fits : (setOutcome now args o).effect.Fits o := by
  unfold setOutcome
  split
  · trivial
  · cases o
    · rfl
    · rfl

theorem getOutcome_fits : (getOutcome now o).effect.Fits o := by
  unfold getOutcome
  repeat' split
  all_goals trivial

theorem pushOutcome_fits (b : Bool) : (pushOutcome args b o).effect.Fits o := by
  unfold pushOutcome
  repeat' split
  all_goals trivial

theorem lrangeOutcome_fits : (lrangeOutcome args o).effect.Fits o := by
  unfold lrangeOutcome
  repeat' split
  all_goals trivial

/-- The loop takes the elements it is to count down to, if there are as many. -/
theorem popLoop_eq : ∀ (l : List Bytes) (n : ℤ), popLoop l n =
    if 0 ≤ n ∧ n ≤ l.length then .ok (l.take n.toNat, l.drop n.toNat) else .error .emptyDeque
  | [], n => by
    unfold popLoop
    by_cases hn : n = 0
    · simp [hn]
    · rw [if_neg hn, if_neg]
      rw [List.length_nil]
      omega
  | a :: l, n => by
    unfold popLoop
    by_cases hn : n = 0
    · rw [if_pos hn, if_pos (by rw [List.length_cons]; omega), hn]
      rfl
    · rw [if_neg hn, popLoop_eq l (n - 1), List.length_cons]
      by_cases h : 0 ≤ n ∧ n ≤ (l.length + 1 : ℕ)
      · have hpred : 0 ≤ n - 1 ∧ n - 1 ≤ l.length := by omega
        have hsucc : n.toNat = (n - 1).toNat + 1 := by omega
        rw [if_pos h, if_pos hpred, hsucc]
        rfl
      · have hpred : ¬ (0 ≤ n - 1 ∧ n - 1 ≤ l.length) := by omega
        rw [if_neg h, if_neg hpred]

theorem popLoop_error {l : List Bytes} {n : ℤ} {f : Fault} (h : popLoop l n = .error f) :
    f = .emptyDeque := by
  rw [popLoop_eq] at h
  split_ifs at h
  exact (Except.error.inj h).symm

theorem popOutcome_fits (b : Bool) : (popOutcome args b o).effect.Fits o := by
  unfold popOutcome
  split
  · split <;> trivial
  · split
    · trivial
    · split
      · dsimp only
        split
        · rename_i f hf
          rw [popLoop_error hf]
          exact Fault.noConfusion
        · rfl
      · trivial

theorem llenOutcome_fits : (llenOutcome o).effect.Fits o := by
  unfold llenOutcome
  repeat' split
  all_goals trivial

theorem hsetOutcome_fits : (hsetOutcome args o).effect.Fits o := by
  unfold hsetOutcome
  repeat' split
  all_goals trivial

theorem hgetOutcome_fits : (hgetOutcome args o).effect.Fits o := by
  unfold hgetOutcome
  repeat' split
  all_goals trivial

theorem hgetallOutcome_fits : (hgetallOutcome args o).effect.Fits o := by
  unfold hgetallOutcome
  repeat' split
  all_goals first | trivial | exact Fault.noConfusion

theorem hdelOutcome_fits : (hdelOutcome args o).effect.Fits o := by
  unfold hdelOutcome
  split
  · trivial
  · split
    · trivial
    · split
      · dsimp only
        split_ifs <;> rfl
      · trivial

theorem hlenOutcome_fits : (hlenOutcome args o).effect.Fits o := by
  unfold hlenOutcome
  repeat' split
  all_goals trivial

theorem saddOutcome_fits : (saddOutcome args o).effect.Fits o := by
  unfold saddOutcome
  repeat' split
  all_goals trivial

theorem scardOutcome_fits : (scardOutcome args o).effect.Fits o := by
  unfold scardOutcome
  repeat' split
  all_goals trivial

theorem sismemberOutcome_fits : (sismemberOutcome args o).effect.Fits o := by
  unfold sismemberOutcome
  repeat' split
  all_goals trivial

theorem smembersOutcome_fits : (smembersOutcome args o).effect.Fits o := by
  unfold smembersOutcome
  repeat' split
  all_goals first | trivial | exact Fault.noConfusion

theorem smismemberOutcome_fits : (smismemberOutcome args o).effect.Fits o := by
  unfold smismemberOutcome
  repeat' split
  all_goals trivial

theorem sdelOutcome_fits : (sdelOutcome args o).effect.Fits o := by
  unfold sdelOutcome
  repeat' split
  all_goals trivial

variable {now args}

/-- The action of a call, one key at a time. -/
theorem fits_of_action {c : Call} {key : Bytes} {f : Option DrutaValue → Outcome}
    (hc : c.action now args = some (.access key f)) : (f o).effect.Fits o := by
  cases c <;> simp only [Call.action, Option.some.injEq, reduceCtorEq, Action.access.injEq] at hc <;>
    obtain ⟨-, rfl⟩ := hc
  · exact setOutcome_fits now args o
  · exact getOutcome_fits now o
  · exact pushOutcome_fits args o false
  · exact pushOutcome_fits args o true
  · exact lrangeOutcome_fits args o
  · exact popOutcome_fits args o true
  · exact popOutcome_fits args o false
  · exact llenOutcome_fits o
  · exact hsetOutcome_fits args o
  · exact hgetOutcome_fits args o
  · exact hgetallOutcome_fits args o
  · exact hdelOutcome_fits args o
  · exact hlenOutcome_fits args o
  · exact saddOutcome_fits args o
  · exact scardOutcome_fits args o
  · exact sismemberOutcome_fits args o
  · exact smembersOutcome_fits args o
  · exact smismemberOutcome_fits args o
  · exact sdelOutcome_fits args o

/-- A command on a key names it first. -/
theorem key_of_action {c : Call} {key : Bytes} {f : Option DrutaValue → Outcome}
    (hc : c.action now args = some (.access key f)) : key = arg args 1 := by
  cases c <;> simp only [Call.action, Option.some.injEq, reduceCtorEq, Action.access.injEq] at hc <;>
    exact hc.1.symm

/-- A call that only reads. -/
theorem answers_of_action {c : Call} {m : StoreM (Bytes × Bool)}
    (hc : c.action now args = some (.inspect m)) : Answers (fun _ => True) m := by
  cases c <;> simp only [Call.action, Option.some.injEq, reduceCtorEq, Action.inspect.injEq] at hc <;>
    obtain rfl := hc
  · exact commandSinter_answers args trivial trivial fun _ => trivial
  · exact commandSunion_answers args trivial fun _ => trivial
  · exact commandSdiff_answers args trivial trivial fun _ => trivial
  · exact commandMemstats_answers fun _ => trivial

end Fits

/-! ## Commands that are not logged -/

section Loops

theorem hsetLoop_created : ∀ (l : List Bytes) (h : DrutaHash) (n : ℕ) (b : Bool),
    n ≤ (hsetLoop l h n b).2.1
  | [], _, _, _ => le_rfl
  | [_], _, _, _ => le_rfl
  | field :: value :: l, h, n, b => by
    unfold hsetLoop
    refine le_trans ?_ (hsetLoop_created l _ _ _)
    split_ifs <;> omega

theorem hdelLoop_deleted : ∀ (l : List Bytes) (h : DrutaHash) (n : ℕ) (b : Bool),
    n ≤ (hdelLoop l h n b).2.1
  | [], _, _, _ => le_rfl
  | field :: l, h, n, b => by
    unfold hdelLoop
    refine le_trans ?_ (hdelLoop_deleted l _ _ _)
    split_ifs <;> omega

theorem delHash_eq_self {h : DrutaHash} {field : Bytes} (hd : (h.delHash field).2 = false) :
    (h.delHash field).1 = h := by
  rcases h with ⟨m | vec, usage⟩
  · unfold DrutaHash.delHash at hd ⊢
    dsimp only at hd ⊢
    rcases hm : m[field]? with _ | v <;> simp only [hm] at hd ⊢
    cases hd
  · unfold DrutaHash.delHash at hd ⊢
    dsimp only at hd ⊢
    rcases hv : vec.find? (·.1.bytes = field) with _ | p <;> simp only [hv] at hd ⊢
    cases hd

/-- A deletion that deletes no field leaves the hash. -/
theorem hdelLoop_eq_self : ∀ {l : List Bytes} {h : DrutaHash} {n : ℕ} {b : Bool},
    (hdelLoop l h n b).2.1 = n → (hdelLoop l h n b).1 = h
  | [], _, _, _, _ => rfl
  | field :: l, h, n, b, hn => by
    unfold hdelLoop at hn ⊢
    by_cases hd : (h.delHash field).2
    · have hle := hdelLoop_deleted l (h.delHash field).1 (n + 1) (b || h.delHashWraps field)
      simp only [hd, if_true] at hn
      omega
    · rw [Bool.not_eq_true] at hd
      simp only [hd, Bool.false_eq_true, if_false, delHash_eq_self hd] at hn ⊢
      exact hdelLoop_eq_self hn

theorem saddLoop_created : ∀ (l : List Bytes) (s : Std.ExtTreeSet Bytes) (d : ℤ) (n : ℕ),
    n ≤ (saddLoop l s d n).2.2
  | [], _, _, _ => le_rfl
  | a :: l, s, d, n => by
    unfold saddLoop
    split_ifs
    · exact saddLoop_created l s d n
    · exact (Nat.le_succ n).trans (saddLoop_created l _ _ (n + 1))

/-- An addition that adds no member leaves the set. -/
theorem saddLoop_eq_self : ∀ {l : List Bytes} {s : Std.ExtTreeSet Bytes} {d : ℤ} {n : ℕ},
    (saddLoop l s d n).2.2 = n → saddLoop l s d n = (s, d, n)
  | [], _, _, _, _ => rfl
  | a :: l, s, d, n, hn => by
    unfold saddLoop at hn ⊢
    split_ifs at hn ⊢ with ha
    · exact saddLoop_eq_self hn
    · have hle := saddLoop_created l (s.insert a) (toInt (toSize (d + setElementUsage a))) (n + 1)
      omega

theorem saddNewLoop_created : ∀ (l : List Bytes) (s : Std.ExtTreeSet Bytes) (u n : ℕ),
    n ≤ (saddNewLoop l s u n).2.2
  | [], _, _, _ => le_rfl
  | a :: l, s, u, n => by
    unfold saddNewLoop
    split_ifs
    · exact saddNewLoop_created l s u n
    · exact (Nat.le_succ n).trans (saddNewLoop_created l _ _ (n + 1))

theorem sdelLoop_deleted : ∀ (l : List Bytes) (s : Std.ExtTreeSet Bytes) (d : ℤ) (n : ℕ),
    n ≤ (sdelLoop l s d n).2.2
  | [], _, _, _ => le_rfl
  | a :: l, s, d, n => by
    unfold sdelLoop
    split_ifs
    · exact (Nat.le_succ n).trans (sdelLoop_deleted l _ _ (n + 1))
    · exact sdelLoop_deleted l s d n

/-- A deletion that deletes no member leaves the set. -/
theorem sdelLoop_eq_self : ∀ {l : List Bytes} {s : Std.ExtTreeSet Bytes} {d : ℤ} {n : ℕ},
    (sdelLoop l s d n).2.2 = n → sdelLoop l s d n = (s, d, n)
  | [], _, _, _, _ => rfl
  | a :: l, s, d, n, hn => by
    unfold sdelLoop at hn ⊢
    split_ifs at hn ⊢ with ha
    · have hle := sdelLoop_deleted l (s.erase a) (toInt (toSize (d + setElementUsage a))) (n + 1)
      omega
    · exact sdelLoop_eq_self hn

end Loops

/-- What a command that is not logged does to the value it found. -/
inductive Unlogged (now : ℤ) (args : List Bytes) (o : Option DrutaValue) : Effect → Prop
  | keep : Unlogged now args o .keep
  /-- `GET` finds a string past its deadline. -/
  | expire {v d} (ho : o = some v) (hd : v.data = .string d) (he : v.expired now) :
    Unlogged now args o .drop
  | touch {v wraps} (ho : o = some v) : Unlogged now args o (.assign v none wraps)
  /-- `SADD` and `SDEL` add zero to the counter. -/
  | same {v s wraps} (ho : o = some v) (hd : v.data = .set s) : Unlogged now args o
    (.assign { v with memoryUsage := addSize v.memoryUsage 0 } (some (0, 0)) wraps)
  /-- `HSET` finds all the fields it is given. -/
  | overwrite {v h wraps} (ho : o = some v) (hd : v.data = .hash h) (hcall : callOf args = .hset)
    (heven : args.length % 2 = 0) (hcreated : (hsetLoop (args.drop 2) h 0 false).2.1 = 0) :
    Unlogged now args o (.assign (hsetValue args v h)
      (some (h.memoryUsage, (hsetLoop (args.drop 2) h 0 false).1.memoryUsage)) wraps)

section Unlogged

variable {now : ℤ} {args : List Bytes} {o : Option DrutaValue}

theorem setOutcome_unlogged (hs : (setOutcome now args o).success = false) :
    Unlogged now args o (setOutcome now args o).effect := by
  unfold setOutcome at hs ⊢
  split at hs
  · exact .keep
  · cases hs

theorem getOutcome_unlogged : Unlogged now args o (getOutcome now o).effect := by
  unfold getOutcome
  split
  · exact .keep
  · split
    · split_ifs with he
      · exact .expire rfl ‹_› he
      · exact .touch rfl
    · exact .keep

theorem pushOutcome_unlogged {b : Bool} (hs : (pushOutcome args b o).success = false) :
    Unlogged now args o (pushOutcome args b o).effect := by
  rcases o with _ | v
  · simp [pushOutcome] at hs
  · unfold pushOutcome at hs ⊢
    rcases hd : v.data with s | l | h | s <;> simp only [hd] at hs ⊢
    · exact .keep
    · cases hs
    · exact .keep
    · exact .keep

theorem lrangeOutcome_unlogged : Unlogged now args o (lrangeOutcome args o).effect := by
  unfold lrangeOutcome
  repeat' split
  all_goals first | exact .keep | exact .touch rfl

theorem popOutcome_unlogged {b : Bool} (hs : (popOutcome args b o).success = false) :
    (∃ f, (popOutcome args b o).effect = .fail f) ∨
      Unlogged now args o (popOutcome args b o).effect := by
  by_cases hlen : 3 < args.length
  · have hreply : (popOutcome args b o).effect = .keep := by cases o <;> simp [popOutcome, hlen]
    rw [hreply]
    exact .inr .keep
  rcases o with _ | v
  · simp only [popOutcome, hlen, if_false]
    exact .inr .keep
  simp only [popOutcome, hlen, if_false] at hs ⊢
  rcases hd : v.data with s | l | h | s <;> simp only [hd] at hs ⊢
  · exact .inr .keep
  · generalize popLoop (if b then l else l.reverse) (min (popCount args) (toInt l.length)) = popped
      at hs ⊢
    rcases popped with f | ⟨taken, left⟩
    · exact .inl ⟨f, rfl⟩
    · cases hs
  · exact .inr .keep
  · exact .inr .keep

theorem llenOutcome_unlogged : Unlogged now args o (llenOutcome o).effect := by
  unfold llenOutcome
  repeat' split
  all_goals first | exact .keep | exact .touch rfl

theorem hsetOutcome_unlogged (hcall : callOf args = .hset)
    (hs : (hsetOutcome args o).success = false) :
    Unlogged now args o (hsetOutcome args o).effect := by
  unfold hsetOutcome at hs ⊢
  split_ifs at hs ⊢ with hlen
  · exact .keep
  rw [not_or, not_lt, not_not] at hlen
  rcases o with _ | v
  · -- a new hash gets at least its first field
    obtain ⟨field, value, l, hl⟩ : ∃ field value l, args.drop 2 = field :: value :: l := by
      rcases args with _ | ⟨_, _ | ⟨_, _ | ⟨field, _ | ⟨value, l⟩⟩⟩⟩
      all_goals first | exact ⟨_, _, _, rfl⟩ | simp at hlen
    have hone : 1 ≤ (hsetLoop (field :: value :: l) .empty 0 false).2.1 :=
      hsetLoop_created l (DrutaHash.empty.setHash field value).1 1
        (false || DrutaHash.empty.setHashWraps field)
    simp only [hl, decide_eq_false_iff_not] at hs
    exact absurd hone hs
  · rcases hd : v.data with s | l | h | s <;> simp only [hd] at hs ⊢
    · exact .keep
    · exact .keep
    · exact .overwrite rfl hd hcall hlen.2 (by simpa using hs)
    · exact .keep

theorem hgetOutcome_unlogged : Unlogged now args o (hgetOutcome args o).effect := by
  unfold hgetOutcome
  repeat' split
  all_goals first | exact .keep | exact .touch rfl

theorem hgetallOutcome_unlogged : (∃ f, (hgetallOutcome args o).effect = .fail f) ∨
    Unlogged now args o (hgetallOutcome args o).effect := by
  unfold hgetallOutcome
  repeat' split
  all_goals first | exact .inr .keep | exact .inr (.touch rfl) | exact .inl ⟨_, rfl⟩

theorem hdelOutcome_unlogged (hs : (hdelOutcome args o).success = false) :
    Unlogged now args o (hdelOutcome args o).effect := by
  unfold hdelOutcome at hs ⊢
  split_ifs at hs ⊢
  · exact .keep
  rcases o with _ | v
  · exact .keep
  rcases hd : v.data with s | l | h | s <;> simp only [hd] at hs ⊢
  · exact .keep
  · exact .keep
  · have hself : (hdelLoop (args.drop 2) h 0 false).1 = h := hdelLoop_eq_self (by simpa using hs)
    have hv : ({ v with data := .hash h } : DrutaValue) = v := by rw [← hd]
    simp only [hself, lt_irrefl, if_false, hv]
    exact .touch rfl
  · exact .keep

theorem hlenOutcome_unlogged : Unlogged now args o (hlenOutcome args o).effect := by
  unfold hlenOutcome
  repeat' split
  all_goals exact .keep

theorem saddOutcome_unlogged (hcall : callOf args = .sadd)
    (hs : (saddOutcome args o).success = false) :
    Unlogged now args o (saddOutcome args o).effect := by
  unfold saddOutcome at hs ⊢
  rcases o with _ | v
  · -- a new set gets at least its first member
    obtain ⟨a, l, hl⟩ : ∃ a l, args.drop 2 = a :: l := by
      have hlen : 3 ≤ args.length := (of_route (by decide) hcall).2
      refine List.exists_cons_of_ne_nil fun hc => ?_
      rw [List.drop_eq_nil_iff] at hc
      omega
    have hone : 1 ≤ (saddNewLoop (a :: l) ∅ 0 0).2.2 := by
      simp only [saddNewLoop, Std.ExtTreeSet.contains_empty, Bool.false_eq_true, if_false]
      exact saddNewLoop_created l _ _ 1
    simp only [hl, decide_eq_false_iff_not] at hs
    exact absurd hone hs
  · rcases hd : v.data with s | l | h | s <;> simp only [hd] at hs ⊢
    · exact .keep
    · exact .keep
    · exact .keep
    · have hself : saddLoop (args.drop 2) s 0 0 = (s, 0, 0) := saddLoop_eq_self (by simpa using hs)
      have hv : ({ v with data := .set s, memoryUsage := addSize v.memoryUsage 0 } : DrutaValue) =
          { v with memoryUsage := addSize v.memoryUsage 0 } := by rw [← hd]
      have hzero : toSize 0 = 0 := rfl
      simp only [hself, hzero, hv]
      exact .same rfl hd

theorem scardOutcome_unlogged : Unlogged now args o (scardOutcome args o).effect := by
  unfold scardOutcome
  repeat' split
  all_goals exact .keep

theorem sismemberOutcome_unlogged : Unlogged now args o (sismemberOutcome args o).effect := by
  unfold sismemberOutcome
  repeat' split
  all_goals exact .keep

theorem smembersOutcome_unlogged : (∃ f, (smembersOutcome args o).effect = .fail f) ∨
    Unlogged now args o (smembersOutcome args o).effect := by
  unfold smembersOutcome
  repeat' split
  all_goals first | exact .inr .keep | exact .inl ⟨_, rfl⟩

theorem smismemberOutcome_unlogged : Unlogged now args o (smismemberOutcome args o).effect := by
  unfold smismemberOutcome
  repeat' split
  all_goals exact .keep

theorem sdelOutcome_unlogged (hs : (sdelOutcome args o).success = false) :
    Unlogged now args o (sdelOutcome args o).effect := by
  unfold sdelOutcome at hs ⊢
  rcases o with _ | v
  · exact .keep
  rcases hd : v.data with s | l | h | s <;> simp only [hd] at hs ⊢
  · exact .keep
  · exact .keep
  · exact .keep
  · have hself : sdelLoop (args.drop 2) s 0 0 = (s, 0, 0) := sdelLoop_eq_self (by simpa using hs)
    have hv : ({ v with data := .set s, memoryUsage := subSize v.memoryUsage 0 } : DrutaValue) =
        { v with memoryUsage := addSize v.memoryUsage 0 } := by
      rw [← hd]
      simp [subSize, addSize]
    have hzero : toSize 0 = 0 := rfl
    simp only [hself, hzero, hv]
    exact .same rfl hd

/-- A command that is not logged leaves the value it found, but for a deadline it enforces and
fields it overwrites. -/
theorem unlogged_of_action {key : Bytes} {f : Option DrutaValue → Outcome}
    (hc : (callOf args).action now args = some (.access key f)) (hs : (f o).success = false) :
    (∃ x, (f o).effect = .fail x) ∨ Unlogged now args o (f o).effect := by
  rcases hcall : callOf args <;> rw [hcall] at hc <;>
    simp only [Call.action, Option.some.injEq, reduceCtorEq, Action.access.injEq] at hc <;>
    obtain ⟨-, rfl⟩ := hc
  · exact .inr (setOutcome_unlogged hs)
  · exact .inr getOutcome_unlogged
  · exact .inr (pushOutcome_unlogged hs)
  · exact .inr (pushOutcome_unlogged hs)
  · exact .inr lrangeOutcome_unlogged
  · exact popOutcome_unlogged hs
  · exact popOutcome_unlogged hs
  · exact .inr llenOutcome_unlogged
  · exact .inr (hsetOutcome_unlogged hcall hs)
  · exact .inr hgetOutcome_unlogged
  · exact hgetallOutcome_unlogged
  · exact .inr (hdelOutcome_unlogged hs)
  · exact .inr hlenOutcome_unlogged
  · exact .inr (saddOutcome_unlogged hcall hs)
  · exact .inr scardOutcome_unlogged
  · exact .inr sismemberOutcome_unlogged
  · exact smembersOutcome_unlogged
  · exact .inr smismemberOutcome_unlogged
  · exact .inr (sdelOutcome_unlogged hs)

end Unlogged

end DrutaDB
