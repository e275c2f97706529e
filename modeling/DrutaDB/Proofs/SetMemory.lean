import DrutaDB.Proofs.ListMemory

/-!
# The memory counter of a set

`SADD` on a set that is there, and `SDEL`, add up what they change in an `int`.  The counter of a
set is what a scan of its members gives as long as no `SADD` adds as much as an `int` cannot hold
(`set_accounted`).
-/

namespace DrutaDB

open Machine Decimal Capacity Run Store Totals

/-- What the members count for. -/
def membersUsage (t : Std.ExtTreeSet Bytes) : ℕ := setTotal setElementUsage t

/-- What the constructor counts by a scan of the members. -/
def setScan (t : Std.ExtTreeSet Bytes) : ℕ := sumSize (t.toList.map setElementUsage)

/-- What the arguments that are not members yet count for. -/
def newUsage (as : List Bytes) (t : Std.ExtTreeSet Bytes) : ℕ :=
  ((as.dedup.filter fun a => !t.contains a).map setElementUsage).sum

/-- `SADD`, `SDEL`, or a command the server does not know, such as an `SADD` of too few words. -/
def Event.OnSets : Event → Prop
  | .command _ _ args => callOf args ∈ [Call.sadd, .sdel, .unknown]
  | _ => True

/-- What `SADD` adds to a set that is there fits in an `int`. -/
def AddsInt (s : Server) : Event → Prop
  | .command _ _ args => callOf args = .sadd → ∀ v t, s.store.value (arg args 1) = some v →
      v.data = .set t → newUsage (args.drop 2) t < 2 ^ 31
  | _ => True

/-- What is notified is what the members gain or lose, and an `SADD` leaves of an empty set what it
makes of a missing key. -/
def NotifiesExactly (s : Server) : Event → Prop
  | .command _ _ args => ∀ v t, s.store.value (arg args 1) = some v → v.data = .set t →
      (callOf args = .sadd →
        setScan t + toSize (saddLoop (args.drop 2) t 0 0).2.1 =
          setScan (saddLoop (args.drop 2) t 0 0).1 ∧
        (t = ∅ → addSize v.memoryUsage (toSize (saddLoop (args.drop 2) ∅ 0 0).2.1) =
          (saddNewLoop (args.drop 2) ∅ 0 0).2.1)) ∧
      (callOf args = .sdel →
        setScan (sdelLoop (args.drop 2) t 0 0).1 + toSize (sdelLoop (args.drop 2) t 0 0).2.1 =
          setScan t)
  | _ => True

/-- The counter of a set is the sum itself. -/
def DrutaValue.SetCounted (v : DrutaValue) : Prop :=
  ∀ t, v.data = .set t → v.memoryUsage = membersUsage t

/-! ## The loops -/

section Loops

theorem setScan_eq (t : Std.ExtTreeSet Bytes) : setScan t = toSize (membersUsage t) := sumSize_eq _

/-- The delta of `SADD` is the `int` of what the members gain. -/
theorem delta_saddLoop : ∀ (as : List Bytes) (t : Std.ExtTreeSet Bytes) (n : ℤ) (c : ℕ),
    (saddLoop as t (toInt n) c).2.1 =
      toInt (n + membersUsage (saddLoop as t (toInt n) c).1 - membersUsage t)
  | [], t, n, c => by
    unfold saddLoop
    rw [add_sub_cancel_right]
  | a :: as, t, n, c => by
    unfold saddLoop
    split_ifs with ha
    · exact delta_saddLoop as t n c
    · rw [Std.ExtTreeSet.contains_iff_mem] at ha
      have hgain : membersUsage (t.insert a) = setElementUsage a + membersUsage t :=
        setTotal_insert setElementUsage ha
      rw [toInt_toSize, toInt_add, delta_saddLoop as, hgain]
      congr 1
      push_cast
      ring

theorem delta_sdelLoop : ∀ (as : List Bytes) (t : Std.ExtTreeSet Bytes) (n : ℤ) (c : ℕ),
    (sdelLoop as t (toInt n) c).2.1 =
      toInt (n + membersUsage t - membersUsage (sdelLoop as t (toInt n) c).1)
  | [], t, n, c => by
    unfold sdelLoop
    rw [add_sub_cancel_right]
  | a :: as, t, n, c => by
    unfold sdelLoop
    split_ifs with ha
    · rw [Std.ExtTreeSet.contains_iff_mem] at ha
      have hloss : membersUsage t = setElementUsage a + membersUsage (t.erase a) :=
        setTotal_erase setElementUsage ha
      rw [toInt_toSize, toInt_add, delta_sdelLoop as, hloss]
      congr 1
      push_cast
      ring
    · exact delta_sdelLoop as t n c

theorem usage_saddNewLoop : ∀ (as : List Bytes) (t : Std.ExtTreeSet Bytes) (n c : ℕ),
    (saddNewLoop as t (toSize n) c).2.1 =
      toSize (n + membersUsage (saddNewLoop as t (toSize n) c).1 - membersUsage t)
  | [], t, n, c => by
    unfold saddNewLoop
    rw [add_sub_cancel_right]
  | a :: as, t, n, c => by
    unfold saddNewLoop
    split_ifs with ha
    · exact usage_saddNewLoop as t n c
    · rw [Std.ExtTreeSet.contains_iff_mem] at ha
      have hgain : membersUsage (t.insert a) = setElementUsage a + membersUsage t :=
        setTotal_insert setElementUsage ha
      rw [addSize_toSize, usage_saddNewLoop as, hgain]
      congr 1
      push_cast
      ring

/-- The members after `SADD` are those before it and the new ones. -/
theorem membersUsage_saddLoop (as : List Bytes) (t : Std.ExtTreeSet Bytes) (d : ℤ) (c : ℕ) :
    membersUsage (saddLoop as t d c).1 = membersUsage t + newUsage as t := by
  have hperm : (saddLoop as t d c).1.toList.Perm
      (t.toList ++ as.dedup.filter fun a => !t.contains a) := by
    refine (List.perm_ext_iff_of_nodup (nodup_toList_set _) ?_).2 fun a => ?_
    · rw [List.nodup_append]
      refine ⟨nodup_toList_set t, (List.nodup_dedup as).filter _, ?_⟩
      rintro a ha b hb rfl
      rw [Std.ExtTreeSet.mem_toList, ← Std.ExtTreeSet.contains_iff_mem] at ha
      simp [ha] at hb
    · rw [Std.ExtTreeSet.mem_toList, (saddLoop_eq_saddNewLoop as t d 0 c).1, mem_saddNewLoop]
      simp only [List.mem_append, List.mem_filter, List.mem_dedup, Std.ExtTreeSet.mem_toList,
        Bool.not_eq_true', ← Bool.not_eq_true, Std.ExtTreeSet.contains_iff_mem]
      tauto
  unfold membersUsage setTotal newUsage
  rw [(hperm.map setElementUsage).sum_eq, List.map_append, List.sum_append]

/-- The members after `SDEL` are some of those before it. -/
theorem membersUsage_sdelLoop_le : ∀ (as : List Bytes) (t : Std.ExtTreeSet Bytes) (d : ℤ) (c : ℕ),
    membersUsage (sdelLoop as t d c).1 ≤ membersUsage t
  | [], t, d, c => le_rfl
  | a :: as, t, d, c => by
    unfold sdelLoop
    split_ifs with ha
    · rw [Std.ExtTreeSet.contains_iff_mem] at ha
      have hloss : membersUsage t = setElementUsage a + membersUsage (t.erase a) :=
        setTotal_erase setElementUsage ha
      have hle := membersUsage_sdelLoop_le as (t.erase a) (toInt (toSize (d + setElementUsage a)))
        (c + 1)
      omega
    · exact membersUsage_sdelLoop_le as t d c

theorem newUsage_lt {args : List Bytes} (h : Deliverable args) (t : Std.ExtTreeSet Bytes) :
    newUsage (args.drop 2) t < 2 ^ 63 := by
  have hsub : ((args.drop 2).dedup.filter fun a => !t.contains a).Sublist args :=
    List.filter_sublist.trans ((List.dedup_sublist _).trans (List.drop_sublist 2 args))
  refine sum_usage_lt (fun a => ?_) (hsub.length_le.trans_lt h.2.1) fun a ha =>
    h.2.2 a (hsub.subset ha)
  rw [setElementUsage, copyCapacity, sizeofString, sizeofPointer]
  omega

variable {as : List Bytes} {t : Std.ExtTreeSet Bytes}

theorem delta_saddLoop_zero (as : List Bytes) (t : Std.ExtTreeSet Bytes) :
    (saddLoop as t 0 0).2.1 = toInt (newUsage as t) := by
  refine (delta_saddLoop as t 0 0).trans ?_
  rw [membersUsage_saddLoop]
  congr 1
  push_cast
  ring

theorem toSize_delta_saddLoop (h : newUsage as t < 2 ^ 31) :
    toSize (saddLoop as t 0 0).2.1 = newUsage as t := by
  rw [delta_saddLoop_zero, toInt_natCast h, toSize_natCast (by omega)]

theorem toSize_delta_sdelLoop (as : List Bytes) (h : membersUsage t < 2 ^ 31) :
    membersUsage (sdelLoop as t 0 0).1 + toSize (sdelLoop as t 0 0).2.1 = membersUsage t := by
  have hle := membersUsage_sdelLoop_le as t 0 0
  have hcast : ((0 + membersUsage t : ℤ) - membersUsage (sdelLoop as t 0 0).1) =
      (membersUsage t - membersUsage (sdelLoop as t 0 0).1 : ℕ) := by
    omega
  have hdelta : (sdelLoop as t 0 0).2.1 =
      toInt (membersUsage t - membersUsage (sdelLoop as t 0 0).1 : ℕ) :=
    (delta_sdelLoop as t 0 0).trans (congrArg toInt hcast)
  rw [hdelta, toInt_natCast (by omega), toSize_natCast (by omega)]
  omega

/-- What `SADD` makes of a missing key is what it makes of an empty set. -/
theorem saddNewLoop_empty (as : List Bytes) :
    membersUsage (saddNewLoop as ∅ 0 0).1 = newUsage as ∅ ∧
      (saddNewLoop as ∅ 0 0).2.1 = toSize (newUsage as ∅) := by
  have hmembers : membersUsage (saddNewLoop as ∅ 0 0).1 = newUsage as ∅ := by
    rw [← (saddLoop_eq_saddNewLoop as ∅ 0 0 0).1, membersUsage_saddLoop]
    exact Nat.zero_add _
  refine ⟨hmembers, (usage_saddNewLoop as ∅ 0 0).trans ?_⟩
  rw [← hmembers]
  congr 1
  have hempty : membersUsage ∅ = 0 := rfl
  rw [hempty]
  simp only [Nat.cast_zero, zero_add, sub_zero]
  rfl

end Loops

/-! ## What the commands do -/

section Books

variable {Q : DrutaValue → Prop} {args : List Bytes} {o : Option DrutaValue} {key : Bytes}

theorem saddOutcome_books (hd : Deliverable args) (hkey : key.length < 2 ^ 31)
    (hQ : ∀ {v t}, v.data = .set t → v.memoryUsage = membersUsage t → Q v)
    (ho : ∀ w, o = some w → Q w ∧ w.SetCounted ∧ w.memoryUsage ≤ lruMaxMemory)
    (hadds : ∀ v t, o = some v → v.data = .set t → newUsage (args.drop 2) t < 2 ^ 31) :
    (saddOutcome args o).effect.Books Q key o := by
  rcases o with _ | v
  · obtain ⟨hmembers, husage⟩ := saddNewLoop_empty (args.drop 2)
    have hlt := newUsage_lt hd ∅
    have hsize : toSize (newUsage (args.drop 2) ∅) = newUsage (args.drop 2) ∅ :=
      toSize_natCast (by omega)
    simp only [saddOutcome, husage, hsize]
    refine .create (hQ rfl hmembers.symm) (nodeWeight_lt hkey ?_)
    dsimp only
    omega
  · rcases hv : v.data with d | l | h | t
    case set =>
      obtain ⟨-, hcounted, hle⟩ := ho v rfl
      have hnew := hadds v t rfl hv
      have hlimit : lruMaxMemory < 2 ^ 32 := by decide
      have hdelta := toSize_delta_saddLoop hnew
      have hadd : addSize v.memoryUsage (newUsage (args.drop 2) t) =
          v.memoryUsage + newUsage (args.drop 2) t := addSize_eq (by omega)
      simp only [saddOutcome, hv, hdelta, hadd]
      refine .assign (hQ rfl ?_) (nodeWeight_lt hkey ?_) fun w hw => ?_
      · dsimp only
        rw [membersUsage_saddLoop, hcounted t hv]
      · dsimp only
        omega
      · obtain rfl := Option.some.inj hw
        dsimp only
        omega
    all_goals
      simp only [saddOutcome, hv]
      exact .keep fun w hw => (ho w hw).1

theorem sdelOutcome_books (hkey : key.length < 2 ^ 31)
    (hQ : ∀ {v t}, v.data = .set t → v.memoryUsage = membersUsage t → Q v)
    (ho : ∀ w, o = some w → Q w ∧ w.SetCounted ∧ w.memoryUsage ≤ lruMaxMemory) :
    (sdelOutcome args o).effect.Books Q key o := by
  rcases o with _ | v
  · exact .keep fun w hw => (ho w hw).1
  · rcases hv : v.data with d | l | h | t
    case set =>
      obtain ⟨-, hcounted, hle⟩ := ho v rfl
      have husage := hcounted t hv
      have hlimit : lruMaxMemory < 2 ^ 31 := by decide
      have hdelta := toSize_delta_sdelLoop (args.drop 2) (t := t) (by omega)
      have hsub : subSize v.memoryUsage (toSize (sdelLoop (args.drop 2) t 0 0).2.1) =
          membersUsage (sdelLoop (args.drop 2) t 0 0).1 := by
        rw [subSize_eq (by omega) (by omega)]
        omega
      have hwraps : decide (v.memoryUsage < toSize (sdelLoop (args.drop 2) t 0 0).2.1) = false := by
        rw [decide_eq_false_iff_not]
        omega
      simp only [sdelOutcome, hv, hsub, hwraps]
      refine .assign (hQ rfl rfl) (nodeWeight_lt hkey ?_) fun w hw => ?_
      · dsimp only
        omega
      · obtain rfl := Option.some.inj hw
        rw [Nat.zero_add, husage, ← hdelta]
        exact Nat.add_comm _ _
    all_goals
      simp only [sdelOutcome, hv]
      exact .keep fun w hw => (ho w hw).1

end Books

/-! ## Runs -/

section Runs

variable {s s' : Server} {e : Event}

theorem setCounted_of {t : Std.ExtTreeSet Bytes} {w : DrutaValue} (ht : w.data = .set t)
    (husage : w.memoryUsage = membersUsage t) : w.SetCounted := by
  intro u hu
  obtain rfl := Data.set.inj (ht.symm.trans hu)
  exact husage

theorem step_setCounted (he : e.OnSets) (hd : e.Delivered) (hadds : AddsInt s e)
    (hs : s.Ledger DrutaValue.SetCounted) (h : s.step e = .ok s') :
    s'.Ledger DrutaValue.SetCounted := by
  refine step_ledger hs ?_ h
  rintro env fd args key f rfl ha
  obtain rfl := key_of_action ha
  have hcall : callOf args ∈ [Call.sadd, .sdel, .unknown] := he
  rcases hc : callOf args <;> rw [hc] at hcall ha <;>
    simp only [List.mem_cons, List.not_mem_nil, reduceCtorEq, or_self] at hcall <;>
    simp only [Call.action, Option.some.injEq, reduceCtorEq, Action.access.injEq] at ha <;>
    obtain ⟨-, rfl⟩ := ha
  · exact saddOutcome_books hd (arg_length_lt hd 1) setCounted_of
      (fun w hw => ⟨(hs.value hw).1, hs.value hw⟩) (hadds hc)
  · exact sdelOutcome_books (arg_length_lt hd 1) setCounted_of fun w hw =>
      ⟨(hs.value hw).1, hs.value hw⟩

theorem setScan_of_le {t : Std.ExtTreeSet Bytes} (h : membersUsage t < 2 ^ 64) :
    setScan t = membersUsage t := by
  rw [setScan_eq, toSize_natCast h]

/-- The amounts that the next command notifies. -/
theorem notifiesExactly_of_ledger (hs : s.Ledger DrutaValue.SetCounted) (hadds : AddsInt s e) :
    NotifiesExactly s e := by
  rcases e with fd | fd | ⟨env, fd, args⟩
  · trivial
  · trivial
  · intro v t hv ht
    obtain ⟨hcounted, hle⟩ := hs.value hv
    have husage := hcounted t ht
    have hlimit : lruMaxMemory < 2 ^ 31 := by decide
    have hscan : setScan t = membersUsage t := setScan_of_le (by omega)
    refine ⟨fun hc => ⟨?_, ?_⟩, fun _ => ?_⟩
    · have hnew := hadds hc v t hv ht
      have hmembers := membersUsage_saddLoop (args.drop 2) t 0 0
      rw [toSize_delta_saddLoop hnew, hscan, setScan_of_le (by omega), hmembers]
    · rintro rfl
      have hnew := hadds hc v ∅ hv ht
      have hempty : v.memoryUsage = 0 := husage
      rw [toSize_delta_saddLoop hnew, (saddNewLoop_empty _).2, hempty, addSize_eq (by omega),
        toSize_natCast (by omega), Nat.zero_add]
    · have hdelta := toSize_delta_sdelLoop (args.drop 2) (t := t) (by omega)
      rw [hscan, setScan_of_le (by omega), hdelta]

/-- A notice is not what the members gain where an `int` cannot hold that. -/
theorem addsInt_of_notifies (hs : s.Ledger DrutaValue.SetCounted) (hd : e.Delivered)
    (h : NotifiesExactly s e) : AddsInt s e := by
  rcases e with fd | fd | ⟨env, fd, args⟩
  · trivial
  · trivial
  · intro hc v t hv ht
    obtain ⟨hcounted, hle⟩ := hs.value hv
    have husage := hcounted t ht
    have hlimit : lruMaxMemory < 2 ^ 31 := by decide
    have hnew := newUsage_lt hd t
    have hmembers := membersUsage_saddLoop (args.drop 2) t 0 0
    have hexact := ((h v t hv ht).1 hc).1
    rw [delta_saddLoop_zero, setScan_of_le (by omega), setScan_of_le (by omega), hmembers] at hexact
    by_contra hlong
    exact toSize_toInt_ne (not_lt.1 hlong) hnew (Nat.add_left_cancel hexact)

/-- In a run of `SADD` and `SDEL` where no `SADD` adds to a set what an `int` cannot hold, the
counter of every set is what a scan of its members gives; and the next command notifies what the
members gain or lose if and only if it is no such `SADD` either. -/
theorem set_accounted {events : List Event}
    (hm : Meets Server.step (fun s e => e.OnSets ∧ e.Delivered ∧ AddsInt s e) {} events)
    (h : run Server.step {} events = .ok s) :
    (∀ key v t, s.store.value key = some v → v.data = .set t → v.memoryUsage = setScan t) ∧
      ∀ e : Event, e.Delivered → (NotifiesExactly s e ↔ AddsInt s e) := by
  have hledger : s.Ledger DrutaValue.SetCounted :=
    run_invariant (fun _ _ _ hu he hs => step_setCounted he.1 he.2.1 he.2.2 hu hs) ledger_initial
      hm h
  refine ⟨fun key v t hv ht => ?_, fun e he => ⟨addsInt_of_notifies hledger he,
    notifiesExactly_of_ledger hledger⟩⟩
  obtain ⟨hcounted, hle⟩ := hledger.value hv
  have hlimit : lruMaxMemory < 2 ^ 31 := by decide
  rw [setScan_of_le (by rw [← hcounted t ht]; omega), hcounted t ht]

theorem newUsage_le (as : List Bytes) (t : Std.ExtTreeSet Bytes) :
    newUsage as t ≤ (as.map setElementUsage).sum := by
  have hsub : (as.dedup.filter fun a => !t.contains a).Sublist as :=
    List.filter_sublist.trans (List.dedup_sublist as)
  exact (hsub.map setElementUsage).sum_le_sum fun n _ => Nat.zero_le n

/-- Members are added to a new set and to one that is there, and one is deleted. -/
theorem set_accounted_sdel : ∃ s, run Server.step {} [
    .command {} 4 [ascii "SADD", ascii "k", ascii "x"],
    .command {} 4 [ascii "SADD", ascii "k", ascii "y", ascii "x"],
    .command {} 4 [ascii "SDEL", ascii "k", ascii "x"]] = .ok s ∧
      ∀ key v t, s.store.value key = some v → v.data = .set t → v.memoryUsage = setScan t := by
  obtain ⟨s, hs⟩ : ∃ s, run Server.step {} [
    .command {} 4 [ascii "SADD", ascii "k", ascii "x"],
    .command {} 4 [ascii "SADD", ascii "k", ascii "y", ascii "x"],
    .command {} 4 [ascii "SDEL", ascii "k", ascii "x"]] = .ok s := ⟨_, rfl⟩
  have hmeets : ∀ args ∈ [[ascii "SADD", ascii "k", ascii "x"],
      [ascii "SADD", ascii "k", ascii "y", ascii "x"], [ascii "SDEL", ascii "k", ascii "x"]],
      callOf args ∈ [Call.sadd, .sdel, .unknown] ∧ Deliverable args ∧
        ((args.drop 2).map setElementUsage).sum < 2 ^ 31 := by
    unfold Deliverable
    decide
  refine ⟨s, hs, (set_accounted (.of_mem fun e he s => ?_) hs).1⟩
  obtain ⟨args, hargs, rfl⟩ : ∃ args ∈ [[ascii "SADD", ascii "k", ascii "x"],
      [ascii "SADD", ascii "k", ascii "y", ascii "x"], [ascii "SDEL", ascii "k", ascii "x"]],
      .command {} 4 args = e := List.mem_map.1 he
  obtain ⟨hcall, hdelivered, hsum⟩ := hmeets args hargs
  exact ⟨hcall, hdelivered, fun _ v t _ _ => (newUsage_le _ t).trans_lt hsum⟩

/-- The set after `SADD k x`. -/
def onlyX : Std.ExtTreeSet Bytes := (∅ : Std.ExtTreeSet Bytes).insert (ascii "x")

/-- The store after `SADD k x`. -/
def oneMember : Recency :=
  Recency.initial.add (ascii "k") { data := .set onlyX, memoryUsage := 111 }

/-- Two long members and a short one together count for more than `2 ^ 32`. -/
theorem newUsage_long {a b : Bytes} (ha : a.length = 2 ^ 31 - 1) (hb : b.length = 2 ^ 31 - 1)
    (hab : a ≠ b) : newUsage [a, b, ascii "cc"] onlyX = 2 ^ 32 + 301 := by
  have hne : ∀ {c d : Bytes}, c.length = 2 ^ 31 - 1 → d.length < 2 ^ 31 - 1 → c ≠ d := by
    rintro c _ hc hd rfl
    omega
  have hc : (ascii "cc").length < 2 ^ 31 - 1 := by decide
  have hx : (ascii "x").length < 2 ^ 31 - 1 := by decide
  have hnodup : [a, b, ascii "cc"].Nodup := by
    simp [hab, hne ha hc, hne hb hc]
  have hnot : ∀ c : Bytes, c ≠ ascii "x" → onlyX.contains c = false := by
    intro c hc
    rw [← Bool.not_eq_true, Std.ExtTreeSet.contains_iff_mem, onlyX, Std.ExtTreeSet.mem_insert,
      Std.LawfulEqCmp.compare_eq_iff_eq]
    simp [Ne.symm hc]
  have hfilter : ([a, b, ascii "cc"].filter fun c => !onlyX.contains c) = [a, b, ascii "cc"] := by
    refine List.filter_eq_self.2 fun c hmem => ?_
    have hcx : c ≠ ascii "x" := by
      rintro rfl
      rcases List.mem_cons.1 hmem with rfl | hmem
      · exact hne ha hx rfl
      rcases List.mem_cons.1 hmem with rfl | hmem
      · exact hne hb hx rfl
      · exact absurd (List.mem_singleton.1 hmem) (by decide)
    rw [hnot c hcx]
    rfl
  have hlong : ∀ {c : Bytes}, c.length = 2 ^ 31 - 1 → setElementUsage c = 2 ^ 31 + 95 := by
    intro c hc
    rw [setElementUsage, copyCapacity, hc]
    rfl
  have hshort : setElementUsage (ascii "cc") = 111 := by decide
  rw [newUsage, List.Nodup.dedup hnodup, hfilter]
  simp only [List.map_cons, List.map_nil, List.sum_cons, List.sum_nil, hlong ha, hlong hb, hshort]
  norm_num

/-- The text of the command is short as an `int`. -/
theorem formatRespCommand_long {a b : Bytes} (ha : a.length = 2 ^ 31 - 1)
    (hb : b.length = 2 ^ 31 - 1) :
    formatRespCommand [ascii "SADD", ascii "k", a, b, ascii "cc"] =
      .ok (respCommand [ascii "SADD", ascii "k", a, b, ascii "cc"]) := by
  have hestimate : estimatedSize [ascii "SADD", ascii "k", a, b, ascii "cc"] = 101 := by
    simp only [estimatedSize, List.foldl_cons, List.foldl_nil, ha, hb]
    decide
  unfold formatRespCommand
  rw [hestimate]
  rfl

/-- The `int` of `SADD` keeps the low half of what the members count for. -/
theorem run_sadd_long {a b : Bytes} (ha : a.length = 2 ^ 31 - 1) (hb : b.length = 2 ^ 31 - 1)
    (hab : a ≠ b) : ∃ s, run Server.step {} [.command {} 4 [ascii "SADD", ascii "k", ascii "x"],
        .command {} 4 [ascii "SADD", ascii "k", a, b, ascii "cc"]] = .ok s ∧
      ∃ v t, s.store.value (ascii "k") = some v ∧ v.data = .set t ∧ v.memoryUsage = 412 ∧
        setScan t = 2 ^ 32 + 412 := by
  have hone : oneMember.find (ascii "k") = some { data := .set onlyX, memoryUsage := 111 } := rfl
  have hnew := newUsage_long ha hb hab
  have hmembers : membersUsage (saddLoop [a, b, ascii "cc"] onlyX 0 0).1 = 2 ^ 32 + 412 := by
    rw [membersUsage_saddLoop, hnew]
    rfl
  have hdelta : (saddLoop [a, b, ascii "cc"] onlyX 0 0).2.1 = 301 := by
    refine (delta_saddLoop [a, b, ascii "cc"] onlyX 0 0).trans ?_
    rw [membersUsage_saddLoop, hnew]
    rfl
  obtain ⟨t, delta, created, hloop⟩ : ∃ t delta created,
      saddLoop [a, b, ascii "cc"] onlyX 0 0 = (t, delta, created) := ⟨_, _, _, rfl⟩
  rw [hloop] at hmembers hdelta
  obtain rfl : delta = 301 := hdelta
  have hassign : oneMember.assign (ascii "k") { data := .set t, memoryUsage := 412 }
      (some (0, 301)) false = .ok ⟨oneMember.nodes.push (ascii "k")
        { data := .set t, memoryUsage := 412 }, oneMember.account.change (some (0, 301)) false⟩ :=
    Recency.assign_of_le hone _ false (by decide)
  have hrun : (Action.access (ascii "k") (saddOutcome [ascii "SADD", ascii "k", a, b,
      ascii "cc"])).run oneMember = .ok ((sendInteger created, decide (0 < created)),
        ⟨oneMember.nodes.push (ascii "k") { data := .set t, memoryUsage := 412 },
          oneMember.account.change (some (0, 301)) false⟩) := by
    have hdrop : [ascii "SADD", ascii "k", a, b, ascii "cc"].drop 2 = [a, b, ascii "cc"] := rfl
    simp only [Action.run, hone, saddOutcome, hdrop, hloop, Recency.apply]
    exact congrArg (Except.map _) hassign
  have hfirst : (Action.access (ascii "k") (saddOutcome [ascii "SADD", ascii "k", ascii "x"])).run
      .initial = .ok ((sendInteger 1, true), oneMember) := rfl
  obtain ⟨s₁, hs₁, h₁⟩ := step_serves {} 4 [ascii "SADD", ascii "k", ascii "x"] serves_initial rfl
    hfirst (by decide) (by decide) (by decide)
  obtain ⟨s₂, hs₂, h₂⟩ := step_serves_formatted {} 4 [ascii "SADD", ascii "k", a, b, ascii "cc"] h₁
    rfl hrun (by decide) (by decide) (formatRespCommand_long ha hb)
  refine ⟨s₂, (run_cons_ok hs₁ _).trans (run_cons_ok hs₂ []),
    { data := .set t, memoryUsage := 412 }, t, ?_, rfl, rfl, ?_⟩
  · rw [h₂.store, value_toStore]
    exact (RecencyList.find_push _ _ _ _).trans (if_pos rfl)
  · rw [setScan_of_le (by rw [hmembers]; decide), hmembers]

/-- A set whose counter lacks `2 ^ 32`. -/
theorem set_overflows : ∃ events s, (∀ e ∈ events, e.OnSets ∧ e.Delivered) ∧
    run Server.step {} events = .ok s ∧ ∃ v t, s.store.value (ascii "k") = some v ∧
      v.data = .set t ∧ v.memoryUsage = 412 ∧ setScan t = 2 ^ 32 + 412 := by
  obtain ⟨a, b, ha, hb, hab⟩ : ∃ a b : Bytes, a.length = 2 ^ 31 - 1 ∧ b.length = 2 ^ 31 - 1 ∧
      a ≠ b := by
    refine ⟨List.replicate _ 97, List.replicate _ 98, List.length_replicate, List.length_replicate,
      fun h => ?_⟩
    have hmem : (97 : UInt8) ∈ List.replicate (2 ^ 31 - 1) (98 : UInt8) :=
      h ▸ List.mem_replicate.2 ⟨by decide, rfl⟩
    exact absurd (List.eq_of_mem_replicate hmem) (by decide)
  obtain ⟨s, hs, hv⟩ := run_sadd_long ha hb hab
  refine ⟨_, s, fun e he => ?_, hs, hv⟩
  have hsadd : ∀ c d : Bytes, callOf [ascii "SADD", ascii "k", c, d, ascii "cc"] = .sadd :=
    fun _ _ => rfl
  have hshort : (ascii "SADD").length < 2 ^ 31 ∧ (ascii "k").length < 2 ^ 31 ∧
      (ascii "x").length < 2 ^ 31 ∧ (ascii "cc").length < 2 ^ 31 := by decide
  rcases List.mem_cons.1 he with rfl | he
  · refine ⟨?_, by simp, by simp, by simpa using ⟨hshort.1, hshort.2.1, hshort.2.2.1⟩⟩
    change callOf _ ∈ _
    decide
  · obtain rfl := List.mem_singleton.1 he
    refine ⟨?_, by simp, by simp, ?_⟩
    · change callOf _ ∈ _
      rw [hsadd]
      decide
    · simpa [ha, hb] using ⟨hshort.1, hshort.2.1, hshort.2.2.2⟩

end Runs

end DrutaDB
