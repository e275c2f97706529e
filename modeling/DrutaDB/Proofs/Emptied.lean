import DrutaDB.Proofs.Errors
import DrutaDB.Proofs.Types
import DrutaDB.Proofs.Visible

/-!
# Emptied containers

A key that holds an empty list, hash or set is a missing key to most commands of its own family:
one lemma for each command compares what it answers to the two.  `SMISMEMBER` and `SDEL` answer a
missing key in a form of their own, an `LRANGE` with a bound that is no number is an error only
where there is a list, and the commands of another family answer `WRONGTYPE`, so the emptied key
is told from a missing one exactly there (`emptied_iff`).
-/

namespace DrutaDB

open Machine Decimal Capacity Run Store

/-- The value is a container without elements. -/
def Data.isEmpty : Data → Bool
  | .string _ => false
  | .list l => l.isEmpty
  | .hash h => h.size = 0
  | .set t => t.isEmpty

/-- What is not an empty container. -/
def filled : Visible := fun e => !e.2.data.isEmpty

/-- The reply of `HGETALL` or `SMEMBERS` can be built for the value. -/
def Reserves (usage : ℕ) : Prop := addSize 1024 usage ≤ maxSize

/-- A command that cannot tell the empty value of the key from a missing key; the second store is
the one without it. -/
def Call.Indifferent (s s' : Store) (args : List Bytes) (k : Bytes) (v : DrutaValue) : Call → Prop
  | .rpush | .lpush => v.data.kind = .list ∧ v.expiryTime = 0
  | .llen => v.data.kind = .list
  | .lrange => v.data.kind = .list ∧ (∃ li, stoi (arg args 2) = .ok li) ∧
      ∃ ri, stoi (arg args 3) = .ok ri
  | .lpop | .rpop => 3 < args.length ∨ v.data.kind = .list ∧ 0 ≤ popCount args
  | .hset => args.length % 2 ≠ 0 ∨ v.data.kind = .hash ∧ v.expiryTime = 0
  | .hget | .hdel | .hlen => v.data.kind = .hash
  | .hgetall => ∃ h, v.data = .hash h ∧ Reserves h.memoryUsage
  | .sadd => v.data.kind = .set ∧ v.expiryTime = 0
  | .scard | .sismember => v.data.kind = .set
  | .smembers => v.data.kind = .set ∧ Reserves v.memoryUsage
  | .sunion => True
  | .sdiff => v.data.kind = .set ∨ arg args 1 ≠ k
  | .sinter => v.data.kind = .set ∨
      (SinterNotices s (args.drop 1) → SinterNotices s' (args.drop 1))
  | _ => False

/-! ## Empty values -/

section Empty

variable {v : DrutaValue} {l : List Bytes} {h h' : DrutaHash} {t : Std.ExtTreeSet Bytes}

theorem empty_cases (hv : v.data.isEmpty) :
    (∃ e m, v = ⟨.list [], e, m⟩) ∨ (∃ h e m, h.size = 0 ∧ v = ⟨.hash h, e, m⟩) ∨
      ∃ e m, v = ⟨.set ∅, e, m⟩ := by
  rcases v with ⟨d, e, m⟩
  rcases d with d | l | h | t
  · cases hv
  · rcases l with _ | ⟨a, l⟩
    · exact .inl ⟨e, m, rfl⟩
    · cases hv
  · exact .inr (.inl ⟨h, e, m, of_decide_eq_true hv, rfl⟩)
  · exact .inr (.inr ⟨e, m, by rw [Std.ExtTreeSet.isEmpty_iff.1 hv]⟩)

theorem toList_of_size (hh : h.size = 0) : h.toList = [] := by
  rw [DrutaHash.size_eq] at hh
  exact List.length_eq_zero_iff.1 hh

theorem distinct_of_size (hh : h.size = 0) : h.Distinct := by
  rcases h with ⟨m | vec, n⟩
  · trivial
  · obtain rfl : vec = [] := List.length_eq_zero_iff.1 hh
    exact List.nodup_nil

theorem getHash_of_size (hh : h.size = 0) : h.getHash = DrutaHash.empty.getHash := by
  funext g
  rw [← DrutaHash.find?_toList (distinct_of_size hh), toList_of_size hh]
  rfl

/-- Hashes with the same contents are both empty or both not. -/
theorem size_eq_zero_congr (hd' : h'.Distinct) (heq : h.getHash = h'.getHash)
    (hh : h.size = 0) : h'.size = 0 := by
  rw [DrutaHash.size_eq, List.length_eq_zero_iff]
  by_contra hne
  obtain ⟨p, ps, hp⟩ := List.exists_cons_of_ne_nil hne
  have hsome := DrutaHash.find?_toList hd' p.1
  rw [hp, ← heq, getHash_of_size hh, List.find?_cons_of_pos (by simp)] at hsome
  cases hsome

/-- A field that is there or written is there after the loop of `HSET`. -/
theorem getHash_hsetLoop_isSome {g : Bytes} : ∀ (as : List Bytes) {h : DrutaHash} {n : ℕ} {b : Bool},
    h.Distinct → (h.getHash g).isSome ∨ (∃ p ∈ pairs as, p.1 = g) →
      ((hsetLoop as h n b).1.getHash g).isSome
  | [], _, _, _, _, hg => hg.resolve_right (by simp [pairs])
  | [_], _, _, _, _, hg => hg.resolve_right (by simp [pairs])
  | field :: value :: as, h, _, _, hd, hg => by
    unfold hsetLoop
    refine getHash_hsetLoop_isSome as (DrutaHash.distinct_setHash hd) ?_
    rw [DrutaHash.getHash_setHash hd]
    by_cases hf : g = field
    · exact .inl (by simp [hf])
    · rw [if_neg hf]
      refine hg.imp_right ?_
      rintro ⟨p, hp, rfl⟩
      rcases List.mem_cons.1 hp with rfl | hp
      · exact absurd rfl hf
      · exact ⟨p, hp, rfl⟩

theorem hsetLoop_size_ne_zero {as : List Bytes} {n : ℕ} {b : Bool} (has : 2 ≤ as.length)
    (hd : h.Distinct) : (hsetLoop as h n b).1.size ≠ 0 := by
  intro hzero
  rcases as with _ | ⟨field, _ | ⟨value, as⟩⟩
  · simp at has
  · simp at has
  · have hsome := getHash_hsetLoop_isSome (g := field) (field :: value :: as) (n := n) (b := b) hd
      (.inr ⟨(field, value), List.mem_cons_self, rfl⟩)
    rw [getHash_of_size hzero] at hsome
    cases hsome

theorem pushLoop_length (b : Bool) : ∀ (as l : List Bytes) (d : ℕ),
    (pushLoop b as l d).1.length = as.length + l.length
  | [], l, d => (Nat.zero_add _).symm
  | a :: as, l, d => by
    rw [pushLoop, pushLoop_length b as]
    cases b <;> simp <;> omega

theorem arg_mem_drop {args : List Bytes} (hsize : 3 ≤ args.length) : arg args 2 ∈ args.drop 2 := by
  rcases args with _ | ⟨a, _ | ⟨b, _ | ⟨c, as⟩⟩⟩
  · simp at hsize
  · simp at hsize
  · simp at hsize
  · exact List.mem_cons_self

end Empty

/-! ## What an outcome shows -/

section Shown

variable {fd : ℤ} {k : Bytes} {l : List (Bytes × View × ℤ)} {o o' : Outcome}

/-- The value is hidden or there is none. -/
theorem shown_touch {v : DrutaValue} (hl : l.filter (·.1 ≠ k) = l) (hv : v.data.isEmpty)
    (c : Option (ℕ × ℕ)) (b : Bool) : (Effect.assign v c b).shown filled k l = l := by
  simp only [Effect.shown, hl, Recency.entry, filled, hv, Bool.not_true, Bool.false_eq_true,
    if_false, List.append_nil]

/-- Where both write a container with elements, it is the deadline that may differ. -/
theorem answer_iff {w w' : DrutaValue} {x : View} {e : ℤ} (hf : ∀ f, o.effect ≠ .fail f)
    (hf' : ∀ f, o'.effect ≠ .fail f) (hreply : o.reply = o'.reply)
    (hshown : o.effect.shown filled k l = l.filter (·.1 ≠ k) ++ Recency.entry filled k w)
    (hshown' : o'.effect.shown filled k l = l.filter (·.1 ≠ k) ++ Recency.entry filled k w')
    (hw : w.data.isEmpty = w'.data.isEmpty) (hw' : w'.data.isEmpty = false)
    (hview : w.view = (x, e)) (hview' : w'.view = (x, 0)) :
    o.answer filled fd k l = o'.answer filled fd k l ↔ e = 0 := by
  rw [answer_of_effect _ _ hf, answer_of_effect _ _ hf', hreply, hshown, hshown']
  simp [Recency.entry, filled, hw, hw', hview, hview']

end Shown

/-! ## Commands on one key -/

section One

theorem lrangeReply_nil (li ri : ℤ) : lrangeReply [] li ri = ascii "*0" ++ crlf := by
  have hsize : toInt (([] : List Bytes).length : ℕ) = 0 := by decide
  unfold lrangeReply
  rw [hsize]
  exact if_pos (.inl (le_max_right _ _))

theorem sendInteger_zero : sendInteger 0 = ascii ":0" ++ crlf := by decide

theorem respArray_zero : respArray 0 = ascii "*0" ++ crlf := by decide

/-- No field is deleted from an empty hash. -/
theorem hdelLoop_of_size {h : DrutaHash} (hh : h.size = 0) (as : List Bytes) (b : Bool) :
    (hdelLoop as h 0 b).1 = h ∧ (hdelLoop as h 0 b).2.1 = 0 := by
  have hcount : (hdelLoop as h 0 b).2.1 = 0 := by
    have hcongr : (hdelLoop as h 0 b).2.1 = (hdelLoop as .empty 0 b).2.1 :=
      (hdelLoop_congr as (distinct_of_size hh)
        (show DrutaHash.empty.Distinct from List.nodup_nil) (getHash_of_size hh)).2
    rw [hcongr]
    induction as generalizing b with
    | nil => rfl
    | cons a as ih => exact ih _ ((hdelLoop_congr as (distinct_of_size hh)
        (show DrutaHash.empty.Distinct from List.nodup_nil) (getHash_of_size hh)).2)
  exact ⟨hdelLoop_eq_self hcount, hcount⟩

variable {now fd : ℤ} {args : List Bytes} {k : Bytes} {l : List (Bytes × View × ℤ)} {v : DrutaValue}
  (hfd : fd ≠ -1) (hv : v.data.isEmpty)

include hfd hv

theorem pushOutcome_emptied (hsize : 3 ≤ args.length) (b : Bool) :
    (pushOutcome args b (some v)).answer filled fd k l =
      (pushOutcome args b none).answer filled fd k l ↔ v.data.kind = .list ∧ v.expiryTime = 0 := by
  rcases empty_cases hv with ⟨e, m, rfl⟩ | ⟨h, e, m, hh, rfl⟩ | ⟨e, m, rfl⟩
  · have hsome : (pushLoop b (args.drop 2) [] 0).1.isEmpty = false := by
      rw [List.isEmpty_eq_false_iff, ← List.length_pos_iff, pushLoop_length, List.length_drop]
      omega
    refine Iff.trans ?_ (and_iff_right rfl).symm
    exact answer_iff nofun nofun rfl rfl rfl rfl hsome rfl rfl
  · exact iff_of_false (answer_wrongType hfd rfl rfl nofun rfl (by decide)) nofun
  · exact iff_of_false (answer_wrongType hfd rfl rfl nofun rfl (by decide)) nofun

theorem hsetOutcome_emptied (hsize : 4 ≤ args.length) :
    (hsetOutcome args (some v)).answer filled fd k l =
      (hsetOutcome args none).answer filled fd k l ↔
        args.length % 2 ≠ 0 ∨ v.data.kind = .hash ∧ v.expiryTime = 0 := by
  unfold hsetOutcome
  by_cases hodd : args.length % 2 ≠ 0
  · rw [if_pos (.inr hodd), if_pos (.inr hodd)]
    exact iff_of_true rfl (.inl hodd)
  rw [or_iff_right hodd, if_neg (by omega), if_neg (by omega)]
  rcases empty_cases hv with ⟨e, m, rfl⟩ | ⟨h, e, m, hh, rfl⟩ | ⟨e, m, rfl⟩
  · exact iff_of_false (answer_wrongType hfd rfl rfl nofun rfl (by decide)) nofun
  · have hempty : DrutaHash.empty.Distinct := List.nodup_nil
    have hdistinct := distinct_of_size hh
    obtain ⟨hget, hcreated⟩ : (hsetLoop (args.drop 2) h 0 false).1.getHash =
        (hsetLoop (args.drop 2) .empty 0 false).1.getHash ∧
          (hsetLoop (args.drop 2) h 0 false).2.1 = (hsetLoop (args.drop 2) .empty 0 false).2.1 :=
      hsetLoop_congr (args.drop 2) hdistinct hempty (getHash_of_size hh)
    have hd := hsetLoop_distinct (args.drop 2) (n := 0) (b := false) hdistinct
    have hd' := hsetLoop_distinct (args.drop 2) (n := 0) (b := false) hempty
    have hsame : (hsetLoop (args.drop 2) h 0 false).1.size = 0 ↔
        (hsetLoop (args.drop 2) .empty 0 false).1.size = 0 :=
      ⟨size_eq_zero_congr hd' hget, size_eq_zero_congr hd hget.symm⟩
    have hsome : (hsetLoop (args.drop 2) .empty 0 false).1.size ≠ 0 :=
      hsetLoop_size_ne_zero (by rw [List.length_drop]; omega) hempty
    refine Iff.trans ?_ (and_iff_right rfl).symm
    exact answer_iff nofun nofun (congrArg (fun n : ℕ => sendInteger n) hcreated) rfl rfl
      (decide_eq_decide.2 hsame) (decide_eq_false hsome)
      (congrArg (fun g => (View.hash g, e)) hget) rfl
  · exact iff_of_false (answer_wrongType hfd rfl rfl nofun rfl (by decide)) nofun

theorem saddOutcome_emptied (hsize : 3 ≤ args.length) :
    (saddOutcome args (some v)).answer filled fd k l =
      (saddOutcome args none).answer filled fd k l ↔ v.data.kind = .set ∧ v.expiryTime = 0 := by
  rcases empty_cases hv with ⟨e, m, rfl⟩ | ⟨h, e, m, hh, rfl⟩ | ⟨e, m, rfl⟩
  · exact iff_of_false (answer_wrongType hfd rfl rfl nofun rfl (by decide)) nofun
  · exact iff_of_false (answer_wrongType hfd rfl rfl nofun rfl (by decide)) nofun
  · obtain ⟨hset, hcreated⟩ := saddLoop_eq_saddNewLoop (args.drop 2) ∅ 0 0 0
    have hsome : (saddNewLoop (args.drop 2) ∅ 0 0).1.isEmpty = false := by
      have hmem : arg args 2 ∈ (saddNewLoop (args.drop 2) ∅ 0 0).1 :=
        (mem_saddNewLoop _ _ _ _ _).2 (.inl (arg_mem_drop hsize))
      refine Bool.eq_false_iff.2 fun hno => ?_
      rw [Std.ExtTreeSet.isEmpty_iff.1 hno] at hmem
      exact Std.ExtTreeSet.not_mem_empty hmem
    refine Iff.trans ?_ (and_iff_right rfl).symm
    exact answer_iff nofun nofun (congrArg (fun n : ℕ => sendInteger n) hcreated) rfl rfl
      (congrArg (fun t => Data.isEmpty (.set t)) hset) hsome
      (congrArg (fun t => (View.set t, e)) hset) rfl

theorem smismemberOutcome_emptied (hsize : 3 ≤ args.length) :
    (smismemberOutcome args (some v)).answer filled fd k l ≠
      (smismemberOutcome args none).answer filled fd k l := by
  unfold smismemberOutcome
  rw [if_neg (by omega), if_neg (by omega)]
  rcases empty_cases hv with ⟨e, m, rfl⟩ | ⟨h, e, m, hh, rfl⟩ | ⟨e, m, rfl⟩
  · exact answer_wrongType hfd rfl rfl nofun rfl (by decide)
  · exact answer_wrongType hfd rfl rfl nofun rfl (by decide)
  · exact answer_ne hfd nofun nofun (ne_of_head rfl rfl (by decide))

theorem llenOutcome_emptied (hl : l.filter (·.1 ≠ k) = l) :
    (llenOutcome (some v)).answer filled fd k l = (llenOutcome none).answer filled fd k l ↔
      v.data.kind = .list := by
  rcases empty_cases hv with ⟨e, m, rfl⟩ | ⟨h, e, m, hh, rfl⟩ | ⟨e, m, rfl⟩
  · exact iff_of_true (answer_eq nofun nofun sendInteger_zero (shown_touch hl rfl _ _)) rfl
  · exact iff_of_false (answer_wrongType hfd rfl rfl nofun rfl (by decide)) nofun
  · exact iff_of_false (answer_wrongType hfd rfl rfl nofun rfl (by decide)) nofun

theorem lrangeOutcome_emptied (hl : l.filter (·.1 ≠ k) = l) :
    (lrangeOutcome args (some v)).answer filled fd k l =
      (lrangeOutcome args none).answer filled fd k l ↔
        v.data.kind = .list ∧ (∃ li, stoi (arg args 2) = .ok li) ∧
          ∃ ri, stoi (arg args 3) = .ok ri := by
  rcases empty_cases hv with ⟨e, m, rfl⟩ | ⟨h, e, m, hh, rfl⟩ | ⟨e, m, rfl⟩
  · have hbad : (∀ li ri, ¬ (stoi (arg args 2) = .ok li ∧ stoi (arg args 3) = .ok ri)) →
        (lrangeOutcome args (some ⟨.list [], e, m⟩)).answer filled fd k l ≠
          (lrangeOutcome args none).answer filled fd k l := by
      intro hno
      unfold lrangeOutcome
      dsimp only
      split
      · exact absurd ⟨‹_›, ‹_›⟩ (hno _ _)
      · exact answer_ne hfd nofun nofun (ne_of_head rfl rfl (by decide))
    by_cases hnum : ∃ li ri, stoi (arg args 2) = .ok li ∧ stoi (arg args 3) = .ok ri
    · obtain ⟨li, ri, hli, hri⟩ := hnum
      unfold lrangeOutcome
      rw [hli, hri]
      exact iff_of_true (answer_eq nofun nofun (lrangeReply_nil li ri) (shown_touch hl rfl _ _))
        ⟨rfl, ⟨li, rfl⟩, ri, rfl⟩
    · refine iff_of_false (hbad fun li ri h => hnum ⟨li, ri, h⟩) ?_
      rintro ⟨-, ⟨li, hli⟩, ri, hri⟩
      exact hnum ⟨li, ri, hli, hri⟩
  · exact iff_of_false (answer_wrongType hfd rfl rfl nofun rfl (by decide)) nofun
  · exact iff_of_false (answer_wrongType hfd rfl rfl nofun rfl (by decide)) nofun

theorem popOutcome_emptied (hl : l.filter (·.1 ≠ k) = l) (b : Bool) :
    (popOutcome args b (some v)).answer filled fd k l =
      (popOutcome args b none).answer filled fd k l ↔
        3 < args.length ∨ v.data.kind = .list ∧ 0 ≤ popCount args := by
  unfold popOutcome
  by_cases hlen : 3 < args.length
  · refine iff_of_true ?_ (.inl hlen)
    simp only [hlen, if_true]
  rw [or_iff_right hlen]
  simp only [hlen, if_false]
  rcases empty_cases hv with ⟨e, m, rfl⟩ | ⟨h, e, m, hh, rfl⟩ | ⟨e, m, rfl⟩
  · have hsize : toInt (([] : List Bytes).length : ℕ) = 0 := by decide
    have hdir : (if b then ([] : List Bytes) else [].reverse) = [] := by cases b <;> rfl
    simp only [hsize, hdir, popLoop]
    by_cases hcount : 0 ≤ popCount args
    · rw [min_eq_right hcount, if_pos rfl]
      refine iff_of_true (answer_eq nofun nofun respArray_zero ?_) ⟨rfl, hcount⟩
      cases b <;> exact shown_touch hl rfl none false
    · have hmin : min (popCount args) 0 ≠ 0 := by omega
      rw [if_neg hmin]
      refine iff_of_false (fun h => ?_) fun h => hcount h.2
      rw [answer_of_effect (o := { reply := ascii "*0" ++ crlf }) _ _ nofun] at h
      cases h
  · exact iff_of_false (answer_wrongType hfd rfl rfl nofun rfl (by decide)) nofun
  · exact iff_of_false (answer_wrongType hfd rfl rfl nofun rfl (by decide)) nofun

theorem hgetOutcome_emptied (hsize : args.length = 3) :
    (hgetOutcome args (some v)).answer filled fd k l =
      (hgetOutcome args none).answer filled fd k l ↔ v.data.kind = .hash := by
  unfold hgetOutcome
  rw [if_neg (by omega), if_neg (by omega)]
  rcases empty_cases hv with ⟨e, m, rfl⟩ | ⟨h, e, m, hh, rfl⟩ | ⟨e, m, rfl⟩
  · exact iff_of_false (answer_wrongType hfd rfl rfl nofun rfl (by decide)) nofun
  · have hget : h.getHash (arg args 2) = none := by
      rw [getHash_of_size hh]
      rfl
    simp only [hget]
    exact iff_of_true trivial rfl
  · exact iff_of_false (answer_wrongType hfd rfl rfl nofun rfl (by decide)) nofun

theorem hlenOutcome_emptied (hsize : args.length = 2) :
    (hlenOutcome args (some v)).answer filled fd k l =
      (hlenOutcome args none).answer filled fd k l ↔ v.data.kind = .hash := by
  unfold hlenOutcome
  rw [if_neg (by omega), if_neg (by omega)]
  rcases empty_cases hv with ⟨e, m, rfl⟩ | ⟨h, e, m, hh, rfl⟩ | ⟨e, m, rfl⟩
  · exact iff_of_false (answer_wrongType hfd rfl rfl nofun rfl (by decide)) nofun
  · simp only [hh]
    exact iff_of_true rfl rfl
  · exact iff_of_false (answer_wrongType hfd rfl rfl nofun rfl (by decide)) nofun

theorem hdelOutcome_emptied (hl : l.filter (·.1 ≠ k) = l) (hsize : 3 ≤ args.length) :
    (hdelOutcome args (some v)).answer filled fd k l =
      (hdelOutcome args none).answer filled fd k l ↔ v.data.kind = .hash := by
  unfold hdelOutcome
  rw [if_neg (by omega), if_neg (by omega)]
  rcases empty_cases hv with ⟨e, m, rfl⟩ | ⟨h, e, m, hh, rfl⟩ | ⟨e, m, rfl⟩
  · exact iff_of_false (answer_wrongType hfd rfl rfl nofun rfl (by decide)) nofun
  · obtain ⟨hsame, hcount⟩ := hdelLoop_of_size hh (args.drop 2) false
    have hkept : Data.isEmpty (.hash h) := hv
    simp only [hsame, hcount, lt_irrefl, if_false]
    exact iff_of_true (answer_eq nofun nofun rfl (shown_touch hl hkept _ _)) rfl
  · exact iff_of_false (answer_wrongType hfd rfl rfl nofun rfl (by decide)) nofun

theorem hgetallOutcome_emptied (hl : l.filter (·.1 ≠ k) = l) (hsize : args.length = 2) :
    (hgetallOutcome args (some v)).answer filled fd k l =
      (hgetallOutcome args none).answer filled fd k l ↔
        ∃ h, v.data = .hash h ∧ Reserves h.memoryUsage := by
  unfold hgetallOutcome
  rw [if_neg (by omega), if_neg (by omega)]
  rcases empty_cases hv with ⟨e, m, rfl⟩ | ⟨h, e, m, hh, rfl⟩ | ⟨e, m, rfl⟩
  · exact iff_of_false (answer_wrongType hfd rfl rfl nofun rfl (by decide)) nofun
  · have hkept : Data.isEmpty (.hash h) := hv
    by_cases hres : Reserves h.memoryUsage
    · have hok : reserve (addSize 1024 h.memoryUsage) = .ok () := if_neg (not_lt.2 hres)
      simp only [hok, toList_of_size hh]
      exact iff_of_true (answer_eq nofun nofun respArray_zero (shown_touch hl hkept _ _))
        ⟨h, rfl, hres⟩
    · have herr : reserve (addSize 1024 h.memoryUsage) = .error .lengthError :=
        if_pos (not_le.1 hres)
      simp only [herr]
      refine iff_of_false (fun hc => ?_) ?_
      · rw [answer_of_effect (o := { reply := ascii "*0" ++ crlf }) _ _ nofun] at hc
        cases hc
      · rintro ⟨h', heq, hc⟩
        cases heq
        exact hres hc
  · exact iff_of_false (answer_wrongType hfd rfl rfl nofun rfl (by decide)) nofun

theorem scardOutcome_emptied (hsize : args.length = 2) :
    (scardOutcome args (some v)).answer filled fd k l =
      (scardOutcome args none).answer filled fd k l ↔ v.data.kind = .set := by
  unfold scardOutcome
  rw [if_neg (by omega), if_neg (by omega)]
  rcases empty_cases hv with ⟨e, m, rfl⟩ | ⟨h, e, m, hh, rfl⟩ | ⟨e, m, rfl⟩
  · exact iff_of_false (answer_wrongType hfd rfl rfl nofun rfl (by decide)) nofun
  · exact iff_of_false (answer_wrongType hfd rfl rfl nofun rfl (by decide)) nofun
  · exact iff_of_true rfl rfl

theorem sismemberOutcome_emptied (hsize : args.length = 3) :
    (sismemberOutcome args (some v)).answer filled fd k l =
      (sismemberOutcome args none).answer filled fd k l ↔ v.data.kind = .set := by
  unfold sismemberOutcome
  rw [if_neg (by omega), if_neg (by omega)]
  rcases empty_cases hv with ⟨e, m, rfl⟩ | ⟨h, e, m, hh, rfl⟩ | ⟨e, m, rfl⟩
  · exact iff_of_false (answer_wrongType hfd rfl rfl nofun rfl (by decide)) nofun
  · exact iff_of_false (answer_wrongType hfd rfl rfl nofun rfl (by decide)) nofun
  · simp only [Std.ExtTreeSet.contains_empty, Bool.false_eq_true, if_false]
    exact iff_of_true trivial rfl

theorem smembersOutcome_emptied (hsize : args.length = 2) :
    (smembersOutcome args (some v)).answer filled fd k l =
      (smembersOutcome args none).answer filled fd k l ↔
        v.data.kind = .set ∧ Reserves v.memoryUsage := by
  unfold smembersOutcome
  rw [if_neg (by omega), if_neg (by omega)]
  rcases empty_cases hv with ⟨e, m, rfl⟩ | ⟨h, e, m, hh, rfl⟩ | ⟨e, m, rfl⟩
  · exact iff_of_false (answer_wrongType hfd rfl rfl nofun rfl (by decide)) nofun
  · exact iff_of_false (answer_wrongType hfd rfl rfl nofun rfl (by decide)) nofun
  · by_cases hres : Reserves m
    · have hok : reserve (addSize 1024 m) = .ok () := if_neg (not_lt.2 hres)
      simp only [hok]
      exact iff_of_true (answer_eq nofun nofun respArray_zero rfl) ⟨rfl, hres⟩
    · have herr : reserve (addSize 1024 m) = .error .lengthError := if_pos (not_le.1 hres)
      simp only [herr]
      refine iff_of_false (fun hc => ?_) fun hc => hres hc.2
      rw [answer_of_effect (o := { reply := ascii "*0" ++ crlf }) _ _ nofun] at hc
      cases hc

theorem sdelOutcome_emptied :
    (sdelOutcome args (some v)).answer filled fd k l ≠
      (sdelOutcome args none).answer filled fd k l := by
  rcases empty_cases hv with ⟨e, m, rfl⟩ | ⟨h, e, m, hh, rfl⟩ | ⟨e, m, rfl⟩
  · exact answer_ne hfd nofun nofun wrongType_ne_noSuchKey
  · exact answer_ne hfd nofun nofun wrongType_ne_noSuchKey
  · exact answer_ne hfd nofun nofun (ne_of_head rfl rfl (by decide))

end One

/-! ## Commands on several sets -/

section Several

variable {s s' : Store} {args : List Bytes} {k : Bytes} {v : DrutaValue}
  (hother : ∀ key, key ≠ k → s'.value key = s.value key) (hmissing : s'.value k = none)
  (hv : s.value k = some v)

include hother hmissing hv

theorem sinterLoop_emptySet (hset : v.data = .set ∅) : ∀ (keys : List Bytes)
    (inter : Std.ExtTreeSet Bytes),
    ∃ o, sinterLoop keys inter s = .ok (o, s) ∧ sinterLoop keys inter s' = .ok (o, s')
  | [], inter => ⟨some inter, rfl, rfl⟩
  | key :: keys, inter => by
    unfold sinterLoop
    rw [bind_ok (find_value s key), bind_ok (find_value s' key)]
    by_cases hk : key = k
    · rw [hk, hv, hmissing]
      have hnone : ∀ l : List Bytes, l.foldl (fun n a => if (∅ : Std.ExtTreeSet Bytes).contains a
          then n.insert a else n) (∅ : Std.ExtTreeSet Bytes) = ∅ := by
        intro l
        induction l with
        | nil => rfl
        | cons a l ih => simp
      refine ⟨some ∅, ?_, rfl⟩
      simp only [hset, hnone, Std.ExtTreeSet.isEmpty_empty, if_true]
      rfl
    · rw [hother key hk]
      rcases s.value key with _ | ⟨d, e, m⟩
      · exact ⟨some ∅, rfl, rfl⟩
      · rcases d with _ | _ | _ | t
        · exact ⟨none, rfl, rfl⟩
        · exact ⟨none, rfl, rfl⟩
        · exact ⟨none, rfl, rfl⟩
        · dsimp only
          split_ifs
          · exact ⟨_, rfl, rfl⟩
          · exact sinterLoop_emptySet hset keys _

theorem commandSinter_emptySet (args : List Bytes) (hset : v.data = .set ∅) :
    ∃ b, commandSinter args s = .ok ((b, false), s) ∧
      commandSinter args s' = .ok ((b, false), s') := by
  have hloop : ∀ inter : Std.ExtTreeSet Bytes, ∃ b,
      (sinterLoop (args.drop 2) inter >>= fun o => pure (sinterReply o, false)) s = .ok ((b, false), s)
        ∧ (sinterLoop (args.drop 2) inter >>= fun o => pure (sinterReply o, false)) s' =
          .ok ((b, false), s') := by
    intro inter
    obtain ⟨o, ho, ho'⟩ := sinterLoop_emptySet hother hmissing hv hset (args.drop 2) inter
    exact ⟨sinterReply o, bind_ok ho, bind_ok ho'⟩
  unfold commandSinter
  split_ifs
  · exact ⟨_, rfl, rfl⟩
  · rw [bind_ok (find_value s _), bind_ok (find_value s' _)]
    by_cases hk : arg args 1 = k
    · rw [hk, hv, hmissing]
      simp only [hset]
      exact hloop ∅
    · rw [hother _ hk]
      rcases s.value (arg args 1) with _ | ⟨d, e, m⟩
      · exact hloop ∅
      · cases d with
        | set t => exact hloop t
        | _ => exact ⟨_, rfl, rfl⟩

variable (hempty : v.data.isEmpty)

include hempty

/-- A key without members has none when it is missing. -/
theorem members_emptied (key : Bytes) : members (s'.value key) = members (s.value key) := by
  by_cases hkey : key = k
  · rw [hkey, hv, hmissing]
    rcases empty_cases hempty with ⟨e, m, rfl⟩ | ⟨h, e, m, -, rfl⟩ | ⟨e, m, rfl⟩
    · rfl
    · rfl
    · rfl
  · rw [hother key hkey]

theorem commandSdiff_emptied (hsize : 2 ≤ args.length) :
    ∃ b b', commandSdiff args s = .ok ((b, false), s) ∧
      commandSdiff args s' = .ok ((b', false), s') ∧
        (b = b' ↔ v.data.kind = .set ∨ arg args 1 ≠ k) := by
  have hsame : firstSet (s'.value (arg args 1)) = firstSet (s.value (arg args 1)) →
      v.data.kind = .set ∨ arg args 1 ≠ k →
      ∃ b b', commandSdiff args s = .ok ((b, false), s) ∧
        commandSdiff args s' = .ok ((b', false), s') ∧
          (b = b' ↔ v.data.kind = .set ∨ arg args 1 ≠ k) := by
    intro hfirst hor
    obtain ⟨b, hb, hb'⟩ := commandSdiff_congr args (members_emptied hother hmissing hv hempty) hfirst
    exact ⟨b, b, hb, hb', iff_of_true rfl hor⟩
  by_cases hfirst : arg args 1 = k
  · by_cases hset : v.data.kind = .set
    · refine hsame ?_ (.inl hset)
      rw [hfirst, hv, hmissing]
      rcases empty_cases hempty with ⟨e, m, rfl⟩ | ⟨h, e, m, -, rfl⟩ | ⟨e, m, rfl⟩
      · cases hset
      · cases hset
      · rfl
    · have hholds : HoldsOther s (arg args 1) := ⟨v, hfirst ▸ hv, hset⟩
      have hno : ¬ HoldsOther s' (arg args 1) := not_holdsOther_of_none (hfirst ▸ hmissing)
      obtain ⟨b, b', hb, hb', hne⟩ := commandSdiff_other hholds hno hsize
      exact ⟨b, b', hb, hb', iff_of_false hne fun h => h.elim hset fun hne => hne hfirst⟩
  · exact hsame (by rw [hother _ hfirst]) (.inr hfirst)

theorem commandSinter_emptied (hsize : 2 ≤ args.length) :
    ∃ b b', commandSinter args s = .ok ((b, false), s) ∧
      commandSinter args s' = .ok ((b', false), s') ∧
        (b = b' ↔ v.data.kind = .set ∨
          (SinterNotices s (args.drop 1) → SinterNotices s' (args.drop 1))) := by
  by_cases hset : v.data.kind = .set
  · have hdata : v.data = .set ∅ := by
      rcases empty_cases hempty with ⟨e, m, rfl⟩ | ⟨h, e, m, -, rfl⟩ | ⟨e, m, rfl⟩
      · cases hset
      · cases hset
      · rfl
    obtain ⟨b, hb, hb'⟩ := commandSinter_emptySet hother hmissing hv args hdata
    exact ⟨b, b, hb, hb', iff_of_true rfl (.inl hset)⟩
  · have hsame : ∀ key, s'.value key = s.value key ∨ HoldsOther s key := by
      intro key
      by_cases hkey : key = k
      · exact .inr ⟨v, hkey ▸ hv, hset⟩
      · exact .inl (hother key hkey)
    obtain ⟨b, b', hb, hb', hiff⟩ := commandSinter_other hsame hsize
    exact ⟨b, b', hb, hb', hiff.trans (or_iff_right hset).symm⟩

end Several

/-! ## Emptied keys and missing keys -/

/-- A command of the list, hash or set family that names a key with an empty container answers the
same without the key, and leaves the same but for empty containers, exactly where it cannot tell
the two apart. -/
theorem emptied_iff {s : Server} {r : Recency} {now fd : ℤ} {args : List Bytes} {k : Bytes}
    {v : DrutaValue} (hs : s.store = r.toStore) (hfd : fd ≠ -1) (hv : r.find k = some v)
    (hempty : v.data.isEmpty)
    (hfamily : ∃ kind, (callOf args).kind = some kind ∧ kind ≠ .string)
    (hk : k ∈ namedKeys args) (hl : KeepsLimit now args s)
    (hl' : KeepsLimit now args { s with store := (r.drop k).toStore }) :
    s.answer filled now fd args =
        ({ s with store := (r.drop k).toStore } : Server).answer filled now fd args ↔
      (callOf args).Indifferent s.store (r.drop k).toStore args k v := by
  have hshows : (r.drop k).shows filled = r.shows filled := by
    rw [Recency.shows_drop, Recency.filter_shows]
    intro w hw
    obtain rfl := Option.some.inj (hv.symm.trans hw)
    simp only [filled, hempty, Bool.not_true]
  have hhidden : (r.shows filled).filter (·.1 ≠ k) = r.shows filled := by
    rw [← Recency.shows_drop, hshows]
  have hmissing : (r.drop k).find k = none := by
    rw [Effect.find_drop, if_pos rfl]
  have hother : ∀ key, key ≠ k → (r.drop k).toStore.value key = r.toStore.value key := by
    intro key hne
    rw [value_toStore, value_toStore, Effect.find_drop, if_neg hne]
  have hv' : r.toStore.value k = some v := by rw [value_toStore, hv]
  have hmissing' : (r.drop k).toStore.value k = none := by rw [value_toStore, hmissing]
  have hone : ∀ {f}, (callOf args).action now args = some (.access k f) →
      (s.answer filled now fd args =
        ({ s with store := (r.drop k).toStore } : Server).answer filled now fd args ↔
          (f (some v)).answer filled fd k (r.shows filled) =
            (f none).answer filled fd k (r.shows filled)) := by
    intro f ha
    rw [Server.answer_access_iff hs hshows ha hl hl', hv, hmissing]
  obtain ⟨kind, hkind, hstring⟩ := hfamily
  have hne : callOf args ≠ .unknown := fun h => by
    rw [h] at hkind
    cases hkind
  have hsize := (of_route hne rfl).2
  have harg : namedKeys args = [arg args 1] → k = arg args 1 := fun h => by
    rw [h] at hk
    exact List.mem_singleton.1 hk
  unfold namedKeys at harg
  cases hc : callOf args <;> rw [hc] at hkind hsize hone harg <;>
    simp only [Call.kind, reduceCtorEq, Option.some.injEq] at hkind
  case get => exact absurd hkind.symm hstring
  case sunion =>
    obtain ⟨b, hb, hb'⟩ := commandSunion_congr args (members_emptied hother hmissing' hv' hempty)
    exact iff_of_true ((Server.answer_inspect_iff hs hfd hshows (by rw [hc]; rfl) hb hb').2 rfl) trivial
  case sdiff =>
    obtain ⟨b, b', hb, hb', hiff⟩ := commandSdiff_emptied hother hmissing' hv' hempty hsize
    exact (Server.answer_inspect_iff hs hfd hshows (by rw [hc]; rfl) hb hb').trans hiff
  case sinter =>
    obtain ⟨b, b', hb, hb', hiff⟩ := commandSinter_emptied hother hmissing' hv' hempty hsize
    exact (Server.answer_inspect_iff hs hfd hshows (by rw [hc]; rfl) hb hb').trans (hs ▸ hiff)
  all_goals obtain rfl := harg rfl
  · exact (hone rfl).trans (pushOutcome_emptied hfd hempty hsize false)
  · exact (hone rfl).trans (pushOutcome_emptied hfd hempty hsize true)
  · exact (hone rfl).trans (lrangeOutcome_emptied hfd hempty hhidden)
  · exact (hone rfl).trans (popOutcome_emptied hfd hempty hhidden true)
  · exact (hone rfl).trans (popOutcome_emptied hfd hempty hhidden false)
  · exact (hone rfl).trans (llenOutcome_emptied hfd hempty hhidden)
  · exact (hone rfl).trans (hsetOutcome_emptied hfd hempty hsize)
  · exact (hone rfl).trans (hgetOutcome_emptied hfd hempty hsize)
  · exact (hone rfl).trans (hgetallOutcome_emptied hfd hempty hhidden hsize)
  · exact (hone rfl).trans (hdelOutcome_emptied hfd hempty hhidden hsize)
  · exact (hone rfl).trans (hlenOutcome_emptied hfd hempty hsize)
  · exact (hone rfl).trans (saddOutcome_emptied hfd hempty hsize)
  · exact (hone rfl).trans (scardOutcome_emptied hfd hempty hsize)
  · exact (hone rfl).trans (sismemberOutcome_emptied hfd hempty hsize)
  · exact (hone rfl).trans (smembersOutcome_emptied hfd hempty hsize)
  · exact iff_of_false
      (mt (hone rfl).1 (smismemberOutcome_emptied hfd hempty hsize)) not_false
  · exact iff_of_false (mt (hone rfl).1 (sdelOutcome_emptied hfd hempty)) not_false

/-- `LLEN` of a list that was pushed and popped. -/
theorem emptied_iff_llen : ∃ (s : Server) (r : Recency), run Server.step {} [.command {} 4
      [ascii "RPUSH", ascii "k", ascii "x"], .command {} 4 [ascii "LPOP", ascii "k"]] = .ok s ∧
    s.store = r.toStore ∧ s.answer filled 0 4 [ascii "LLEN", ascii "k"] =
      ({ s with store := (r.drop (ascii "k")).toStore } : Server).answer filled 0 4
        [ascii "LLEN", ascii "k"] := by
  obtain ⟨s, hs, h⟩ := step_serves {} 4 [ascii "RPUSH", ascii "k", ascii "x"] serves_initial rfl
    rfl (by decide) (by decide) (by decide)
  obtain ⟨s', hs', h'⟩ := step_serves {} 4 [ascii "LPOP", ascii "k"] h rfl
    rfl (by decide) (by decide) (by decide)
  refine ⟨s', _, (run_cons_ok hs _).trans (run_cons_ok hs' []), h'.store, ?_⟩
  have hllen : callOf [ascii "LLEN", ascii "k"] = .llen := rfl
  refine (emptied_iff (v := ⟨.list [], 0, 0⟩) h'.store (by decide) rfl rfl ⟨.list, rfl, nofun⟩
    (List.mem_singleton.2 rfl) (keepsLimit_llen _ _ _) (keepsLimit_llen _ _ _)).2 ?_
  rw [hllen]
  rfl

/-- A set whose one member was deleted. -/
theorem exists_emptied_set : ∃ (s : Server) (r : Recency), run Server.step {} [.command {} 4
      [ascii "SADD", ascii "k", ascii "x"], .command {} 4 [ascii "SDEL", ascii "k", ascii "x"]] =
        .ok s ∧ s.store = r.toStore ∧ ∃ m, r.find (ascii "k") = some ⟨.set ∅, 0, m⟩ := by
  obtain ⟨s, hs, h⟩ := step_serves {} 4 [ascii "SADD", ascii "k", ascii "x"] serves_initial rfl
    rfl (by decide) (by decide) (by decide)
  obtain ⟨s', hs', h'⟩ := step_serves {} 4 [ascii "SDEL", ascii "k", ascii "x"] h rfl
    rfl (by decide) (by decide) (by decide)
  exact ⟨s', _, (run_cons_ok hs _).trans (run_cons_ok hs' []), h'.store, _, rfl⟩

/-- `SMISMEMBER` answers an array for an emptied set, and an integer for a missing one. -/
theorem smismember_tells_emptied : ¬ ∀ (s : Server) (r : Recency) (now fd : ℤ) (args : List Bytes)
    (k : Bytes) (v : DrutaValue), s.store = r.toStore → fd ≠ -1 → r.find k = some v →
      v.data.isEmpty → (∃ kind, (callOf args).kind = some kind ∧ kind ≠ .string) →
        k ∈ namedKeys args → KeepsLimit now args s →
          KeepsLimit now args { s with store := (r.drop k).toStore } →
            s.answer filled now fd args =
              ({ s with store := (r.drop k).toStore } : Server).answer filled now fd args := by
  intro hall
  obtain ⟨s, r, -, hs, m, hfind⟩ := exists_emptied_set
  have hlimit : ∀ t : Server, KeepsLimit 0 [ascii "SMISMEMBER", ascii "k", ascii "x"] t := by
    intro t
    change ∀ u ∈ (smismemberOutcome [ascii "SMISMEMBER", ascii "k", ascii "x"]
      (t.store.value (ascii "k"))).effect.counters _ _, u ≤ lruMaxMemory
    rcases t.store.value (ascii "k") with _ | ⟨d, e, m⟩
    · nofun
    · cases d <;> nofun
  have heq := hall s r 0 4 [ascii "SMISMEMBER", ascii "k", ascii "x"] (ascii "k") _ hs (by decide)
    hfind rfl ⟨.set, rfl, nofun⟩ (List.mem_singleton.2 rfl) (hlimit _) (hlimit _)
  have hkey : arg [ascii "SMISMEMBER", ascii "k", ascii "x"] 1 = ascii "k" := rfl
  rw [Server.answer_access hs rfl (hlimit _),
    Server.answer_access (r := r.drop (ascii "k")) rfl rfl (hlimit _), hkey, hfind,
    Effect.find_drop, if_pos rfl] at heq
  cases heq

end DrutaDB
