import DrutaDB.Proofs.Emptied
import DrutaDB.Proofs.LazyDeletion
import DrutaDB.Proofs.RewriteGet

/-!
# Compaction

A rewrite leaves out empty containers and strings whose deadline passed.  The list that its replay
builds shows what the rewritten one shows but for these (`compacted_rewrite`), and a command that
succeeds does the same to both (`Compacted.run`).  So the rewrite and the commands logged after it
rebuild the store (`rewriteAof_transparent`).
-/

namespace DrutaDB

open Machine Decimal Capacity Run Store

/-- Neither an empty container nor a string whose deadline passed by then. -/
def DrutaValue.stays (t : ℤ) (v : DrutaValue) : Bool :=
  !v.data.isEmpty && !(v.data.kind = .string && v.expired t)

/-- What outlives a rewrite at that time. -/
def kept (t : ℤ) : Visible := fun e => e.2.stays t

/-- The commands of the events, in their order. -/
def commandsOf : List Event → List (List Bytes)
  | [] => []
  | .command _ _ args :: events => args :: commandsOf events
  | _ :: events => commandsOf events

/-- A command of a type that is logged, without a lifetime, that is executed within the memory limit
and succeeds. -/
def Event.Succeeds (s : Server) : Event → Prop
  | .command env fd args =>
    isValid (toUpper (args.headD [])) ∧
      (callOf args = .set → ∀ opt ∈ args.drop 3,
        toUpper opt ≠ ascii "EX" ∧ toUpper opt ≠ ascii "PX") ∧
      KeepsLimit env.now args s ∧ turnedAway s fd (toUpper (args.headD [])) = false ∧
      ∃ sends s', (callOf args).run env.now fd (toUpper (args.headD [])) args (s.ensureClient fd) =
        .ok ((sends, true), s')
  | _ => False

/-! ## Paired values -/

section Paired

variable {t : ℤ} {v w : DrutaValue}

/-- The value of a key and that in a compacted list: they are the same, or the first does not
stay and the second is missing. -/
inductive Paired (t : ℤ) : Option DrutaValue → Option DrutaValue → Prop
  | missing : Paired t none none
  | same {d d' : Data} (e : ℤ) (m m' : ℕ) (h : d.Same d') (hd : d.kind = .string ∨ e = 0) :
    Paired t (some ⟨d, e, m⟩) (some ⟨d', e, m'⟩)
  | gone {v : DrutaValue} (h : v.stays t = false) (hd : v.Dated) : Paired t (some v) none

theorem DrutaValue.Same.paired (h : v.Same w) (hd : v.Dated) : Paired t (some v) (some w) := by
  obtain ⟨d, e, m⟩ := v
  obtain ⟨d', e', m'⟩ := w
  obtain ⟨hdata, rfl⟩ : d.Same d' ∧ e = e' := ⟨h.data, h.expiryTime⟩
  exact .same e m m' hdata hd

theorem Data.Same.kind_eq {a b : Data} (h : a.Same b) : a.kind = b.kind := by
  cases h <;> rfl

theorem Data.Same.isEmpty_eq {a b : Data} (h : a.Same b) : a.isEmpty = b.isEmpty := by
  cases h with
  | string s => rfl
  | list l => rfl
  | set s => rfl
  | hash hd hd' heq =>
    exact decide_eq_decide.2 ⟨size_eq_zero_congr hd' heq, size_eq_zero_congr hd heq.symm⟩

theorem DrutaValue.Same.stays_eq (h : v.Same w) : v.stays t = w.stays t := by
  unfold DrutaValue.stays DrutaValue.expired
  rw [h.data.isEmpty_eq, h.data.kind_eq, h.expiryTime]

/-- What does not stay is an empty container without a deadline, or a string. -/
theorem gone_cases (h : v.stays t = false) (hd : v.Dated) :
    (∃ d e m, v = ⟨.string d, e, m⟩) ∨ (∃ m, v = ⟨.list [], 0, m⟩) ∨
      (∃ g m, g.size = 0 ∧ v = ⟨.hash g, 0, m⟩) ∨ ∃ m, v = ⟨.set ∅, 0, m⟩ := by
  rcases v with ⟨d, e, m⟩
  rcases hkind : d.kind
  case string =>
    rcases d with d | l | g | s
    · exact .inl ⟨d, e, m, rfl⟩
    all_goals cases hkind
  all_goals
    have hne : d.kind ≠ .string := by rw [hkind]; exact Kind.noConfusion
    obtain rfl : e = 0 := hd.resolve_left hne
    have hempty : d.isEmpty := by
      simpa [DrutaValue.stays, hne] using h
    rcases empty_cases (v := ⟨d, 0, m⟩) hempty with ⟨e, m, hv⟩ | ⟨g, e, m, hg, hv⟩ | ⟨e, m, hv⟩
  all_goals
    obtain ⟨rfl, rfl, rfl⟩ := DrutaValue.mk.inj hv
    first
      | exact .inr (.inl ⟨_, rfl⟩)
      | exact .inr (.inr (.inl ⟨_, _, hg, rfl⟩))
      | exact .inr (.inr (.inr ⟨_, rfl⟩))

end Paired

/-! ## Paired outcomes -/

/-- The value that an effect writes. -/
def Effect.written : Effect → Option DrutaValue
  | .assign v _ _ | .pop v _ _ _ | .create v | .createAssign _ v _ _ _ => some v
  | .keep | .drop | .fail _ => none

/-- The outcome of a command and that on the compacted list: both write values that are the same,
or the second does nothing about a missing key and what the first writes does not stay. -/
def Outcome.Pairs (t : ℤ) (o' : Option DrutaValue) (out out' : Outcome) : Prop :=
  ∃ v, out.effect.written = some v ∧ v.Dated ∧
    ((∃ w, out'.effect.written = some w ∧ v.Same w) ∨
      (out'.effect = .keep ∧ o' = none ∧ v.stays t = false))

section Outcomes

variable {t now : ℤ} {args : List Bytes} {o o' : Option DrutaValue}

theorem setOutcome_pairs (hs : (setOutcome now args o).success = true) :
    (setOutcome now args o).Pairs t o' (setOutcome now args o') := by
  rcases hopt : setOptions now (args.drop 3) 0 with f | e <;> simp only [setOutcome, hopt] at hs ⊢
  · cases hs
  · refine ⟨.ofString (arg args 2) e, ?_, .inl rfl,
      .inl ⟨.ofString (arg args 2) e, ?_, .string _, rfl⟩⟩
    · cases o <;> rfl
    · cases o' <;> rfl

theorem pushOutcome_pairs (hp : Paired t o o') {b : Bool}
    (hs : (pushOutcome args b o).success = true) :
    (pushOutcome args b o).Pairs t o' (pushOutcome args b o') := by
  cases hp with
  | missing => exact ⟨_, rfl, .inr rfl, .inl ⟨_, rfl, .list _, rfl⟩⟩
  | same e m m' h hd =>
    cases h with
    | list l => exact ⟨_, rfl, .inr (hd.resolve_left Kind.noConfusion), .inl ⟨_, rfl, .list _, rfl⟩⟩
    | _ => cases hs
  | gone h hd =>
    rcases gone_cases h hd with ⟨d, e, m, rfl⟩ | ⟨m, rfl⟩ | ⟨g, m, hg, rfl⟩ | ⟨m, rfl⟩
    · cases hs
    · exact ⟨_, rfl, .inr rfl, .inl ⟨_, rfl, .list _, rfl⟩⟩
    · cases hs
    · cases hs

theorem popOutcome_pairs (hp : Paired t o o') {b : Bool}
    (hs : (popOutcome args b o).success = true) :
    (popOutcome args b o).Pairs t o' (popOutcome args b o') := by
  have hlen : ¬ 3 < args.length := by
    intro hlen
    cases o <;> simp [popOutcome, hlen] at hs
  cases hp with
  | missing => simp [popOutcome, hlen] at hs
  | same e m m' h hd =>
    simp only [popOutcome, hlen, if_false] at hs ⊢
    cases h with
    | list l =>
      simp only at hs ⊢
      generalize popLoop (if b then l else l.reverse) (min (popCount args) (toInt l.length)) =
        popped at hs ⊢
      rcases popped with f | ⟨taken, left⟩
      · cases hs
      · exact ⟨_, rfl, .inr (hd.resolve_left Kind.noConfusion), .inl ⟨_, rfl, .list _, rfl⟩⟩
    | _ => cases hs
  | gone h hd =>
    simp only [popOutcome, hlen, if_false] at hs ⊢
    rcases gone_cases h hd with ⟨d, e, m, rfl⟩ | ⟨m, rfl⟩ | ⟨g, m, hg, rfl⟩ | ⟨m, rfl⟩
    · cases hs
    · -- nothing is taken from an empty list
      have hpop : ∀ n, popLoop (if b then [] else [].reverse) n =
          if n = 0 then .ok ([], []) else .error .emptyDeque := by
        cases b <;> exact fun n => rfl
      by_cases hn : min (popCount args) (toInt ([] : List Bytes).length) = 0
      · simp only [hpop, hn, if_true]
        refine ⟨_, rfl, .inr rfl, .inr ⟨rfl, rfl, ?_⟩⟩
        cases b <;> rfl
      · simp only [hpop, hn, if_false] at hs
        cases hs
    · cases hs
    · cases hs

theorem hsetOutcome_pairs (hp : Paired t o o') (hs : (hsetOutcome args o).success = true) :
    (hsetOutcome args o).Pairs t o' (hsetOutcome args o') := by
  have hempty : DrutaHash.empty.Distinct := List.nodup_nil
  have hsame : ∀ {v w : DrutaValue} {g g' : DrutaHash}, g.Distinct → g'.Distinct →
      g.getHash = g'.getHash → v.expiryTime = w.expiryTime →
        (hsetValue args v g).Same (hsetValue args w g') := by
    intro v w g g' hg hg' heq he
    exact ⟨.hash (hsetLoop_distinct _ hg) (hsetLoop_distinct _ hg')
      (hsetLoop_congr (args.drop 2) hg hg' heq).1, he⟩
  unfold hsetOutcome at hs ⊢
  split_ifs at hs ⊢
  cases hp with
  | missing => exact ⟨_, rfl, .inr rfl, .inl ⟨_, rfl, hsame hempty hempty rfl rfl⟩⟩
  | same e m m' h hd =>
    cases h with
    | hash hg hg' heq =>
      exact ⟨_, rfl, .inr (hd.resolve_left Kind.noConfusion), .inl ⟨_, rfl, hsame hg hg' heq rfl⟩⟩
    | _ => cases hs
  | gone h hd =>
    rcases gone_cases h hd with ⟨d, e, m, rfl⟩ | ⟨m, rfl⟩ | ⟨g, m, hg, rfl⟩ | ⟨m, rfl⟩
    · cases hs
    · cases hs
    · refine ⟨_, rfl, .inr rfl, .inl ⟨_, rfl, ?_⟩⟩
      exact hsame (distinct_of_size hg) hempty (getHash_of_size hg) rfl
    · cases hs

theorem hdelOutcome_written (hlen : ¬ args.length < 3) (g : DrutaHash) (e : ℤ) (m : ℕ) :
    ∃ n, (hdelOutcome args (some ⟨.hash g, e, m⟩)).effect.written =
      some ⟨.hash (hdelLoop (args.drop 2) g 0 false).1, e, n⟩ := by
  unfold hdelOutcome
  rw [if_neg hlen]
  dsimp only
  split_ifs
  · exact ⟨_, rfl⟩
  · exact ⟨_, rfl⟩

theorem hdelOutcome_pairs (hp : Paired t o o') (hs : (hdelOutcome args o).success = true) :
    (hdelOutcome args o).Pairs t o' (hdelOutcome args o') := by
  have hlen : ¬ args.length < 3 := by
    intro hlen
    simp [hdelOutcome, hlen] at hs
  cases hp with
  | missing => simp [hdelOutcome, hlen] at hs
  | same e m m' h hd =>
    cases h with
    | @hash g g' hg hg' heq =>
      obtain ⟨n, hn⟩ := hdelOutcome_written hlen g e m
      obtain ⟨n', hn'⟩ := hdelOutcome_written hlen g' e m'
      exact ⟨_, hn, .inr (hd.resolve_left Kind.noConfusion), .inl ⟨_, hn',
        .hash (hdelLoop_distinct _ hg) (hdelLoop_distinct _ hg')
          (hdelLoop_congr (args.drop 2) hg hg' heq).1, rfl⟩⟩
    | _ =>
      simp [hdelOutcome, hlen] at hs
  | gone h hd =>
    simp only [hdelOutcome, hlen, if_false] at hs
    rcases gone_cases h hd with ⟨d, e, m, rfl⟩ | ⟨m, rfl⟩ | ⟨g, m, hg, rfl⟩ | ⟨m, rfl⟩
    · cases hs
    · cases hs
    · simp only [(hdelLoop_of_size hg (args.drop 2) false).2] at hs
      cases hs
    · cases hs

theorem saddOutcome_pairs (hp : Paired t o o') (hs : (saddOutcome args o).success = true) :
    (saddOutcome args o).Pairs t o' (saddOutcome args o') := by
  cases hp with
  | missing => exact ⟨_, rfl, .inr rfl, .inl ⟨_, rfl, .set _, rfl⟩⟩
  | same e m m' h hd =>
    cases h with
    | set s => exact ⟨_, rfl, .inr (hd.resolve_left Kind.noConfusion), .inl ⟨_, rfl, .set _, rfl⟩⟩
    | _ => cases hs
  | gone h hd =>
    rcases gone_cases h hd with ⟨d, e, m, rfl⟩ | ⟨m, rfl⟩ | ⟨g, m, hg, rfl⟩ | ⟨m, rfl⟩
    · cases hs
    · cases hs
    · cases hs
    · have hset := (saddLoop_eq_saddNewLoop (args.drop 2) ∅ 0 0 0).1
      refine ⟨_, rfl, .inr rfl, .inl ⟨_, rfl, ?_, rfl⟩⟩
      change (Data.set (saddLoop (args.drop 2) ∅ 0 0).1).Same
        (.set (saddNewLoop (args.drop 2) ∅ 0 0).1)
      rw [hset]
      exact .set _

theorem sdelLoop_empty : ∀ (as : List Bytes) (d : ℤ) (n : ℕ), sdelLoop as ∅ d n = (∅, d, n)
  | [], _, _ => rfl
  | a :: as, d, n => by
    have ha : (∅ : Std.ExtTreeSet Bytes).contains a = false := Std.ExtTreeSet.contains_empty
    rw [sdelLoop, ha]
    exact sdelLoop_empty as d n

theorem sdelOutcome_pairs (hp : Paired t o o') (hs : (sdelOutcome args o).success = true) :
    (sdelOutcome args o).Pairs t o' (sdelOutcome args o') := by
  cases hp with
  | missing => cases hs
  | same e m m' h hd =>
    cases h with
    | set s => exact ⟨_, rfl, .inr (hd.resolve_left Kind.noConfusion), .inl ⟨_, rfl, .set _, rfl⟩⟩
    | _ => cases hs
  | gone h hd =>
    rcases gone_cases h hd with ⟨d, e, m, rfl⟩ | ⟨m, rfl⟩ | ⟨g, m, hg, rfl⟩ | ⟨m, rfl⟩
    · cases hs
    · cases hs
    · cases hs
    · simp only [sdelOutcome, sdelLoop_empty] at hs
      cases hs

/-- A command that succeeds has paired outcomes on paired values. -/
theorem pairs_of_success {key : Bytes} {f : Option DrutaValue → Outcome}
    (ha : (callOf args).action now args = some (.access key f)) (hl : (callOf args).logs)
    (hp : Paired t o o') (hs : (f o).success = true) : (f o).Pairs t o' (f o') := by
  rcases hcall : callOf args <;> rw [hcall] at ha hl <;>
    simp only [Call.logs, Bool.false_eq_true] at hl <;>
    simp only [Call.action, Option.some.injEq, reduceCtorEq, Action.access.injEq] at ha <;>
    obtain ⟨-, rfl⟩ := ha
  · exact setOutcome_pairs hs
  · exact pushOutcome_pairs hp hs
  · exact pushOutcome_pairs hp hs
  · exact popOutcome_pairs hp hs
  · exact popOutcome_pairs hp hs
  · exact hsetOutcome_pairs hp hs
  · exact hdelOutcome_pairs hp hs
  · exact saddOutcome_pairs hp hs
  · exact sdelOutcome_pairs hp hs

end Outcomes

/-! ## The compacted list -/

/-- The second list shows what the first does, but for what does not stay, in the same order. -/
structure Compacted (t : ℤ) (r q : Recency) : Prop where
  shows : q.shows (kept t) = r.shows (kept t)
  paired : ∀ k, Paired t (r.find k) (q.find k)

section Compacted

variable {t : ℤ} {r q : Recency} {k : Bytes} {e : Effect} {o : Option DrutaValue} {v w : DrutaValue}

theorem Effect.result_of_written (h : e.written = some v) : e.result o = some v := by
  cases e with
  | keep | drop | fail => cases h
  | _ => exact h

theorem Effect.shown_of_written {P : Visible} {l : List (Bytes × View × ℤ)}
    (h : e.written = some v) :
    e.shown P k l = l.filter (·.1 ≠ k) ++ Recency.entry P k v := by
  cases e with
  | keep | drop | fail => cases h
  | _ =>
    obtain rfl := Option.some.inj h
    rfl

theorem entry_of_gone (h : v.stays t = false) : Recency.entry (kept t) k v = [] := by
  unfold Recency.entry kept
  rw [h]
  rfl

theorem DrutaValue.Same.entry_eq (h : v.Same w) :
    Recency.entry (kept t) k v = Recency.entry (kept t) k w :=
  Recency.entry_congr _ h.stays_eq h.view_eq

/-- Paired outcomes leave paired values. -/
theorem paired_after (h : ∀ k, Paired t (r.find k) (q.find k)) {out out' : Outcome}
    (hpairs : out.Pairs t (q.find k) out') (k' : Bytes) :
    Paired t ((out.effect.after k r).find k') ((out'.effect.after k q).find k') := by
  obtain ⟨v, hv, hd, ⟨w, hw, hsame⟩ | ⟨hkeep, hnone, hgone⟩⟩ := hpairs
  · rw [Effect.find_after, Effect.find_after, Effect.result_of_written hv,
      Effect.result_of_written hw]
    split_ifs
    · exact hsame.paired hd
    · exact h k'
  · have hafter : out'.effect.after k q = q := by rw [hkeep]; rfl
    rw [hafter, Effect.find_after, Effect.result_of_written hv]
    split_ifs with hk
    · rw [hk, hnone]
      exact .gone hgone hd
    · exact h k'

/-- Paired outcomes leave a compacted list. -/
theorem Compacted.after (h : Compacted t r q) {out out' : Outcome}
    (hpairs : out.Pairs t (q.find k) out') :
    Compacted t (out.effect.after k r) (out'.effect.after k q) := by
  refine ⟨?_, paired_after h.paired hpairs⟩
  obtain ⟨v, hv, hd, ⟨w, hw, hsame⟩ | ⟨hkeep, hnone, hgone⟩⟩ := hpairs
  · rw [shows_after, shows_after, Effect.shown_of_written hv, Effect.shown_of_written hw, h.shows,
      hsame.entry_eq]
  · have hafter : out'.effect.after k q = q := by rw [hkeep]; rfl
    have hhidden : ∀ u, r.find k = some u → kept t (k, u) = false := by
      intro u hu
      have hp := h.paired k
      rw [hu, hnone] at hp
      cases hp with
      | gone hgone _ => exact hgone
    rw [hafter, h.shows, shows_after, Effect.shown_of_written hv, entry_of_gone hgone,
      List.append_nil, Recency.filter_shows _ hhidden]

theorem Outcome.Pairs.ne_fail {out out' : Outcome} (h : out.Pairs t o out') :
    (∀ x, out.effect ≠ .fail x) ∧ ∀ x, out'.effect ≠ .fail x := by
  obtain ⟨v, hv, -, ⟨w, hw, -⟩ | ⟨hkeep, -⟩⟩ := h
  · refine ⟨fun x hx => ?_, fun x hx => ?_⟩
    · rw [hx] at hv
      cases hv
    · rw [hx] at hw
      cases hw
  · refine ⟨fun x hx => ?_, fun x hx => ?_⟩
    · rw [hx] at hv
      cases hv
    · rw [hx] at hkeep
      cases hkeep

/-- A command that succeeds within the limit is replayed to a compacted list. -/
theorem Compacted.run {now now' : ℤ} {args : List Bytes} {a : Action} {reply : Bytes}
    {r' : Recency} (h : Compacted t r q) (ha : (callOf args).action now args = some a)
    (hl : (callOf args).logs) (hlimit : KeepsReplay now [args] r)
    (hrun : a.run r = .ok ((reply, true), r')) (ha' : (callOf args).action now' args = some a)
    (hkeeps : KeepsReplay now' [args] q) :
    ∃ q', replayOne now' q args = .ok q' ∧ Compacted t r' q' := by
  rw [replayOne_eq ha']
  rcases a with ⟨key, f⟩ | m | keys
  · obtain ⟨-, hok, -⟩ := apply_ok hrun
    have hpairs := pairs_of_success ha hl (h.paired key) hok.symm
    obtain ⟨hfail, hfail'⟩ := hpairs.ne_fail
    simp only [KeepsReplay, ha, and_true] at hlimit
    simp only [KeepsReplay, ha', and_true] at hkeeps
    rw [Action.run_access (fits_of_action _ ha) hfail hlimit] at hrun
    obtain ⟨-, rfl⟩ := Prod.mk.inj (Except.ok.inj hrun)
    rw [Action.run_access (fits_of_action _ ha') hfail' hkeeps]
    exact ⟨_, rfl, h.after hpairs⟩
  · exact absurd ha (Call.logs_ne_inspect hl)
  · obtain ⟨-, rfl⟩ := Prod.mk.inj (Except.ok.inj hrun)
    refine ⟨_, rfl, ?_, fun k => ?_⟩
    · rw [Recency.shows_deleteAll, Recency.shows_deleteAll, h.shows]
    · rw [find_deleteAll, find_deleteAll]
      split_ifs
      · exact .missing
      · exact h.paired k

end Compacted

/-! ## The rewrite -/

section Rewrite

variable {t : ℤ} {r q : Recency} {n : DrutaNode}

/-- A node that is not written does not stay. -/
theorem stays_of_rewriteCommand (hr : n.value.Regular) (h : rewriteCommand t n = none) :
    n.value.stays t = false := by
  obtain ⟨key, next, prev, d, e, m⟩ := n
  unfold rewriteCommand at h
  dsimp only at h
  by_cases hskip : 0 < e ∧ e < t
  · rcases d with d | l | g | s
    · have he : e ≠ 0 := by omega
      simp [DrutaValue.stays, Data.kind, DrutaValue.expired, he, hskip.2]
    · obtain rfl : e = 0 := hr
      omega
    · obtain rfl : e = 0 := hr.1
      omega
    · obtain rfl : e = 0 := hr
      omega
  · rw [if_neg hskip] at h
    have hempty : d.isEmpty := by
      rcases d with d | l | g | s <;> simp only at h
      · cases h
      · split_ifs at h with hl
        rw [hl]
        rfl
      · split_ifs at h with hsize
        exact decide_eq_true hsize
      · split_ifs at h with hset
        exact hset
    simp [DrutaValue.stays, hempty]

theorem dated_of_regular {v : DrutaValue} (h : v.Regular) : v.Dated := by
  obtain ⟨d, e, m⟩ := v
  cases d with
  | string d => exact .inl rfl
  | list l => exact .inr h
  | hash g => exact .inr h.1
  | set s => exact .inr h

/-- What is shown of the entries, one after the other. -/
theorem shows_eq_flatMap (P : Visible) (r : Recency) :
    r.shows P = r.nodes.entries.flatMap fun e => Recency.entry P e.1 e.2 := by
  unfold Recency.shows
  generalize r.nodes.entries = es
  induction es with
  | nil => rfl
  | cons e es ih =>
    rw [List.flatMap_cons, ← ih]
    by_cases hP : P e
    · rw [List.filter_cons_of_pos hP, Recency.entry, if_pos hP]
      rfl
    · rw [List.filter_cons_of_neg hP, Recency.entry, if_neg hP]
      rfl

/-- The replay of a rewrite builds a compacted list. -/
theorem compacted_rewrite (hreg : r.Each DrutaValue.Regular)
    (hentries : q.nodes.entries = (writtenNodes t r).map fun n => (n.key, rebuiltValue n)) :
    Compacted t r q := by
  have hnodes : ∀ n ∈ nodeList none r.nodes.entries, n.value.Regular := fun n hn =>
    hreg _ (mem_nodeList hn)
  refine ⟨?_, fun k => ?_⟩
  · have hlist : ∀ ns : List DrutaNode, (∀ n ∈ ns, n.value.Regular) →
        ((ns.filter fun n => (rewriteCommand t n).isSome).map fun n =>
          (n.key, rebuiltValue n)).flatMap (fun e => Recency.entry (kept t) e.1 e.2) =
            (ns.map fun n => (n.key, n.value)).flatMap fun e => Recency.entry (kept t) e.1 e.2 := by
      intro ns
      induction ns with
      | nil => exact fun _ => rfl
      | cons n ns ih =>
        intro hns
        rw [List.forall_mem_cons] at hns
        rw [List.map_cons, List.flatMap_cons, ← ih hns.2]
        rcases hc : rewriteCommand t n with _ | c
        · rw [List.filter_cons_of_neg (by simp [hc]),
            entry_of_gone (stays_of_rewriteCommand hns.1 hc)]
          rfl
        · rw [List.filter_cons_of_pos (by simp [hc]), (same_rebuiltValue hns.1).entry_eq]
          rfl
    rw [shows_eq_flatMap, shows_eq_flatMap, hentries, writtenNodes, hlist _ hnodes, nodeList_map]
  · rcases hv : r.find k with _ | v
    · have hnone : q.find k = none := by
        refine RecencyList.find_eq_none_iff.2 fun hmem => ?_
        rw [RecencyList.keys, hentries, List.map_map] at hmem
        obtain ⟨n, hn, rfl⟩ := List.mem_map.1 hmem
        have hkey := key_mem_of_mem_nodeList (List.mem_of_mem_filter hn)
        exact RecencyList.find_eq_none_iff.1 hv hkey
      rw [hnone]
      exact .missing
    · obtain ⟨n, hn, rfl, rfl⟩ := exists_node hv
      rw [find_written hn hentries]
      split_ifs with hsome
      · exact (same_rebuiltValue (hnodes n hn)).paired (dated_of_regular (hnodes n hn))
      · rw [Bool.not_eq_true, Option.isSome_eq_false_iff, Option.isNone_iff_eq_none] at hsome
        exact .gone (stays_of_rewriteCommand (hnodes n hn) hsome) (dated_of_regular (hnodes n hn))

/-- The commands of a rewrite are replayed within the limit. -/
theorem replayList_keeps {now : ℤ} : ∀ {ns : List DrutaNode} {q : Recency},
    (ns.map (·.key)).Nodup → (∀ n ∈ ns, q.find n.key = none) →
    (∀ n ∈ ns, n.value.expiryTime < 2 ^ 63) →
    KeepsReplay now (ns.filterMap (rewriteCommand t)) q →
    ∃ q', replayList now (ns.filterMap (rewriteCommand t)) q = .ok q' ∧
      q'.account.evicted = q.account.evicted
  | [], q, _, _, _, _ => ⟨q, rfl, rfl⟩
  | n :: ns, q, hnodup, hnone, hexp, hkeeps => by
    rw [List.map_cons, List.nodup_cons] at hnodup
    rw [List.forall_mem_cons] at hnone hexp
    rcases hc : rewriteCommand t n with _ | c
    · rw [List.filterMap_cons_none hc] at hkeeps ⊢
      exact replayList_keeps hnodup.2 hnone.2 hexp.2 hkeeps
    · rw [List.filterMap_cons_some hc] at hkeeps ⊢
      obtain ⟨f, ha, hmakes⟩ := makes_of_rewrite hc hexp.1 now
      simp only [KeepsReplay, ha, hnone.1] at hkeeps
      have hone : replayOne now q c = .ok ((f none).effect.after n.key q) :=
        replayOne_of_makes ha hmakes hnone.1 hkeeps.1
      have hns : ∀ m ∈ ns, ((f none).effect.after n.key q).find m.key = none := by
        intro m hm
        have hne : m.key ≠ n.key := fun heq => hnodup.1 (heq ▸ List.mem_map_of_mem hm)
        rw [Effect.find_after, if_neg hne]
        exact hnone.2 m hm
      obtain ⟨q', hq', hev⟩ := replayList_keeps hnodup.2 hns hexp.2 hkeeps.2
      refine ⟨q', ?_, hev.trans (Effect.evicted_after _ _ _)⟩
      unfold replayList
      simp only [hone]
      exact hq'

end Rewrite

/-! ## Commands after the rewrite -/

section Runs

variable {s s' : Server} {r : Recency} {e : Event} {events : List Event}

/-- What a command that succeeds does to the list. -/
theorem step_succeeds (hs : s.store = r.toStore) (he : e.Succeeds s) (h : s.step e = .ok s') :
    ∃ env fd args a reply r', e = .command env fd args ∧ Loggable args ∧
      (callOf args = .set → ∀ opt ∈ args.drop 3,
        toUpper opt ≠ ascii "EX" ∧ toUpper opt ≠ ascii "PX") ∧
      (callOf args).action env.now args = some a ∧ KeepsReplay env.now [args] r ∧
      a.run r = .ok ((reply, true), r') ∧ s'.store = r'.toStore := by
  rcases e with fd | fd | ⟨env, fd, args⟩
  · cases he
  · cases he
  obtain ⟨hvalid, habsolute, hlimit, hturn, sends, t, hrun⟩ := he
  rcases args with _ | ⟨b, bs⟩
  · cases h
  have hchange : (Event.command env fd (b :: bs)).change s =
      (callOf (b :: bs)).change env.now (b :: bs) := by
    rw [change_command]
    exact if_neg (Bool.eq_false_iff.1 hturn)
  rcases ha : (callOf (b :: bs)).action env.now (b :: bs) with _ | a
  · -- of the commands that do not work on the store only `FLUSHDB` succeeds
    have hflush : callOf (b :: bs) = .flushdb := by
      by_contra hne
      have hquiet : (callOf (b :: bs)).change env.now (b :: bs) = .quiet := by
        simp only [Call.change, ha, hne, false_and, if_false]
      obtain ⟨sends', t', hrun', -⟩ := Call.run_quiet hquiet fd (toUpper ((b :: bs).headD []))
        (s.ensureClient fd)
      rw [hrun'] at hrun
      cases hrun
    have hname : toUpper b = ascii Call.flushdb.name := (of_route (by decide) hflush).1
    have hno : isValid (ascii Call.flushdb.name) = false := by decide
    rw [List.headD_cons, hname, hno] at hvalid
    cases hvalid
  · have hact : (Event.command env fd (b :: bs)).change s = .act a := by
      rw [hchange]
      simp only [Call.change, ha]
    have hexec := Call.run_action r env.now (b :: bs) ha fd (toUpper ((b :: bs).headD []))
      (s := s.ensureClient fd) hs
    change (handleCommand env fd (b :: bs) s).2 = .ok s' at h
    rcases handleCommand_act hs hact with ⟨f, -, hf⟩ | ⟨reply, ok, r', hr, hres⟩
    · rw [hf] at h
      cases h
    · rw [hrun, hr] at hexec
      obtain rfl : ok = true := congrArg (fun p => p.1.2) (Except.ok.inj hexec.symm)
      rcases hres with ⟨u, hu, hst, -⟩ | ⟨-, -, x, hx⟩
      · obtain rfl := Except.ok.inj (hu.symm.trans h)
        refine ⟨env, fd, b :: bs, a, reply, r', rfl, ⟨List.cons_ne_nil b bs, action_isSome ha⟩,
          habsolute, ha, ?_, hr, hst⟩
        unfold KeepsLimit at hlimit
        rcases a with ⟨key, f⟩ | m | keys <;> simp only [KeepsReplay, ha, and_true]
        simp only [ha, hs, value_toStore] at hlimit
        exact hlimit
      · rw [hx] at h
        cases h

/-- Commands that succeed are replayed to a compacted list. -/
theorem run_compacted (t now : ℤ) : ∀ {events : List Event} {s s' : Server} {r : Recency},
    s.store = r.toStore → Meets Server.step (fun s e => e.Succeeds s) s events →
    run Server.step s events = .ok s' →
    (∀ c ∈ commandsOf events, Loggable c) ∧ ∃ r', s'.store = r'.toStore ∧
      ∀ q, Compacted t r q → KeepsReplay now (commandsOf events) q →
        ∃ q', replayList now (commandsOf events) q = .ok q' ∧ Compacted t r' q'
  | [], s, s', r, hs, _, h => by
    obtain rfl := Except.ok.inj h
    exact ⟨by simp [commandsOf], r, hs, fun q hq _ => ⟨q, rfl, hq⟩⟩
  | e :: events, s, s', r, hs, hm, h => by
    obtain ⟨he, hrest⟩ := hm
    obtain ⟨s₁, hs₁, hrun⟩ := run_cons h
    obtain ⟨env, fd, args, a, reply, r₁, rfl, hloggable, habsolute, ha, hlimit, hr, hst⟩ :=
      step_succeeds hs he hs₁
    obtain ⟨hloggables, r', hst', hreplay⟩ := run_compacted t now hst (hrest s₁ hs₁) hrun
    refine ⟨List.forall_mem_cons.2 ⟨hloggable, hloggables⟩, r', hst', fun q hq hkeeps => ?_⟩
    have hl : (callOf args).logs := logs_of_success ha hr
    have ha' := action_absolute (t := now) habsolute hl ha
    have hsplit : KeepsReplay now ([args] ++ commandsOf events) q := hkeeps
    have hfirst : KeepsReplay now [args] q := hsplit.of_append
    obtain ⟨q₁, hone, hq₁⟩ := hq.run ha hl hlimit hr ha' hfirst
    obtain ⟨q', hq', hcomp⟩ := hreplay q₁ hq₁ ((keepsReplay_cons hone).1 hkeeps).2
    refine ⟨q', ?_, hcomp⟩
    simp only [commandsOf, replayList, hone]
    exact hq'

end Runs

/-- A rewrite and the commands that succeeded after it are replayed to the store of the server, but
for empty containers and strings whose deadline had passed at the rewrite. -/
theorem rewriteAof_transparent {r : Recency} {s s₁ s₂ : Server} {env env' : Env}
    {events : List Event} {log : Bytes} {cs : List (List Bytes)} (hs : s.store = r.toStore)
    (hreg : r.Each DrutaValue.Regular) (hexp : r.Each fun v => v.expiryTime < 2 ^ 63)
    (hdisk : env.disk = {}) (hrewrite : rewriteAof env s = .ok s₁)
    (hm : Meets Server.step (fun s e => e.Succeeds s) s₁ events)
    (h : run Server.step s₁ events = .ok s₂)
    (hlog : log = s₁.aof ++ (commandsOf events).flatMap respCommand) (hlen : log.length < 2 ^ 31)
    (hcs : (replayCalls log).1 = cs) (hkeeps : KeepsReplay env'.now cs .initial) :
    ∃ s', replayCommands env' { aof := log } = .ok s' ∧
      s'.store.shows (kept env.now) = s₂.store.shows (kept env.now) := by
  have hfile : s₁.aof = (rewriteCommands env.now r).flatMap respCommand := by
    rw [rewriteAof_file hs hrewrite, hdisk]
    rfl
  have hs₁ : s₁.store = r.toStore := (rewriteAof_store hrewrite).trans hs
  obtain ⟨hevents, r', hst₂, hreplay⟩ := run_compacted env.now env'.now hs₁ hm h
  have hl : ∀ c ∈ rewriteCommands env.now r ++ commandsOf events, Loggable c :=
    List.forall_mem_append.2 ⟨fun c hc => loggable_rewriteCommands hexp hc, hevents⟩
  rw [hfile, ← List.flatMap_append] at hlog
  subst hlog
  have hd : ∀ c ∈ rewriteCommands env.now r ++ commandsOf events, Deliverable c := fun c hc =>
    deliverable_of_length (hl c hc).1 ((length_le_flatMap hc).trans_lt hlen)
  rw [replayCalls_log hd hlen] at hcs
  subst hcs
  have hnodup : ((nodeList none r.nodes.entries).map (·.key)).Nodup := by
    rw [map_key_nodeList]
    exact r.nodes.nodup
  have hexp' : ∀ n ∈ nodeList none r.nodes.entries, n.value.expiryTime < 2 ^ 63 := fun n hn =>
    hexp _ (mem_nodeList hn)
  obtain ⟨q, hq, hev⟩ := replayList_keeps hnodup (fun _ _ => rfl) hexp' hkeeps.of_append
  have hentries := replayList_rebuilds hnodup (fun _ _ => rfl) hexp' hq hev
  obtain ⟨q', hq', hcomp⟩ := hreplay q (compacted_rewrite hreg hentries)
    ((keepsReplay_append hq).1 hkeeps).2
  have hwhole : replayList env'.now (rewriteCommands env.now r ++ commandsOf events) .initial =
      .ok q' := by
    rw [replayList_append, rewriteCommands, hq]
    exact hq'
  obtain ⟨s', hs', hst'⟩ := replayCommands_log env' hl hlen hwhole
  refine ⟨s', hs', ?_⟩
  rw [hst', hst₂, Recency.shows_toStore, Recency.shows_toStore, hcomp.shows]

/-- A string is rewritten, and a list is made after that. -/
theorem rewriteAof_transparent_rpush : ∃ s₁ s₂ s',
    rewriteAof {} { store := oneString.toStore } = .ok s₁ ∧
    run Server.step s₁ [.command {} 4 [ascii "RPUSH", ascii "l", ascii "x"]] = .ok s₂ ∧
    replayCommands {}
      { aof := s₁.aof ++ respCommand [ascii "RPUSH", ascii "l", ascii "x"] } = .ok s' ∧
    s'.store.shows (kept 0) = s₂.store.shows (kept 0) := by
  obtain ⟨s₁, hs₁⟩ := rewriteAof_oneString {} rfl (s := { store := oneString.toStore }) rfl
  have hstore : s₁.store = oneString.toStore := rewriteAof_store hs₁
  have hclient : (s₁.client 4).isSubscriber = false := by
    rcases rewriteAof_cases {} (s := { store := oneString.toStore }) rfl with
      ⟨u, hu, -, hclients, -⟩ | ⟨x, hx⟩
    · obtain rfl := Except.ok.inj (hu.symm.trans hs₁)
      simp [Server.client, hclients]
    · rw [hx] at hs₁
      cases hs₁
  have haof : s₁.aof = respCommand [ascii "SET", ascii "k", ascii "v"] :=
    (rewriteAof_file rfl hs₁).trans (by decide)
  obtain ⟨r, hrun⟩ : ∃ r, (Action.access (ascii "l")
      (pushOutcome [ascii "RPUSH", ascii "l", ascii "x"] false)).run oneString =
        .ok ((sendInteger 1, true), r) := by
    refine ⟨_, Action.run_access (r := oneString) (by rfl) (fun _ h => by cases h) (by decide)⟩
  have ha : (callOf [ascii "RPUSH", ascii "l", ascii "x"]).action 0
      [ascii "RPUSH", ascii "l", ascii "x"] = some (.access (ascii "l")
        (pushOutcome [ascii "RPUSH", ascii "l", ascii "x"] false)) := rfl
  have hstep := step_formatted {} 4 [ascii "RPUSH", ascii "l", ascii "x"] hstore hclient ha hrun
    (by decide) (by decide) (formatRespCommand_eq (by decide))
  have hexec := Call.run_action oneString 0 [ascii "RPUSH", ascii "l", ascii "x"] ha 4
    (toUpper (ascii "RPUSH")) (s := s₁.ensureClient 4) hstore
  rw [hrun] at hexec
  have hm : Meets Server.step (fun s e => e.Succeeds s) s₁
      [.command {} 4 [ascii "RPUSH", ascii "l", ascii "x"]] := by
    have hlimit : KeepsLimit 0 [ascii "RPUSH", ascii "l", ascii "x"] s₁ := by
      change ∀ u ∈ (pushOutcome [ascii "RPUSH", ascii "l", ascii "x"] false
        (s₁.store.value (ascii "l"))).effect.counters _ _, u ≤ lruMaxMemory
      rw [hstore, value_toStore]
      decide
    have hturn : turnedAway s₁ 4 (toUpper (ascii "RPUSH")) = false := by simp [turnedAway, hclient]
    refine ⟨⟨by decide, fun hc => ?_, hlimit, hturn, _, _, hexec⟩, fun _ _ => trivial⟩
    revert hc
    decide
  have hcs : (replayCalls (respCommand [ascii "SET", ascii "k", ascii "v"] ++
      respCommand [ascii "RPUSH", ascii "l", ascii "x"])).1 =
        [[ascii "SET", ascii "k", ascii "v"], [ascii "RPUSH", ascii "l", ascii "x"]] := by
    decide
  have hkeeps : KeepsReplay 0 [[ascii "SET", ascii "k", ascii "v"],
      [ascii "RPUSH", ascii "l", ascii "x"]] .initial := ⟨by decide, by decide, trivial⟩
  have hreg : oneString.Each DrutaValue.Regular := by
    intro e he
    obtain rfl := List.mem_singleton.1 he
    exact le_rfl
  have hexp : ∀ e ∈ oneString.nodes.entries, e.2.expiryTime < 2 ^ 63 := by decide
  obtain ⟨s', hs', hshows⟩ := @rewriteAof_transparent oneString _ s₁ _ {} {} _ _ _ rfl hreg hexp rfl
    hs₁ hm (run_cons_ok hstep []) rfl (by rw [haof]; decide) (by rw [haof]; exact hcs) hkeeps
  exact ⟨s₁, _, s', hs₁, run_cons_ok hstep [], hs', hshows⟩

end DrutaDB
