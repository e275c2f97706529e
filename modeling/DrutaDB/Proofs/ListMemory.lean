import DrutaDB.Lib.Totals
import DrutaDB.Proofs.Accounting
import DrutaDB.Proofs.RoundTrip

/-!
# The memory counter of a list

Pushes and pops keep the counter of a list at what a scan of its elements gives
(`list_accounted`).
-/

namespace DrutaDB

open Machine Decimal Capacity Run Store Totals

/-- What the elements count for. -/
def elementsUsage (l : List Bytes) : ℕ := (l.map listElementUsage).sum

/-- What the constructor counts by a scan of the elements. -/
def listScan (l : List Bytes) : ℕ := sumSize (l.map listElementUsage)

/-- A push or a pop, or a command the server does not know, such as a push of too few words. -/
def Event.OnLists : Event → Prop
  | .command _ _ args => callOf args ∈ [Call.lpush, .rpush, .lpop, .rpop, .unknown]
  | _ => True

/-- The parser can deliver the command. -/
def Event.Delivered : Event → Prop
  | .command _ _ args => Deliverable args
  | _ => True

/-- The counter of a list is what a scan gives. -/
def DrutaValue.ListScanned (v : DrutaValue) : Prop :=
  ∀ l, v.data = .list l → v.memoryUsage = listScan l

/-- The counter of a list is the sum itself. -/
def DrutaValue.ListCounted (v : DrutaValue) : Prop :=
  ∀ l, v.data = .list l → v.memoryUsage = elementsUsage l

section Loops

theorem listScan_eq (l : List Bytes) : listScan l = toSize (elementsUsage l) := sumSize_eq _

theorem elementsUsage_append (l₁ l₂ : List Bytes) :
    elementsUsage (l₁ ++ l₂) = elementsUsage l₁ + elementsUsage l₂ := by
  rw [elementsUsage, List.map_append, List.sum_append, elementsUsage, elementsUsage]

theorem elementsUsage_cons (a : Bytes) (l : List Bytes) :
    elementsUsage (a :: l) = listElementUsage a + elementsUsage l := by
  rw [elementsUsage, List.map_cons, List.sum_cons, elementsUsage]

theorem elementsUsage_reverse (l : List Bytes) : elementsUsage l.reverse = elementsUsage l := by
  rw [elementsUsage, List.map_reverse, List.sum_reverse, elementsUsage]

/-- The loop of a push adds what its elements count for. -/
theorem elementsUsage_pushLoop (b : Bool) : ∀ (as l : List Bytes) (delta : ℕ),
    elementsUsage (pushLoop b as l delta).1 = elementsUsage l + elementsUsage as
  | [], l, delta => (Nat.add_zero _).symm
  | a :: as, l, delta => by
    rw [pushLoop, elementsUsage_pushLoop b as, elementsUsage_cons a as]
    cases b
    · rw [if_neg Bool.false_ne_true, elementsUsage_append, elementsUsage_cons]
      change elementsUsage l + (listElementUsage a + 0) + _ = _
      omega
    · rw [if_pos rfl, elementsUsage_cons]
      omega

theorem delta_pushLoop (b : Bool) : ∀ (as l : List Bytes) (n : ℕ),
    (pushLoop b as l (toSize n)).2 = toSize (n + elementsUsage as : ℕ)
  | [], l, n => rfl
  | a :: as, l, n => by
    rw [pushLoop, addSize_toSize, delta_pushLoop b as, elementsUsage_cons, Nat.add_assoc]

/-- What is popped and what is left count for the list. -/
theorem elementsUsage_popLoop {l taken left : List Bytes} {n : ℤ}
    (h : popLoop l n = .ok (taken, left)) :
    elementsUsage l = elementsUsage left + elementsUsage taken := by
  rw [popLoop_eq] at h
  split_ifs at h
  obtain ⟨rfl, rfl⟩ := Prod.mk.inj (Except.ok.inj h)
  rw [Nat.add_comm, ← elementsUsage_append, List.take_append_drop]

/-- So many short strings do not overflow a counter. -/
theorem sum_usage_lt {f : Bytes → ℕ} (hf : ∀ a, f a ≤ a.length + 128) {l : List Bytes}
    (hlen : l.length < 2 ^ 31) (hl : ∀ a ∈ l, a.length < 2 ^ 31) : (l.map f).sum < 2 ^ 63 := by
  have hsum : (l.map f).sum ≤ (l.map f).length • (2 ^ 31 + 128) := by
    refine List.sum_le_card_nsmul _ _ fun n hn => ?_
    obtain ⟨a, ha, rfl⟩ := List.mem_map.1 hn
    have hfa := hf a
    have hla := hl a ha
    omega
  rw [List.length_map, smul_eq_mul] at hsum
  have hmul : l.length * (2 ^ 31 + 128) ≤ 2 ^ 31 * (2 ^ 31 + 128) :=
    Nat.mul_le_mul_right _ hlen.le
  omega

theorem elementsUsage_lt {args : List Bytes} (h : Deliverable args) :
    elementsUsage (args.drop 2) < 2 ^ 63 := by
  refine sum_usage_lt (fun a => ?_) ?_ fun a ha => h.2.2 a (List.mem_of_mem_drop ha)
  · rw [listElementUsage, copyCapacity, sizeofString]
    omega
  · have hlen := h.2.1
    rw [List.length_drop]
    omega

end Loops

/-! ## What the commands do -/

/-- What a command does to the value of its key, where its arguments count for so much. -/
inductive ListChange (n : ℕ) (o : Option DrutaValue) : Effect → Prop
  | keep : ListChange n o .keep
  | fail (f : Fault) : ListChange n o (.fail f)
  | create {l : List Bytes} (ho : o = none) (hl : elementsUsage l = n) :
    ListChange n o (.create { data := .list l, memoryUsage := toSize n })
  | push {v : DrutaValue} {l l' : List Bytes} (ho : o = some v) (hv : v.data = .list l)
    (hl : elementsUsage l' = elementsUsage l + n) :
    ListChange n o (.assign
      { v with data := .list l', memoryUsage := addSize v.memoryUsage (toSize n) }
      (some (0, toSize n)) false)
  | pop {v : DrutaValue} {l left : List Bytes} {t : ℕ} (ho : o = some v) (hv : v.data = .list l)
    (hl : elementsUsage l = elementsUsage left + t) :
    ListChange n o (.pop
      { v with data := .list left, memoryUsage := subSize v.memoryUsage (toSize t) }
      (toSize t) 0 (decide (v.memoryUsage < toSize t)))

section Change

variable {args : List Bytes} {o : Option DrutaValue}

theorem pushOutcome_change (b : Bool) :
    ListChange (elementsUsage (args.drop 2)) o (pushOutcome args b o).effect := by
  have hdelta : ∀ l, (pushLoop b (args.drop 2) l 0).2 = toSize (elementsUsage (args.drop 2)) := by
    intro l
    have h := delta_pushLoop b (args.drop 2) l 0
    rwa [Nat.zero_add] at h
  rcases o with _ | v
  · have hlist := elementsUsage_pushLoop b (args.drop 2) [] 0
    simp only [pushOutcome, hdelta]
    exact .create rfl (hlist.trans (Nat.zero_add _))
  · rcases hv : v.data with d | l | h | t
    case list =>
      simp only [pushOutcome, hv, hdelta]
      exact .push rfl hv (elementsUsage_pushLoop b (args.drop 2) l 0)
    all_goals
      simp only [pushOutcome, hv]
      exact .keep

theorem popOutcome_change (b : Bool) (n : ℕ) : ListChange n o (popOutcome args b o).effect := by
  by_cases hlen : 3 < args.length
  · have hkeep : (popOutcome args b o).effect = .keep := by cases o <;> simp [popOutcome, hlen]
    exact hkeep ▸ .keep
  rcases o with _ | v
  · simp only [popOutcome, if_neg hlen]
    exact .keep
  rcases hv : v.data with d | l | h | t
  case list =>
    have hends : ∀ l, elementsUsage (if b then l else l.reverse) = elementsUsage l := by
      intro l
      cases b
      · exact elementsUsage_reverse l
      · rfl
    rcases hpop : popLoop (if b then l else l.reverse) (min (popCount args) (toInt l.length))
      with f | ⟨taken, left⟩
    · simp only [popOutcome, if_neg hlen, hv, hpop]
      exact .fail f
    · simp only [popOutcome, if_neg hlen, hv, hpop]
      refine .pop rfl hv ?_
      rw [hends, ← hends l, elementsUsage_popLoop hpop]
      rfl
  all_goals
    simp only [popOutcome, if_neg hlen, hv]
    exact .keep

theorem change_of_action {now : ℤ} {key : Bytes} {f : Option DrutaValue → Outcome}
    (hcall : callOf args ∈ [Call.lpush, .rpush, .lpop, .rpop, .unknown])
    (ha : (callOf args).action now args = some (.access key f)) :
    ListChange (elementsUsage (args.drop 2)) o (f o).effect := by
  rcases hc : callOf args <;> rw [hc] at hcall ha <;>
    simp only [List.mem_cons, List.not_mem_nil, reduceCtorEq, or_self] at hcall <;>
    simp only [Call.action, Option.some.injEq, reduceCtorEq, Action.access.injEq] at ha <;>
    obtain ⟨-, rfl⟩ := ha
  · exact pushOutcome_change false
  · exact pushOutcome_change true
  · exact popOutcome_change true _
  · exact popOutcome_change false _

end Change

section Books

variable {n : ℕ} {o : Option DrutaValue} {e : Effect} {key : Bytes}

theorem ListChange.leaves (h : ListChange n o e) (ho : ∀ w, o = some w → w.ListScanned) :
    e.Leaves DrutaValue.ListScanned o where
  result := by
    cases h with
    | keep => exact ho
    | fail f => exact ho
    | create _ hl =>
      rintro v hv l hdata
      obtain rfl := Option.some.inj hv
      obtain rfl := Data.list.inj hdata
      rw [listScan_eq, hl]
    | @push v l l' hsome hv hl =>
      rintro w hw m hdata
      obtain rfl := Option.some.inj hw
      obtain rfl := Data.list.inj hdata
      dsimp only
      rw [ho v hsome l hv, listScan_eq, listScan_eq, hl, addSize_toSize_right, addSize_toSize]
    | @pop v l left t hsome hv hl =>
      rintro w hw m hdata
      obtain rfl := Option.some.inj hw
      obtain rfl := Data.list.inj hdata
      dsimp only
      rw [ho v hsome l hv, listScan_eq, listScan_eq, hl, subSize_toSize_right, subSize_toSize]
  made := by
    cases h <;> intro v₀ v m k b he <;> cases he

theorem ListChange.books {Q : DrutaValue → Prop} (h : ListChange n o e) (hn : n < 2 ^ 63)
    (hkey : key.length < 2 ^ 31)
    (hQ : ∀ {v l}, v.data = .list l → v.memoryUsage = elementsUsage l → Q v)
    (ho : ∀ w, o = some w → Q w ∧ w.ListCounted ∧ w.memoryUsage ≤ lruMaxMemory) :
    e.Books Q key o := by
  have hlimit := lruMaxMemory_lt
  have hsize : toSize n = n := toSize_natCast (by omega)
  cases h with
  | keep => exact .keep fun w hw => (ho w hw).1
  | fail f => exact .fail f fun w hw => (ho w hw).1
  | create _ hl =>
    refine .create (hQ rfl (hsize.trans hl.symm)) (nodeWeight_lt hkey ?_)
    dsimp only
    omega
  | @push v l l' hsome hv hl =>
    obtain ⟨-, hcounted, hle⟩ := ho v hsome
    have hlt : lruMaxMemory < 2 ^ 32 := by decide
    have hadd : addSize v.memoryUsage (toSize n) = v.memoryUsage + n := by
      rw [hsize, addSize_eq (by omega)]
    refine .assign (hQ rfl ?_) (nodeWeight_lt hkey ?_) fun w hw => ?_
    · dsimp only
      rw [hadd, hcounted l hv, hl]
    · dsimp only
      omega
    · obtain rfl := Option.some.inj (hsome.symm.trans hw)
      dsimp only
      omega
  | @pop v l left t hsome hv hl =>
    obtain ⟨-, hcounted, hle⟩ := ho v hsome
    have husage := hcounted l hv
    have hlt : lruMaxMemory < 2 ^ 32 := by decide
    have ht : toSize t = t := toSize_natCast (by omega)
    have hsub : subSize v.memoryUsage (toSize t) = elementsUsage left := by
      rw [ht, subSize_eq (by omega) (by omega)]
      omega
    have hwraps : decide (v.memoryUsage < toSize t) = false := by
      rw [decide_eq_false_iff_not]
      omega
    rw [hwraps]
    refine .pop (hQ rfl hsub) (nodeWeight_lt hkey ?_) fun w hw => ?_
    · dsimp only
      omega
    · obtain rfl := Option.some.inj (hsome.symm.trans hw)
      dsimp only
      omega

end Books

/-! ## Runs -/

section Runs

variable {s s' : Server} {e : Event}

theorem arg_length_lt {args : List Bytes} (h : Deliverable args) (i : ℕ) :
    (arg args i).length < 2 ^ 31 := by
  unfold arg
  rcases hget : args[i]? with _ | a
  · rw [List.getD_eq_getElem?_getD, hget]
    decide
  · rw [List.getD_eq_getElem?_getD, hget]
    exact h.2.2 a (List.mem_of_getElem? hget)

/-- The store is that of a list with scanned values. -/
def Server.Scanned (s : Server) : Prop :=
  ∃ r : Recency, s.store = r.toStore ∧ r.Each DrutaValue.ListScanned

theorem step_scanned (he : e.OnLists) (hs : s.Scanned) (h : s.step e = .ok s') : s'.Scanned := by
  obtain ⟨r, hr, hq⟩ := hs
  obtain ⟨r', hr', ht⟩ := step_took hr h
  refine ⟨r', hr', ht.each hq ?_⟩
  rintro env fd args key f rfl ha
  exact (change_of_action he ha).leaves fun w hw => Recency.each_iff.1 hq key w hw

theorem listCounted_of {l : List Bytes} {w : DrutaValue} (hl : w.data = .list l)
    (husage : w.memoryUsage = elementsUsage l) : w.ListCounted := by
  intro m hm
  obtain rfl := Data.list.inj (hl.symm.trans hm)
  exact husage

theorem step_counted (he : e.OnLists) (hd : e.Delivered) (hs : s.Ledger DrutaValue.ListCounted)
    (h : s.step e = .ok s') : s'.Ledger DrutaValue.ListCounted := by
  refine step_ledger hs ?_ h
  rintro env fd args key f rfl ha
  obtain rfl := key_of_action ha
  exact (change_of_action he ha).books (elementsUsage_lt hd) (arg_length_lt hd 1) listCounted_of
    fun w hw => ⟨(hs.value hw).1, hs.value hw⟩

/-- In a run of pushes and pops the counter of every list is what a scan of its elements gives, and
no subtraction goes below zero where the parser can deliver the commands. -/
theorem list_accounted {events : List Event} (hlists : ∀ e ∈ events, e.OnLists)
    (h : run Server.step {} events = .ok s) :
    (∀ key v l, s.store.value key = some v → v.data = .list l →
      v.memoryUsage = listScan l ∧ (l = [] → v.memoryUsage = 0)) ∧
    ((∀ e ∈ events, e.Delivered) → s.store.wrapped = false) := by
  constructor
  · obtain ⟨r, hr, hq⟩ := run_invariant (fun _ _ _ hi he hs => step_scanned he hi hs)
      ⟨.initial, rfl, Recency.each_initial⟩ (.of_mem fun e he _ => hlists e he) h
    intro key v l hv hl
    rw [hr, value_toStore] at hv
    have hscan : v.memoryUsage = listScan l := Recency.each_iff.1 hq key v hv l hl
    refine ⟨hscan, ?_⟩
    rintro rfl
    exact hscan
  · intro hdelivered
    have hledger : s.Ledger DrutaValue.ListCounted := by
      refine run_invariant (C := fun _ e => e.OnLists ∧ e.Delivered) ?_ ledger_initial
        (.of_mem fun e he _ => ⟨hlists e he, hdelivered e he⟩) h
      intro u e u' hu he hs
      exact step_counted he.1 he.2 hu hs
    exact hledger.wrapped

/-- Two elements are pushed and one is popped. -/
theorem list_accounted_lpop : ∃ s, run Server.step {}
    [.command {} 4 [ascii "RPUSH", ascii "k", ascii "a", ascii "b"],
      .command {} 4 [ascii "LPOP", ascii "k"]] = .ok s ∧ s.store.wrapped = false := by
  obtain ⟨s, hs⟩ : ∃ s, run Server.step {}
    [.command {} 4 [ascii "RPUSH", ascii "k", ascii "a", ascii "b"],
      .command {} 4 [ascii "LPOP", ascii "k"]] = .ok s := ⟨_, rfl⟩
  have hpush : callOf [ascii "RPUSH", ascii "k", ascii "a", ascii "b"] = .rpush := by decide
  have hpop : callOf [ascii "LPOP", ascii "k"] = .lpop := by decide
  refine ⟨s, hs, (list_accounted ?_ hs).2 ?_⟩
  · simp [Event.OnLists, hpush, hpop]
  · have hdelivered : Deliverable [ascii "RPUSH", ascii "k", ascii "a", ascii "b"] ∧
        Deliverable [ascii "LPOP", ascii "k"] := by
      unfold Deliverable
      decide
    simpa [Event.Delivered] using hdelivered

end Runs

end DrutaDB
