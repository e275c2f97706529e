import DrutaDB.Proofs.HashMemory
import DrutaDB.Proofs.Pointers
import DrutaDB.Proofs.SetMemory

/-!
# The memory of a run

The counter of the store is the sum over its nodes, and no counter ever goes below zero, in every
run where no `HSET` or `HDEL` changes a capacity behind the back of its hash and no `SADD` adds to
a set what an `int` cannot hold (`memory_accounted`).
-/

namespace DrutaDB

open Machine Decimal Capacity Run Store Totals

/-- What the nodes that are owned count for. -/
def Store.nodesUsage (s : Store) : ℕ := (s.kvStore.toList.map fun p => p.2.getMemoryUsage).sum

/-- The calls of an `HSET` on its hash are accounted for. -/
def AccountedSets : List Bytes → DrutaHash → Prop
  | field :: value :: rest, h =>
    (HashCall.set field value).Accounted h ∧ AccountedSets rest (h.setHash field value).1
  | _, _ => True

/-- The calls of an `HDEL` on its hash are accounted for. -/
def AccountedDels : List Bytes → DrutaHash → Prop
  | field :: rest, h => (HashCall.del field).Accounted h ∧ AccountedDels rest (h.delHash field).1
  | [], _ => True

/-- The hash that a command finds at its key; `HSET` makes an empty one. -/
def FindsHash (o : Option DrutaValue) (h : DrutaHash) : Prop :=
  o = none ∧ h = .empty ∨ ∃ v, o = some v ∧ v.data = .hash h

/-- A command that writes a hash makes only calls that are accounted for. -/
def CallsAccounted (s : Server) : Event → Prop
  | .command _ _ args => ∀ h, FindsHash (s.store.value (arg args 1)) h →
      (callOf args = .hset → args.length % 2 = 0 → AccountedSets (args.drop 2) h) ∧
      (callOf args = .hdel → AccountedDels (args.drop 2) h)
  | _ => True

namespace DrutaHash

/-- The hash counts what its entries do, and that is not much. -/
structure Kept (h : DrutaHash) (bound : ℕ) : Prop extends h.Tidy where
  small : h.Small
  le : h.entryUsages.sum ≤ bound

variable {h : DrutaHash} {b c : ℕ}

theorem Kept.mono (hk : h.Kept b) (hle : b ≤ c) : h.Kept c := ⟨hk.toTidy, hk.small, hk.le.trans hle⟩

theorem Kept.usage_eq (hk : h.Kept b) (hb : b < 2 ^ 64) : h.memoryUsage = h.entryUsages.sum := by
  have hle := hk.le
  rw [hk.usage, toSize_natCast (by omega)]

theorem kept_empty : empty.Kept 0 := ⟨tidy_empty, Nat.zero_le _, le_rfl⟩

/-- What the words of an `HSET` can add. -/
def wordsUsage (l : List Bytes) : ℕ := (l.map fun a => 2 * a.length + 2 ^ 12).sum

theorem wordsUsage_cons (a : Bytes) (l : List Bytes) :
    wordsUsage (a :: l) = 2 * a.length + 2 ^ 12 + wordsUsage l := by
  rw [wordsUsage, List.map_cons, List.sum_cons, wordsUsage]

theorem wordsUsage_lt {args : List Bytes} (h : Deliverable args) :
    wordsUsage (args.drop 2) < 2 ^ 63 + 2 ^ 44 := by
  have hsum : wordsUsage (args.drop 2) ≤
      ((args.drop 2).map fun a => 2 * a.length + 2 ^ 12).length • (2 ^ 32 + 2 ^ 12) := by
    refine List.sum_le_card_nsmul _ _ fun n hn => ?_
    obtain ⟨a, ha, rfl⟩ := List.mem_map.1 hn
    have hlen := h.2.2 a (List.mem_of_mem_drop ha)
    omega
  have hlen := h.2.1
  rw [List.length_map, List.length_drop, smul_eq_mul] at hsum
  have hmul : (args.length - 2) * (2 ^ 32 + 2 ^ 12) ≤ (2 ^ 31 - 1) * (2 ^ 32 + 2 ^ 12) :=
    Nat.mul_le_mul_right _ (by omega)
  omega

theorem kept_hsetLoop : ∀ {l : List Bytes} {h : DrutaHash} {bound : ℕ} (n : ℕ) (w : Bool),
    h.Kept bound → AccountedSets l h → bound + wordsUsage l < 2 ^ 64 →
      (hsetLoop l h n w).1.Kept (bound + wordsUsage l) ∧ (hsetLoop l h n w).2.2 = w
  | [], h, bound, n, w, hk, _, _ => ⟨hk, rfl⟩
  | [a], h, bound, n, w, hk, _, _ => ⟨hk.mono (Nat.le_add_right _ _), rfl⟩
  | field :: value :: rest, h, bound, n, w, hk, hacc, hlt => by
    rw [wordsUsage_cons, wordsUsage_cons] at hlt ⊢
    have hle := hk.le
    have hwraps : h.setHashWraps field = false :=
      wraps_eq_false hk.toTidy (by omega) (.set field value)
    have hsum := sum_setHash_le hk.toTidy hk.small field value
    have hstep : (h.setHash field value).1.Kept
        (bound + (2 * field.length + 2 ^ 12 + (2 * value.length + 2 ^ 12))) :=
      ⟨tidy_setHash hk.toTidy hacc.1, small_setHash hk.small, hsum.trans (by omega)⟩
    obtain ⟨hkept, hw⟩ := kept_hsetLoop
      (if (h.setHash field value).2 then n + 1 else n) (w || h.setHashWraps field) hstep hacc.2
      (by omega)
    rw [hwraps, Bool.or_false] at hkept hw
    unfold hsetLoop
    rw [hwraps, Bool.or_false]
    exact ⟨hkept.mono (by omega), hw⟩

theorem kept_hdelLoop : ∀ {l : List Bytes} {h : DrutaHash} {bound : ℕ} (n : ℕ) (w : Bool),
    h.Kept bound → AccountedDels l h → bound < 2 ^ 64 →
      (hdelLoop l h n w).1.Kept bound ∧ (hdelLoop l h n w).2.2 = w
  | [], h, bound, n, w, hk, _, _ => ⟨hk, rfl⟩
  | field :: rest, h, bound, n, w, hk, hacc, hlt => by
    have hle := hk.le
    have hwraps : h.delHashWraps field = false :=
      wraps_eq_false hk.toTidy (by omega) (.del field)
    have hstep : (h.delHash field).1.Kept bound :=
      ⟨tidy_delHash hk.toTidy hacc.1, small_delHash hk.small, (sum_delHash_le hacc.1).trans hle⟩
    obtain ⟨hkept, hw⟩ := kept_hdelLoop
      (if (h.delHash field).2 then n + 1 else n) (w || h.delHashWraps field) hstep hacc.2 hlt
    rw [hwraps, Bool.or_false] at hkept hw
    unfold hdelLoop
    rw [hwraps, Bool.or_false]
    exact ⟨hkept, hw⟩

end DrutaHash

/-- The counter of a value is what its contents count for. -/
structure DrutaValue.Exact (v : DrutaValue) : Prop where
  list : v.ListCounted
  set : v.SetCounted
  hash : ∀ h, v.data = .hash h → h.Kept v.memoryUsage ∧ v.memoryUsage = h.memoryUsage

/-! ## What the commands do -/

/-- What a command that reads does to the value it found. -/
inductive Looks (o : Option DrutaValue) : Effect → Prop
  | keep : Looks o .keep
  | drop : Looks o .drop
  | touch {v : DrutaValue} (ho : o = some v) : Looks o (.touch v)
  | fail (f : Fault) : Looks o (.fail f)

section Books

variable {Q : DrutaValue → Prop} {now : ℤ} {args : List Bytes} {o : Option DrutaValue}
  {key : Bytes} {v : DrutaValue}

theorem Looks.books {e : Effect} (h : Looks o e) (ho : ∀ w, o = some w → Q w) :
    e.Books Q key o := by
  cases h with
  | keep => exact .keep ho
  | drop => exact ⟨⟨fun v hv => (by cases hv), fun _ _ _ _ _ he => by cases he⟩, trivial⟩
  | fail f => exact .fail f ho
  | @touch v hv =>
    refine ⟨⟨fun w hw => ho w (hv.trans hw), fun _ _ _ _ _ he => by cases he⟩, rfl, fun w hw => ?_⟩
    rw [Option.some.inj (hv.symm.trans hw)]

theorem looks_of_action {f : Option DrutaValue → Outcome} (hlogs : ¬ (callOf args).logs)
    (ha : (callOf args).action now args = some (.access key f)) : Looks o (f o).effect := by
  rcases hc : callOf args <;> rw [hc] at ha hlogs <;>
    simp only [Call.action, Option.some.injEq, reduceCtorEq, Action.access.injEq] at ha <;>
    obtain ⟨-, rfl⟩ := ha <;>
    first
    | exact absurd rfl hlogs
    | simp only [getOutcome, lrangeOutcome, llenOutcome, hgetOutcome, hgetallOutcome, hlenOutcome,
        scardOutcome, sismemberOutcome, smembersOutcome, smismemberOutcome]
  all_goals
    repeat' split
    all_goals first | exact .keep | exact .drop | exact .touch rfl | exact .fail _

theorem exact_list {l : List Bytes} (hl : v.data = .list l)
    (husage : v.memoryUsage = elementsUsage l) : v.Exact where
  list := listCounted_of hl husage
  set t ht := by
    rw [hl] at ht
    cases ht
  hash h hh := by
    rw [hl] at hh
    cases hh

theorem exact_set {t : Std.ExtTreeSet Bytes} (ht : v.data = .set t)
    (husage : v.memoryUsage = membersUsage t) : v.Exact where
  list l hl := by
    rw [ht] at hl
    cases hl
  set := setCounted_of ht husage
  hash h hh := by
    rw [ht] at hh
    cases hh

theorem exact_hash {h : DrutaHash} (hh : v.data = .hash h) (hk : h.Kept v.memoryUsage)
    (husage : v.memoryUsage = h.memoryUsage) : v.Exact where
  list l hl := by
    rw [hh] at hl
    cases hl
  set t ht := by
    rw [hh] at ht
    cases ht
  hash g hg := by
    obtain rfl := Data.hash.inj (hh.symm.trans hg)
    exact ⟨hk, husage⟩

theorem exact_ofString (d : Bytes) (e : ℤ) : (DrutaValue.ofString d e).Exact where
  list l hl := by cases hl
  set t ht := by cases ht
  hash h hh := by cases hh

theorem setOutcome_books (hd : Deliverable args) (hkey : (arg args 1).length < 2 ^ 31)
    (ho : ∀ w, o = some w → w.Exact ∧ w.memoryUsage ≤ lruMaxMemory) :
    (setOutcome now args o).effect.Books DrutaValue.Exact (arg args 1) o := by
  unfold setOutcome
  rcases setOptions now (args.drop 3) 0 with e | e
  · exact .keep fun w hw => (ho w hw).1
  · have hexact := exact_ofString (arg args 2) e
    have hlimit : lruMaxMemory < 2 ^ 32 := by decide
    have hvalue := arg_length_lt hd 2
    have husage : (DrutaValue.ofString (arg args 2) e).memoryUsage < 2 ^ 32 := by
      change sizeofString + copyCapacity (arg args 2) < 2 ^ 32
      unfold sizeofString copyCapacity
      omega
    have hlt : lruMaxMemory + nodeWeight (arg args 1) (.ofString (arg args 2) e) < 2 ^ 64 :=
      nodeWeight_lt hkey (by omega)
    rcases o with _ | w
    · exact .create hexact hlt
    · have hle := (ho w rfl).2
      have hold : lruMaxMemory + nodeWeight (arg args 1) w < 2 ^ 64 := nodeWeight_lt hkey (by omega)
      refine .assign hexact hlt fun u hu => ?_
      obtain rfl := Option.some.inj hu
      rw [nodeUsage_eq (by omega), nodeUsage_eq (by omega)]
      unfold nodeWeight
      omega

/-- The hash after the calls of `HSET`. -/
theorem hsetLoop_exact (hd : Deliverable args) {h : DrutaHash} {bound : ℕ} (hk : h.Kept bound)
    (hbound : bound ≤ lruMaxMemory) (hacc : AccountedSets (args.drop 2) h) :
    ∃ h' n, hsetLoop (args.drop 2) h 0 false = (h', n, false) ∧ h'.Kept h'.memoryUsage ∧
      h'.memoryUsage < 2 ^ 64 - 2 ^ 32 := by
  have hwords := DrutaHash.wordsUsage_lt hd
  have hlimit : lruMaxMemory < 2 ^ 32 := by decide
  obtain ⟨hkept, hw⟩ := DrutaHash.kept_hsetLoop 0 false hk hacc (by omega)
  have husage := hkept.usage_eq (by omega)
  have hle := hkept.le
  refine ⟨_, _, Prod.ext rfl (Prod.ext rfl hw), ⟨hkept.toTidy, hkept.small, husage.ge⟩, ?_⟩
  rw [husage]
  exact hle.trans_lt (by omega)

/-- A value that counts what its hash does still does after `HSET`. -/
theorem hsetValue_of_loop {v : DrutaValue} {h h' : DrutaHash} {n : ℕ} {b : Bool}
    (hloop : hsetLoop (args.drop 2) h 0 false = (h', n, b)) (husage : v.memoryUsage = h.memoryUsage)
    (hv : v.memoryUsage < 2 ^ 64) (hlt : h'.memoryUsage < 2 ^ 64) :
    hsetValue args v h = { v with data := .hash h', memoryUsage := h'.memoryUsage } := by
  unfold hsetValue
  rw [hloop, ← husage]
  simp only [DrutaValue.mk.injEq, true_and]
  exact shiftUsage_self hv hlt

theorem hsetOutcome_books (hd : Deliverable args) (hkey : key.length < 2 ^ 31)
    (ho : ∀ w, o = some w → w.Exact ∧ w.memoryUsage ≤ lruMaxMemory)
    (hacc : ∀ h, FindsHash o h → args.length % 2 = 0 → AccountedSets (args.drop 2) h) :
    (hsetOutcome args o).effect.Books DrutaValue.Exact key o := by
  have hlimit : lruMaxMemory < 2 ^ 32 := by decide
  have hkeep : Effect.keep.Books DrutaValue.Exact key o := .keep fun w hw => (ho w hw).1
  by_cases hargs : args.length < 4 ∨ args.length % 2 ≠ 0
  · have heffect : hsetOutcome args o = { reply := wrongNumber "hset" } := if_pos hargs
    rw [heffect]
    exact hkeep
  have heven : args.length % 2 = 0 := by omega
  rcases o with _ | v
  · obtain ⟨h', n, hloop, hkept, hlt⟩ := hsetLoop_exact hd DrutaHash.kept_empty (Nat.zero_le _)
      (hacc .empty (.inl ⟨rfl, rfl⟩) heven)
    have hmade : DrutaValue.Exact { data := .hash .empty, memoryUsage := 0 } :=
      exact_hash rfl DrutaHash.kept_empty rfl
    have hvalue := hsetValue_of_loop (v := { data := .hash .empty, memoryUsage := 0 }) hloop rfl
      (by decide) (by omega)
    simp only [hsetOutcome, if_neg hargs, hloop, hvalue]
    refine ⟨⟨fun w hw => ?_, fun v₀ v m k b he => ?_⟩, rfl, nodeWeight_lt hkey (by decide),
      nodeWeight_lt hkey hlt, Nat.zero_add _⟩
    · exact Option.some.inj hw ▸ exact_hash rfl hkept rfl
    · injection he with h₀
      exact h₀ ▸ hmade
  · rcases hv : v.data with s | l | h | t
    case hash =>
      obtain ⟨hexact, hle⟩ := ho v rfl
      obtain ⟨hkept₀, husage⟩ := hexact.hash h hv
      obtain ⟨h', n, hloop, hkept, hlt⟩ := hsetLoop_exact hd hkept₀ hle
        (hacc h (.inr ⟨v, rfl, hv⟩) heven)
      have hvalue := hsetValue_of_loop hloop husage (by omega) (by omega)
      have hnot : decide (v.memoryUsage < h.memoryUsage - h'.memoryUsage) = false := by
        rw [decide_eq_false_iff_not]
        omega
      simp only [hsetOutcome, if_neg hargs, hv, hloop, hvalue, hnot, Bool.or_false]
      refine .assign (exact_hash rfl hkept rfl) (nodeWeight_lt hkey hlt) fun w hw => ?_
      obtain rfl := Option.some.inj hw
      dsimp only
      omega
    all_goals
      simp only [hsetOutcome, if_neg hargs, hv]
      exact hkeep

theorem hdelOutcome_books (hkey : key.length < 2 ^ 31)
    (ho : ∀ w, o = some w → w.Exact ∧ w.memoryUsage ≤ lruMaxMemory)
    (hacc : ∀ h, FindsHash o h → AccountedDels (args.drop 2) h) :
    (hdelOutcome args o).effect.Books DrutaValue.Exact key o := by
  have hlimit : lruMaxMemory < 2 ^ 32 := by decide
  have hkeep : Effect.keep.Books DrutaValue.Exact key o := .keep fun w hw => (ho w hw).1
  by_cases hargs : args.length < 3
  · have heffect : hdelOutcome args o = { reply := wrongNumber "hdel" } := if_pos hargs
    rw [heffect]
    exact hkeep
  rcases o with _ | v
  · simp only [hdelOutcome, if_neg hargs]
    exact hkeep
  · rcases hv : v.data with s | l | h | t
    case hash =>
      obtain ⟨hexact, hle⟩ := ho v rfl
      obtain ⟨hkept₀, husage⟩ := hexact.hash h hv
      obtain ⟨hkept, hw⟩ := DrutaHash.kept_hdelLoop 0 false hkept₀ (hacc h (.inr ⟨v, rfl, hv⟩))
        (by omega)
      obtain ⟨h', n, w, hloop⟩ : ∃ h' n w, hdelLoop (args.drop 2) h 0 false = (h', n, w) :=
        ⟨_, _, _, rfl⟩
      rw [hloop] at hkept hw
      obtain rfl : w = false := hw
      have husage' : h'.memoryUsage = h'.entryUsages.sum := hkept.usage_eq (by omega)
      have hsum := hkept.le
      have hkept' : h'.Kept h'.memoryUsage := ⟨hkept.toTidy, hkept.small, husage'.ge⟩
      dsimp only at husage' hsum
      simp only [hdelOutcome, if_neg hargs, hv, hloop, Bool.false_or]
      split_ifs with hless
      · have hnot : decide (v.memoryUsage < h.memoryUsage - h'.memoryUsage) = false := by
          rw [decide_eq_false_iff_not]
          omega
        have hsub : subSize v.memoryUsage (h.memoryUsage - h'.memoryUsage) = h'.memoryUsage := by
          rw [subSize_eq (by omega) (by omega)]
          omega
        rw [hnot, hsub]
        refine .assign (exact_hash rfl hkept' rfl) (nodeWeight_lt hkey ?_) fun w hw => ?_
        · dsimp only
          omega
        · obtain rfl := Option.some.inj hw
          dsimp only
          omega
      · have hsame : v.memoryUsage = h'.memoryUsage := by omega
        refine ⟨⟨fun w hw => ?_, fun _ _ _ _ _ he => by cases he⟩, rfl, fun w hw => ?_⟩
        · exact Option.some.inj hw ▸ exact_hash rfl (hsame ▸ hkept') hsame
        · rw [Option.some.inj hw]
    all_goals
      simp only [hdelOutcome, if_neg hargs, hv]
      exact hkeep

end Books

/-! ## Runs -/

section Runs

variable {s s' : Server} {e : Event} {r : Recency}

theorem step_exact (hd : e.Delivered) (hadds : AddsInt s e) (hcalls : CallsAccounted s e)
    (hs : s.Ledger DrutaValue.Exact) (h : s.step e = .ok s') : s'.Ledger DrutaValue.Exact := by
  refine step_ledger hs ?_ h
  rintro env fd args key f rfl ha
  obtain rfl := key_of_action ha
  have hkey := arg_length_lt hd 1
  have hvalue : ∀ w, s.store.value (arg args 1) = some w →
      w.Exact ∧ w.memoryUsage ≤ lruMaxMemory := fun w hw => hs.value hw
  by_cases hlogs : (callOf args).logs
  · rcases hc : callOf args <;> rw [hc] at ha hlogs <;>
      simp only [Call.logs, Bool.false_eq_true] at hlogs <;>
      simp only [Call.action, Option.some.injEq, reduceCtorEq, Action.access.injEq] at ha <;>
      obtain ⟨-, rfl⟩ := ha
    case set => exact setOutcome_books hd hkey hvalue
    case rpush | lpush =>
      exact (pushOutcome_change _).books (elementsUsage_lt hd) hkey exact_list
        fun w hw => ⟨(hvalue w hw).1, (hvalue w hw).1.list, (hvalue w hw).2⟩
    case lpop | rpop =>
      exact (popOutcome_change _ 0).books (by decide) hkey exact_list
        fun w hw => ⟨(hvalue w hw).1, (hvalue w hw).1.list, (hvalue w hw).2⟩
    case hset => exact hsetOutcome_books hd hkey hvalue fun h hh => (hcalls h hh).1 hc
    case hdel => exact hdelOutcome_books hkey hvalue fun h hh => (hcalls h hh).2 hc
    case sadd =>
      exact saddOutcome_books hd hkey exact_set
        (fun w hw => ⟨(hvalue w hw).1, (hvalue w hw).1.set, (hvalue w hw).2⟩) (hadds hc)
    case sdel =>
      exact sdelOutcome_books hkey exact_set
        fun w hw => ⟨(hvalue w hw).1, (hvalue w hw).1.set, (hvalue w hw).2⟩
  · exact (looks_of_action hlogs ha).books fun w hw => (hvalue w hw).1

theorem mapTotal_links : ∀ {p n : Option Bytes} {l : List (Bytes × DrutaValue)},
    (l.map Prod.fst).Nodup → mapTotal (fun q => q.2.getMemoryUsage) (links p n l) =
      (l.map fun e => nodeUsage e.1 e.2).sum
  | _, _, [], _ => rfl
  | p, n, (k, v) :: l, h => by
    rw [List.map_cons, List.nodup_cons] at h
    have hnone : (links (some k) n l)[k]? = none := by
      rw [getElem?_links, nodeAt_of_not_mem h.1]
    rw [links, mapTotal_insert _ hnone, mapTotal_links h.2, List.map_cons, List.sum_cons]
    rfl

/-- The nodes of a list count for what its entries do. -/
theorem nodesUsage_toStore (r : Recency) : r.toStore.nodesUsage = r.totalUsage :=
  mapTotal_links r.nodes.nodup

theorem totalUsage_eq (h : r.weight < 2 ^ 64) : r.totalUsage = r.weight := by
  refine congrArg List.sum (List.map_congr_left fun e he => nodeUsage_eq ?_)
  exact (List.single_le_sum (fun _ _ => Nat.zero_le _) _ (List.mem_map_of_mem he)).trans_lt h

/-- In a run where the calls on hashes are accounted for and no `SADD` adds to a set what an `int`
cannot hold, the counter of the store is the sum over its nodes, and no subtraction from a counter
goes below zero. -/
theorem memory_accounted {events : List Event}
    (hm : Meets Server.step (fun s e => e.Delivered ∧ AddsInt s e ∧ CallsAccounted s e) {} events)
    (h : run Server.step {} events = .ok s) :
    s.store.currentMemoryUsage = s.store.nodesUsage ∧ s.store.wrapped = false := by
  have hledger : s.Ledger DrutaValue.Exact :=
    run_invariant (fun _ _ _ hu he hs => step_exact he.1 he.2.1 he.2.2 hu hs) ledger_initial hm h
  refine ⟨?_, hledger.wrapped⟩
  obtain ⟨r, hr, hb, -⟩ := hledger
  have hlimit := lruMaxMemory_lt
  have hle := hb.le
  have husage := hb.usage
  rw [hr, nodesUsage_toStore, totalUsage_eq (by omega)]
  exact husage

/-- The hash after `HSET h a 1 b 2`. -/
def twoFields : DrutaHash :=
  ⟨.vector [(.copy (ascii "a"), .copy (ascii "1")), (.copy (ascii "b"), .copy (ascii "2"))], 188⟩

theorem twoFields_accounted : AccountedDels [ascii "a"] twoFields := by
  refine ⟨fun before p after heq _ => ?_, trivial⟩
  have hcap : ∀ q ∈ before ++ p :: after, q.1.capacity = 15 ∧ q.2.capacity = 15 := by
    rw [← heq]
    decide
  obtain ⟨hfield, hvalue⟩ := hcap p (by simp)
  exact ⟨.inl hfield, .inl hvalue⟩

/-- A field is deleted from a hash of two. -/
theorem memory_accounted_hdel : ∃ s, run Server.step {} [
    .command {} 4 [ascii "HSET", ascii "h", ascii "a", ascii "1", ascii "b", ascii "2"],
    .command {} 4 [ascii "HDEL", ascii "h", ascii "a"]] = .ok s ∧
      s.store.currentMemoryUsage = s.store.nodesUsage ∧ s.store.wrapped = false := by
  have hdelivered : Deliverable [ascii "HSET", ascii "h", ascii "a", ascii "1", ascii "b",
      ascii "2"] ∧ Deliverable [ascii "HDEL", ascii "h", ascii "a"] := by
    unfold Deliverable
    decide
  have hm : Meets Server.step (fun s e => e.Delivered ∧ AddsInt s e ∧ CallsAccounted s e) {} [
      .command {} 4 [ascii "HSET", ascii "h", ascii "a", ascii "1", ascii "b", ascii "2"],
      .command {} 4 [ascii "HDEL", ascii "h", ascii "a"]] := by
    refine ⟨⟨hdelivered.1, fun hc => absurd hc (by decide), fun h hh => ?_⟩, fun s' hs' =>
      ⟨⟨hdelivered.2, fun hc => absurd hc (by decide), fun h hh => ?_⟩, fun _ _ => trivial⟩⟩
    · rcases hh with ⟨-, rfl⟩ | ⟨v, hv, -⟩
      · exact ⟨fun _ _ => ⟨trivial, trivial, trivial⟩, fun hc => absurd hc (by decide)⟩
      · cases hv
    · have hvalue : s'.store.value (ascii "h") =
          some { data := .hash twoFields, memoryUsage := 188 } := by
        rw [← Except.ok.inj hs']
        rfl
      refine ⟨fun hc => absurd hc (by decide), fun _ => ?_⟩
      rcases hh with ⟨hnone, -⟩ | ⟨v, hv, hh⟩
      · cases hvalue.symm.trans hnone
      · obtain rfl := Option.some.inj (hvalue.symm.trans hv)
        obtain rfl := Data.hash.inj hh
        exact twoFields_accounted
  exact ⟨_, rfl, memory_accounted hm rfl⟩

/-- A value of 40 bytes leaves its buffer to the value behind it, and the counter of the hash goes
below zero. -/
theorem memory_wraps : ∃ s, run Server.step {} [
    .command {} 4 [ascii "HSET", ascii "h", ascii "a", List.replicate 40 49, ascii "b", ascii "2"],
    .command {} 4 [ascii "HDEL", ascii "h", ascii "a"],
    .command {} 4 [ascii "HDEL", ascii "h", ascii "b"]] = .ok s ∧
      s.store.evicted = [] ∧ s.store.wrapped = true :=
  ⟨_, rfl, rfl, rfl⟩

end Runs

end DrutaDB
