import DrutaDB.Proofs.Contents
import DrutaDB.Proofs.Logging

/-!
# The commands of a rewrite

Each node that is written becomes one command (`rewriteText_eq`), and replaying it makes the key
again, as the most recent one and with a value that answers as the node's does
(`replayList_rewrite`).
-/

namespace DrutaDB

open Machine Decimal Capacity

/-- Contents that no command tells apart, but for the order in which `HGETALL` lists the fields. -/
inductive Data.Same : Data → Data → Prop
  | string (s : Bytes) : Same (.string s) (.string s)
  | list (l : List Bytes) : Same (.list l) (.list l)
  | hash {h h' : DrutaHash} (hd : h.Distinct) (hd' : h'.Distinct)
      (heq : h.getHash = h'.getHash) : Same (.hash h) (.hash h')
  | set (s : Std.ExtTreeSet Bytes) : Same (.set s) (.set s)

/-- Values with the same contents and the same deadline, whatever memory they take. -/
structure DrutaValue.Same (v w : DrutaValue) : Prop where
  data : v.data.Same w.data
  expiryTime : v.expiryTime = w.expiryTime

/-- What a value answers, whatever memory it takes. -/
inductive View
  | string (s : Bytes)
  | list (l : List Bytes)
  | hash (contents : Bytes → Option Bytes)
  | set (s : Std.ExtTreeSet Bytes)

def Data.view : Data → View
  | .string s => .string s
  | .list l => .list l
  | .hash h => .hash h.getHash
  | .set s => .set s

/-- What a value answers, and its deadline. -/
def DrutaValue.view (v : DrutaValue) : View × ℤ := (v.data.view, v.expiryTime)

theorem Data.Same.view_eq {a b : Data} (h : a.Same b) : a.view = b.view := by
  rcases h with s | l | ⟨-, -, heq⟩ | s
  · rfl
  · rfl
  · exact congrArg View.hash heq
  · rfl

theorem DrutaValue.Same.view_eq {v w : DrutaValue} (h : v.Same w) : v.view = w.view :=
  Prod.ext h.data.view_eq h.expiryTime

/-- A string has no negative deadline, anything else has none, and a hash has every field once. -/
def DrutaValue.Regular (v : DrutaValue) : Prop :=
  match v.data with
  | .string _ => 0 ≤ v.expiryTime
  | .hash h => v.expiryTime = 0 ∧ h.Distinct
  | _ => v.expiryTime = 0

/-- The value that the command of a rewrite makes of a node. -/
def rebuiltValue (n : DrutaNode) : DrutaValue :=
  match n.value.data with
  | .string s => .ofString s (if 0 < n.value.expiryTime then n.value.expiryTime else 0)
  | .list l =>
    { data := .list (pushLoop false l [] 0).1, memoryUsage := (pushLoop false l [] 0).2 }
  | .hash h =>
    let h' := (hsetLoop (fieldArgs h.toList) .empty 0 false).1
    { data := .hash h', memoryUsage := h'.memoryUsage }
  | .set s =>
    { data := .set (saddNewLoop s.toList ∅ 0 0).1
      memoryUsage := (saddNewLoop s.toList ∅ 0 0).2.1 }

/-- The key is made with the value; a hash is made empty and then assigned. -/
def Effect.Makes (w : DrutaValue) (e : Effect) : Prop :=
  e = .create w ∨
    ∃ b, e = .createAssign { data := .hash .empty, memoryUsage := 0 } w 0 w.memoryUsage b

theorem Effect.Makes.result {w : DrutaValue} {e : Effect} (h : e.Makes w) :
    e.result none = some w := by
  rcases h with rfl | ⟨b, rfl⟩ <;> rfl

section Text

variable {now : ℤ}

/-- The text of a rewrite is that of its commands. -/
theorem rewriteText_eq : ∀ {ns : List DrutaNode} {text : Bytes}, rewriteText now ns = .ok text →
    text = (ns.filterMap (rewriteCommand now)).flatMap respCommand
  | [], text, h => (Except.ok.inj h).symm
  | n :: ns, text, h => by
    unfold rewriteText at h
    rcases hc : rewriteCommand now n with _ | c <;> rw [hc] at h
    · rw [List.filterMap_cons_none hc]
      exact rewriteText_eq h
    · rw [List.filterMap_cons_some hc]
      rcases hf : formatRespCommand c with e | t <;> simp only [hf] at h
      · cases h
      · change (rewriteText now ns >>= fun rest => pure (t ++ rest)) = _ at h
        rcases hr : rewriteText now ns with e | rest <;> rw [hr] at h
        · cases h
        · rw [← Except.ok.inj h, formatRespCommand_ok hf, rewriteText_eq hr, List.flatMap_cons]

end Text

section Command

variable {now t : ℤ} {n : DrutaNode} {c : List Bytes}

theorem length_fieldArgs (ps : List (Bytes × Bytes)) :
    (fieldArgs ps).length = 2 * ps.length := by
  induction ps with
  | nil => rfl
  | cons p ps ih =>
    simp only [fieldArgs, List.flatMap_cons, List.length_append, List.length_cons,
      List.length_nil] at ih ⊢
    omega

/-- What a rewrite makes of a value answers as the value does. -/
theorem same_rebuiltValue (hr : n.value.Regular) : n.value.Same (rebuiltValue n) := by
  rcases n with ⟨key, next, prev, ⟨data, e, usage⟩⟩
  rcases data with s | l | h | s
  · have hr : 0 ≤ e := hr
    refine ⟨.string s, ?_⟩
    change e = if 0 < e then e else 0
    split_ifs <;> omega
  · have hpush : (pushLoop false l [] 0).1 = l := pushLoop_back l [] 0
    refine ⟨?_, hr⟩
    change (Data.list l).Same (.list (pushLoop false l [] 0).1)
    rw [hpush]
    exact .list l
  · have hempty : DrutaHash.empty.Distinct := List.nodup_nil
    refine ⟨?_, hr.1⟩
    exact .hash hr.2 (hsetLoop_distinct (fieldArgs h.toList) hempty)
      (getHash_hsetLoop_toList hr.2).symm
  · have hset : (saddNewLoop s.toList ∅ 0 0).1 = s := saddNewLoop_toList s 0 0
    refine ⟨?_, hr⟩
    change (Data.set s).Same (.set (saddNewLoop s.toList ∅ 0 0).1)
    rw [hset]
    exact .set s

/-- A string is made again by its `SET`. -/
theorem makes_string {b : Bytes} (hd : n.value.data = .string b) (hexp : n.value.expiryTime < 2 ^ 63)
    (hc : [ascii "SET", n.key, b] ++ (if 0 < n.value.expiryTime then
      [ascii "PXAT", toDecimalInt n.value.expiryTime] else []) = c) (t : ℤ) :
    ∃ f, (callOf c).action t c = some (.access n.key f) ∧
      (f none).effect.Makes (rebuiltValue n) := by
  rcases n with ⟨key, next, prev, ⟨data, e, usage⟩⟩
  obtain rfl : data = .string b := hd
  dsimp only at hc hexp ⊢
  by_cases he : 0 < e
  · rw [if_pos he] at hc
    subst hc
    have hopt : setOptions t [ascii "PXAT", toDecimalInt e] 0 = .ok e := by
      have hst := stoll_toDecimalInt (n := e) (by omega) hexp
      simp +decide [setOptions, hst]
    refine ⟨setOutcome t [ascii "SET", key, b, ascii "PXAT", toDecimalInt e], rfl, .inl ?_⟩
    have hdrop : List.drop 3 [ascii "SET", key, b, ascii "PXAT", toDecimalInt e] =
        [ascii "PXAT", toDecimalInt e] := rfl
    unfold setOutcome
    rw [hdrop, hopt]
    simp only [rebuiltValue, he, if_true]
    rfl
  · rw [if_neg he, List.append_nil] at hc
    subst hc
    refine ⟨setOutcome t [ascii "SET", key, b], rfl, .inl ?_⟩
    simp only [rebuiltValue, he, if_false]
    rfl

/-- A list by one `RPUSH`. -/
theorem makes_list {l : List Bytes} (hd : n.value.data = .list l) (hl : l ≠ []) (t : ℤ) :
    ∃ f, (callOf ([ascii "RPUSH", n.key] ++ l)).action t ([ascii "RPUSH", n.key] ++ l) =
        some (.access n.key f) ∧
      (f none).effect.Makes (rebuiltValue n) := by
  rcases n with ⟨key, next, prev, ⟨data, e, usage⟩⟩
  obtain rfl : data = .list l := hd
  have hlen : 0 < l.length := List.length_pos_of_ne_nil hl
  have hcall : callOf ([ascii "RPUSH", key] ++ l) = .rpush := by
    have hname : toUpper (ascii "RPUSH") = ascii Call.rpush.name := by decide
    refine route_of (by decide) hname ?_
    change 3 ≤ l.length + 1 + 1
    omega
  exact ⟨pushOutcome ([ascii "RPUSH", key] ++ l) false, by rw [hcall]; rfl, .inl rfl⟩

/-- A hash by one `HSET`. -/
theorem makes_hash {h : DrutaHash} (hd : n.value.data = .hash h) (hsize : h.size ≠ 0) (t : ℤ) :
    ∃ f, (callOf ([ascii "HSET", n.key] ++ fieldArgs h.toList)).action t
        ([ascii "HSET", n.key] ++ fieldArgs h.toList) = some (.access n.key f) ∧
      (f none).effect.Makes (rebuiltValue n) := by
  rcases n with ⟨key, next, prev, ⟨data, e, usage⟩⟩
  obtain rfl : data = .hash h := hd
  dsimp only
  have hlen : (fieldArgs h.toList).length = 2 * h.size := by
    rw [length_fieldArgs, DrutaHash.size_eq]
  have hlen' : ([ascii "HSET", key] ++ fieldArgs h.toList).length = 2 * h.size + 2 := by
    rw [List.length_append, hlen]
    exact Nat.add_comm _ _
  have hcall : callOf ([ascii "HSET", key] ++ fieldArgs h.toList) = .hset := by
    have hname : toUpper (ascii "HSET") = ascii Call.hset.name := by decide
    refine route_of (by decide) hname ?_
    change 4 ≤ _
    omega
  refine ⟨hsetOutcome ([ascii "HSET", key] ++ fieldArgs h.toList), by rw [hcall]; rfl, .inr ?_⟩
  -- the counter of the value is that of its hash
  have hshift : ∀ m, m < 2 ^ 64 → shiftUsage 0 0 m = m := fun m hm =>
    shiftUsage_self (by decide) hm
  have hzero : DrutaHash.empty.memoryUsage < 2 ^ 64 := by decide
  have hvalue : hsetValue ([ascii "HSET", key] ++ fieldArgs h.toList)
      { data := .hash .empty, memoryUsage := 0 } .empty =
      rebuiltValue { key, next, prev
                     value := { data := .hash h, expiryTime := e, memoryUsage := usage } } := by
    have husage := hshift _ (hsetLoop_memoryUsage_lt (fieldArgs h.toList) 0 false hzero)
    change DrutaValue.mk _ _ (shiftUsage 0 0 _) = DrutaValue.mk _ _ _
    rw [← husage]
    rfl
  refine ⟨(hsetLoop (fieldArgs h.toList) .empty 0 false).2.2, ?_⟩
  unfold hsetOutcome
  rw [if_neg (by omega), ← hvalue]
  exact congrArg (fun m => Effect.createAssign _ _ 0 m _) (hshift _
    (hsetLoop_memoryUsage_lt (fieldArgs h.toList) 0 false hzero)).symm

/-- A set by one `SADD`. -/
theorem makes_set {u : Std.ExtTreeSet Bytes} (hd : n.value.data = .set u)
    (hempty : u.isEmpty = false) (t : ℤ) :
    ∃ f, (callOf ([ascii "SADD", n.key] ++ u.toList)).action t ([ascii "SADD", n.key] ++ u.toList) =
        some (.access n.key f) ∧
      (f none).effect.Makes (rebuiltValue n) := by
  rcases n with ⟨key, next, prev, ⟨data, e, usage⟩⟩
  obtain rfl : data = .set u := hd
  have hne : u.toList ≠ [] := fun hnil => by
    have hnone : u = ∅ := Std.ExtTreeSet.ext_mem fun a => by
      rw [← Std.ExtTreeSet.mem_toList, hnil]
      exact iff_of_false List.not_mem_nil Std.ExtTreeSet.not_mem_empty
    rw [hnone] at hempty
    cases hempty
  have hlen : 0 < u.toList.length := List.length_pos_of_ne_nil hne
  have hcall : callOf ([ascii "SADD", key] ++ u.toList) = .sadd := by
    have hname : toUpper (ascii "SADD") = ascii Call.sadd.name := by decide
    refine route_of (by decide) hname ?_
    change 3 ≤ u.toList.length + 1 + 1
    omega
  exact ⟨saddOutcome ([ascii "SADD", key] ++ u.toList), by rw [hcall]; rfl, .inl rfl⟩

/-- A command of a rewrite makes its key in a store without it. -/
theorem makes_of_rewrite (hc : rewriteCommand now n = some c) (hexp : n.value.expiryTime < 2 ^ 63)
    (t : ℤ) : ∃ f, (callOf c).action t c = some (.access n.key f) ∧
      (f none).effect.Makes (rebuiltValue n) := by
  unfold rewriteCommand at hc
  by_cases hskip : 0 < n.value.expiryTime ∧ n.value.expiryTime < now
  · rw [if_pos hskip] at hc
    cases hc
  rw [if_neg hskip] at hc
  rcases hd : n.value.data with b | l | h | u <;> rw [hd] at hc <;> dsimp only at hc
  · exact makes_string hd hexp (Option.some.inj hc) t
  · split_ifs at hc with hl
    obtain rfl := Option.some.inj hc
    exact makes_list hd hl t
  · split_ifs at hc with hsize
    obtain rfl := Option.some.inj hc
    exact makes_hash hd hsize t
  · split_ifs at hc with hempty
    obtain rfl := Option.some.inj hc
    exact makes_set hd (Bool.eq_false_iff.2 hempty) t

/-- What a command of a rewrite does to a store without its key. -/
theorem action_of_rewrite (hc : rewriteCommand now n = some c) (hexp : n.value.expiryTime < 2 ^ 63)
    (t : ℤ) : ∃ f w, (callOf c).action t c = some (.access n.key f) ∧
      (f none).effect.result none = some w ∧ (n.value.Regular → n.value.Same w) := by
  obtain ⟨f, ha, hmakes⟩ := makes_of_rewrite hc hexp t
  exact ⟨f, rebuiltValue n, ha, hmakes.result, same_rebuiltValue⟩

/-- A command that makes its key within the limit is replayed. -/
theorem replayOne_of_makes {key : Bytes} {w : DrutaValue} {f : Option DrutaValue → Outcome}
    {q : Recency} (ha : (callOf c).action t c = some (.access key f))
    (hmakes : (f none).effect.Makes w) (hnone : q.find key = none)
    (hle : ∀ u ∈ (f none).effect.counters key q.account, u ≤ lruMaxMemory) :
    replayOne t q c = .ok ((f none).effect.after key q) := by
  have hfail : ∀ x, (f none).effect ≠ .fail x := by
    intro x hx
    rcases hmakes with he | ⟨b, he⟩ <;> rw [he] at hx <;> cases hx
  have hfit : (f none).effect.Fits (q.find key) := hnone.symm ▸ fits_of_action none ha
  rw [replayOne_eq ha, Action.run, hnone, Recency.apply, Recency.perform_of_le hfit hfail hle]
  rfl

/-- A command of a rewrite makes its key again, as the most recent one. -/
theorem replayOne_rewrite (hc : rewriteCommand now n = some c) (hexp : n.value.expiryTime < 2 ^ 63)
    {q q' : Recency} (hnone : q.find n.key = none) (h : replayOne t q c = .ok q')
    (hev : q'.account.evicted = q.account.evicted) :
    ∃ a, q' = ⟨q.nodes.push n.key (rebuiltValue n), a⟩ := by
  obtain ⟨f, ha, hmakes⟩ := makes_of_rewrite hc hexp t
  rw [replayOne_eq ha] at h
  rcases hrun : (Action.access n.key f).run q with e | ⟨⟨reply, ok⟩, r⟩ <;> rw [hrun] at h
  · cases h
  obtain rfl := Except.ok.inj h
  obtain ⟨-, -, hp⟩ := apply_ok hrun
  rw [hnone] at hp
  have hafter := Recency.perform_after (hnone.symm ▸ fits_of_action _ ha) hp hev
  refine ⟨r.account, ?_⟩
  rw [hafter]
  rcases hmakes with he | ⟨b, he⟩ <;> rw [he] <;> rfl

theorem evicted_replayOne {q q' : Recency} {args : List Bytes} (h : replayOne t q args = .ok q') :
    q.account.evicted <+: q'.account.evicted := by
  unfold replayOne at h
  rcases ha : (callOf args).action t args with _ | a <;> rw [ha] at h
  · rw [← Except.ok.inj h]
  · rcases hrun : a.run q with e | ⟨x, r⟩ <;> simp only [hrun] at h
    · cases h
    · rw [← Except.ok.inj h]
      exact Action.evicted_run hrun

theorem evicted_replayList : ∀ {cs : List (List Bytes)} {q q' : Recency},
    replayList t cs q = .ok q' → q.account.evicted <+: q'.account.evicted
  | [], q, q', h => by
    rw [← Except.ok.inj h]
  | args :: cs, q, q', h => by
    unfold replayList at h
    rcases hone : replayOne t q args with e | q₁ <;> simp only [hone] at h
    · cases h
    · exact (evicted_replayOne hone).trans (evicted_replayList h)

/-- Replayed into a store without their keys, the commands of a rewrite put the nodes that are
written behind the entries that are there, in their order. -/
theorem replayList_rebuilds : ∀ {ns : List DrutaNode} {q q' : Recency},
    (ns.map (·.key)).Nodup → (∀ n ∈ ns, q.find n.key = none) →
    (∀ n ∈ ns, n.value.expiryTime < 2 ^ 63) →
    replayList t (ns.filterMap (rewriteCommand now)) q = .ok q' →
    q'.account.evicted = q.account.evicted →
      q'.nodes.entries = q.nodes.entries ++
        (ns.filter fun n => (rewriteCommand now n).isSome).map fun n => (n.key, rebuiltValue n)
  | [], q, q', _, _, _, h, _ => by
    obtain rfl := Except.ok.inj h
    simp
  | n :: ns, q, q', hnodup, hnone, hexp, h, hev => by
    rw [List.map_cons, List.nodup_cons] at hnodup
    have hns : ∀ m ∈ ns, q.find m.key = none := fun m hm => hnone m (List.mem_cons_of_mem _ hm)
    have hexps : ∀ m ∈ ns, m.value.expiryTime < 2 ^ 63 := fun m hm =>
      hexp m (List.mem_cons_of_mem _ hm)
    rcases hc : rewriteCommand now n with _ | c
    · rw [List.filterMap_cons_none hc] at h
      rw [List.filter_cons_of_neg (by simp [hc])]
      exact replayList_rebuilds hnodup.2 hns hexps h hev
    · rw [List.filterMap_cons_some hc] at h
      rw [List.filter_cons_of_pos (by simp [hc])]
      unfold replayList at h
      rcases hone : replayOne t q c with e | q₁ <;> simp only [hone] at h
      · cases h
      have hev₁ : q₁.account.evicted = q.account.evicted :=
        Recency.eq_of_prefix_prefix (evicted_replayOne hone) (evicted_replayList h) hev
      obtain ⟨a, rfl⟩ := replayOne_rewrite hc (hexp n List.mem_cons_self)
        (hnone n List.mem_cons_self) hone hev₁
      have hpush := RecencyList.entries_push_of_find_none (hnone n List.mem_cons_self)
        (rebuiltValue n)
      have hne : ∀ m ∈ ns, m.key ≠ n.key := fun m hm heq =>
        hnodup.1 (heq ▸ List.mem_map_of_mem hm)
      have hns' : ∀ m ∈ ns, (⟨q.nodes.push n.key (rebuiltValue n), a⟩ : Recency).find m.key = none :=
        fun m hm => by
          rw [Effect.find_push, if_neg (hne m hm)]
          exact hns m hm
      rw [replayList_rebuilds hnodup.2 hns' hexps h (hev.trans hev₁.symm), hpush, List.append_assoc,
        List.map_cons, List.singleton_append]

/-- A node and the entry it is rebuilt as. -/
def Rebuilt (n : DrutaNode) (e : Bytes × DrutaValue) : Prop :=
  e.1 = n.key ∧ (n.value.Regular → n.value.Same e.2)

/-- The nodes that are written are rebuilt in their order. -/
theorem replayList_rewrite {ns : List DrutaNode} {q q' : Recency}
    (hnodup : (ns.map (·.key)).Nodup) (hnone : ∀ n ∈ ns, q.find n.key = none)
    (hexp : ∀ n ∈ ns, n.value.expiryTime < 2 ^ 63)
    (h : replayList t (ns.filterMap (rewriteCommand now)) q = .ok q')
    (hev : q'.account.evicted = q.account.evicted) :
    ∃ es, q'.nodes.entries = q.nodes.entries ++ es ∧
      List.Forall₂ Rebuilt (ns.filter fun n => (rewriteCommand now n).isSome) es := by
  refine ⟨_, replayList_rebuilds hnodup hnone hexp h hev, ?_⟩
  rw [List.forall₂_map_right_iff, List.forall₂_same]
  exact fun n _ => ⟨rfl, same_rebuiltValue⟩

end Command

end DrutaDB
