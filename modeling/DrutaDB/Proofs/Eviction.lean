import DrutaDB.Proofs.Errors
import DrutaDB.Proofs.Logging

/-!
# Which keys are evicted

An effect that touches its key leaves the other keys in their order and the key behind them, some
of the oldest evicted (`Recency.perform_keys`).  So the list stands in the order of the last
accesses, and each key that is evicted is the one whose last access is the oldest
(`run_evicts_oldest`), in every run that neither reads a value without touching its key nor
touches a key on an error.
-/

namespace DrutaDB

open Machine Decimal Capacity Run RecencyList

instance : DecidablePred IsError := fun reply =>
  inferInstanceAs (Decidable (reply.head? = some (byte '-')))

/-! ## What is accessed -/

section Access

/-- The keys whose sets the loop of `SINTER` gets to. -/
def sinterReads (s : Store) : List Bytes → Std.ExtTreeSet Bytes → List Bytes
  | [], _ => []
  | key :: keys, inter =>
    match s.value key with
    | some { data := .set t, .. } =>
      let next := inter.toList.foldl
        (fun n a => if t.contains a then n.insert a else n) (∅ : Std.ExtTreeSet Bytes)
      key :: if next.isEmpty then [] else sinterReads s keys next
    | _ => []

/-- The keys whose sets a command on several keys reads. -/
def setReads (s : Store) (args : List Bytes) : Call → List Bytes
  | .sinter =>
    match s.value (arg args 1) with
    | some { data := .set t, .. } => arg args 1 :: sinterReads s (args.drop 2) t
    | _ => sinterReads s (args.drop 2) ∅
  | .sunion | .sdiff => (args.drop 1).filter fun key =>
    match s.value key with
    | some { data := .set _, .. } => true
    | _ => false
  | _ => []

/-- The keys whose values a command reads or writes without an error. -/
def Event.accesses (s : Server) (e : Event) : List Bytes :=
  match e, e.change s with
  | _, .act (.access key outcome) =>
    if IsError (outcome (s.store.value key)).reply then [] else [key]
  | .command _ _ args, .act (.inspect m) =>
    match m s.store with
    | .ok ((reply, _), _) => if IsError reply then [] else setReads s.store args (callOf args)
    | .error _ => []
  | _, _ => []

/-- What the events of a run access, the latest first. -/
def accesses : Server → List Event → List (List Bytes)
  | _, [] => []
  | s, e :: es =>
    (match s.step e with
      | .ok s' => accesses s' es
      | .error _ => []) ++ [e.accesses s]

/-- Whenever a command of the run evicts, it evicts the key whose last access, the command's own
included, is the oldest of all keys that are still there. -/
def EvictsOldest (events : List Event) : Prop :=
  ∀ pre env fd args post, events = pre ++ .command env fd args :: post →
    ∀ s, run Server.step {} pre = .ok s → turnedAway s fd (toUpper (args.headD [])) = false →
      ∀ sent s', (callOf args).run env.now fd (toUpper (args.headD [])) args (s.ensureClient fd) =
        .ok (sent, s') →
        ∀ gone victim later, s'.store.evicted = s.store.evicted ++ gone ++ victim :: later →
          ∀ key, key ∈ later ∨ (s'.store.value key).isSome →
            age (accesses {} (pre ++ [.command env fd args])) key ≤
              age (accesses {} (pre ++ [.command env fd args])) victim

/-- Of the keys it reads, those a command leaves out of place: it touches none of them, or it
touches its key and answers with an error. -/
def Call.misplaces (s : Store) (args : List Bytes) (reads : List Bytes) : Call → List Bytes
  | .hlen | .sismember | .smismember | .scard | .smembers | .sinter | .sunion | .sdiff => reads
  | .hget =>
    match s.value (arg args 1) with
    | some { data := .hash h, .. } => if (h.getHash (arg args 2)).isNone then [arg args 1] else []
    | _ => []
  | .lrange =>
    match s.value (arg args 1) with
    | some { data := .list _, .. } =>
      match stoi (arg args 2), stoi (arg args 3) with
      | .ok _, .ok _ => []
      | _, _ => [arg args 1]
    | _ => []
  | _ => []

def Event.misplaces (s : Server) (e : Event) : List Bytes :=
  match e with
  | .command _ fd args =>
    if turnedAway s fd (toUpper (args.headD [])) then []
    else (callOf args).misplaces s.store args (e.accesses s)
  | _ => []

/-- The keys are the most recently used ones. -/
def Newest (s : Store) (ks : List Bytes) : Prop :=
  ∃ older newer, s.order.map Prod.fst = older ++ newer ∧ (∀ k ∈ older, k ∉ ks) ∧
    ∀ k ∈ newer, k ∈ ks

/-- The command spares its own key, and what it leaves out of place are the most recent keys. -/
def KeepsOrder (s : Server) (e : Event) : Prop :=
  SparesOwnKey s e ∧ Newest s.store (e.misplaces s)

end Access

/-! ## What an effect does to the keys -/

namespace Recency

variable {r r' q : Recency} {k : Bytes} {v : DrutaValue}

/-- The keys that are evicted come off the front. -/
theorem evicted_shedList_keys : ∀ (l : List (Bytes × DrutaValue)) (a : Account),
    (shedList Account.exceeds Account.evict l a).2.evicted ++
      (shedList Account.exceeds Account.evict l a).1.map Prod.fst = a.evicted ++ l.map Prod.fst
  | [], _ => rfl
  | e :: l, a => by
    unfold shedList
    split_ifs
    · rw [evicted_shedList_keys l]
      simp [Account.evict]
    · rfl

theorem evicted_settle_keys (r : Recency) :
    r.settle.account.evicted ++ r.settle.nodes.keys = r.account.evicted ++ r.nodes.keys :=
  evicted_shedList_keys r.nodes.entries r.account

/-- The keys evicted between two lists, if there are no others. -/
def Shed (r : Recency) (l : List Bytes) (r' : Recency) : Prop :=
  ∃ gone, r'.account.evicted = r.account.evicted ++ gone ∧ gone ++ r'.nodes.keys = l

theorem shed_settle (r : Recency) : r.Shed r.nodes.keys r.settle := by
  obtain ⟨gone, hgone⟩ := evicted_settle r
  refine ⟨gone, hgone.symm, ?_⟩
  have hkeys := evicted_settle_keys r
  rw [← hgone, List.append_assoc] at hkeys
  exact List.append_cancel_left hkeys

theorem Shed.trans {l : List Bytes} (h : r.Shed l q) (h' : q.Shed q.nodes.keys r') :
    r.Shed l r' := by
  obtain ⟨gone, hgone, rfl⟩ := h
  obtain ⟨gone', hgone', hkeys'⟩ := h'
  refine ⟨gone ++ gone', ?_, ?_⟩
  · rw [hgone', hgone, List.append_assoc]
  · rw [List.append_assoc, hkeys']

/-- A key that was spared is put behind the others. -/
theorem Shed.renew {l : List Bytes} (h : r.Shed l q) (hl : l.Nodup) (hk : k ∈ q.nodes.keys)
    (h' : q.Shed ((q.nodes.remove k).keys ++ [k]) r') : r.Shed (l.filter (· ≠ k) ++ [k]) r' := by
  obtain ⟨gone, hgone, rfl⟩ := h
  obtain ⟨gone', hgone', hkeys'⟩ := h'
  have hfilter : gone.filter (· ≠ k) = gone := by
    refine List.filter_eq_self.2 fun a ha => ?_
    simp only [decide_eq_true_eq]
    rintro rfl
    exact (List.nodup_append.1 hl).2.2 a ha a hk rfl
  refine ⟨gone ++ gone', ?_, ?_⟩
  · rw [hgone', hgone, List.append_assoc]
  · rw [List.append_assoc, hkeys', List.filter_append, hfilter, keys_remove, List.append_assoc]

theorem shed_of_touch (h : r.touch k = .ok r') :
    k ∈ r.nodes.keys ∧ r.Shed ((r.nodes.remove k).keys ++ [k]) r' := by
  unfold Recency.touch at h
  rcases hf : r.find k with _ | v <;> rw [hf] at h
  · cases h
  rw [← Except.ok.inj h]
  exact ⟨mem_keys_of_find hf, [], (List.append_nil _).symm, keys_push _ _ _⟩

theorem shed_of_assign {c : Option (ℕ × ℕ)} {wraps : Bool}
    (h : r.assign k v c wraps = .ok r') : r.Shed ((r.nodes.remove k).keys ++ [k]) r' := by
  rcases c with _ | ⟨oldSize, newSize⟩
  · have ht := (shed_of_touch h).2
    simp only [write, remove_replace] at ht
    exact ht
  · have hs := shed_settle ⟨(r.write k v wraps).nodes,
      (r.write k v wraps).account.notify oldSize newSize⟩
    obtain ⟨hk, ht⟩ := shed_of_touch h
    have hkeys := hs.renew (RecencyList.nodup _) hk ht
    simp only [write, keys_replace, ← keys_remove] at hkeys
    exact hkeys

theorem shed_add (r : Recency) (k : Bytes) (v : DrutaValue) :
    r.Shed ((r.nodes.remove k).keys ++ [k]) (r.add k v) := by
  have hs := shed_settle ⟨r.nodes.push k v, r.account.join k v⟩
  rw [keys_push] at hs
  exact hs

/-- An effect that touches its key puts it behind the other keys, and the oldest may go. -/
theorem perform_keys {e : Effect} (h : r.perform k e = .ok r') :
    (e = .keep ∧ r' = r) ∨ (e = .drop ∧ r' = r.drop k) ∨
      (e ≠ .keep ∧ e ≠ .drop ∧ r.Shed ((r.nodes.remove k).keys ++ [k]) r') := by
  cases e with
  | keep => exact .inl ⟨rfl, (Except.ok.inj h).symm⟩
  | drop => exact .inr (.inl ⟨rfl, (Except.ok.inj h).symm⟩)
  | fail f => cases h
  | assign v c wraps => exact .inr (.inr ⟨by simp, by simp, shed_of_assign h⟩)
  | create v =>
    rw [← Except.ok.inj h]
    exact .inr (.inr ⟨by simp, by simp, shed_add r k v⟩)
  | pop v oldSize newSize wraps =>
    refine .inr (.inr ⟨by simp, by simp, ?_⟩)
    unfold perform at h
    rcases ht : r.touch k with f | q <;> rw [ht] at h
    · cases h
    have hs := shed_settle ⟨(q.write k v wraps).nodes,
      (q.write k v wraps).account.notify oldSize newSize⟩
    simp only [write, keys_replace] at hs
    rw [← Except.ok.inj h]
    exact (shed_of_touch ht).2.trans hs
  | createAssign v₀ v oldSize newSize wraps =>
    refine .inr (.inr ⟨by simp, by simp, ?_⟩)
    unfold perform at h
    dsimp only at h
    rcases hf : (r.add k v₀).find k with _ | w <;> rw [hf] at h
    · cases h
    have hnd := (r.nodes.push k v₀).nodup
    rw [← keys, keys_push] at hnd
    have hkeys := (shed_add r k v₀).renew hnd (mem_keys_of_find hf) (shed_of_assign h)
    have hfilter : ((r.nodes.remove k).keys ++ [k]).filter (· ≠ k) = (r.nodes.remove k).keys := by
      simp [keys_remove]
    rw [hfilter] at hkeys
    exact hkeys

end Recency

/-! ## Outcomes that keep the order -/

/-- The outcome reads the value of its key if and only if it touches it. -/
def Outcome.Orders (o : Option DrutaValue) (out : Outcome) : Prop :=
  match out.effect with
  | .keep => IsError out.reply ∨ o = none
  | .drop | .fail _ => True
  | _ => ¬ IsError out.reply

/-- The outcome touches nothing. -/
def Outcome.Quiet (out : Outcome) : Prop := out.effect = .keep ∨ ∃ f, out.effect = .fail f

section Outcomes

open Outcome

variable {o : Option DrutaValue} {now : ℤ} {args : List Bytes}

theorem isError_wrongType : IsError wrongType := rfl

theorem setOutcome_orders : (setOutcome now args o).Orders o := by
  unfold setOutcome
  split
  · exact .inl rfl
  · cases o
    · exact not_isError (c := byte '+') rfl (by decide)
    · exact not_isError (c := byte '+') rfl (by decide)

theorem getOutcome_orders : (getOutcome now o).Orders o := by
  unfold getOutcome
  split
  · exact .inr rfl
  · split
    · split_ifs
      · trivial
      · exact not_isError_respBulkString _
    · exact .inl isError_wrongType

theorem pushOutcome_orders (b : Bool) : (pushOutcome args b o).Orders o := by
  unfold pushOutcome
  split
  · split
    · exact not_isError_sendInteger _
    · exact .inl isError_wrongType
  · exact not_isError_sendInteger _

theorem popOutcome_orders (b : Bool) : (popOutcome args b o).Orders o := by
  unfold popOutcome
  split
  · split_ifs
    · exact .inr rfl
    · exact .inr rfl
  · split
    · exact .inl rfl
    · split
      · dsimp only
        split
        · trivial
        · exact not_isError_respArray _ _
      · exact .inl isError_wrongType

theorem llenOutcome_orders : (llenOutcome o).Orders o := by
  unfold llenOutcome
  split
  · exact .inr rfl
  · split
    · exact not_isError_sendInteger _
    · exact .inl isError_wrongType

theorem hsetOutcome_orders : (hsetOutcome args o).Orders o := by
  unfold hsetOutcome
  split_ifs
  · exact .inl rfl
  · split
    · split
      · exact not_isError_sendInteger _
      · exact .inl isError_wrongType
    · exact not_isError_sendInteger _

theorem hgetallOutcome_orders : (hgetallOutcome args o).Orders o := by
  unfold hgetallOutcome
  split_ifs
  · exact .inl rfl
  · split
    · exact .inr rfl
    · split
      · split
        · exact not_isError_respArray _ _
        · trivial
      · exact .inl isError_wrongType

theorem hdelOutcome_orders : (hdelOutcome args o).Orders o := by
  unfold hdelOutcome
  split_ifs
  · exact .inl rfl
  · split
    · exact .inr rfl
    · split
      · dsimp only [Outcome.Orders]
        split_ifs
        · exact not_isError_sendInteger _
        · exact not_isError_sendInteger _
      · exact .inl isError_wrongType

theorem saddOutcome_orders : (saddOutcome args o).Orders o := by
  unfold saddOutcome
  split
  · split
    · exact not_isError_sendInteger _
    · exact .inl isError_wrongType
  · exact not_isError_sendInteger _

theorem sdelOutcome_orders : (sdelOutcome args o).Orders o := by
  unfold sdelOutcome
  split
  · split
    · exact not_isError_sendInteger _
    · exact .inl isError_wrongType
  · exact .inr rfl

/-- `HGET` keeps the order unless the field is missing. -/
theorem hgetOutcome_orders (h : ∀ v t, o = some v → v.data = .hash t →
    t.getHash (arg args 2) ≠ none) : (hgetOutcome args o).Orders o := by
  unfold hgetOutcome
  split_ifs
  · exact .inl rfl
  · split
    · exact .inr rfl
    · rename_i v
      split
      · rename_i t ht
        split
        · exact not_isError_respBulkString _
        · exact absurd ‹_› (h v t rfl ht)
      · exact .inl isError_wrongType

/-- `LRANGE` keeps the order unless a bound is no number. -/
theorem lrangeOutcome_orders (h : ∀ v l, o = some v → v.data = .list l →
    ∃ li ri, stoi (arg args 2) = .ok li ∧ stoi (arg args 3) = .ok ri) :
    (lrangeOutcome args o).Orders o := by
  unfold lrangeOutcome
  split
  · exact .inr rfl
  · rename_i v
    split
    · rename_i l hl
      obtain ⟨li, ri, hli, hri⟩ := h v l rfl hl
      rw [hli, hri]
      exact not_isError_lrangeReply _ _ _
    · exact .inl isError_wrongType

theorem hlenOutcome_quiet : (hlenOutcome args o).Quiet := by
  unfold hlenOutcome
  repeat' split
  all_goals exact .inl rfl

theorem scardOutcome_quiet : (scardOutcome args o).Quiet := by
  unfold scardOutcome
  repeat' split
  all_goals exact .inl rfl

theorem sismemberOutcome_quiet : (sismemberOutcome args o).Quiet := by
  unfold sismemberOutcome
  repeat' split
  all_goals exact .inl rfl

theorem smismemberOutcome_quiet : (smismemberOutcome args o).Quiet := by
  unfold smismemberOutcome
  repeat' split
  all_goals exact .inl rfl

theorem smembersOutcome_quiet : (smembersOutcome args o).Quiet := by
  unfold smembersOutcome
  repeat' split
  all_goals first
    | exact .inl rfl
    | exact .inr ⟨_, rfl⟩

end Outcomes

/-! ## Steps -/

namespace Recency

variable {r r' : Recency} {k : Bytes} {ks : List Bytes} {hist : List (List Bytes)} {out : Outcome}

/-- The accessed keys stand behind the others, which are in their order, and the oldest may be
evicted. -/
def Placed (r r' : Recency) (ks : List Bytes) : Prop :=
  ∃ l₁ l₂, r.Shed (l₁ ++ l₂) r' ∧ l₁.Sublist r.nodes.keys ∧ (∀ a ∈ l₁, a ∉ ks) ∧ ∀ b ∈ l₂, b ∈ ks

theorem Placed.ordered (h : r.Placed r' ks) (ho : Ordered hist r.nodes.keys) :
    ∃ gone, r'.account.evicted = r.account.evicted ++ gone ∧
      Ordered (ks :: hist) (gone ++ r'.nodes.keys) := by
  obtain ⟨l₁, l₂, ⟨gone, hgone, hkeys⟩, hsub, h₁, h₂⟩ := h
  refine ⟨gone, hgone, ?_⟩
  rw [hkeys]
  exact Ordered.access (ho.sublist hsub) h₁ h₂

theorem Placed.of_sublist (hsub : r'.nodes.keys.Sublist r.nodes.keys)
    (hev : r'.account.evicted = r.account.evicted) (hk : ∀ a ∈ r'.nodes.keys, a ∉ ks) :
    r.Placed r' ks :=
  ⟨r'.nodes.keys, [], ⟨[], by rw [hev, List.append_nil], by simp⟩, hsub, hk, nofun⟩

theorem Placed.of_newest (h : Newest r.toStore ks) : r.Placed r ks := by
  obtain ⟨older, newer, hkeys, h₁, h₂⟩ := h
  rw [order_toStore] at hkeys
  have hold : older.Sublist r.nodes.keys := by
    change older.Sublist (r.nodes.entries.map Prod.fst)
    rw [hkeys]
    exact List.sublist_append_left older newer
  exact ⟨older, newer, ⟨[], (List.append_nil _).symm, hkeys⟩, hold, h₁, h₂⟩

theorem keys_drop (r : Recency) (k : Bytes) : (r.drop k).nodes.keys = (r.nodes.remove k).keys := by
  unfold drop
  rcases h : r.find k with _ | v
  · have hn : r.nodes.find k = none := h
    rw [remove_of_find_none hn]
  · rfl

theorem sublist_remove (r : Recency) (k : Bytes) :
    (r.nodes.remove k).keys.Sublist r.nodes.keys := by
  rw [keys_remove]
  exact List.filter_sublist

theorem placed_of_orders (ho : out.Orders (r.find k)) (h : r.perform k out.effect = .ok r') :
    r.Placed r' (if IsError out.reply then [] else [k]) := by
  unfold Outcome.Orders at ho
  rcases perform_keys h with ⟨he, rfl⟩ | ⟨-, rfl⟩ | ⟨hkeep, hdrop, hshed⟩
  · rw [he] at ho
    refine .of_sublist (List.Sublist.refl _) rfl fun a ha => ?_
    rcases ho with herr | hnone
    · simp [herr]
    · have hne : a ≠ k := fun hc => find_eq_none_iff.1 hnone (hc ▸ ha)
      split_ifs
      · simp
      · simpa using hne
  · refine .of_sublist ?_ (Effect.evicted_drop r k) fun a ha => ?_
    · rw [keys_drop]
      exact sublist_remove r k
    · rw [keys_drop, keys_remove, List.mem_filter, decide_eq_true_eq] at ha
      split_ifs
      · simp
      · simpa using ha.2
  · have hne : ¬ IsError out.reply := by
      cases he : out.effect <;> rw [he] at ho hkeep hdrop h
      case keep => exact absurd rfl hkeep
      case drop => exact absurd rfl hdrop
      case fail => cases h
      all_goals exact ho
    rw [if_neg hne]
    refine ⟨_, _, hshed, sublist_remove r k, fun a ha => ?_, fun b hb => hb⟩
    rw [List.mem_singleton]
    rintro rfl
    exact not_mem_keys_remove _ _ ha

/-- An effect that touches its key leaves the list as it is if the key is the newest. -/
theorem placed_of_newest_touch {v : DrutaValue} (hf : r.find k = some v)
    (hnew : Newest r.toStore [k]) (h : r.perform k (.touch v) = .ok r') : r.Placed r' [] := by
  obtain ⟨older, newer, hkeys, h₁, h₂⟩ := hnew
  rw [order_toStore] at hkeys
  have hk : k ∉ older := fun hc => h₁ k hc List.mem_cons_self
  -- the key is there, and only once, so it is all that is newer
  have hnewer : newer = [k] := by
    have hmem : k ∈ older ++ newer := hkeys ▸ mem_keys_of_find hf
    have hnd : (older ++ newer).Nodup := hkeys ▸ r.nodes.nodup
    have hall : ∀ b ∈ newer, b = k := fun b hb => List.mem_singleton.1 (h₂ b hb)
    rcases newer with _ | ⟨b, _ | ⟨c, rest⟩⟩
    · rw [List.append_nil] at hmem
      exact absurd hmem hk
    · rw [hall b List.mem_cons_self]
    · have hb := hall b (by simp)
      have hc := hall c (by simp)
      have hb' : b ∉ c :: rest := (List.nodup_cons.1 (List.nodup_append.1 hnd).2.1).1
      exact absurd (hb.trans hc.symm ▸ List.mem_cons_self) hb'
  have hremove : (r.nodes.remove k).keys = older := by
    change (r.nodes.entries.map Prod.fst) = _ at hkeys
    rw [keys_remove, keys, hkeys, hnewer, List.filter_append]
    have hold : older.filter (· ≠ k) = older := by
      refine List.filter_eq_self.2 fun a ha => ?_
      simp only [decide_eq_true_eq]
      rintro rfl
      exact hk ha
    rw [hold]
    simp
  rw [Recency.perform_touch r hf, Recency.touch_eq r hf] at h
  obtain rfl := Except.ok.inj h
  have hsame : (r.nodes.push k v).keys = r.nodes.keys := by
    rw [keys_push, hremove, ← hnewer, ← hkeys]
    rfl
  exact .of_sublist (hsame ▸ List.Sublist.refl _) rfl fun a _ => List.not_mem_nil

theorem sublist_deleteAll : ∀ (keys : List Bytes) (r : Recency),
    (Action.deleteAll keys r).2.nodes.keys.Sublist r.nodes.keys
  | [], r => List.Sublist.refl _
  | key :: keys, r => by
    unfold Action.deleteAll
    split
    · refine (sublist_deleteAll keys (r.drop key)).trans ?_
      rw [keys_drop]
      exact sublist_remove r key
    · exact sublist_deleteAll keys r

end Recency

section Command

variable {r r' : Recency} {s : Server} {env : Env} {fd : ℤ} {args : List Bytes} {key : Bytes}
  {f : Option DrutaValue → Outcome}

theorem newest_nil (r : Recency) : Newest r.toStore [] :=
  ⟨r.toStore.order.map Prod.fst, [], (List.append_nil _).symm, fun _ _ => List.not_mem_nil,
    fun _ h => h⟩

theorem misplaces_eq (ht : turnedAway s fd (toUpper (args.headD [])) = false) :
    (Event.command env fd args).misplaces s =
      (callOf args).misplaces s.store args ((Event.command env fd args).accesses s) := by
  simp only [Event.misplaces, ht, Bool.false_eq_true, if_false]

theorem accesses_access (hs : s.store = r.toStore)
    (hc : (Event.command env fd args).change s = .act (.access key f)) :
    (Event.command env fd args).accesses s =
      if IsError (f (r.find key)).reply then [] else [key] := by
  unfold Event.accesses
  simp only [hc, hs, value_toStore]

/-- A command that does not touch its key places it where it is the newest. -/
theorem placed_of_quiet {out : Outcome} {ks : List Bytes} (hq : out.Quiet)
    (hn : Newest r.toStore ks) (hp : r.perform key out.effect = .ok r') : r.Placed r' ks := by
  rcases hq with hkeep | ⟨g, hfail⟩
  · rw [hkeep] at hp
    obtain rfl := Except.ok.inj hp
    exact .of_newest hn
  · rw [hfail] at hp
    cases hp

/-- An `HGET` that finds no field touches nothing. -/
theorem placed_hget {ks : List Bytes} (hsize : args.length = 3)
    (hks : (if IsError (hgetOutcome args (r.find (arg args 1))).reply then [] else [arg args 1]) = ks)
    (hnew : Newest r.toStore (Call.hget.misplaces r.toStore args ks))
    (hp : r.perform (arg args 1) (hgetOutcome args (r.find (arg args 1))).effect = .ok r') :
    r.Placed r' ks := by
  by_cases hmiss : ∀ v t, r.find (arg args 1) = some v → v.data = .hash t →
      t.getHash (arg args 2) ≠ none
  · exact hks ▸ Recency.placed_of_orders (hgetOutcome_orders hmiss) hp
  · push Not at hmiss
    obtain ⟨⟨d, e, m⟩, t, hv, rfl, ht⟩ := hmiss
    have hvalue : r.toStore.value (arg args 1) = some ⟨.hash t, e, m⟩ := by rw [value_toStore, hv]
    simp only [Call.misplaces, hvalue, ht, Option.isNone_none, if_true] at hnew
    have hout : hgetOutcome args (some ⟨.hash t, e, m⟩) = { reply := nilReply } := by
      simp [hgetOutcome, hsize, ht]
    rw [hv, hout] at hp hks
    rw [if_neg (not_isError (c := byte '$') rfl (by decide))] at hks
    exact placed_of_quiet (.inl rfl) (hks ▸ hnew) hp

/-- An `LRANGE` with a bound that is no number touches its key and is an error. -/
theorem placed_lrange {ks : List Bytes}
    (hks : (if IsError (lrangeOutcome args (r.find (arg args 1))).reply then []
      else [arg args 1]) = ks)
    (hnew : Newest r.toStore (Call.lrange.misplaces r.toStore args ks))
    (hp : r.perform (arg args 1) (lrangeOutcome args (r.find (arg args 1))).effect = .ok r') :
    r.Placed r' ks := by
  by_cases hnum : ∀ v l, r.find (arg args 1) = some v → v.data = .list l →
      ∃ li ri, stoi (arg args 2) = .ok li ∧ stoi (arg args 3) = .ok ri
  · exact hks ▸ Recency.placed_of_orders (lrangeOutcome_orders hnum) hp
  · push Not at hnum
    obtain ⟨⟨d, e, m⟩, l, hv, rfl, hno⟩ := hnum
    have hvalue : r.toStore.value (arg args 1) = some ⟨.list l, e, m⟩ := by rw [value_toStore, hv]
    have hout : lrangeOutcome args (some ⟨.list l, e, m⟩) =
        { reply := ascii "-WRONGTYPE Non-numeric values given for range" ++ crlf
          effect := .touch ⟨.list l, e, m⟩ } := by
      unfold lrangeOutcome
      dsimp only
      split
      · exact absurd ‹_› (hno _ _ ‹_›)
      · rfl
    have hnew' : Newest r.toStore [arg args 1] := by
      simpa only [Call.misplaces, hvalue] using hnew
    have herr : IsError (ascii "-WRONGTYPE Non-numeric values given for range" ++ crlf) := rfl
    rw [hv, hout] at hp hks
    rw [if_pos herr] at hks
    exact hks ▸ Recency.placed_of_newest_touch hv hnew' hp

/-- What a command on one key does to the order. -/
theorem placed_of_access (hs : s.store = r.toStore)
    (hc : (Event.command env fd args).change s = .act (.access key f))
    (hnew : Newest s.store ((Event.command env fd args).misplaces s))
    (hp : r.perform key (f (r.find key)).effect = .ok r') :
    r.Placed r' ((Event.command env fd args).accesses s) := by
  have hact := action_of_change hc
  have hacc := accesses_access hs hc
  rw [misplaces_eq (turnedAway_of_change hc), hs] at hnew
  have hquiet : (f (r.find key)).Quiet →
      Newest r.toStore ((Event.command env fd args).accesses s) →
        r.Placed r' ((Event.command env fd args).accesses s) := fun hq hn =>
    placed_of_quiet hq hn hp
  have horders : (f (r.find key)).Orders (r.find key) →
      r.Placed r' ((Event.command env fd args).accesses s) := fun ho =>
    hacc ▸ Recency.placed_of_orders ho hp
  cases hcall : callOf args <;> rw [hcall] at hact hnew <;>
    simp only [Call.action, Option.some.injEq, reduceCtorEq, Action.access.injEq] at hact
  all_goals obtain ⟨rfl, rfl⟩ := hact
  case hget => exact placed_hget (of_route (by decide) hcall).2 hacc.symm hnew hp
  case lrange => exact placed_lrange hacc.symm hnew hp
  · exact horders setOutcome_orders
  · exact horders getOutcome_orders
  · exact horders (pushOutcome_orders _)
  · exact horders (pushOutcome_orders _)
  · exact horders (popOutcome_orders _)
  · exact horders (popOutcome_orders _)
  · exact horders llenOutcome_orders
  · exact horders hsetOutcome_orders
  · exact horders hgetallOutcome_orders
  · exact horders hdelOutcome_orders
  · exact hquiet hlenOutcome_quiet hnew
  · exact horders saddOutcome_orders
  · exact hquiet scardOutcome_quiet hnew
  · exact hquiet sismemberOutcome_quiet hnew
  · exact hquiet smembersOutcome_quiet hnew
  · exact hquiet smismemberOutcome_quiet hnew
  · exact horders sdelOutcome_orders

/-- What a command does to the order. -/
theorem placed_of_action {a : Action} {x : Bytes × Bool} (hs : s.store = r.toStore)
    (hc : (Event.command env fd args).change s = .act a)
    (hnew : Newest s.store ((Event.command env fd args).misplaces s))
    (hrun : a.run r = .ok (x, r')) : r.Placed r' ((Event.command env fd args).accesses s) := by
  rcases a with ⟨key, f⟩ | m | keys
  · obtain ⟨reply, ok⟩ := x
    exact placed_of_access hs hc hnew (apply_ok hrun).2.2
  · obtain rfl : r = r' := (Action.eq_of_inspect (action_of_change hc) hrun).symm
    refine .of_newest ?_
    rw [misplaces_eq (turnedAway_of_change hc), hs] at hnew
    have hact := action_of_change hc
    cases hcall : callOf args <;> rw [hcall] at hact hnew <;>
      simp only [Call.action, Option.some.injEq, reduceCtorEq] at hact
    case memstats =>
      have hnone : (Event.command env fd args).accesses s = [] := by
        unfold Event.accesses
        simp only [hc, hcall, setReads, ite_self]
        split <;> rfl
      rw [hnone]
      exact newest_nil r
    all_goals exact hnew
  · have hdel : Action.deleteAll keys r = ((Action.deleteAll keys r).1, r') :=
      Prod.ext rfl (Prod.mk.inj (Except.ok.inj hrun)).2
    have hsub := Recency.sublist_deleteAll keys r
    have hev := evicted_deleteAll keys r
    rw [hdel] at hsub hev
    have hnone : (Event.command env fd args).accesses s = [] := by
      unfold Event.accesses
      simp only [hc]
    rw [hnone]
    exact .of_sublist hsub hev fun _ _ => List.not_mem_nil

theorem evicted_commandFlushdb (fd : ℤ) (args : List Bytes) (s : Server) :
    (commandFlushdb fd args s).2.store.evicted = s.store.evicted := by
  unfold commandFlushdb
  split_ifs
  · rfl
  · rfl

/-- What an event that leaves the store alone or flushes it accesses. -/
theorem accesses_eq_nil {e : Event} (h : e.change s = .quiet ∨ e.change s = .flush) :
    e.accesses s = [] := by
  unfold Event.accesses
  rcases h with h | h <;> cases e <;> simp only [h]

theorem placed_of_took {e : Event} {s' : Server} (hs : s.store = r.toStore) (h : Took r s e s' r')
    (hnew : Newest s.store (e.misplaces s)) : r.Placed r' (e.accesses s) := by
  cases h with
  | quiet hc =>
    rw [accesses_eq_nil (.inl hc)]
    exact .of_sublist (List.Sublist.refl _) rfl fun _ _ => List.not_mem_nil
  | flush hc =>
    rw [accesses_eq_nil (.inr hc)]
    exact .of_sublist (List.nil_sublist _) rfl nofun
  | act hc hrun => exact placed_of_action hs hc hnew hrun

end Command

/-! ## Runs -/

section Run

variable {s t : Server} {events : List Event}

theorem accesses_snoc : ∀ {s : Server} {events : List Event} (e : Event),
    run Server.step s events = .ok t → accesses s (events ++ [e]) = e.accesses t :: accesses s events
  | s, [], e, h => by
    obtain rfl := Except.ok.inj h
    simp only [List.nil_append, accesses]
    split <;> rfl
  | s, e' :: events, e, h => by
    obtain ⟨s', hs', h⟩ := run_cons h
    simp only [List.cons_append, accesses, hs', accesses_snoc e h]

/-- The list of every run stands in the order of the accesses. -/
theorem run_ordered : ∀ {s : Server} {events : List Event} {r : Recency} {hist : List (List Bytes)},
    s.store = r.toStore → Ordered hist r.nodes.keys → Meets Server.step KeepsOrder s events →
      run Server.step s events = .ok t →
        ∃ r' : Recency, t.store = r'.toStore ∧ Ordered (accesses s events ++ hist) r'.nodes.keys
  | s, [], r, hist, hs, ho, _, h => ⟨r, Except.ok.inj h ▸ hs, ho⟩
  | s, e :: events, r, hist, hs, ho, ⟨hc, hm⟩, h => by
    obtain ⟨s', hs', h⟩ := run_cons h
    obtain ⟨r', hr', ht⟩ := step_took hs hs'
    obtain ⟨gone, -, hord⟩ := (placed_of_took hs ht hc.2).ordered ho
    have hkeys := hord.sublist (List.sublist_append_right gone _)
    obtain ⟨q, hq, hfin⟩ := run_ordered hr' hkeys (hm s' hs') h
    refine ⟨q, hq, ?_⟩
    simp only [accesses, hs', List.append_assoc, List.singleton_append]
    exact hfin

/-- In every run whose commands keep the order each key that is evicted is the one whose last
access is the oldest, and no command stops between an eviction and its end. -/
theorem run_evicts_oldest (h : Meets Server.step KeepsOrder {} events) :
    EvictsOldest events ∧ run Server.step {} events ≠ .error .useAfterFree := by
  refine ⟨?_, run_ne_useAfterFree (h.imp fun _ _ hc => hc.1)⟩
  rintro pre env fd args post rfl s hs ht sent s' hrun gone victim later hev key hkey
  obtain ⟨hpre, hrest⟩ := h.append
  obtain ⟨⟨-, hnew⟩, -⟩ := hrest s hs
  have hstart : Ordered [] Recency.initial.nodes.keys := List.Pairwise.nil
  obtain ⟨r, hr, hord⟩ := run_ordered rfl hstart hpre hs
  rw [List.append_nil] at hord
  have hchange : (Event.command env fd args).change s = (callOf args).change env.now args := by
    simp only [Event.change, ht, Bool.false_eq_true, if_false]
  have hnone : s'.store.evicted ≠ s.store.evicted := fun hc => by
    rw [hc, List.append_assoc] at hev
    simpa using List.self_eq_append_right.1 hev
  rcases hc : (callOf args).change env.now args with _ | _ | a
  · obtain ⟨sends, t, hquiet, hdata⟩ := Call.run_quiet hc fd (toUpper (args.headD []))
      (s.ensureClient fd)
    obtain ⟨-, rfl⟩ := Prod.mk.inj (Except.ok.inj (hquiet.symm.trans hrun))
    exact absurd (congrArg Store.evicted hdata.1) hnone
  · obtain ⟨hcall, -⟩ := eq_flushdb_of_change hc
    rw [hcall] at hrun
    have hflush : commandFlushdb fd args (s.ensureClient fd) = (sent, s') := Except.ok.inj hrun
    have hkept := evicted_commandFlushdb fd args (s.ensureClient fd)
    rw [hflush] at hkept
    exact absurd hkept hnone
  · rw [hc] at hchange
    have haction := Call.run_action r env.now args (action_of_change hchange) fd
      (toUpper (args.headD [])) (s := s.ensureClient fd) hr
    rw [haction] at hrun
    rcases ha : a.run r with f | ⟨x, r'⟩ <;> rw [ha] at hrun
    · cases hrun
    obtain ⟨-, rfl⟩ := Prod.mk.inj (Except.ok.inj hrun)
    obtain ⟨out, hout, hall⟩ := (placed_of_action hr hchange hnew ha).ordered hord
    have hgone : out = gone ++ victim :: later := by
      have he : r'.account.evicted = r.account.evicted ++ gone ++ victim :: later := by
        rw [hr] at hev
        exact hev
      rw [hout, List.append_assoc] at he
      exact List.append_cancel_left he
    rw [hgone, List.append_assoc, List.cons_append] at hall
    rw [accesses_snoc _ hs]
    refine (List.pairwise_cons.1 (List.pairwise_append.1 hall).2.1).1 key ?_
    rcases hkey with hlater | hthere
    · exact List.mem_append_left _ hlater
    · have hsome : (r'.find key).isSome := by
        rw [← value_toStore]
        exact hthere
      obtain ⟨v, hv⟩ := Option.isSome_iff_exists.1 hsome
      exact List.mem_append_right _ (mem_keys_of_find hv)

end Run

/-! ## A value that does not fit -/

section Large

variable {r : Recency} {s : Server} {k v : Bytes}

/-- A value above the limit pushes out what is there, the oldest first. -/
theorem evicted_add_large (hv : v.length = 2 ^ 26) (hu : r.account.usage < 2 ^ 26)
    (hk : k.length = 1) (hnone : r.find k = none) {a : Bytes} {l : List Bytes}
    (hkeys : r.nodes.keys = a :: l) : ∃ later,
      (r.add k (.ofString v 0)).account.evicted = r.account.evicted ++ a :: later ∧
        later ++ (r.add k (.ofString v 0)).nodes.keys = l ++ [k] := by
  obtain ⟨gone, hgone, hall⟩ := Recency.shed_add r k (.ofString v 0)
  have hn : r.nodes.find k = none := hnone
  rw [remove_of_find_none hn, hkeys, List.cons_append] at hall
  rcases gone with _ | ⟨b, later⟩
  · exfalso
    -- nothing was evicted, so the counter did not exceed the limit
    have hle := Recency.le_of_settle (Recency.entries_push_ne_nil r.nodes k (.ofString v 0))
      (hgone.trans (List.append_nil _))
    have hmem : (DrutaValue.ofString v 0).memoryUsage = 2 ^ 26 + 32 := by
      simp [DrutaValue.ofString, sizeofString, copyCapacity, hv]
    have hcap : copyCapacity k = 15 := by simp [copyCapacity, hk]
    have hnode : nodeUsage k (.ofString v 0) = 2 ^ 26 + 207 := by
      rw [nodeUsage, hmem, hcap]
      decide
    simp only [hnode] at hle
    rw [addSize_eq (by omega), lruMaxMemory] at hle
    omega
  · obtain ⟨rfl, htail⟩ := List.cons.inj hall
    exact ⟨later, hgone, htail⟩

/-- A `SET` of a new key keeps the order. -/
theorem keepsOrder_set (hs : s.store = r.toStore) (hsub : (s.client 4).isSubscriber = false)
    (hnone : r.find k = none) : KeepsOrder s (.command {} 4 [ascii "SET", k, v]) := by
  have ht : turnedAway s 4 (toUpper (ascii "SET")) = false := by simp [turnedAway, hsub]
  have hcall : callOf [ascii "SET", k, v] = .set := rfl
  have hc : (Event.command {} 4 [ascii "SET", k, v]).change s =
      .act (.access k (setOutcome 0 [ascii "SET", k, v])) := by
    simp only [Event.change, List.headD_cons, ht, hcall, Bool.false_eq_true, if_false]
    rfl
  refine ⟨?_, ?_⟩
  · simp only [SparesOwnKey, hc, hs, value_toStore, hnone]
    trivial
  · rw [misplaces_eq ht, hcall, hs]
    exact newest_nil r

/-- A command that is not turned away runs its action. -/
theorem run_of_action {env : Env} {args : List Bytes} {a : Action} {x : Bytes × Bool} {r' : Recency}
    (hs : s.store = r.toStore) (ha : (callOf args).action env.now args = some a)
    (hrun : a.run r = .ok (x, r')) : ∃ sent s',
      (callOf args).run env.now 4 (toUpper (args.headD [])) args (s.ensureClient 4) =
        .ok (sent, s') ∧ s'.store = r'.toStore := by
  have h := Call.run_action r env.now args ha 4 (toUpper (args.headD []))
    (s := s.ensureClient 4) hs
  rw [hrun] at h
  exact ⟨_, _, h, rfl⟩

theorem accesses_of_action (env : Env) {args : List Bytes} {key : Bytes}
    {f : Option DrutaValue → Outcome} (hs : s.store = r.toStore)
    (hsub : (s.client 4).isSubscriber = false)
    (ha : (callOf args).action env.now args = some (.access key f))
    (hne : ¬ IsError (f (r.find key)).reply) :
    (Event.command env 4 args).accesses s = [key] := by
  have ht : turnedAway s 4 (toUpper (args.headD [])) = false := by simp [turnedAway, hsub]
  have hc : (Event.command env 4 args).change s = .act (.access key f) := by
    simp only [Event.change, ht, Bool.false_eq_true, if_false, Call.change, ha]
  rw [accesses_access hs hc, if_neg hne]

end Large

/-- A second value that does not fit: the first key is evicted, as it should be. -/
theorem run_evicts_oldest_large : ∃ s v sent s', EvictsOldest
      [.command {} 4 [ascii "SET", ascii "a", ascii "x"], .command {} 4 [ascii "SET", ascii "c", v]]
    ∧ run Server.step {} [.command {} 4 [ascii "SET", ascii "a", ascii "x"]] = .ok s
    ∧ Call.set.run 0 4 (ascii "SET") [ascii "SET", ascii "c", v] (s.ensureClient 4) =
      .ok (sent, s')
    ∧ ∃ later, s'.store.evicted = ascii "a" :: later := by
  obtain ⟨v, hv⟩ : ∃ v : Bytes, v.length = 2 ^ 26 := ⟨_, List.length_replicate (a := 0)⟩
  obtain ⟨s, hs, h⟩ := step_serves {} 4 [ascii "SET", ascii "a", ascii "x"] serves_initial rfl
    (run_set (v := ascii "x") rfl 0) (by decide) (by decide) (by decide)
  have hnone : (Recency.initial.add (ascii "a") (.ofString (ascii "x") 0)).find (ascii "c") =
      none := rfl
  obtain ⟨sent, s', hrun, hst⟩ := run_of_action h.store
    (show (callOf [ascii "SET", ascii "c", v]).action (({} : Env).now) _ = _ from rfl)
    (run_set (v := v) hnone 0)
  obtain ⟨later, hev, -⟩ := evicted_add_large hv (by decide) rfl hnone
    (show _ = ascii "a" :: [] from rfl)
  have hm : Meets Server.step KeepsOrder {} [.command {} 4 [ascii "SET", ascii "a", ascii "x"],
      .command {} 4 [ascii "SET", ascii "c", v]] := by
    refine ⟨keepsOrder_set serves_initial.store (serves_initial.normal 4) rfl,
      fun t ht => ⟨?_, fun _ _ => trivial⟩⟩
    obtain rfl := Except.ok.inj (hs.symm.trans ht)
    exact keepsOrder_set h.store (h.normal 4) hnone
  refine ⟨s, v, sent, s', (run_evicts_oldest hm).1, run_cons_ok hs [], hrun, later, ?_⟩
  rw [hst]
  exact hev

/-- A set, a string, and a read of the set. -/
def readSet : List Event :=
  [.command {} 4 [ascii "SADD", ascii "a", ascii "x"],
    .command {} 4 [ascii "SET", ascii "b", ascii "y"], .command {} 4 [ascii "SCARD", ascii "a"]]

theorem run_readSet : ∃ (s : Server) (r : Recency) (cs : List (List Bytes)),
    run Server.step {} readSet = .ok s ∧ Serves s r cs ∧ r.nodes.keys = [ascii "a", ascii "b"]
    ∧ r.account.usage < 2 ^ 26
    ∧ accesses {} readSet = [[ascii "a"], [ascii "b"], [ascii "a"]] := by
  obtain ⟨s₁, hs₁, h₁⟩ := step_serves {} 4 [ascii "SADD", ascii "a", ascii "x"] serves_initial
    rfl rfl (by decide) (by decide) (by decide)
  obtain ⟨s₂, hs₂, h₂⟩ := step_serves {} 4 [ascii "SET", ascii "b", ascii "y"] h₁ rfl
    (run_set (v := ascii "y") rfl 0) (by decide) (by decide) (by decide)
  obtain ⟨s₃, hs₃, h₃⟩ := step_serves {} 4 [ascii "SCARD", ascii "a"] h₂ rfl rfl
    (by decide) (by decide) (by decide)
  have hacc₁ := accesses_of_action {} serves_initial.store (serves_initial.normal 4)
    (show (callOf [ascii "SADD", ascii "a", ascii "x"]).action _ _ = _ from rfl)
    (not_isError_sendInteger _)
  have hacc₂ := accesses_of_action {} h₁.store (h₁.normal 4)
    (show (callOf [ascii "SET", ascii "b", ascii "y"]).action _ _ = _ from rfl)
    (not_isError (c := byte '+') rfl (by decide))
  have hacc₃ := accesses_of_action {} h₂.store (h₂.normal 4)
    (show (callOf [ascii "SCARD", ascii "a"]).action _ _ = _ from rfl)
    (not_isError_sendInteger _)
  refine ⟨s₃, _, _, ?_, h₃, rfl, ?_, ?_⟩
  · rw [readSet, run_cons_ok hs₁, run_cons_ok hs₂, run_cons_ok hs₃]
    rfl
  · decide
  · simp only [readSet, accesses, hs₁, hs₂, hs₃, hacc₁, hacc₂, hacc₃]
    rfl

/-- A set that was just read is evicted before a string that was written earlier. -/
theorem run_evicts_read : ¬ ∀ events, EvictsOldest events := by
  intro hall
  obtain ⟨v, hv⟩ : ∃ v : Bytes, v.length = 2 ^ 26 := ⟨_, List.length_replicate (a := 0)⟩
  obtain ⟨s, r, cs, hs, h, hkeys, hu, hacc⟩ := run_readSet
  have hnone : r.find (ascii "c") = none := by
    refine find_eq_none_iff.2 ?_
    rw [hkeys]
    decide
  have hcall : (callOf [ascii "SET", ascii "c", v]).action (({} : Env).now)
      [ascii "SET", ascii "c", v] = some (.access (ascii "c") (setOutcome 0 _)) := rfl
  obtain ⟨sent, s', hrun, hst⟩ := run_of_action h.store hcall (run_set hnone 0)
  obtain ⟨later, hout, hrest⟩ := evicted_add_large hv hu rfl hnone hkeys
  have hlast := accesses_of_action _ h.store (h.normal 4) hcall
    (not_isError (c := byte '+') rfl (by decide))
  have hb : ascii "b" ∈ later ∨ (s'.store.value (ascii "b")).isSome := by
    have hmem : ascii "b" ∈ later ++ (r.add (ascii "c") (.ofString v 0)).nodes.keys := by
      rw [hrest]
      exact List.mem_cons_self
    refine (List.mem_append.1 hmem).imp_right fun hin => ?_
    rw [hst, value_toStore, Option.isSome_iff_ne_none]
    exact fun hc => find_eq_none_iff.1 hc hin
  have hturn : turnedAway s 4 (toUpper (ascii "SET")) = false := by simp [turnedAway, h.normal]
  have hgone : s'.store.evicted = s.store.evicted ++ [] ++ ascii "a" :: later := by
    rw [hst, h.store, List.append_nil]
    exact hout
  have hle := hall (readSet ++ [.command {} 4 [ascii "SET", ascii "c", v]]) readSet {} 4
    [ascii "SET", ascii "c", v] [] rfl s hs hturn sent s' hrun [] (ascii "a") later hgone
    (ascii "b") hb
  rw [accesses_snoc _ hs, hlast, hacc] at hle
  revert hle
  decide

end DrutaDB
