import DrutaDB.Lib.Run
import DrutaDB.Proofs.Outcomes

/-!
# The lifetime of nodes

At every command boundary the nodes that `kv_store` owns are the nodes of the recency list
(`WellLinked`).  During a command a freed node is touched exactly where the growth of the
command's own value evicts its key (`step_useAfterFree_iff`), so a run whose commands spare their
own keys never touches one (`run_wellLinked`).
-/

namespace DrutaDB

open Machine Decimal Capacity Run Store

namespace Store

/-- The value of a key. -/
def value (s : Store) (key : Bytes) : Option DrutaValue := s.kvStore[key]?.map (·.value)

/-- The keys and values from `TAIL` on. -/
def order (s : Store) : List (Bytes × DrutaValue) :=
  match s.walk s.kvStore.size s.tail with
  | .ok ns => ns.map fun n => (n.key, n.value)
  | .error _ => []

/-- Those less recently used than the key. -/
def older (s : Store) (key : Bytes) : List (Bytes × DrutaValue) :=
  s.order.takeWhile fun e => e.1 ≠ key

/-- What is left of these nodes and of the counter when the oldest are evicted while it exceeds
the limit. -/
def relieve (usage : ℕ) (l : List (Bytes × DrutaValue)) : List (Bytes × DrutaValue) × ℕ :=
  RecencyList.shedList (fun u => decide (lruMaxMemory < u))
    (fun u e => subSize u (nodeUsage e.1 e.2)) l usage

/-- Evicting these nodes is enough. -/
def Relieves (usage : ℕ) (l : List (Bytes × DrutaValue)) : Prop :=
  (relieve usage l).2 ≤ lruMaxMemory

instance (usage : ℕ) (l : List (Bytes × DrutaValue)) : Decidable (Relieves usage l) :=
  inferInstanceAs (Decidable (_ ≤ _))

end Store

/-- The length of a list is an `int`. -/
def Data.isShort : Data → Bool
  | .list l => l.length < 2 ^ 31
  | _ => true

theorem Data.isShort_iff {d : Data} : d.isShort = true ↔ ∀ l, d = .list l → l.length < 2 ^ 31 := by
  cases d <;> simp [Data.isShort]

/-- The key outlives the growth of its value: evicting the less recently used keys is enough. -/
def Effect.Spares (s : Store) (key : Bytes) : Effect → Prop
  | .assign _ (some (oldSize, newSize)) _ =>
    Relieves (notified s.currentMemoryUsage oldSize newSize) (s.older key)
  | .createAssign v₀ _ oldSize newSize _ =>
    let left := relieve (addSize s.currentMemoryUsage (nodeUsage key v₀)) s.order
    left.2 ≤ lruMaxMemory ∧ Relieves (notified left.2 oldSize newSize) left.1
  | _ => True

instance (s : Store) (key : Bytes) : ∀ e : Effect, Decidable (e.Spares s key)
  | .assign _ (some _) _ => inferInstanceAs (Decidable (Relieves _ _))
  | .createAssign .. => inferInstanceAs (Decidable (_ ∧ _))
  | .assign _ none _ | .keep | .drop | .pop .. | .create _ | .fail _ => .isTrue trivial

/-- The command spares its own key. -/
def SparesOwnKey (s : Server) (e : Event) : Prop :=
  match e.change s with
  | .act (.access key outcome) => (outcome (s.store.value key)).effect.Spares s.store key
  | _ => True

/-- What it says about the change. -/
def Change.Spares (s : Store) : Change → Prop
  | .act (.access key outcome) => (outcome (s.value key)).effect.Spares s key
  | _ => True

instance (s : Store) : ∀ c : Change, Decidable (c.Spares s)
  | .act (.access key outcome) =>
    inferInstanceAs (Decidable ((outcome (s.value key)).effect.Spares s key))
  | .act (.inspect _) | .act (.delete _) | .quiet | .flush => .isTrue trivial

instance (s : Server) (e : Event) : Decidable (SparesOwnKey s e) :=
  inferInstanceAs (Decidable ((e.change s).Spares s.store))

/-- The structure of the store and its list. -/
structure WellLinked (s : Store) : Prop where
  /-- Following `next` from `TAIL` ends, at the node `HEAD` points to. -/
  walks : ∃ ns, s.walk s.kvStore.size s.tail = .ok ns ∧ ns.getLast?.map (·.key) = s.head
    /- Every owned node is visited, and once. -/
    ∧ (ns.map (·.key)).Nodup ∧ (∀ key n, s.kvStore[key]? = some n ↔ n ∈ ns ∧ n.key = key)
    /- `prev` is the inverse of `next`. -/
    ∧ (∀ a ∈ ns, ∀ b ∈ ns, a.next = some b.key ↔ b.prev = some a.key)
  head_none : s.head = none ↔ s.kvStore.isEmpty
  tail_none : s.tail = none ↔ s.kvStore.isEmpty
  lruSize_eq : s.lruSize = s.kvStore.size

section NodeList

variable {p : Option Bytes} {k : Bytes} {l : List (Bytes × DrutaValue)} {n : DrutaNode}

theorem map_key_nodeList (p : Option Bytes) (l : List (Bytes × DrutaValue)) :
    (nodeList p l).map (·.key) = l.map Prod.fst := by
  conv_rhs => rw [← nodeList_map p l, List.map_map]
  rfl

theorem key_mem_of_mem_nodeList (h : n ∈ nodeList p l) : n.key ∈ l.map Prod.fst := by
  rw [← map_key_nodeList p]
  exact List.mem_map_of_mem h

theorem next_mem_of_mem_nodeList : ∀ {p : Option Bytes} {l : List (Bytes × DrutaValue)},
    n ∈ nodeList p l → n.next = some k → k ∈ l.map Prod.fst
  | p, (a, v) :: l, h, hk => by
    rw [List.map_cons, List.mem_cons]
    rcases List.mem_cons.1 h with rfl | h
    · exact .inr (mem_of_firstKey hk)
    · exact .inr (next_mem_of_mem_nodeList h hk)

theorem prev_of_mem_nodeList : ∀ {p : Option Bytes} {l : List (Bytes × DrutaValue)},
    n ∈ nodeList p l → n.prev = some k → p = some k ∨ k ∈ l.map Prod.fst
  | p, (a, v) :: l, h, hk => by
    rw [List.map_cons, List.mem_cons]
    rcases List.mem_cons.1 h with rfl | h
    · exact .inl hk
    · rcases prev_of_mem_nodeList h hk with hc | hc
      · exact .inr (.inl (Option.some.inj hc).symm)
      · exact .inr (.inr hc)

/-- The nodes the list owns are those it is walked through. -/
theorem nodeAt_eq_some_iff : ∀ {p : Option Bytes} {l : List (Bytes × DrutaValue)},
    (l.map Prod.fst).Nodup → (nodeAt p none l k = some n ↔ n ∈ nodeList p l ∧ n.key = k)
  | p, [], _ => by simp [nodeAt, nodeList]
  | p, (a, v) :: l, h => by
    rw [List.map_cons, List.nodup_cons] at h
    simp only [nodeAt, nodeList, Option.or_none, List.mem_cons]
    split_ifs with hk
    · subst hk
      refine ⟨fun hn => ?_, fun hn => ?_⟩
      · rw [← Option.some.inj hn]
        exact ⟨.inl rfl, rfl⟩
      · rcases hn.1 with rfl | hmem
        · rfl
        · exact absurd (hn.2 ▸ key_mem_of_mem_nodeList hmem) h.1
    · rw [nodeAt_eq_some_iff h.2]
      refine ⟨fun hn => ⟨.inr hn.1, hn.2⟩, fun hn => ⟨hn.1.resolve_left ?_, hn.2⟩⟩
      rintro rfl
      exact hk hn.2

/-- The first node is the one behind what comes before the list. -/
theorem firstKey_eq_iff_prev : ∀ {l : List (Bytes × DrutaValue)}, (l.map Prod.fst).Nodup →
    k ∉ l.map Prod.fst → n ∈ nodeList (some k) l →
      (firstKey l = some n.key ↔ n.prev = some k)
  | (a, v) :: l, h, hk, hn => by
    rw [List.map_cons, List.nodup_cons] at h
    rw [List.map_cons, List.mem_cons, not_or] at hk
    rcases List.mem_cons.1 hn with rfl | hn
    · simp
    · have hne : a ≠ n.key := fun hc => h.1 (hc ▸ key_mem_of_mem_nodeList hn)
      simp only [firstKey_cons, Option.some.injEq, hne, false_iff]
      intro hprev
      rcases prev_of_mem_nodeList hn hprev with hc | hc
      · exact hk.1 (Option.some.inj hc).symm
      · exact hk.2 hc

theorem next_iff_prev : ∀ {p : Option Bytes} {l : List (Bytes × DrutaValue)},
    (l.map Prod.fst).Nodup → (∀ k ∈ l.map Prod.fst, p ≠ some k) → ∀ a ∈ nodeList p l,
      ∀ b ∈ nodeList p l, (a.next = some b.key ↔ b.prev = some a.key)
  | p, [], _, _, a, ha, _, _ => by simp [nodeList] at ha
  | p, (k, v) :: l, h, hp, a, ha, b, hb => by
    rw [List.map_cons, List.nodup_cons] at h
    have hpk : p ≠ some k := hp k List.mem_cons_self
    rcases List.mem_cons.1 ha with rfl | ha <;> rcases List.mem_cons.1 hb with rfl | hb
    · exact ⟨fun hn => absurd (mem_of_firstKey hn) h.1, fun hn => absurd hn hpk⟩
    · exact firstKey_eq_iff_prev h.2 h.1 hb
    · exact ⟨fun hn => absurd (next_mem_of_mem_nodeList ha hn) h.1, fun hn => absurd hn
        (hp a.key (List.mem_cons_of_mem _ (key_mem_of_mem_nodeList ha)))⟩
    · exact next_iff_prev h.2 (fun x hx hc => h.1 ((Option.some.inj hc : k = x) ▸ hx)) a ha b hb

end NodeList

theorem wellLinked_toStore (r : Recency) : WellLinked r.toStore := by
  have hnd := r.nodes.nodup
  have hempty : r.toStore.kvStore.isEmpty ↔ r.nodes.entries = [] := by
    rw [Std.ExtTreeMap.isEmpty_eq_size_beq_zero, beq_iff_eq]
    have hsize : r.toStore.kvStore.size = r.nodes.entries.length := size_links hnd
    rw [hsize, List.length_eq_zero_iff]
  refine ⟨⟨nodeList none r.nodes.entries, walk_toStore r, ?_, ?_, fun key n => ?_, ?_⟩, ?_, ?_,
    (size_links hnd).symm⟩
  · rw [← List.getLast?_map, map_key_nodeList, List.getLast?_map]
    rfl
  · rw [map_key_nodeList]
    exact hnd
  · rw [← nodeAt_eq_some_iff hnd]
    simp [Recency.toStore, linked]
  · exact next_iff_prev hnd fun _ _ => by simp
  · rw [hempty]
    simp [Recency.toStore, linked, lastKey]
  · rw [hempty]
    simp [Recency.toStore, linked, firstKey]

section Survival

variable {r : Recency} {k : Bytes} {v w : DrutaValue} {l₁ l₂ : List (Bytes × DrutaValue)}

theorem order_toStore (r : Recency) : r.toStore.order = r.nodes.entries := by
  unfold Store.order
  rw [walk_toStore]
  exact nodeList_map none _

theorem value_toStore (r : Recency) (k : Bytes) : r.toStore.value k = r.find k :=
  congrArg Prod.fst (Except.ok.inj (Recency.find_toStore r k))

theorem older_toStore (he : r.nodes.entries = l₁ ++ (k, v) :: l₂) (h₁ : k ∉ l₁.map Prod.fst) :
    r.toStore.older k = l₁ := by
  unfold Store.older
  rw [order_toStore, he, List.takeWhile_append_of_pos, List.takeWhile_cons_of_neg (by simp),
    List.append_nil]
  intro e hmem
  have hne : e.1 ≠ k := fun hc => h₁ (hc ▸ List.mem_map_of_mem hmem)
  simpa using hne

theorem relieve_usage (a : Account) (l : List (Bytes × DrutaValue)) :
    relieve a.usage l = ((RecencyList.shedList Account.exceeds Account.evict l a).1,
      (RecencyList.shedList Account.exceeds Account.evict l a).2.usage) :=
  RecencyList.shedList_map _ _ (fun _ => rfl) (fun _ _ => rfl) l a

theorem relieves_iff (a : Account) (l : List (Bytes × DrutaValue)) :
    Relieves a.usage l ↔
      (RecencyList.shedList Account.exceeds Account.evict l a).2.exceeds = false := by
  rw [Relieves, relieve_usage]
  simp [Account.exceeds]

/-- A key whose older ones are enough outlives an eviction. -/
theorem settle_of_relieves (he : r.nodes.entries = l₁ ++ (k, w) :: l₂)
    (h : Relieves r.account.usage l₁) :
    r.settle.nodes.entries = (relieve r.account.usage l₁).1 ++ (k, w) :: l₂
      ∧ r.settle.account.usage = (relieve r.account.usage l₁).2 := by
  have hexc := (relieves_iff r.account l₁).1 h
  simp only [Recency.settle, RecencyList.shed, he, relieve_usage, RecencyList.shedList_append]
  split_ifs with hnil
  · rw [RecencyList.shedList_of_not_exceeds _ _ hexc, hnil]
    exact ⟨rfl, rfl⟩
  · exact ⟨rfl, rfl⟩

theorem find_settle_of_relieves (he : r.nodes.entries = l₁ ++ (k, w) :: l₂)
    (h : Relieves r.account.usage l₁) : r.settle.find k = some w := by
  refine RecencyList.find_eq_some_iff.2 ?_
  rw [(settle_of_relieves he h).1]
  simp

/-- Otherwise it is evicted. -/
theorem find_settle_of_not_relieves (he : r.nodes.entries = l₁ ++ (k, w) :: l₂)
    (h₂ : k ∉ l₂.map Prod.fst) (h : ¬ Relieves r.account.usage l₁) : r.settle.find k = none := by
  rw [relieves_iff, Bool.not_eq_false] at h
  have hnil : (RecencyList.shedList Account.exceeds Account.evict l₁ r.account).1 = [] := by
    rcases RecencyList.shedList_stop Account.exceeds Account.evict l₁ r.account with hs | hs
    · rw [h] at hs
      cases hs
    · exact hs
  have hentries : r.settle.nodes.entries <:+ l₂ := by
    simp only [Recency.settle, RecencyList.shed, he, RecencyList.shedList_append, hnil, if_true]
    unfold RecencyList.shedList
    rw [if_pos h]
    exact RecencyList.shedList_suffix _ _ _ _
  refine RecencyList.find_eq_none_iff.2 fun hc => h₂ ?_
  exact (hentries.sublist.map Prod.fst).subset hc

theorem assign_useAfterFree_iff (he : r.nodes.entries = l₁ ++ (k, v) :: l₂)
    (h₁ : k ∉ l₁.map Prod.fst) (h₂ : k ∉ l₂.map Prod.fst) (w : DrutaValue)
    (oldSize newSize : ℕ) (wraps : Bool) :
    r.assign k w (some (oldSize, newSize)) wraps = .error .useAfterFree ↔
      ¬ Relieves (notified r.account.usage oldSize newSize) l₁ := by
  have hw : (⟨(r.write k w wraps).nodes, (r.write k w wraps).account.notify oldSize newSize⟩ :
      Recency).nodes.entries = l₁ ++ (k, w) :: l₂ := RecencyList.replace_entries he h₁ h₂ w
  simp only [Recency.assign, Recency.notify]
  by_cases hr : Relieves (notified r.account.usage oldSize newSize) l₁
  · rw [Recency.touch_eq _ (find_settle_of_relieves hw hr)]
    simp [hr]
  · simp only [Recency.touch, find_settle_of_not_relieves hw h₂ hr, true_iff]
    exact hr

open Recency in
/-- A freed node is touched exactly where the command does not spare its own key. -/
theorem perform_useAfterFree_iff {e : Effect} (hfit : e.Fits (r.find k)) :
    r.perform k e = .error .useAfterFree ↔ ¬ e.Spares r.toStore k := by
  cases e with
  | keep => simp [perform, Effect.Spares]
  | drop => simp [perform, Effect.Spares]
  | create w => simp [perform, Effect.Spares]
  | fail f =>
    have hf : f ≠ .useAfterFree := hfit
    simp [perform, Effect.Spares, hf]
  | pop w oldSize newSize wraps =>
    obtain ⟨v, hv⟩ := Option.isSome_iff_exists.1 hfit
    rw [perform, touch_eq r hv]
    simp [bind, Except.bind, pure, Except.pure, Effect.Spares]
  | assign w change wraps =>
    obtain ⟨v, hv⟩ := Option.isSome_iff_exists.1 hfit
    obtain ⟨l₁, l₂, he, h₁, h₂⟩ := RecencyList.find_split hv
    rcases change with _ | ⟨oldSize, newSize⟩
    · simp [perform, assign, touch_write r hv, Effect.Spares]
    · simp only [perform, Effect.Spares, older_toStore he h₁]
      exact assign_useAfterFree_iff he h₁ h₂ w oldSize newSize wraps
  | createAssign v₀ w oldSize newSize wraps =>
    have hv : r.nodes.find k = none := hfit
    have hadd : (⟨r.nodes.push k v₀,
        { r.account with usage := addSize r.account.usage (nodeUsage k v₀) }⟩ :
          Recency).nodes.entries = r.nodes.entries ++ (k, v₀) :: [] := by
      change (r.nodes.remove k).entries ++ _ = _
      rw [RecencyList.remove_of_find_none hv]
    have husage : r.toStore.currentMemoryUsage = r.account.usage := rfl
    simp only [perform, Effect.Spares, order_toStore, husage]
    by_cases hr : Relieves (addSize r.account.usage (nodeUsage k v₀)) r.nodes.entries
    · obtain ⟨hent, hus⟩ := settle_of_relieves hadd hr
      have hf : (r.add k v₀).find k = some v₀ := find_settle_of_relieves hadd hr
      have hk : k ∉ ((relieve (addSize r.account.usage (nodeUsage k v₀))
          r.nodes.entries).1).map Prod.fst := fun hc =>
        RecencyList.find_eq_none_iff.1 hv
          (((RecencyList.shedList_suffix _ _ _ _).sublist.map Prod.fst).subset hc)
      have ha := assign_useAfterFree_iff (r := r.add k v₀) hent hk (by simp) w oldSize newSize wraps
      have hus' : (r.add k v₀).account.usage =
        (relieve (addSize r.account.usage (nodeUsage k v₀)) r.nodes.entries).2 := hus
      rw [hus'] at ha
      simp only [hf, ha]
      exact not_congr ⟨fun h => ⟨hr, h⟩, fun h => h.2⟩
    · have hf : (r.add k v₀).find k = none := find_settle_of_not_relieves hadd (by simp) hr
      simp only [hf, true_iff]
      exact fun h => hr h.1

end Survival

section Step

variable {r : Recency} {s : Server} {e : Event}

/-- A step touches a freed node exactly where its command does not spare its own key. -/
theorem step_useAfterFree_iff (hs : s.store = r.toStore) :
    s.step e = .error .useAfterFree ↔ ¬ SparesOwnKey s e := by
  rcases e with fd | fd | ⟨env, fd, args⟩
  · simp [Server.step, SparesOwnKey, Event.change]
  · simp [Server.step, SparesOwnKey, Event.change]
  rcases args with _ | ⟨a, as⟩
  · have hq : (Event.command env fd []).change s = .quiet := by
      simp only [Event.change]
      split_ifs
      · rfl
      · rfl
    simp [Server.step, handleCommand, SparesOwnKey, hq]
  unfold SparesOwnKey
  change (handleCommand env fd (a :: as) s).2 = _ ↔ _
  rcases hc : (Event.command env fd (a :: as)).change s with _ | _ | act
  · obtain ⟨t, ht, -⟩ := handleCommand_quiet hc
    simp [ht]
  · obtain ⟨t, ht, -⟩ := handleCommand_flush hs hc
    simp [ht]
  have hres : (handleCommand env fd (a :: as) s).2 = .error .useAfterFree ↔
      act.run r = .error .useAfterFree := by
    rcases handleCommand_act hs hc with ⟨f, hrun, hf⟩ | ⟨reply, ok, r', hrun, hok⟩
    · rw [hrun, hf]
      simp
    · rw [hrun]
      rcases hok with ⟨t, ht, -⟩ | ⟨-, -, x, hx⟩
      · simp [ht]
      · simp [hx]
  rw [hres]
  rcases act with ⟨key, outcome⟩ | m | keys
  · have hrun : (Action.access key outcome).run r = .error .useAfterFree ↔
        r.perform key (outcome (r.find key)).effect = .error .useAfterFree := by
      simp only [Action.run, Recency.apply]
      rcases r.perform key (outcome (r.find key)).effect with f | r' <;> simp [Except.map]
    rw [hrun, perform_useAfterFree_iff (fits_of_action _ (action_of_change hc)), hs]
    simp only [value_toStore]
  · obtain ⟨b, -, hb, -⟩ := (answers_of_action (action_of_change hc)).run r
    simp [hb]
  · simp [Action.run]

end Step

theorem step_toStore {s s' : Server} {e : Event} (h : ∃ r : Recency, s.store = r.toStore)
    (hs : s.step e = .ok s') : ∃ r : Recency, s'.store = r.toStore := by
  obtain ⟨r, hr⟩ := h
  obtain ⟨r', hr', -⟩ := step_took hr hs
  exact ⟨r', hr'⟩

theorem exists_store {events : List Event} {s : Server} (h : run Server.step {} events = .ok s) :
    ∃ r : Recency, s.store = r.toStore :=
  run_all (J := fun _ s => ∃ r : Recency, s.store = r.toStore)
    (fun _ _ _ _ _ hr hs => step_toStore hr hs) ⟨.initial, rfl⟩ h

theorem run_ne_useAfterFree {events : List Event} (h : Meets Server.step SparesOwnKey {} events) :
    run Server.step {} events ≠ .error .useAfterFree := by
  refine run_ne_error (fun s e s' hi _ hs => step_toStore hi hs) (fun s e hi hc => ?_)
    ⟨.initial, rfl⟩ h
  obtain ⟨r, hr⟩ := hi
  exact fun herr => (step_useAfterFree_iff hr).1 herr hc

/-- In every run whose commands spare their own keys no freed node is touched, and at every
command boundary the store is well linked. -/
theorem run_wellLinked {events : List Event} (h : Meets Server.step SparesOwnKey {} events) :
    run Server.step {} events ≠ .error .useAfterFree
      ∧ ∀ s, run Server.step {} events = .ok s → WellLinked s.store := by
  refine ⟨run_ne_useAfterFree h, fun s hs => ?_⟩
  obtain ⟨r, hr⟩ := exists_store hs
  rw [hr]
  exact wellLinked_toStore r

/-- An `HSET` of a new key. -/
theorem run_wellLinked_hset : run Server.step {} [.command {} 4
    [ascii "HSET", ascii "h", ascii "f", ascii "v"]] ≠ .error .useAfterFree := by
  suffices hspares : Meets Server.step SparesOwnKey {} [.command {} 4
      [ascii "HSET", ascii "h", ascii "f", ascii "v"]] from (run_wellLinked hspares).1
  refine ⟨?_, fun _ _ => trivial⟩
  have hc : (Event.command {} 4 [ascii "HSET", ascii "h", ascii "f", ascii "v"]).change {} =
      .act (.access (ascii "h") (hsetOutcome [ascii "HSET", ascii "h", ascii "f", ascii "v"])) := by
    rfl
  simp only [SparesOwnKey, hc]
  refine ⟨?_, ?_⟩
  · decide
  · unfold Relieves
    decide

/-- What an `HSET` of one field of a new hash notifies when the store is empty. -/
theorem notified_of_sparesOwnKey {value : Bytes} (h : SparesOwnKey (({} : Server).setClient 4 {})
    (.command {} 4 [ascii "HSET", ascii "h", ascii "f", value])) :
    notified 175 0 (addSize 0 (copyCapacity (ascii "f") + copyCapacity value +
      hashEntryOverheadVector)) ≤ lruMaxMemory := by
  have hc : (Event.command {} 4 [ascii "HSET", ascii "h", ascii "f", value]).change
      (({} : Server).setClient 4 {}) = .act (.access (ascii "h")
        (hsetOutcome [ascii "HSET", ascii "h", ascii "f", value])) := by
    rfl
  have hleft : (relieve (addSize 0 (nodeUsage (ascii "h")
      { data := .hash .empty, memoryUsage := 0 })) []).2 = 175 := by decide
  have hvalue : (({} : Server).setClient 4 {}).store.value (ascii "h") = none :=
    value_toStore .initial _
  have horder : (({} : Server).setClient 4 {}).store.order = [] := order_toStore .initial
  have heffect : (hsetOutcome [ascii "HSET", ascii "h", ascii "f", value] none).effect =
      .createAssign { data := .hash .empty, memoryUsage := 0 }
        (hsetValue [ascii "HSET", ascii "h", ascii "f", value]
          { data := .hash .empty, memoryUsage := 0 } .empty) 0
        (addSize 0 (copyCapacity (ascii "f") + copyCapacity value + hashEntryOverheadVector))
        false := by
    rw [hsetOutcome, if_neg (by simp)]
    rfl
  simp only [SparesOwnKey, hc, hvalue, heffect, Effect.Spares, horder] at h
  obtain ⟨-, h⟩ := h
  change Relieves (notified (relieve (addSize 0 (nodeUsage (ascii "h") _)) []).2 0 _) _ at h
  rw [hleft] at h
  exact h

/-- A value larger than the limit, set in a new hash: its key is evicted before it is touched. -/
theorem run_touches_freed : ∃ events, run Server.step {} events = .error .useAfterFree := by
  have hstep : (({} : Server).setClient 4 {}).step (.command {} 4 [ascii "HSET", ascii "h",
      ascii "f", List.replicate (2 ^ 26) 0]) = .error .useAfterFree := by
    rw [step_useAfterFree_iff (r := .initial) rfl]
    intro h
    have hle := notified_of_sparesOwnKey h
    rw [copyCapacity, copyCapacity, List.length_replicate] at hle
    revert hle
    decide +kernel
  refine ⟨[.connect 4, .command {} 4 [ascii "HSET", ascii "h", ascii "f",
    List.replicate (2 ^ 26) 0]], ?_⟩
  rw [run_cons_ok rfl, run, hstep]

end DrutaDB
