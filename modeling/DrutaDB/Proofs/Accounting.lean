import DrutaDB.Proofs.Expiry

/-!
# The memory counter of the store

Where a command notifies what it changes of its value (`Effect.Counts`), the counter stays what the
nodes count for, evictions included, and no subtraction from it goes below zero
(`balanced_perform`, `step_ledger`).
-/

namespace DrutaDB

open Machine Decimal Capacity Run Store

/-- What a node counts for, before the wrap of a `size_t`. -/
def nodeWeight (key : Bytes) (v : DrutaValue) : ℕ :=
  sizeofDrutaNode + copyCapacity key + v.memoryUsage

def entriesWeight (l : List (Bytes × DrutaValue)) : ℕ := (l.map fun e => nodeWeight e.1 e.2).sum

namespace Recency

/-- What the nodes count for. -/
def weight (r : Recency) : ℕ := entriesWeight r.nodes.entries

/-- The counter is what the nodes count for, and no subtraction ever went below zero. -/
structure Counted (r : Recency) : Prop where
  usage : r.account.usage = r.weight
  wrapped : r.account.wrapped = false

/-- The counter keeps the limit too. -/
structure Balanced (r : Recency) : Prop extends r.Counted where
  le : r.account.usage ≤ lruMaxMemory

end Recency

/-- The effect notifies what it changes of the value, and no sum overflows. -/
def Effect.Counts (key : Bytes) (o : Option DrutaValue) : Effect → Prop
  | .keep | .drop | .fail _ => True
  | .assign v none wraps => wraps = false ∧ ∀ w, o = some w → v.memoryUsage = w.memoryUsage
  | .assign v (some (oldSize, newSize)) wraps | .pop v oldSize newSize wraps =>
    wraps = false ∧ lruMaxMemory + nodeWeight key v < 2 ^ 64 ∧
      ∀ w, o = some w → oldSize + v.memoryUsage = newSize + w.memoryUsage
  | .create v => lruMaxMemory + nodeWeight key v < 2 ^ 64
  | .createAssign v₀ v oldSize newSize wraps =>
    wraps = false ∧ lruMaxMemory + nodeWeight key v₀ < 2 ^ 64 ∧
      lruMaxMemory + nodeWeight key v < 2 ^ 64 ∧ oldSize + v.memoryUsage = newSize + v₀.memoryUsage

theorem lruMaxMemory_lt : lruMaxMemory < 2 ^ 64 := by decide

theorem nodeUsage_eq {k : Bytes} {v : DrutaValue} (h : nodeWeight k v < 2 ^ 64) :
    nodeUsage k v = nodeWeight k v := addSize_eq h

section Weights

variable {l₁ l₂ : List (Bytes × DrutaValue)} {k : Bytes} {v : DrutaValue}

theorem entriesWeight_cons (k : Bytes) (v : DrutaValue) (l : List (Bytes × DrutaValue)) :
    entriesWeight ((k, v) :: l) = nodeWeight k v + entriesWeight l := by
  rw [entriesWeight, List.map_cons, List.sum_cons, entriesWeight]

theorem entriesWeight_append (l₁ l₂ : List (Bytes × DrutaValue)) :
    entriesWeight (l₁ ++ l₂) = entriesWeight l₁ + entriesWeight l₂ := by
  rw [entriesWeight, List.map_append, List.sum_append, entriesWeight, entriesWeight]

/-- The eviction loop leaves a counter that is the weight, within the limit. -/
theorem counted_shedList : ∀ {l : List (Bytes × DrutaValue)} {a : Account},
    a.usage = entriesWeight l → a.usage < 2 ^ 64 → a.wrapped = false →
      (RecencyList.shedList Account.exceeds Account.evict l a).2.usage =
          entriesWeight (RecencyList.shedList Account.exceeds Account.evict l a).1 ∧
        (RecencyList.shedList Account.exceeds Account.evict l a).2.wrapped = false ∧
        (RecencyList.shedList Account.exceeds Account.evict l a).2.usage ≤ lruMaxMemory
  | [], a, husage, _, hwrapped => ⟨husage, hwrapped, husage.trans_le (Nat.zero_le _)⟩
  | (k, v) :: l, a, husage, hlt, hwrapped => by
    unfold RecencyList.shedList
    split_ifs with hexceeds
    · rw [entriesWeight_cons] at husage
      have hnode : nodeUsage k v = nodeWeight k v := nodeUsage_eq (by omega)
      have hevict : (a.evict (k, v)).usage = entriesWeight l := by
        change subSize a.usage (nodeUsage k v) = _
        rw [hnode, subSize_eq (by omega) hlt]
        omega
      have hnot : (a.evict (k, v)).wrapped = false := by
        change (a.wrapped || decide (a.usage < nodeUsage k v)) = false
        rw [hwrapped, Bool.false_or, decide_eq_false_iff_not]
        omega
      exact counted_shedList hevict (by omega) hnot
    · exact ⟨husage, hwrapped, by simpa [Account.exceeds] using hexceeds⟩

end Weights

namespace Recency

variable {r r' : Recency} {k : Bytes} {v w : DrutaValue}

theorem counted_initial : initial.Counted := ⟨rfl, rfl⟩

theorem balanced_initial : initial.Balanced := ⟨counted_initial, Nat.zero_le _⟩

theorem Counted.settle (h : r.Counted) (hlt : r.weight < 2 ^ 64) : r.settle.Balanced := by
  obtain ⟨husage, hwrapped, hle⟩ := counted_shedList h.usage (h.usage.trans_lt hlt) h.wrapped
  exact ⟨⟨husage, hwrapped⟩, hle⟩

/-- What a key counts for is part of the weight. -/
theorem weight_split (hv : r.find k = some v) :
    ∃ rest, r.weight = rest + nodeWeight k v ∧ (∀ a, weight ⟨r.nodes.remove k, a⟩ = rest) ∧
      (∀ w a, weight ⟨r.nodes.replace k w, a⟩ = rest + nodeWeight k w) ∧
      ∀ w a, weight ⟨r.nodes.push k w, a⟩ = rest + nodeWeight k w := by
  obtain ⟨l₁, l₂, he, h₁, h₂⟩ := RecencyList.find_split hv
  refine ⟨entriesWeight l₁ + entriesWeight l₂, ?_, fun a => ?_, fun w a => ?_, fun w a => ?_⟩
  · rw [weight, he, entriesWeight_append, entriesWeight_cons]
    omega
  · rw [weight, RecencyList.remove_entries he h₁ h₂, entriesWeight_append]
  · rw [weight, RecencyList.replace_entries he h₁ h₂, entriesWeight_append, entriesWeight_cons]
    omega
  · change entriesWeight ((r.nodes.remove k).entries ++ [(k, w)]) = _
    rw [RecencyList.remove_entries he h₁ h₂, entriesWeight_append, entriesWeight_append,
      entriesWeight_cons]
    rfl

theorem weight_push_new (hnone : r.find k = none) (w : DrutaValue) (a : Account) :
    weight ⟨r.nodes.push k w, a⟩ = r.weight + nodeWeight k w := by
  rw [weight, RecencyList.entries_push_of_find_none hnone, entriesWeight_append,
    entriesWeight_cons]
  rfl

theorem Balanced.nodeWeight_le (h : r.Balanced) (hv : r.find k = some v) :
    nodeWeight k v ≤ lruMaxMemory := by
  obtain ⟨rest, hrest, -⟩ := weight_split hv
  have hle := h.le
  rw [h.usage] at hle
  omega

theorem Balanced.memoryUsage_le (h : r.Balanced) (hv : r.find k = some v) :
    v.memoryUsage ≤ lruMaxMemory :=
  (Nat.le_add_left _ _).trans (h.nodeWeight_le hv)

theorem Balanced.touch (h : r.Balanced) (ht : r.touch k = .ok r') : r'.Balanced := by
  unfold Recency.touch at ht
  rcases hv : r.find k with _ | v <;> rw [hv] at ht
  · cases ht
  · obtain rfl := Except.ok.inj ht
    obtain ⟨rest, hrest, -, -, hpush⟩ := weight_split hv
    exact ⟨⟨h.usage.trans (hrest.trans (hpush v _).symm), h.wrapped⟩, h.le⟩

/-- The node of a key that is dropped leaves the counter. -/
theorem Balanced.drop (h : r.Balanced) (k : Bytes) : (r.drop k).Balanced := by
  unfold Recency.drop
  rcases hv : r.find k with _ | v
  · exact h
  · have hle := h.le
    have husage := h.usage
    have hlimit := lruMaxMemory_lt
    obtain ⟨rest, hrest, hremove, -⟩ := weight_split hv
    have hnode : nodeUsage k v = nodeWeight k v := nodeUsage_eq (by omega)
    have hsub : subSize r.account.usage (nodeUsage k v) = rest := by
      rw [hnode, subSize_eq (by omega) (by omega)]
      omega
    refine ⟨⟨hsub.trans (hremove _).symm, ?_⟩, ?_⟩
    · change (r.account.wrapped || decide (r.account.usage < nodeUsage k v)) = false
      rw [h.wrapped, Bool.false_or, decide_eq_false_iff_not]
      omega
    · change subSize r.account.usage (nodeUsage k v) ≤ _
      omega

/-- A value is written and its change notified. -/
theorem Balanced.write_notify (h : r.Balanced) (hv : r.find k = some w) {m n : ℕ}
    (hlt : lruMaxMemory + nodeWeight k v < 2 ^ 64)
    (hchange : m + v.memoryUsage = n + w.memoryUsage) :
    ((r.write k v false).notify m n).Balanced := by
  have hle := h.le
  have husage := h.usage
  obtain ⟨rest, hrest, -, hreplace, -⟩ := weight_split hv
  have hweight : ∀ a, weight ⟨(r.write k v false).nodes, a⟩ = rest + nodeWeight k v := hreplace v
  have hnotified : notified r.account.usage m n = rest + nodeWeight k v := by
    unfold nodeWeight at *
    unfold notified
    split_ifs
    · rw [addSize_eq (by omega)]
      omega
    · omega
    · have hnode : 0 < sizeofDrutaNode := by decide
      omega
  refine Counted.settle ⟨hnotified.trans (hweight _).symm, ?_⟩ ?_
  · change (r.account.wrapped || false) = false
    rw [h.wrapped]
    rfl
  · rw [hweight]
    omega

theorem Balanced.add (h : r.Balanced) (hnone : r.find k = none)
    (hlt : lruMaxMemory + nodeWeight k v < 2 ^ 64) : (r.add k v).Balanced := by
  have hle := h.le
  have husage := h.usage
  have hweight := weight_push_new hnone v
  refine Counted.settle ⟨?_, h.wrapped⟩ ?_
  · change addSize r.account.usage (nodeUsage k v) = _
    rw [nodeUsage_eq (by omega), addSize_eq (by omega), hweight]
    omega
  · rw [hweight]
    omega

theorem Balanced.assign (h : r.Balanced) (hv : r.find k = some w) {m n : ℕ}
    (hlt : lruMaxMemory + nodeWeight k v < 2 ^ 64)
    (hchange : m + v.memoryUsage = n + w.memoryUsage)
    (ha : r.assign k v (some (m, n)) false = .ok r') : r'.Balanced :=
  (h.write_notify hv hlt hchange).touch ha

/-- An effect that counts keeps the counter what the nodes count for. -/
theorem balanced_perform {e : Effect} (h : r.Balanced) (hfit : e.Fits (r.find k))
    (hcounts : e.Counts k (r.find k)) (hp : r.perform k e = .ok r') : r'.Balanced := by
  cases e with
  | keep => exact Except.ok.inj hp ▸ h
  | drop => exact Except.ok.inj hp ▸ h.drop k
  | fail f => cases hp
  | create v => exact Except.ok.inj hp ▸ h.add hfit hcounts
  | assign v c wraps =>
    obtain ⟨w, hw⟩ := Option.isSome_iff_exists.1 hfit
    rcases c with _ | ⟨m, n⟩
    · obtain ⟨rfl, hsame⟩ := hcounts
      obtain ⟨rest, hrest, -, hreplace, -⟩ := weight_split hw
      have hnode : nodeWeight k w = nodeWeight k v := by
        rw [nodeWeight, nodeWeight, hsame w hw]
      refine Balanced.touch (r := r.write k v false) ⟨⟨?_, ?_⟩, h.le⟩ hp
      · exact h.usage.trans (hrest.trans (hnode ▸ (hreplace v _).symm))
      · change (r.account.wrapped || false) = false
        rw [h.wrapped]
        rfl
    · obtain ⟨rfl, hlt, hchange⟩ := hcounts
      exact h.assign hw hlt (hchange w hw) hp
  | pop v m n wraps =>
    obtain ⟨w, hw⟩ := Option.isSome_iff_exists.1 hfit
    obtain ⟨rfl, hlt, hchange⟩ := hcounts
    rw [perform, touch_eq r hw] at hp
    obtain rfl := Except.ok.inj hp
    have htouch : Balanced ⟨r.nodes.push k w, r.account⟩ := h.touch (touch_eq r hw)
    refine htouch.write_notify (w := w) ?_ hlt (hchange w hw)
    change (r.nodes.push k w).find k = some w
    rw [RecencyList.find_push, if_pos rfl]
  | createAssign v₀ v m n wraps =>
    obtain ⟨rfl, hlt₀, hlt, hchange⟩ := hcounts
    have hadd : (r.add k v₀).Balanced := h.add hfit hlt₀
    unfold perform at hp
    dsimp only at hp
    split at hp
    · rename_i w hw
      have hpush : Recency.find ⟨r.nodes.push k v₀,
          { r.account with usage := addSize r.account.usage (nodeUsage k v₀) }⟩ k = some v₀ := by
        change (r.nodes.push k v₀).find k = some v₀
        rw [RecencyList.find_push, if_pos rfl]
      -- what is left of the key is what was put there
      have hw₀ : (r.add k v₀).find k = some v₀ := by
        have hmem := (RecencyList.shedList_suffix _ _ _ _).subset (RecencyList.find_eq_some_iff.1 hw)
        rw [hw, ← hpush]
        exact (RecencyList.find_eq_some_iff.2 hmem).symm
      exact hadd.assign hw₀ hlt hchange hp
    · cases hp

theorem Balanced.deleteAll : ∀ {keys : List Bytes} {r : Recency}, r.Balanced →
    (Action.deleteAll keys r).2.Balanced
  | [], r, h => h
  | key :: keys, r, h => by
    unfold Action.deleteAll
    split
    · exact Balanced.deleteAll (h.drop key)
    · exact Balanced.deleteAll h

theorem Balanced.flush (h : r.Balanced) : r.flush.Balanced := ⟨⟨rfl, h.wrapped⟩, Nat.zero_le _⟩

end Recency

/-! ## Steps of the server -/

variable {Q : DrutaValue → Prop}

/-- The effect counts and leaves a value of the kind. -/
structure Effect.Books (Q : DrutaValue → Prop) (key : Bytes) (o : Option DrutaValue) (e : Effect) :
    Prop extends e.Leaves Q o where
  counts : e.Counts key o

section Books

variable {key : Bytes} {o : Option DrutaValue} {v : DrutaValue} {m n : ℕ}

theorem Effect.Books.keep (ho : ∀ w, o = some w → Q w) : Effect.keep.Books Q key o :=
  ⟨⟨ho, fun _ _ _ _ _ he => by cases he⟩, trivial⟩

theorem Effect.Books.fail (f : Fault) (ho : ∀ w, o = some w → Q w) :
    (Effect.fail f).Books Q key o :=
  ⟨⟨ho, fun _ _ _ _ _ he => by cases he⟩, trivial⟩

theorem Effect.Books.create (hv : Q v) (hlt : lruMaxMemory + nodeWeight key v < 2 ^ 64) :
    (Effect.create v).Books Q key o :=
  ⟨⟨fun _ hw => Option.some.inj hw ▸ hv, fun _ _ _ _ _ he => by cases he⟩, hlt⟩

theorem Effect.Books.assign (hv : Q v) (hlt : lruMaxMemory + nodeWeight key v < 2 ^ 64)
    (hchange : ∀ w, o = some w → m + v.memoryUsage = n + w.memoryUsage) :
    (Effect.assign v (some (m, n)) false).Books Q key o :=
  ⟨⟨fun _ hw => Option.some.inj hw ▸ hv, fun _ _ _ _ _ he => by cases he⟩, rfl, hlt, hchange⟩

theorem Effect.Books.pop (hv : Q v) (hlt : lruMaxMemory + nodeWeight key v < 2 ^ 64)
    (hchange : ∀ w, o = some w → m + v.memoryUsage = n + w.memoryUsage) :
    (Effect.pop v m n false).Books Q key o :=
  ⟨⟨fun _ hw => Option.some.inj hw ▸ hv, fun _ _ _ _ _ he => by cases he⟩, rfl, hlt, hchange⟩

/-- A node whose value counts for so little does not overflow the counter. -/
theorem nodeWeight_lt (hkey : key.length < 2 ^ 31) (hv : v.memoryUsage < 2 ^ 64 - 2 ^ 32) :
    lruMaxMemory + nodeWeight key v < 2 ^ 64 := by
  have hsize : lruMaxMemory + sizeofDrutaNode + 15 < 2 ^ 31 := by decide
  unfold nodeWeight copyCapacity
  omega

end Books

/-- The store is that of a list whose counter is what its nodes count for, with values of the
kind. -/
def Server.Ledger (Q : DrutaValue → Prop) (s : Server) : Prop :=
  ∃ r : Recency, s.store = r.toStore ∧ r.Balanced ∧ r.Each Q

theorem ledger_initial : ({} : Server).Ledger Q :=
  ⟨.initial, rfl, Recency.balanced_initial, Recency.each_initial⟩

theorem Server.Ledger.value {s : Server} (h : s.Ledger Q) {key : Bytes} {v : DrutaValue}
    (hv : s.store.value key = some v) : Q v ∧ v.memoryUsage ≤ lruMaxMemory := by
  obtain ⟨r, hs, hb, hq⟩ := h
  rw [hs, value_toStore] at hv
  exact ⟨Recency.each_iff.1 hq key v hv, hb.memoryUsage_le hv⟩

theorem Server.Ledger.wrapped {s : Server} (h : s.Ledger Q) : s.store.wrapped = false := by
  obtain ⟨r, hs, hb, -⟩ := h
  rw [hs]
  exact hb.wrapped

/-- A step keeps the ledger if the effect of its command on its key does. -/
theorem step_ledger {s s' : Server} {e : Event} (hs : s.Ledger Q)
    (hbooks : ∀ env fd args key f, e = .command env fd args →
      (callOf args).action env.now args = some (.access key f) →
        (f (s.store.value key)).effect.Books Q key (s.store.value key))
    (h : s.step e = .ok s') : s'.Ledger Q := by
  obtain ⟨r, hr, hb, hq⟩ := hs
  obtain ⟨r', hr', ht⟩ := step_took hr h
  simp only [hr, value_toStore] at hbooks
  refine ⟨r', hr', ?_, ht.each hq fun env fd args key f he ha => (hbooks env fd args key f he ha).1⟩
  cases ht with
  | quiet => exact hb
  | flush => exact hb.flush
  | @act env fd args a _ _ _ _ hc hrun =>
    have ha := action_of_change hc
    rcases a with ⟨key, f⟩ | m | keys
    · obtain ⟨-, -, hp⟩ := apply_ok hrun
      exact Recency.balanced_perform hb (fits_of_action _ ha) (hbooks env fd args key f rfl ha).2 hp
    · exact Action.eq_of_inspect ha hrun ▸ hb
    · obtain ⟨-, rfl⟩ := Prod.mk.inj (Except.ok.inj hrun)
      exact hb.deleteAll

end DrutaDB
