import DrutaDB.Recency

/-!
# The recency list as linked nodes

On the store of a recency list every operation of `lru.cpp` does what its counterpart does to the
list: a node is detached and attached (`detach_linked`, `attachHead_linked`), touched
(`touchLru_toStore`), evicted (`evictLoop_toStore`), added and removed.
-/

namespace DrutaDB

open Machine Capacity

section Links

variable {k x : Bytes} {v : DrutaValue} {p n : Option Bytes} {l l₁ l₂ : List (Bytes × DrutaValue)}

/-- The node of a key among them. -/
def nodeAt : Option Bytes → Option Bytes → List (Bytes × DrutaValue) → Bytes → Option DrutaNode
  | _, _, [], _ => none
  | p, n, (k, v) :: l, x =>
    if k = x then some { key := k, next := (firstKey l).or n, prev := p, value := v }
    else nodeAt (some k) n l x

@[simp]
theorem getElem?_links : ∀ (p n : Option Bytes) (l : List (Bytes × DrutaValue)) (x : Bytes),
    (links p n l)[x]? = nodeAt p n l x
  | _, _, [], x => by simp [links, nodeAt]
  | p, n, (k, v) :: l, x => by
    simp [links, nodeAt, Std.ExtTreeMap.getElem?_insert, getElem?_links]

@[simp]
theorem lastKey_append_singleton (l : List (Bytes × DrutaValue)) (e : Bytes × DrutaValue) :
    lastKey (l ++ [e]) = some e.1 := by
  simp [lastKey]

@[simp]
theorem firstKey_cons (e : Bytes × DrutaValue) (l : List (Bytes × DrutaValue)) :
    firstKey (e :: l) = some e.1 := rfl

@[simp]
theorem firstKey_nil : firstKey [] = none := rfl

@[simp]
theorem lastKey_nil : lastKey [] = none := rfl

theorem lastKey_cons (e : Bytes × DrutaValue) (l : List (Bytes × DrutaValue)) :
    lastKey (e :: l) = (lastKey l).or (some e.1) := by
  rcases List.eq_nil_or_concat l with rfl | ⟨m, b, rfl⟩
  · simp [lastKey]
  · rw [List.concat_eq_append, lastKey_append_singleton, ← List.cons_append,
      lastKey_append_singleton]
    rfl

theorem firstKey_append (l₁ l₂ : List (Bytes × DrutaValue)) :
    firstKey (l₁ ++ l₂) = (firstKey l₁).or (firstKey l₂) := by
  cases l₁ <;> simp

theorem lastKey_append (l₁ l₂ : List (Bytes × DrutaValue)) :
    lastKey (l₁ ++ l₂) = (lastKey l₂).or (lastKey l₁) := by
  rcases List.eq_nil_or_concat l₂ with rfl | ⟨m, b, rfl⟩
  · simp
  · rw [List.concat_eq_append, ← List.append_assoc, lastKey_append_singleton,
      lastKey_append_singleton]
    rfl

theorem mem_of_firstKey (h : firstKey l = some x) : x ∈ l.map Prod.fst := by
  obtain ⟨e, he, rfl⟩ := Option.map_eq_some_iff.1 h
  exact List.mem_map_of_mem (List.mem_of_head? he)

theorem mem_of_lastKey (h : lastKey l = some x) : x ∈ l.map Prod.fst := by
  obtain ⟨e, he, rfl⟩ := Option.map_eq_some_iff.1 h
  exact List.mem_map_of_mem (List.mem_of_getLast? he)

theorem nodeAt_of_not_mem : ∀ {p n : Option Bytes} {l : List (Bytes × DrutaValue)},
    x ∉ l.map Prod.fst → nodeAt p n l x = none
  | _, _, [], _ => rfl
  | p, n, (k, v) :: l, h => by
    rw [List.map_cons, List.mem_cons, not_or] at h
    rw [nodeAt, if_neg fun hc => h.1 hc.symm, nodeAt_of_not_mem h.2]

theorem nodeAt_append : ∀ (p n : Option Bytes) (l₁ l₂ : List (Bytes × DrutaValue)) (x : Bytes),
    nodeAt p n (l₁ ++ l₂) x =
      (nodeAt p ((firstKey l₂).or n) l₁ x).or (nodeAt ((lastKey l₁).or p) n l₂ x)
  | p, n, [], l₂, x => by simp [nodeAt]
  | p, n, (k, v) :: l₁, l₂, x => by
    simp only [List.cons_append, nodeAt, firstKey_append, Option.or_assoc]
    split_ifs with h
    · simp
    · rw [nodeAt_append (some k) n l₁ l₂ x, lastKey_cons, Option.or_assoc]
      simp

theorem nodeAt_value [BEq Bytes] [LawfulBEq Bytes] : ∀ {p n : Option Bytes}
    {l : List (Bytes × DrutaValue)} {x : Bytes}, (nodeAt p n l x).map (·.value) = l.lookup x
  | _, _, [], _ => rfl
  | p, n, (k, v) :: l, x => by
    rw [nodeAt, List.lookup_cons]
    split_ifs with h
    · simp [h]
    · have hx : (x == k) = false := beq_eq_false_iff_ne.2 fun hc => h hc.symm
      rw [nodeAt_value, hx]

theorem nodeAt_key : ∀ {p n : Option Bytes} {l : List (Bytes × DrutaValue)} {x : Bytes}
    {m : DrutaNode}, nodeAt p n l x = some m → m.key = x
  | p, n, (k, v) :: l, x, m, h => by
    rw [nodeAt] at h
    split_ifs at h with hk
    · rw [← Option.some.inj h, ← hk]
    · exact nodeAt_key h

theorem mem_links (p n : Option Bytes) (l : List (Bytes × DrutaValue)) (x : Bytes) :
    x ∈ links p n l ↔ x ∈ l.map Prod.fst := by
  rw [Std.ExtTreeMap.mem_iff_isSome_getElem?, getElem?_links, ← Option.isSome_map, nodeAt_value,
    List.lookup_isSome_iff]
  simp

theorem size_links : ∀ {p n : Option Bytes} {l : List (Bytes × DrutaValue)},
    (l.map Prod.fst).Nodup → (links p n l).size = l.length
  | _, _, [], _ => rfl
  | p, n, (k, v) :: l, h => by
    rw [List.map_cons, List.nodup_cons] at h
    have hk : ¬ (links (some k) n l).contains k := fun hc =>
      h.1 ((mem_links _ _ _ _).1 (Std.ExtTreeMap.contains_iff_mem.1 hc))
    rw [links, Std.ExtTreeMap.size_insert, if_neg hk, size_links h.2, List.length_cons]

/-- Only the last node knows what follows. -/
theorem nodeAt_next (p n n' : Option Bytes) {l : List (Bytes × DrutaValue)} {x : Bytes}
    (h : (l.map Prod.fst).Nodup) : nodeAt p n' l x = (nodeAt p n l x).map fun m =>
      { m with next := if lastKey l = some x then n' else m.next } := by
  rcases List.eq_nil_or_concat l with rfl | ⟨m, ⟨a, u⟩, rfl⟩
  · rfl
  rw [List.concat_eq_append, List.map_append, List.nodup_append] at h
  have ha : a ∉ m.map Prod.fst := fun hc => h.2.2 a hc a (by simp) rfl
  rw [List.concat_eq_append, nodeAt_append, nodeAt_append, lastKey_append_singleton]
  simp only [nodeAt, firstKey_cons, Option.some.injEq]
  by_cases hx : a = x
  · subst hx
    simp [nodeAt_of_not_mem ha]
  · simp [hx]

/-- Only the first node knows what precedes. -/
theorem nodeAt_prev (p p' n : Option Bytes) {l : List (Bytes × DrutaValue)} {x : Bytes} :
    nodeAt p' n l x = (nodeAt p n l x).map fun m =>
      { m with prev := if firstKey l = some x then p' else m.prev } := by
  rcases l with _ | ⟨⟨k, v⟩, l⟩
  · rfl
  · simp only [nodeAt, firstKey_cons, Option.some.injEq]
    split_ifs with h
    · rfl
    · simp

end Links

section Monad

variable {α β : Type} {m : StoreM α} {f : α → StoreM β} {s s' : Store} {a : α}

theorem bind_ok (h : m s = .ok (a, s')) : (m >>= f) s = f a s' := by
  simp only [bind, StateT.bind, Except.bind, h]

theorem bind_error {e : Fault} (h : m s = .error e) : (m >>= f) s = .error e := by
  simp only [bind, StateT.bind, Except.bind, h]

end Monad

namespace Store

section Linked

variable (s : Store) {l l₁ l₂ : List (Bytes × DrutaValue)} {k : Bytes} {v : DrutaValue}

theorem deref_ok {s : Store} {n : DrutaNode} (h : s.kvStore[k]? = some n) :
    deref k s = .ok (n, s) := by
  simp only [deref, h]

theorem modifyNode_ok {s : Store} {n : DrutaNode} {f : DrutaNode → DrutaNode}
    (h : s.kvStore[k]? = some n) :
    modifyNode k f s = .ok ((), { s with kvStore := s.kvStore.insert k (f n) }) := by
  simp only [modifyNode, h]

/-- A write through a pointer to an owned node. -/
theorem modifyNode_mem (f : DrutaNode → DrutaNode) {s : Store} (h : k ∈ s.kvStore) :
    ∃ m, modifyNode k f s = .ok ((), { s with kvStore := m })
      ∧ (∀ x, m[x]? = if k = x then s.kvStore[x]?.map f else s.kvStore[x]?)
      ∧ ∀ x, x ∈ m ↔ x ∈ s.kvStore := by
  obtain ⟨n, hn⟩ := Option.isSome_iff_exists.1 (Std.ExtTreeMap.mem_iff_isSome_getElem?.1 h)
  have hx : ∀ x, (s.kvStore.insert k (f n))[x]? =
      if k = x then s.kvStore[x]?.map f else s.kvStore[x]? := by
    intro x
    rw [Std.ExtTreeMap.getElem?_insert]
    by_cases hx : k = x
    · subst hx
      simp [hn]
    · simp [hx]
  refine ⟨_, modifyNode_ok hn, hx, fun x => ?_⟩
  rw [Std.ExtTreeMap.mem_iff_isSome_getElem?, Std.ExtTreeMap.mem_iff_isSome_getElem?, hx x]
  split_ifs <;> simp

/-- A node as its neighbour's detachment leaves it. -/
def relink (n : DrutaNode) (x : Bytes) (m : DrutaNode) : DrutaNode :=
  { m with
    next := if n.prev = some x then n.next else m.next
    prev := if n.next = some x then n.prev else m.prev }

/-- A node whose neighbours are owned is detached, and nothing else but their links changes. -/
theorem detach_ok {s : Store} {n : DrutaNode} (hn : s.kvStore[k]? = some n)
    (hp : ∀ p, n.prev = some p → p ∈ s.kvStore) (hq : ∀ q, n.next = some q → q ∈ s.kvStore) :
    ∃ m, detach k s = .ok ((), { s with
        kvStore := m
        tail := if n.prev = none then n.next else s.tail
        head := if n.next = none then n.prev else s.head })
      ∧ ∀ x, m[x]? = if k = x then some { n with prev := none, next := none }
        else s.kvStore[x]?.map (relink n x) := by
  have hk : k ∈ s.kvStore := by
    rw [Std.ExtTreeMap.mem_iff_isSome_getElem?, hn]
    rfl
  unfold detach
  rw [bind_ok (deref_ok hn)]
  rcases hprev : n.prev with _ | p <;> rcases hnext : n.next with _ | q <;> dsimp only
  · obtain ⟨m, hm, hx, -⟩ := modifyNode_mem (fun m => { m with prev := none, next := none })
      (s := { s with tail := none, head := none }) hk
    refine ⟨m, hm, fun x => ?_⟩
    rw [hx x]
    by_cases hkx : k = x
    · subst hkx
      simp [hn]
    · rcases s.kvStore[x]? with _ | y <;> simp [hkx, relink, hprev, hnext]
  · obtain ⟨m₁, hm₁, hx₁, hmem⟩ := modifyNode_mem (fun m => { m with prev := none })
      (s := { s with tail := some q }) (hq q hnext)
    obtain ⟨m, hm, hx, -⟩ := modifyNode_mem (fun m => { m with prev := none, next := none })
      (s := { s with kvStore := m₁, tail := some q }) ((hmem k).2 hk)
    refine ⟨m, (bind_ok rfl).trans ((bind_ok hm₁).trans hm), fun x => ?_⟩
    rw [hx x]
    simp only [hx₁ x]
    by_cases hkx : k = x
    · subst hkx
      by_cases hqk : q = k <;> simp [hn, hqk]
    · by_cases hqx : q = x <;> rcases s.kvStore[x]? with _ | y <;>
        simp [hkx, hqx, relink, hprev, hnext]
  · obtain ⟨m₁, hm₁, hx₁, hmem⟩ := modifyNode_mem (fun m => { m with next := none })
      (hp p hprev)
    obtain ⟨m, hm, hx, -⟩ := modifyNode_mem (fun m => { m with prev := none, next := none })
      (s := { s with kvStore := m₁, head := some p }) ((hmem k).2 hk)
    refine ⟨m, (bind_ok hm₁).trans ((bind_ok rfl).trans hm), fun x => ?_⟩
    rw [hx x]
    simp only [hx₁ x]
    by_cases hkx : k = x
    · subst hkx
      by_cases hpk : p = k <;> simp [hn, hpk]
    · by_cases hpx : p = x <;> rcases s.kvStore[x]? with _ | y <;>
        simp [hkx, hpx, relink, hprev, hnext]
  · obtain ⟨m₁, hm₁, hx₁, hmem₁⟩ := modifyNode_mem (fun m => { m with next := some q })
      (hp p hprev)
    obtain ⟨m₂, hm₂, hx₂, hmem₂⟩ := modifyNode_mem (fun m => { m with prev := some p })
      (s := { s with kvStore := m₁ }) ((hmem₁ q).2 (hq q hnext))
    obtain ⟨m, hm, hx, -⟩ := modifyNode_mem (fun m => { m with prev := none, next := none })
      (s := { s with kvStore := m₂ }) ((hmem₂ k).2 ((hmem₁ k).2 hk))
    refine ⟨m, (bind_ok hm₁).trans ((bind_ok hm₂).trans hm), fun x => ?_⟩
    rw [hx x]
    simp only [hx₂ x, hx₁ x]
    by_cases hkx : k = x
    · subst hkx
      by_cases hpk : p = k <;> by_cases hqk : q = k <;> simp [hn, hpk, hqk]
    · by_cases hpx : p = x <;> by_cases hqx : q = x <;> rcases s.kvStore[x]? with _ | y <;>
        simp [hkx, hpx, hqx, relink, hprev, hnext]

theorem detach_linked (h : ((l₁ ++ (k, v) :: l₂).map Prod.fst).Nodup) :
    detach k (s.linked (l₁ ++ (k, v) :: l₂) none) =
      .ok ((), s.linked (l₁ ++ l₂) (some (k, v))) := by
  have hd := h
  rw [List.map_append, List.map_cons, List.nodup_append, List.nodup_cons] at hd
  have hk₁ : k ∉ l₁.map Prod.fst := fun hc => hd.2.2 k hc k List.mem_cons_self rfl
  have hn : (s.linked (l₁ ++ (k, v) :: l₂) none).kvStore[k]? =
      some { key := k, next := firstKey l₂, prev := lastKey l₁, value := v } := by
    simp [linked, nodeAt_append, nodeAt, nodeAt_of_not_mem hk₁]
  have hmem : ∀ x, x ∈ (s.linked (l₁ ++ (k, v) :: l₂) none).kvStore ↔
      x ∈ (l₁ ++ (k, v) :: l₂).map Prod.fst := fun x => mem_links none none _ x
  obtain ⟨m, hm, hx⟩ := detach_ok hn
    (fun p hp => (hmem p).2 (by simp [mem_of_lastKey hp]))
    (fun q hq => (hmem q).2 (by simp [mem_of_firstKey hq]))
  have hkv : m = (links none none (l₁ ++ l₂)).insert k { key := k, value := v } := by
    refine Std.ExtTreeMap.ext_getElem? fun {x} => ?_
    rw [hx x, Std.ExtTreeMap.getElem?_insert]
    by_cases hkx : k = x
    · simp [hkx]
    · rw [if_neg hkx, if_neg (by simpa using hkx)]
      simp only [linked, getElem?_links, nodeAt_append, firstKey_cons,
        Option.or_none]
      by_cases hx₁ : x ∈ l₁.map Prod.fst
      · have hx₂ : x ∉ l₂.map Prod.fst := fun hc => hd.2.2 x hx₁ x (List.mem_cons_of_mem _ hc) rfl
        have hf : firstKey l₂ ≠ some x := fun hc => hx₂ (mem_of_firstKey hc)
        rw [nodeAt, if_neg hkx, nodeAt_of_not_mem hx₂, nodeAt_of_not_mem hx₂,
          nodeAt_next none (some k) (firstKey l₂) hd.1, Option.or_none, Option.or_none]
        congr 1
        funext m
        simp [relink, hf]
      · have hf : lastKey l₁ ≠ some x := fun hc => hx₁ (mem_of_lastKey hc)
        rw [nodeAt, if_neg hkx, nodeAt_of_not_mem hx₁, nodeAt_of_not_mem hx₁,
          nodeAt_prev (some k) (lastKey l₁) none, Option.none_or, Option.none_or]
        congr 1
        funext m
        simp [relink, hf]
  rw [hm, hkv]
  simp only [linked, Except.ok.injEq, Prod.mk.injEq, Store.mk.injEq, true_and, and_true]
  rcases List.eq_nil_or_concat l₁ with rfl | ⟨m, ⟨a, u⟩, rfl⟩ <;>
    rcases l₂ with _ | ⟨⟨b, w⟩, t⟩ <;> simp [firstKey_append, lastKey_append, lastKey_cons]
theorem attachHead_linked (hnd : (l.map Prod.fst).Nodup) (h : k ∉ l.map Prod.fst) :
    attachHead k (s.linked l (some (k, v))) = .ok ((), s.linked (l ++ [(k, v)]) none) := by
  have hgoal : ∀ (m : Std.ExtTreeMap Bytes DrutaNode) (t : Store),
      (∀ x, m[x]? = nodeAt none none (l ++ [(k, v)]) x) →
      t = { s with
        kvStore := m, head := some k, tail := (firstKey l).or (some k) } →
      t = s.linked (l ++ [(k, v)]) none := by
    rintro m t hm rfl
    have hm' : m = links none none (l ++ [(k, v)]) :=
      Std.ExtTreeMap.ext_getElem? fun {x} => by rw [hm x, getElem?_links]
    rw [hm', linked, lastKey_append_singleton, firstKey_append]
    rfl
  unfold attachHead
  rw [bind_ok (m := get) rfl]
  rcases hl : lastKey l with _ | a
  · obtain rfl : l = [] := by
      rcases List.eq_nil_or_concat l with rfl | ⟨m, e, rfl⟩
      · rfl
      · simp at hl
    refine congrArg (fun t => Except.ok ((), t)) (hgoal ((links none none []).insert k
      { key := k, value := v }) _ (fun x => ?_) rfl)
    simp [Std.ExtTreeMap.getElem?_insert, nodeAt]
  · have hhead : (s.linked l (some (k, v))).head = some a := hl
    have ha : a ∈ l.map Prod.fst := mem_of_lastKey hl
    have hka : k ≠ a := fun hc => h (hc ▸ ha)
    obtain ⟨m₁, hm₁, hx₁, hmem⟩ := modifyNode_mem (fun m => { m with prev := some a })
      (s := s.linked l (some (k, v))) (k := k) (by simp [linked])
    have ha₁ : a ∈ m₁ := (hmem a).2 (by simp [linked, mem_links, ha])
    obtain ⟨m, hm, hx, -⟩ := modifyNode_mem (fun m => { m with next := some k })
      (s := { s.linked l (some (k, v)) with kvStore := m₁ }) ha₁
    rw [hhead]
    dsimp only
    rw [bind_ok hm₁, bind_ok hm]
    refine congrArg (fun t => Except.ok ((), t)) (hgoal m _ (fun x => ?_) ?_)
    · rw [hx x]
      simp only [hx₁ x, linked, Std.ExtTreeMap.getElem?_insert, getElem?_links, nodeAt_append, hl,
        nodeAt, firstKey_cons, firstKey_nil, Option.or_none]
      by_cases hkx : k = x
      · subst hkx
        simp [nodeAt_of_not_mem h, Ne.symm hka]
      · rw [nodeAt_next none none (some k) hnd, hl]
        by_cases hax : a = x <;> rcases nodeAt none none l x with _ | y <;> simp [hkx, hax]
    · rcases l with _ | ⟨e, l⟩
      · simp at hl
      · rfl

/-- A value is written. -/
theorem setValue_linked (h : k ∉ l₁.map Prod.fst) (w : DrutaValue) :
    setValue k w (s.linked (l₁ ++ (k, v) :: l₂) none) =
      .ok ((), s.linked (l₁ ++ (k, w) :: l₂) none) := by
  obtain ⟨m, hm, hx, -⟩ := modifyNode_mem (fun n => { n with value := w })
    (s := s.linked (l₁ ++ (k, v) :: l₂) none) (k := k) (by simp [linked, mem_links])
  have hm' : m = links none none (l₁ ++ (k, w) :: l₂) := by
    refine Std.ExtTreeMap.ext_getElem? fun {x} => ?_
    rw [hx x]
    simp only [linked, getElem?_links, nodeAt_append, nodeAt, firstKey_cons]
    by_cases hk : k = x
    · subst hk
      simp [nodeAt_of_not_mem h]
    · simp [hk]
  unfold setValue
  rw [hm, hm']
  simp [linked, firstKey_append, lastKey_append, lastKey_cons]

theorem erase_linked (h : k ∉ l.map Prod.fst) :
    erase k (s.linked l (some (k, v))) = .ok ((), s.linked l none) := by
  have hm : ((links none none l).insert k { key := k, value := v }).erase k =
      links none none l := by
    refine Std.ExtTreeMap.ext_getElem? fun {x} => ?_
    rw [Std.ExtTreeMap.getElem?_erase, Std.ExtTreeMap.getElem?_insert]
    by_cases hk : k = x
    · subst hk
      simp [nodeAt_of_not_mem h]
    · simp [hk]
  change Except.ok ((), { s.linked l (some (k, v)) with
    kvStore := (s.linked l (some (k, v))).kvStore.erase k }) = _
  simp only [linked, hm]

theorem newNode_linked :
    newNode k v (s.linked l none) = .ok ((), s.linked l (some (k, v))) := rfl

end Linked

end Store

/-! ## The store of a recency list -/

namespace Recency

open Store

variable (r : Recency) {k : Bytes} {v : DrutaValue}

theorem nodeAt_entries (k : Bytes) :
    (nodeAt none none r.nodes.entries k).map (·.value) = r.find k :=
  @nodeAt_value instBEqOfDecidableEq inferInstance _ _ _ _

theorem find_toStore (k : Bytes) : Store.find k r.toStore = .ok (r.find k, r.toStore) := by
  simp only [Store.find, toStore, linked, getElem?_links, nodeAt_entries]

theorem deref_toStore (h : r.find k = some v) :
    ∃ n, deref k r.toStore = .ok (n, r.toStore) ∧ n.key = k ∧ n.value = v := by
  have hv : (nodeAt none none r.nodes.entries k).map (·.value) = some v :=
    (nodeAt_entries r k).trans h
  obtain ⟨n, hn, hnv⟩ := Option.map_eq_some_iff.1 hv
  have hk : r.toStore.kvStore[k]? = some n := by simp [toStore, linked, hn]
  exact ⟨n, deref_ok hk, nodeAt_key hn, hnv⟩

theorem deref_toStore_none (h : r.find k = none) :
    deref k r.toStore = .error .useAfterFree := by
  have hv : (nodeAt none none r.nodes.entries k).map (·.value) = none :=
    (nodeAt_entries r k).trans h
  have hk : r.toStore.kvStore[k]? = none := by simpa [toStore, linked] using hv
  simp only [deref, hk]

theorem setValue_toStore (h : r.find k = some v) (w : DrutaValue) :
    setValue k w r.toStore = .ok ((), toStore { r with nodes := r.nodes.replace k w }) := by
  obtain ⟨l₁, l₂, he, h₁, h₂⟩ := RecencyList.find_split h
  have hr := RecencyList.replace_entries he h₁ h₂ w
  have hlen : (r.nodes.replace k w).length = r.nodes.length := by
    simp [RecencyList.length, hr, he]
  simp only [toStore, he, hr, hlen]
  exact setValue_linked _ h₁ w

theorem noteWrap_toStore (b : Bool) :
    noteWrap b r.toStore = .ok ((), toStore { r with account := r.account.note b }) := rfl

theorem touchLru_toStore (k : Bytes) :
    touchLru k r.toStore = (r.touch k).map fun r' => ((), r'.toStore) := by
  unfold touchLru
  rw [bind_ok (m := get) rfl]
  rcases hf : r.find k with _ | v
  · have hne : r.toStore.head ≠ some k := fun hc =>
      RecencyList.find_eq_none_iff.1 hf (mem_of_lastKey hc)
    rw [if_neg hne, bind_error (m := detach k)]
    · simp only [touch, hf]
      rfl
    · exact bind_error (deref_toStore_none r hf)
  · obtain ⟨l₁, l₂, he, h₁, h₂⟩ := RecencyList.find_split hf
    have hrem := RecencyList.remove_entries he h₁ h₂
    have hpush : (r.nodes.push k v).entries = l₁ ++ l₂ ++ [(k, v)] := by
      rw [← hrem]
      rfl
    have hnd := r.nodes.nodup
    rw [he] at hnd
    have hlen : (r.nodes.push k v).length = r.nodes.length := by
      simp [RecencyList.length, hpush, he]
    have hres : toStore { r with nodes := r.nodes.push k v } =
        (r.account.store r.nodes.length).linked (l₁ ++ l₂ ++ [(k, v)]) none := by
      simp only [toStore, hpush, hlen]
    have hstore : r.toStore =
        (r.account.store r.nodes.length).linked (l₁ ++ (k, v) :: l₂) none := by
      rw [toStore, he]
    simp only [touch, hf]
    change _ = Except.ok ((), toStore _)
    rw [hres, hstore]
    split_ifs with hhead
    · rcases List.eq_nil_or_concat l₂ with rfl | ⟨m, ⟨a, u⟩, rfl⟩
      · simp only [List.append_nil]
        rfl
      · have hka : a = k := by
          simpa [linked, lastKey_append, lastKey_cons] using hhead
        simp [hka] at h₂
    · have hk : k ∉ (l₁ ++ l₂).map Prod.fst := by
        rw [List.map_append, List.mem_append, not_or]
        exact ⟨h₁, h₂⟩
      have hnd' : ((l₁ ++ l₂).map Prod.fst).Nodup := by
        rw [← hrem]
        exact (r.nodes.remove k).nodup
      rw [bind_ok (detach_linked _ hnd), attachHead_linked _ hnd' hk]

/-- One node is evicted. -/
theorem evictLru_linked (a : Account) (v : DrutaValue) {l : List (Bytes × DrutaValue)}
    (h : (((k, v) :: l).map Prod.fst).Nodup) :
    evictLru ((a.store (l.length + 1)).linked ((k, v) :: l) none) =
      .ok ((), ((a.evict (k, v)).store l.length).linked l none) := by
  have hk : k ∉ l.map Prod.fst := (List.nodup_cons.1 h).1
  have hn : ((a.store (l.length + 1)).linked ((k, v) :: l) none).kvStore[k]? =
      some { key := k, next := firstKey l, prev := none, value := v } := by
    simp [linked, nodeAt]
  have htail : ((a.store (l.length + 1)).linked ((k, v) :: l) none).tail = some k := rfl
  unfold evictLru
  rw [bind_ok (m := get) rfl, htail]
  dsimp only
  rw [bind_ok (deref_ok hn), bind_ok (m := modify _) rfl, bind_ok (m := subUsage _) rfl]
  have hnil : ((([] : List (Bytes × DrutaValue)) ++ (k, v) :: l).map Prod.fst).Nodup := h
  refine (bind_ok (detach_linked ((a.evict (k, v)).store (l.length + 1)) hnil)).trans ?_
  exact bind_ok (erase_linked ((a.evict (k, v)).store (l.length + 1)) hk)

theorem evictWhile_linked : ∀ (l : List (Bytes × DrutaValue)) (a : Account) (fuel : ℕ),
    (l.map Prod.fst).Nodup → l.length ≤ fuel →
    evictWhile fuel ((a.store l.length).linked l none) = .ok ((),
      ((RecencyList.shedList Account.exceeds Account.evict l a).2.store
        (RecencyList.shedList Account.exceeds Account.evict l a).1.length).linked
        (RecencyList.shedList Account.exceeds Account.evict l a).1 none)
  | [], a, fuel, _, _ => by
    cases fuel <;> simp [evictWhile, linked, RecencyList.shedList]
  | (k, v) :: l, a, 0, _, hf => by simp at hf
  | (k, v) :: l, a, fuel + 1, h, hf => by
    unfold evictWhile RecencyList.shedList
    by_cases ha : lruMaxMemory < a.usage
    · have hcond : lruMaxMemory <
          ((a.store ((k, v) :: l).length).linked ((k, v) :: l) none).currentMemoryUsage ∧
          ((a.store ((k, v) :: l).length).linked ((k, v) :: l) none).tail.isSome := ⟨ha, rfl⟩
      rw [if_pos hcond, if_pos (by simpa [Account.exceeds] using ha)]
      exact (bind_ok (evictLru_linked a v h)).trans
        (evictWhile_linked l (a.evict (k, v)) fuel (List.nodup_cons.1 h).2 (by simpa using hf))
    · have hcond : ¬ (lruMaxMemory <
          ((a.store ((k, v) :: l).length).linked ((k, v) :: l) none).currentMemoryUsage ∧
          ((a.store ((k, v) :: l).length).linked ((k, v) :: l) none).tail.isSome) :=
        fun hc => ha hc.1
      rw [if_neg hcond, if_neg (by simpa [Account.exceeds] using ha)]

theorem evictLoop_toStore : evictLoop r.toStore = .ok ((), r.settle.toStore) := by
  unfold evictLoop
  have hsize : r.toStore.kvStore.size = r.nodes.entries.length := size_links r.nodes.nodup
  rw [bind_ok (m := get) rfl, hsize]
  exact evictWhile_linked r.nodes.entries r.account _ r.nodes.nodup le_rfl

theorem notifyMemoryChange_toStore (oldSize newSize : ℕ) :
    notifyMemoryChange oldSize newSize r.toStore = .ok ((), (r.notify oldSize newSize).toStore) :=
  (bind_ok (m := modify _) rfl).trans
    (evictLoop_toStore ⟨r.nodes, r.account.notify oldSize newSize⟩)

/-- A new node is put in front of all others. -/
theorem addLru_toStore (h : r.find k = none) (v : DrutaValue) :
    (newNode k v >>= fun _ => addLru k) r.toStore = .ok ((), (r.add k v).toStore) := by
  have hk : k ∉ r.nodes.entries.map Prod.fst := RecencyList.find_eq_none_iff.1 h
  have hpush : (r.nodes.push k v).entries = r.nodes.entries ++ [(k, v)] := by
    change (r.nodes.remove k).entries ++ _ = _
    rw [RecencyList.remove_of_find_none h]
  have hlen : (r.nodes.push k v).length = r.nodes.length + 1 := by
    simp [RecencyList.length, hpush]
  have hn : ((r.account.store r.nodes.length).linked r.nodes.entries (some (k, v))).kvStore[k]? =
      some { key := k, value := v } := by
    simp [linked]
  have hadd : toStore ⟨r.nodes.push k v,
      { r.account with usage := addSize r.account.usage (nodeUsage k v) }⟩ =
      (Account.store { r.account with usage := addSize r.account.usage (nodeUsage k v) }
        (r.nodes.length + 1)).linked (r.nodes.entries ++ [(k, v)]) none := by
    simp only [toStore, hpush, hlen]
  refine (bind_ok (newNode_linked _)).trans ?_
  unfold addLru
  rw [bind_ok (deref_ok hn), bind_ok (m := modify _) rfl]
  refine (bind_ok (attachHead_linked (Account.store
    { r.account with usage := addSize r.account.usage (nodeUsage k v) } r.nodes.length)
    r.nodes.nodup hk)).trans ?_
  rw [bind_ok (m := modify _) rfl]
  refine Eq.trans ?_ (evictLoop_toStore _)
  rw [hadd]
  rfl

theorem removeFromLru_toStore (h : r.find k = some v) :
    (removeFromLru k >>= fun _ => erase k) r.toStore = .ok ((), (r.drop k).toStore) := by
  obtain ⟨n, hn, hnk, hnv⟩ := deref_toStore r h
  obtain ⟨l₁, l₂, he, h₁, h₂⟩ := RecencyList.find_split h
  have hrem := RecencyList.remove_entries he h₁ h₂
  have hlen : (r.nodes.remove k).length = r.nodes.length - 1 := by
    simp [RecencyList.length, hrem, he]
  have hnd := r.nodes.nodup
  rw [he] at hnd
  have hk : k ∉ (l₁ ++ l₂).map Prod.fst := by
    rw [List.map_append, List.mem_append, not_or]
    exact ⟨h₁, h₂⟩
  have hdrop : (r.drop k).toStore =
      ((r.account.release k v).store (r.nodes.length - 1)).linked (l₁ ++ l₂) none := by
    simp only [drop, h, toStore, hrem, hlen]
  have husage : n.getMemoryUsage = nodeUsage k v := by rw [DrutaNode.getMemoryUsage, hnk, hnv]
  have hremove : removeFromLru k r.toStore = .ok ((),
      ((r.account.release k v).store (r.nodes.length - 1)).linked (l₁ ++ l₂) (some (k, v))) := by
    unfold removeFromLru
    rw [bind_ok hn, husage, bind_ok (m := subUsage _) rfl]
    have hstore : ∀ a : Account, (a.store r.nodes.length).linked r.nodes.entries none =
        (a.store r.nodes.length).linked (l₁ ++ (k, v) :: l₂) none := fun a => by rw [he]
    refine (bind_ok ((congrArg _ (hstore (r.account.release k v))).trans
      (detach_linked _ hnd))).trans rfl
  rw [bind_ok hremove, hdrop]
  exact erase_linked _ hk

end Recency

end DrutaDB
