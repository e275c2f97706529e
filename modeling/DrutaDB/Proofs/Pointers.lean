import DrutaDB.Proofs.Linked

/-!
# The list of pointers

`HEAD`, `TAIL`, `next` and `prev` stand for a sequence of keys, the least recently used first
(`Represents`).  The operations of `lru.cpp` do to the sequence what their names say
(`lru_refines`), and the eviction loops take its shortest beginning that brings the memory down to
the limit (`evict_until_safe`).  Other nodes may be owned, and are left alone.
-/

namespace DrutaDB

open Machine Capacity Store

namespace Store

/-- `next` of the node of a key. -/
def nextOf (s : Store) (key : Bytes) : Option Bytes := s.kvStore[key]?.bind (·.next)

/-- `prev` of the node of a key. -/
def prevOf (s : Store) (key : Bytes) : Option Bytes := s.kvStore[key]?.bind (·.prev)

/-- The node of a key without its links. -/
def content (s : Store) (key : Bytes) : Option (Bytes × DrutaValue) :=
  s.kvStore[key]?.map fun n => (n.key, n.value)

/-- What the nodes of the keys count for. -/
def usageOf (s : Store) (l : List Bytes) : ℕ :=
  (l.map fun key => (s.kvStore[key]?.map DrutaNode.getMemoryUsage).getD 0).sum

end Store

/-- The pointers stand for the sequence, from `TAIL` to `HEAD`. -/
structure Represents (s : Store) (l : List Bytes) : Prop where
  nodup : l.Nodup
  tail : s.tail = l.head?
  head : s.head = l.getLast?
  node : ∀ l₁ k l₂, l = l₁ ++ k :: l₂ → ∃ v,
    s.kvStore[k]? = some { key := k, next := l₂.head?, prev := l₁.getLast?, value := v }

/-- What the pointers show of themselves. -/
structure WellFormed (s : Store) (l : List Bytes) : Prop where
  inverse : ∀ a ∈ l, ∀ b ∈ l, s.nextOf a = some b ↔ s.prevOf b = some a
  next_mem : ∀ a ∈ l, ∀ b, s.nextOf a = some b → b ∈ l
  prev_mem : ∀ b ∈ l, ∀ a, s.prevOf b = some a → a ∈ l
  next_head : ∀ k, s.head = some k → s.nextOf k = none
  prev_tail : ∀ k, s.tail = some k → s.prevOf k = none
  head_none : s.head = none ↔ l = []
  tail_none : s.tail = none ↔ l = []

/-- The first keys of the sequence are evicted: so many that what is left is within the limit, and
no fewer. -/
structure Evicted (s : Store) (l : List Bytes) (n : ℕ) (s' : Store) : Prop where
  represents : Represents s' (l.drop n)
  content : ∀ key, s'.content key = if key ∈ l.take n then none else s.content key
  announced : s'.evicted = s.evicted ++ l.take n
  usage : s'.currentMemoryUsage = s'.usageOf (l.drop n)
  safe : s'.currentMemoryUsage ≤ lruMaxMemory
  shortest : ∀ m < n, lruMaxMemory < s.usageOf (l.drop m)
  wrapped : s'.wrapped = s.wrapped

section Represents

variable {s : Store} {l l₁ l₂ : List Bytes} {k : Bytes}

namespace Represents

theorem nextOf (h : Represents s (l₁ ++ k :: l₂)) : s.nextOf k = l₂.head? := by
  obtain ⟨v, hv⟩ := h.node l₁ k l₂ rfl
  simp [Store.nextOf, hv]

theorem prevOf (h : Represents s (l₁ ++ k :: l₂)) : s.prevOf k = l₁.getLast? := by
  obtain ⟨v, hv⟩ := h.node l₁ k l₂ rfl
  simp [Store.prevOf, hv]

theorem mem_kvStore (h : Represents s l) (hk : k ∈ l) : k ∈ s.kvStore := by
  obtain ⟨l₁, l₂, hl⟩ := List.mem_iff_append.1 hk
  obtain ⟨v, hv⟩ := h.node l₁ k l₂ hl
  rw [Std.ExtTreeMap.mem_iff_isSome_getElem?, hv]
  rfl

theorem wellFormed (h : Represents s l) : WellFormed s l where
  inverse a ha b hb := by
    constructor
    · intro hab
      obtain ⟨l₁, l₂, rfl⟩ := List.mem_iff_append.1 ha
      rw [h.nextOf] at hab
      obtain ⟨l₃, rfl⟩ := List.head?_eq_some_iff.1 hab
      rw [List.append_cons] at h
      rw [h.prevOf, List.getLast?_concat]
    · intro hba
      obtain ⟨l₁, l₂, rfl⟩ := List.mem_iff_append.1 hb
      rw [h.prevOf] at hba
      obtain ⟨l₀, rfl⟩ := List.getLast?_eq_some_iff.1 hba
      rw [← List.append_cons] at h
      rw [h.nextOf, List.head?_cons]
  next_mem a ha b hab := by
    obtain ⟨l₁, l₂, rfl⟩ := List.mem_iff_append.1 ha
    rw [h.nextOf] at hab
    simp [List.mem_of_head? hab]
  prev_mem b hb a hab := by
    obtain ⟨l₁, l₂, rfl⟩ := List.mem_iff_append.1 hb
    rw [h.prevOf] at hab
    simp [List.mem_of_getLast? hab]
  next_head k hk := by
    rw [h.head] at hk
    obtain ⟨l₁, rfl⟩ := List.getLast?_eq_some_iff.1 hk
    exact h.nextOf
  prev_tail k hk := by
    rw [h.tail] at hk
    obtain ⟨l₂, rfl⟩ := List.head?_eq_some_iff.1 hk
    have h' : Represents s ([] ++ k :: l₂) := h
    exact h'.prevOf
  head_none := by rw [h.head, List.getLast?_eq_none_iff]
  tail_none := by rw [h.tail, List.head?_eq_none_iff]

/-- Counters and loose nodes have no part in it. -/
theorem congr {s' : Store} (h : Represents s l) (hkv : s'.kvStore = s.kvStore)
    (hhead : s'.head = s.head) (htail : s'.tail = s.tail) : Represents s' l :=
  ⟨h.nodup, htail ▸ h.tail, hhead ▸ h.head, hkv ▸ h.node⟩

end Represents

/-- Where a key of two sequences is. -/
theorem split_cases {a b : List Bytes} (h : l₁ ++ l₂ = a ++ k :: b) :
    (∃ c, l₁ = a ++ k :: c ∧ b = c ++ l₂) ∨ ∃ c, l₂ = c ++ k :: b ∧ a = l₁ ++ c := by
  rcases List.append_eq_append_iff.1 h with ⟨c, ha, hl₂⟩ | ⟨c, hl₁, hb⟩
  · exact .inr ⟨c, hl₂, ha⟩
  · rcases c with _ | ⟨x, c⟩
    · exact .inr ⟨[], by simpa using hb.symm, by simpa using hl₁.symm⟩
    · obtain ⟨rfl, rfl⟩ := List.cons.inj hb
      exact .inl ⟨c, hl₁, rfl⟩

/-! ## Detaching and attaching -/

/-- A node is taken out of the sequence; its links are null from then on. -/
theorem detach_represents (h : Represents s (l₁ ++ k :: l₂)) : ∃ m,
    detach k s = .ok ((), { s with
      kvStore := m, head := (l₁ ++ l₂).getLast?, tail := (l₁ ++ l₂).head? }) ∧
    Represents { s with
      kvStore := m, head := (l₁ ++ l₂).getLast?, tail := (l₁ ++ l₂).head? } (l₁ ++ l₂) ∧
    (∃ v, m[k]? = some { key := k, value := v }) ∧
    ∀ key, m[key]?.map (fun n => (n.key, n.value)) = s.content key := by
  obtain ⟨v, hn⟩ := h.node l₁ k l₂ rfl
  obtain ⟨m, hm, hx⟩ := detach_ok hn
    (fun p hp => h.mem_kvStore (by simp [List.mem_of_getLast? hp]))
    (fun q hq => h.mem_kvStore (by simp [List.mem_of_head? hq]))
  have htail : (if l₁.getLast? = none then l₂.head? else s.tail) = (l₁ ++ l₂).head? := by
    rcases l₁ with _ | ⟨a, l₁⟩
    · rfl
    · rw [if_neg (by simp), h.tail]
      rfl
  have hhead : (if l₂.head? = none then l₁.getLast? else s.head) = (l₁ ++ l₂).getLast? := by
    rcases l₂ with _ | ⟨b, l₂⟩
    · simp
    · rw [if_neg (by simp), h.head]
      simp [List.getLast?_append, List.getLast?_cons]
  have hnodup := h.nodup
  rw [List.nodup_append, List.nodup_cons] at hnodup
  obtain ⟨hd₁, ⟨hk₂, hd₂⟩, hdisj⟩ := hnodup
  refine ⟨m, ?_, ⟨?_, rfl, rfl, fun a x b hl => ?_⟩, ⟨v, by rw [hx k, if_pos rfl]⟩, fun key => ?_⟩
  · simp only [htail, hhead] at hm
    exact hm
  · exact List.nodup_append.2 ⟨hd₁, hd₂, fun x hx₁ y hy => hdisj x hx₁ y (List.mem_cons_of_mem k hy)⟩
  · rcases split_cases hl with ⟨c, rfl, rfl⟩ | ⟨c, rfl, rfl⟩
    · have hkx : k ≠ x := fun hc => hdisj x (by simp) k List.mem_cons_self hc.symm
      have hq : l₂.head? ≠ some x := fun hc =>
        hdisj x (by simp) x (List.mem_cons_of_mem k (List.mem_of_head? hc)) rfl
      obtain ⟨w, hw⟩ := h.node a x (c ++ k :: l₂) (by simp)
      refine ⟨w, ?_⟩
      change m[x]? = _
      rw [hx x, if_neg hkx, hw]
      rcases c with _ | ⟨y, c⟩
      · simp [relink, hq]
      · have hp : (y :: c).getLast? ≠ some x := fun hc =>
          (List.nodup_cons.1 (List.nodup_append.1 hd₁).2.1).1 (List.mem_of_getLast? hc)
        simp [relink, hq, hp]
    · have hkx : k ≠ x := fun hc => hk₂ (by simp [hc])
      have hp : l₁.getLast? ≠ some x := fun hc =>
        hdisj x (List.mem_of_getLast? hc) x (by simp) rfl
      obtain ⟨w, hw⟩ := h.node (l₁ ++ k :: c) x b (by simp)
      refine ⟨w, ?_⟩
      change m[x]? = _
      rw [hx x, if_neg hkx, hw]
      rcases c with _ | ⟨y, c⟩
      · simp [relink, hp]
      · have hq : y ≠ x := fun hc =>
          (List.nodup_cons.1 hd₂).1 (by simp [hc])
        simp [relink, hp, hq, List.getLast?_append, List.getLast?_cons]
  · rw [hx key]
    split_ifs with hkey
    · rw [Store.content, ← hkey, hn]
      rfl
    · rw [Option.map_map]
      rfl

/-- A fresh node is put behind the sequence. -/
theorem attachHead_represents (h : Represents s l) (hk : k ∉ l) {v : DrutaValue}
    (hv : s.kvStore[k]? = some { key := k, value := v }) : ∃ m,
    attachHead k s = .ok ((), { s with
      kvStore := m, head := some k, tail := (l ++ [k]).head? }) ∧
    Represents { s with kvStore := m, head := some k, tail := (l ++ [k]).head? } (l ++ [k]) ∧
    ∀ key, m[key]?.map (fun n => (n.key, n.value)) = s.content key := by
  have hnodup : (l ++ [k]).Nodup :=
    List.nodup_append.2 ⟨h.nodup, List.nodup_singleton k, fun a ha b hb hab => hk (by
      rw [← List.mem_singleton.1 hb, ← hab]
      exact ha)⟩
  unfold attachHead
  rw [bind_ok (m := get) rfl]
  rcases List.eq_nil_or_concat' l with rfl | ⟨init, q, rfl⟩
  · have hhead : s.head = none := h.head
    rw [hhead]
    refine ⟨s.kvStore, rfl, ⟨hnodup, rfl, rfl, fun a x b hl => ?_⟩, fun key => rfl⟩
    obtain ⟨rfl, rfl, rfl⟩ : a = [] ∧ x = k ∧ b = [] := by
      rcases a with _ | ⟨y, a⟩ <;> simp_all
    exact ⟨v, hv⟩
  · have hhead : s.head = some q := by rw [h.head, List.getLast?_concat]
    have hq : q ∈ s.kvStore := h.mem_kvStore (by simp)
    have hkq : k ≠ q := fun hc => hk (by simp [hc])
    have hks : k ∈ s.kvStore := by
      rw [Std.ExtTreeMap.mem_iff_isSome_getElem?, hv]
      rfl
    obtain ⟨m₁, hm₁, hx₁, hmem⟩ := modifyNode_mem (fun n => { n with prev := some q }) hks
    obtain ⟨m, hm, hx, -⟩ := modifyNode_mem (fun n => { n with next := some k })
      (s := { s with kvStore := m₁ }) ((hmem q).2 hq)
    have htail : s.tail = (init ++ [q] ++ [k]).head? := by
      rw [h.tail]
      rcases init with _ | ⟨a, init⟩ <;> rfl
    refine ⟨m, ?_, ⟨hnodup, rfl, by simp, fun a x b hl => ?_⟩, fun key => ?_⟩
    · rw [hhead]
      dsimp only
      rw [bind_ok hm₁, bind_ok hm, ← htail]
      rfl
    · change ∃ w, m[x]? = _
      simp only [hx x, hx₁ x]
      rcases split_cases hl with ⟨c, hc, rfl⟩ | ⟨c, hc, rfl⟩
      · have hkx : k ≠ x := fun heq => hk (by rw [hc, heq]; simp)
        obtain ⟨w, hw⟩ := h.node a x c hc
        refine ⟨w, ?_⟩
        rw [if_neg hkx, hw]
        rcases c with _ | ⟨y, c⟩
        · obtain rfl : q = x := List.singleton_inj.1 (List.append_inj' hc rfl).2
          simp
        · have hlast : (y :: c).getLast? = some q := by
            have hl' := congrArg List.getLast? hc
            rw [List.getLast?_concat] at hl'
            simpa [List.getLast?_append, List.getLast?_cons] using hl'.symm
          have hqx : q ≠ x := fun heq => by
            have hn := h.nodup
            rw [hc, List.nodup_append, List.nodup_cons] at hn
            exact hn.2.1.1 (heq ▸ List.mem_of_getLast? hlast)
          rw [if_neg hqx]
          rfl
      · obtain ⟨rfl, rfl, rfl⟩ : c = [] ∧ x = k ∧ b = [] := by
          rcases c with _ | ⟨y, c⟩ <;> simp_all
        refine ⟨v, ?_⟩
        rw [if_neg (Ne.symm hkq), if_pos rfl, hv]
        simp
    · rw [hx key]
      simp only [hx₁ key]
      split_ifs <;> rw [Store.content] <;> simp [Option.map_map, Function.comp_def]

/-! ## The operations -/

theorem touchLru_represents (h : Represents s l) (hk : k ∈ l) : ∃ s', touchLru k s = .ok ((), s') ∧
    Represents s' (l.erase k ++ [k]) ∧ ∀ key, s'.content key = s.content key := by
  obtain ⟨l₁, l₂, rfl, hk₁⟩ := List.eq_append_cons_of_mem hk
  rw [List.erase_append_right _ hk₁, List.erase_cons_head]
  have hnodup := h.nodup
  rw [List.nodup_append, List.nodup_cons] at hnodup
  unfold touchLru
  rw [bind_ok (m := get) rfl]
  split_ifs with hhead
  · have hnil : l₂ = [] := by
      rcases List.eq_nil_or_concat' l₂ with rfl | ⟨init, q, rfl⟩
      · rfl
      · rw [h.head, ← List.cons_append, ← List.append_assoc, List.getLast?_concat] at hhead
        exact absurd (by simp [Option.some.inj hhead]) hnodup.2.1.1
    subst hnil
    exact ⟨s, rfl, by rwa [List.append_nil], fun key => rfl⟩
  · obtain ⟨m, hm, hrep, ⟨v, hv⟩, hcontent⟩ := detach_represents h
    have hk₂ : k ∉ l₁ ++ l₂ := by
      rw [List.mem_append, not_or]
      exact ⟨hk₁, hnodup.2.1.1⟩
    obtain ⟨m', hm', hrep', hcontent'⟩ := attachHead_represents hrep hk₂ hv
    exact ⟨_, (bind_ok hm).trans hm', hrep', fun key => (hcontent' key).trans (hcontent key)⟩

theorem removeFromLru_represents (h : Represents s l) (hk : k ∈ l) :
    ∃ s', removeFromLru k s = .ok ((), s') ∧ Represents s' (l.erase k) ∧
      s'.nextOf k = none ∧ s'.prevOf k = none ∧ ∀ key, s'.content key = s.content key := by
  obtain ⟨l₁, l₂, rfl, hk₁⟩ := List.eq_append_cons_of_mem hk
  rw [List.erase_append_right _ hk₁, List.erase_cons_head]
  obtain ⟨w, hw⟩ := h.node l₁ k l₂ rfl
  obtain ⟨m, hm, hrep, ⟨v, hv⟩, hcontent⟩ := detach_represents (h.congr rfl rfl rfl :
    Represents { s with
      currentMemoryUsage := subSize s.currentMemoryUsage (nodeUsage k w)
      wrapped := s.wrapped || decide (s.currentMemoryUsage < nodeUsage k w) } _)
  refine ⟨_, (bind_ok (deref_ok hw)).trans ((bind_ok (m := subUsage _) rfl).trans
    ((bind_ok hm).trans rfl)), hrep.congr rfl rfl rfl, ?_, ?_, hcontent⟩
  · simp [Store.nextOf, hv]
  · simp [Store.prevOf, hv]

/-- A node that is not linked is freed. -/
theorem Represents.erase (h : Represents s l) (hk : k ∉ l) :
    Represents { s with kvStore := s.kvStore.erase k } l := by
  refine ⟨h.nodup, h.tail, h.head, fun a x b hl => ?_⟩
  obtain ⟨v, hv⟩ := h.node a x b hl
  have hkx : k ≠ x := fun hc => hk (by rw [hl, hc]; simp)
  refine ⟨v, ?_⟩
  change (s.kvStore.erase k)[x]? = _
  rw [Std.ExtTreeMap.getElem?_erase, if_neg (by simpa using hkx), hv]

theorem evictLru_represents (h : Represents s (k :: l)) : ∃ s', evictLru s = .ok ((), s') ∧
    Represents s' l ∧ (∀ key, s'.content key = if key = k then none else s.content key) ∧
    s'.evicted = s.evicted ++ [k] ∧
    s'.currentMemoryUsage = subSize s.currentMemoryUsage (s.usageOf [k]) ∧
    s'.wrapped = (s.wrapped || decide (s.currentMemoryUsage < s.usageOf [k])) := by
  obtain ⟨w, hw⟩ := h.node [] k l rfl
  have husage : s.usageOf [k] = nodeUsage k w := by
    simp [Store.usageOf, hw, DrutaNode.getMemoryUsage]
  have htail : s.tail = some k := h.tail
  have hreleased : Represents { s with
      evicted := s.evicted ++ [k]
      currentMemoryUsage := subSize s.currentMemoryUsage (nodeUsage k w)
      wrapped := s.wrapped || decide (s.currentMemoryUsage < nodeUsage k w) } ([] ++ k :: l) :=
    h.congr rfl rfl rfl
  obtain ⟨m, hm, hrep, -, hcontent⟩ := detach_represents hreleased
  unfold evictLru
  rw [bind_ok (m := get) rfl, htail]
  dsimp only
  rw [bind_ok (deref_ok hw), bind_ok (m := modify _) rfl, bind_ok (m := subUsage _) rfl, husage]
  refine ⟨_, (bind_ok hm).trans ((bind_ok (m := Store.erase k) rfl).trans rfl), ?_, fun key => ?_,
    rfl, rfl, rfl⟩
  · exact (hrep.erase (List.nodup_cons.1 h.nodup).1).congr rfl rfl rfl
  · change (m.erase k)[key]?.map _ = _
    rw [Std.ExtTreeMap.getElem?_erase]
    split_ifs with hk hk' hk' <;> rw [Std.LawfulEqCmp.compare_eq_iff_eq] at hk
    · rfl
    · exact absurd hk.symm hk'
    · exact absurd hk'.symm hk
    · exact hcontent key

/-- `add_lru` up to its loop. -/
theorem addLru_represents (h : Represents s l) (hk : k ∉ l) {v : DrutaValue}
    (hv : s.kvStore[k]? = some { key := k, value := v }) : ∃ s', addLru k s = evictLoop s' ∧
      Represents s' (l ++ [k]) ∧ (∀ key, s'.content key = s.content key) ∧
      s'.currentMemoryUsage = addSize s.currentMemoryUsage (nodeUsage k v) ∧
      s'.evicted = s.evicted ∧ s'.wrapped = s.wrapped := by
  obtain ⟨m, hm, hrep, hcontent⟩ := attachHead_represents (h.congr rfl rfl rfl : Represents { s with
    currentMemoryUsage := addSize s.currentMemoryUsage (nodeUsage k v) } _) hk hv
  exact ⟨_, (bind_ok (deref_ok hv)).trans ((bind_ok (m := modify _) rfl).trans ((bind_ok hm).trans
    (bind_ok (m := modify _) rfl))), hrep.congr rfl rfl rfl, hcontent, rfl, rfl, rfl⟩

theorem evictLoop_of_le (h : s.currentMemoryUsage ≤ lruMaxMemory) : evictLoop s = .ok ((), s) := by
  unfold evictLoop
  rw [bind_ok (m := get) rfl]
  have hnot : ¬ (lruMaxMemory < s.currentMemoryUsage ∧ s.tail.isSome) := fun hc => by omega
  cases s.kvStore.size <;> exact if_neg hnot

/-- The operations of `lru.cpp` on the pointers are those on the sequence. -/
theorem lru_refines (h : Represents s l) :
    WellFormed s l ∧
    (∀ k ∈ l, ∃ s', touchLru k s = .ok ((), s') ∧ Represents s' (l.erase k ++ [k]) ∧
      WellFormed s' (l.erase k ++ [k]) ∧ ∀ key, s'.content key = s.content key) ∧
    (∀ k ∈ l, ∃ s', removeFromLru k s = .ok ((), s') ∧ Represents s' (l.erase k) ∧
      WellFormed s' (l.erase k) ∧ s'.nextOf k = none ∧ s'.prevOf k = none ∧
      ∀ key, s'.content key = s.content key) ∧
    (∀ k rest, l = k :: rest → ∃ s', evictLru s = .ok ((), s') ∧ Represents s' rest ∧
      WellFormed s' rest ∧ ∀ key, s'.content key = if key = k then none else s.content key) ∧
    (l = [] → evictLru s = .ok ((), s)) ∧
    (∀ k ∉ l, ∀ v, s.kvStore[k]? = some { key := k, value := v } →
      addSize s.currentMemoryUsage (nodeUsage k v) ≤ lruMaxMemory →
      ∃ s', addLru k s = .ok ((), s') ∧ Represents s' (l ++ [k]) ∧ WellFormed s' (l ++ [k]) ∧
        ∀ key, s'.content key = s.content key) := by
  refine ⟨h.wellFormed, fun k hk => ?_, fun k hk => ?_, ?_, ?_, fun k hk v hv hle => ?_⟩
  · obtain ⟨s', hs', hrep, hcontent⟩ := touchLru_represents h hk
    exact ⟨s', hs', hrep, hrep.wellFormed, hcontent⟩
  · obtain ⟨s', hs', hrep, hnext, hprev, hcontent⟩ := removeFromLru_represents h hk
    exact ⟨s', hs', hrep, hrep.wellFormed, hnext, hprev, hcontent⟩
  · rintro k rest rfl
    obtain ⟨s', hs', hrep, hcontent, -⟩ := evictLru_represents h
    exact ⟨s', hs', hrep, hrep.wellFormed, hcontent⟩
  · rintro rfl
    have htail : s.tail = none := h.tail
    unfold evictLru
    rw [bind_ok (m := get) rfl, htail]
    rfl
  · obtain ⟨s', hs', hrep, hcontent, husage, -, -⟩ := addLru_represents h hk hv
    rw [← husage] at hle
    exact ⟨s', hs'.trans (evictLoop_of_le hle), hrep, hrep.wellFormed, hcontent⟩

/-! ## The eviction loop -/

theorem usageOf_congr {s' : Store} (h : ∀ key ∈ l, s'.content key = s.content key) :
    s'.usageOf l = s.usageOf l := by
  have husage : ∀ (s : Store) (key : Bytes), (s.kvStore[key]?.map DrutaNode.getMemoryUsage).getD 0 =
      ((s.content key).map fun p => nodeUsage p.1 p.2).getD 0 := by
    intro s key
    rw [Store.content, Option.map_map]
    rfl
  unfold Store.usageOf
  refine congrArg List.sum (List.map_congr_left fun key hkey => ?_)
  rw [husage, husage, h key hkey]

theorem usageOf_cons (s : Store) (k : Bytes) (l : List Bytes) :
    s.usageOf (k :: l) = s.usageOf [k] + s.usageOf l := by
  simp [Store.usageOf]

/-- Nothing is evicted within the limit. -/
theorem Evicted.zero (h : Represents s l) (husage : s.currentMemoryUsage = s.usageOf l)
    (hle : s.currentMemoryUsage ≤ lruMaxMemory) : Evicted s l 0 s where
  represents := h
  content key := by rw [List.take_zero, if_neg List.not_mem_nil]
  announced := by rw [List.take_zero, List.append_nil]
  usage := husage
  safe := hle
  shortest m hm := absurd hm (Nat.not_lt_zero m)
  wrapped := rfl

/-- One key is evicted before others. -/
theorem Evicted.succ {s₁ s' : Store} {n : ℕ} (h : Represents s (k :: l))
    (hexceeds : lruMaxMemory < s.usageOf (k :: l))
    (hcontent : ∀ key, s₁.content key = if key = k then none else s.content key)
    (hannounced : s₁.evicted = s.evicted ++ [k]) (hwrapped : s₁.wrapped = s.wrapped)
    (hrest : Evicted s₁ l n s') : Evicted s (k :: l) (n + 1) s' where
  represents := hrest.represents
  content key := by
    by_cases hk : key = k <;> by_cases hmem : key ∈ l.take n <;>
      simp [hrest.content, hcontent, hk, hmem]
  announced := by
    rw [hrest.announced, hannounced, List.append_assoc]
    rfl
  usage := hrest.usage
  safe := hrest.safe
  shortest m hm := by
    rcases m with _ | m
    · exact hexceeds
    · have hk : k ∉ l := (List.nodup_cons.1 h.nodup).1
      have hsame : s₁.usageOf (l.drop m) = s.usageOf (l.drop m) := usageOf_congr fun key hkey => by
        have hne : key ≠ k := fun hc => hk (hc ▸ List.mem_of_mem_drop hkey)
        rw [hcontent, if_neg hne]
      rw [List.drop_succ_cons, ← hsame]
      exact hrest.shortest m (by omega)
  wrapped := hrest.wrapped.trans hwrapped

/-- While the counter is the usage of the sequence, the loop evicts until that is within the
limit. -/
theorem evictWhile_represents : ∀ {l : List Bytes} {s : Store} {fuel : ℕ}, Represents s l →
    l.length ≤ fuel → s.currentMemoryUsage < 2 ^ 64 → s.currentMemoryUsage = s.usageOf l →
      ∃ n s', evictWhile fuel s = .ok ((), s') ∧ Evicted s l n s'
  | [], s, fuel, h, _, _, husage => by
    have hle : s.currentMemoryUsage ≤ lruMaxMemory := husage.trans_le (Nat.zero_le _)
    refine ⟨0, s, ?_, .zero h husage hle⟩
    cases fuel <;> exact if_neg fun hc => absurd hc.1 (not_lt.2 hle)
  | k :: l, s, 0, h, hfuel, _, _ => by
    simp at hfuel
  | k :: l, s, fuel + 1, h, hfuel, hlt, husage => by
    rcases le_or_gt s.currentMemoryUsage lruMaxMemory with hle | hexceeds
    · exact ⟨0, s, if_neg fun hc => absurd hc.1 (not_lt.2 hle), .zero h husage hle⟩
    · obtain ⟨s₁, hs₁, hrep, hcontent, hannounced, hsub, hwrapped⟩ := evictLru_represents h
      have hcons := usageOf_cons s k l
      have hk : k ∉ l := (List.nodup_cons.1 h.nodup).1
      have hrest : s₁.usageOf l = s.usageOf l := usageOf_congr fun key hkey => by
        have hne : key ≠ k := fun hc => hk (hc ▸ hkey)
        rw [hcontent, if_neg hne]
      have husage₁ : s₁.currentMemoryUsage = s₁.usageOf l := by
        rw [hsub, subSize_eq (by omega) hlt]
        omega
      have hwrapped₁ : s₁.wrapped = s.wrapped := by
        rw [hwrapped, decide_eq_false (by omega), Bool.or_false]
      obtain ⟨n, s', hs', hevicted⟩ := evictWhile_represents hrep
        (Nat.le_of_succ_le_succ hfuel) (by omega) husage₁
      refine ⟨n + 1, s', ?_, .succ h (husage ▸ hexceeds) hcontent hannounced hwrapped₁ hevicted⟩
      have htail : s.tail.isSome := by
        rw [h.tail]
        rfl
      exact (if_pos ⟨hexceeds, htail⟩).trans ((bind_ok hs₁).trans hs')

/-- A round for each owned node is enough. -/
theorem length_le_size (h : Represents s l) : l.length ≤ s.kvStore.size := by
  rw [← Std.ExtTreeMap.length_keys]
  refine (List.subperm_of_subset h.nodup fun key hkey => ?_).length_le
  exact Std.ExtTreeMap.mem_keys.2 (h.mem_kvStore hkey)

theorem evictLoop_represents (h : Represents s l) (hlt : s.currentMemoryUsage < 2 ^ 64)
    (husage : s.currentMemoryUsage = s.usageOf l) :
    ∃ n s', evictLoop s = .ok ((), s') ∧ Evicted s l n s' :=
  evictWhile_represents h (length_le_size h) hlt husage

theorem Evicted.congr {s₁ s' : Store} {n : ℕ} (h : Evicted s₁ l n s')
    (hcontent : ∀ key, s₁.content key = s.content key) (hannounced : s₁.evicted = s.evicted)
    (hwrapped : s₁.wrapped = s.wrapped) : Evicted s l n s' where
  represents := h.represents
  content key := by rw [h.content, hcontent]
  announced := by rw [h.announced, hannounced]
  usage := h.usage
  safe := h.safe
  shortest m hm := by
    rw [← usageOf_congr fun key _ => hcontent key]
    exact h.shortest m hm
  wrapped := h.wrapped.trans hwrapped

end Represents

/-- Where the counter is the usage of the sequence once the increase is applied, the loops of
`add_lru` and `notify_memory_change` end, having evicted the shortest beginning of the sequence
that brings the usage down to the limit. -/
theorem evict_until_safe {s : Store} {l : List Bytes} (h : Represents s l)
    (hsize : s.currentMemoryUsage < 2 ^ 64) :
    (∀ oldSize newSize, notified s.currentMemoryUsage oldSize newSize = s.usageOf l →
      ∃ n s', notifyMemoryChange oldSize newSize s = .ok ((), s') ∧ Evicted s l n s') ∧
    (∀ k ∉ l, ∀ v, s.kvStore[k]? = some { key := k, value := v } →
      addSize s.currentMemoryUsage (nodeUsage k v) = s.usageOf (l ++ [k]) →
      ∃ n s', addLru k s = .ok ((), s') ∧ Evicted s (l ++ [k]) n s') := by
  constructor
  · intro oldSize newSize husage
    have hlt : notified s.currentMemoryUsage oldSize newSize < 2 ^ 64 := by
      unfold notified
      split_ifs
      · exact addSize_lt _ _
      · omega
      · omega
    have hrep : Represents { s with
        currentMemoryUsage := notified s.currentMemoryUsage oldSize newSize } l :=
      h.congr rfl rfl rfl
    obtain ⟨n, s', hs', hevicted⟩ := evictLoop_represents hrep hlt husage
    exact ⟨n, s', (bind_ok (m := modify _) rfl).trans hs',
      hevicted.congr (fun _ => rfl) rfl rfl⟩
  · intro k hk v hv husage
    obtain ⟨s₁, hs₁, hrep, hcontent, hadd, hannounced, hwrapped⟩ := addLru_represents h hk hv
    have hlt : s₁.currentMemoryUsage < 2 ^ 64 := hadd.trans_lt (addSize_lt _ _)
    have husage₁ : s₁.currentMemoryUsage = s₁.usageOf (l ++ [k]) := by
      rw [hadd, husage, usageOf_congr fun key _ => hcontent key]
    obtain ⟨n, s', hs', hevicted⟩ := evictLoop_represents hrep hlt husage₁
    exact ⟨n, s', hs₁.trans hs', hevicted.congr hcontent hannounced hwrapped⟩

/-! ## The store of a recency list -/

namespace Recency

variable (r : Recency)

theorem node_toStore {l₁ l₂ : List (Bytes × DrutaValue)} {k : Bytes} {v : DrutaValue}
    (he : r.nodes.entries = l₁ ++ (k, v) :: l₂) : r.toStore.kvStore[k]? =
      some { key := k, next := firstKey l₂, prev := lastKey l₁, value := v } := by
  have hnodup := r.nodes.nodup
  rw [he, List.map_append, List.map_cons, List.nodup_append] at hnodup
  have hk : k ∉ l₁.map Prod.fst := fun hc => hnodup.2.2 k hc k List.mem_cons_self rfl
  rw [toStore, he]
  simp [linked, nodeAt_append, nodeAt, nodeAt_of_not_mem hk]

theorem represents_toStore : Represents r.toStore r.nodes.keys where
  nodup := r.nodes.nodup
  tail := List.head?_map.symm
  head := List.getLast?_map.symm
  node l₁ k l₂ hl := by
    obtain ⟨e₁, e, he, rfl, hrest⟩ := List.map_eq_append_iff.1 hl
    obtain ⟨⟨k', v⟩, e₂, rfl, rfl, rfl⟩ := List.map_eq_cons_iff.1 hrest
    refine ⟨v, ?_⟩
    rw [r.node_toStore he, firstKey, lastKey, List.head?_map, List.getLast?_map]

/-- The sum that the counter is to be. -/
def totalUsage : ℕ := (r.nodes.entries.map fun e => nodeUsage e.1 e.2).sum

theorem usageOf_toStore : r.toStore.usageOf r.nodes.keys = r.totalUsage := by
  unfold Store.usageOf totalUsage RecencyList.keys
  rw [List.map_map]
  refine congrArg List.sum (List.map_congr_left fun e he => ?_)
  obtain ⟨l₁, l₂, hl⟩ := List.mem_iff_append.1 he
  have he' : r.nodes.entries = l₁ ++ (e.1, e.2) :: l₂ := hl
  simp [r.node_toStore he', DrutaNode.getMemoryUsage]

end Recency

/-- Two strings. -/
def twoStrings : Recency where
  nodes := ⟨[([97], .ofString [120] 0), ([98], .ofString [121] 0)], by decide⟩
  account := { usage := 400 }

theorem lru_refines_touch : ∃ s', touchLru [97] twoStrings.toStore = .ok ((), s') ∧
    Represents s' [[98], [97]] := by
  obtain ⟨s', hs', hrep, -⟩ :=
    (lru_refines twoStrings.represents_toStore).2.1 [97] (List.mem_cons_self)
  exact ⟨s', hs', hrep⟩

/-- A string beside one that alone takes up the memory limit. -/
def oneLarge : Recency where
  nodes := ⟨[([97], ⟨.string [120], 0, lruMaxMemory⟩), ([98], .ofString [121] 0)], by decide⟩
  account := { usage := lruMaxMemory + 353 }

/-- What was counted last makes the usage exceed the limit, and the first key is evicted. -/
theorem evict_until_safe_large : ∃ n s', notifyMemoryChange 3 47 oneLarge.toStore = .ok ((), s') ∧
    s'.evicted = [[97]] ∧ Evicted oneLarge.toStore [[97], [98]] n s' := by
  obtain ⟨n, s', hs', hevicted⟩ :=
    (evict_until_safe oneLarge.represents_toStore (by decide)).1 3 47 (by
      rw [Recency.usageOf_toStore]
      decide)
  obtain ⟨o, ho, hgone⟩ := Run.exists_of_any (P := fun o => o.2.evicted = [[97]])
    (x := notifyMemoryChange 3 47 oneLarge.toStore) (by decide +kernel)
  obtain rfl := Except.ok.inj (hs'.symm.trans ho)
  exact ⟨n, s', hs', hgone, hevicted⟩

end DrutaDB
