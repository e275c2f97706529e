import Mathlib.Tactic

/-!
# Recency lists

Entries by key, each key once, in the order of their last use.  An entry is found by its key,
removed, replaced where it is, or pushed behind all others, and the oldest entries are shed while
a budget is exceeded.
-/

/-- Entries with distinct keys, the least recently used first. -/
@[ext]
structure RecencyList (α β : Type*) where
  entries : List (α × β)
  nodup : (entries.map Prod.fst).Nodup

namespace RecencyList

variable {α β σ : Type*}

/-- No entries. -/
def empty : RecencyList α β := ⟨[], List.nodup_nil⟩

def keys (l : RecencyList α β) : List α := l.entries.map Prod.fst

def length (l : RecencyList α β) : ℕ := l.entries.length

section Shed

variable (exceeds : σ → Bool) (drop : σ → α × β → σ)

/-- The oldest entries are dropped while the budget is exceeded. -/
def shedList : List (α × β) → σ → List (α × β) × σ
  | [], s => ([], s)
  | e :: l, s => if exceeds s then shedList l (drop s e) else (e :: l, s)

theorem shedList_suffix : ∀ (l : List (α × β)) (s : σ), (shedList exceeds drop l s).1 <:+ l
  | [], _ => List.suffix_rfl
  | e :: l, s => by
    unfold shedList
    split_ifs
    · exact (shedList_suffix l _).trans (List.suffix_cons e l)
    · exact List.suffix_rfl

theorem shedList_of_not_exceeds {s : σ} (h : exceeds s = false) (l : List (α × β)) :
    shedList exceeds drop l s = (l, s) := by
  cases l <;> simp [shedList, h]

/-- Once it stops, the budget is kept or nothing is left. -/
theorem shedList_stop : ∀ (l : List (α × β)) (s : σ),
    exceeds (shedList exceeds drop l s).2 = false ∨ (shedList exceeds drop l s).1 = []
  | [], _ => .inr rfl
  | e :: l, s => by
    unfold shedList
    split_ifs with h
    · exact shedList_stop l _
    · exact .inl (by simpa using h)

/-- Shedding `l` and then what follows it. -/
theorem shedList_append : ∀ (l m : List (α × β)) (s : σ),
    shedList exceeds drop (l ++ m) s = if (shedList exceeds drop l s).1 = [] then
      shedList exceeds drop m (shedList exceeds drop l s).2
      else ((shedList exceeds drop l s).1 ++ m, (shedList exceeds drop l s).2)
  | [], m, s => by simp [shedList]
  | e :: l, m, s => by
    by_cases h : exceeds s
    · simp only [List.cons_append, shedList, h, if_true, shedList_append l m]
    · simp [shedList, h]

/-- The entries `l` are shed in order, each while the budget is exceeded. -/
theorem shedList_induction {I : σ → Prop} (hd : ∀ s e, I s → exceeds s = true → I (drop s e)) :
    ∀ (l : List (α × β)) {s : σ}, I s → I (shedList exceeds drop l s).2
  | [], _, hs => hs
  | e :: l, s, hs => by
    unfold shedList
    split_ifs with h
    · exact shedList_induction hd l (hd s e hs h)
    · exact hs

/-- Shedding looks at the budget only through what decides and what is dropped. -/
theorem shedList_map {τ : Type*} {exceeds' : τ → Bool} {drop' : τ → α × β → τ} {g : σ → τ}
    (he : ∀ s, exceeds' (g s) = exceeds s) (hd : ∀ s e, drop' (g s) e = g (drop s e)) :
    ∀ (l : List (α × β)) (s : σ), shedList exceeds' drop' l (g s) =
      ((shedList exceeds drop l s).1, g (shedList exceeds drop l s).2)
  | [], _ => rfl
  | e :: l, s => by
    unfold shedList
    rw [he, hd]
    split_ifs
    · exact shedList_map he hd l _
    · rfl

/-- Shedding the oldest entries of a recency list. -/
def shed (l : RecencyList α β) (s : σ) : RecencyList α β × σ :=
  (⟨(shedList exceeds drop l.entries s).1,
    l.nodup.sublist ((shedList_suffix exceeds drop l.entries s).sublist.map _)⟩,
    (shedList exceeds drop l.entries s).2)

theorem shed_of_not_exceeds {s : σ} (h : exceeds s = false) (l : RecencyList α β) :
    l.shed exceeds drop s = (l, s) := by
  simp only [shed, shedList_of_not_exceeds exceeds drop h]

end Shed

variable [DecidableEq α]

def find (l : RecencyList α β) (k : α) : Option β := l.entries.lookup k

def remove (l : RecencyList α β) (k : α) : RecencyList α β :=
  ⟨l.entries.filter (·.1 ≠ k), l.nodup.sublist (List.filter_sublist.map _)⟩

/-- The entry of the key, if there is one, gets another value where it is. -/
def replace (l : RecencyList α β) (k : α) (v : β) : RecencyList α β :=
  ⟨l.entries.map fun p => if p.1 = k then (k, v) else p, by
    have h : (l.entries.map fun p => if p.1 = k then (k, v) else p).map Prod.fst =
        l.entries.map Prod.fst := by
      rw [List.map_map]
      refine List.map_congr_left fun p _ => ?_
      by_cases hp : p.1 = k <;> simp [hp]
    rw [h]
    exact l.nodup⟩

/-- The entry of the key becomes the most recently used. -/
def push (l : RecencyList α β) (k : α) (v : β) : RecencyList α β :=
  ⟨(l.remove k).entries ++ [(k, v)], by
    rw [List.map_append, List.map_singleton, List.nodup_append]
    refine ⟨(l.remove k).nodup, List.nodup_singleton k, ?_⟩
    rintro a ha b hb rfl
    obtain ⟨p, hp, rfl⟩ := List.mem_map.1 ha
    simp only [remove, List.mem_filter, decide_eq_true_eq] at hp
    exact hp.2 (List.mem_singleton.1 hb)⟩

section Find

variable {l : RecencyList α β} {k k' : α} {v v' : β}

theorem find_eq_some_iff : l.find k = some v ↔ (k, v) ∈ l.entries := by
  unfold find
  rw [List.lookup_eq_some_iff]
  refine ⟨?_, fun h => ?_⟩
  · rintro ⟨l₁, l₂, h, -⟩
    rw [h]
    simp
  · obtain ⟨l₁, l₂, h⟩ := List.append_of_mem h
    refine ⟨l₁, l₂, h, fun p hp => ?_⟩
    have hnd := l.nodup
    rw [h, List.map_append, List.map_cons, List.nodup_append] at hnd
    have := hnd.2.2 p.1 (List.mem_map_of_mem hp) k List.mem_cons_self
    simpa using fun hc => this hc.symm

theorem find_eq_none_iff : l.find k = none ↔ k ∉ l.keys := by
  unfold find keys
  rw [List.lookup_eq_none_iff]
  simp only [bne_iff_ne, List.mem_map, not_exists, not_and]
  exact ⟨fun h p hp hk => by simpa [hk] using h p hp, fun h p hp => by
    simpa using fun hc => h p hp hc.symm⟩

theorem mem_keys_of_find (h : l.find k = some v) : k ∈ l.keys := by
  by_contra hk
  rw [find_eq_none_iff.2 hk] at h
  simp at h

/-- An entry stands somewhere, with others before and behind it. -/
theorem find_split (h : l.find k = some v) :
    ∃ l₁ l₂, l.entries = l₁ ++ (k, v) :: l₂ ∧ k ∉ l₁.map Prod.fst ∧ k ∉ l₂.map Prod.fst := by
  obtain ⟨l₁, l₂, he⟩ := List.append_of_mem (find_eq_some_iff.1 h)
  refine ⟨l₁, l₂, he, ?_⟩
  have hnd := l.nodup
  rw [he, List.map_append, List.map_cons, List.nodup_append, List.nodup_cons] at hnd
  exact ⟨fun hk => hnd.2.2 k hk k List.mem_cons_self rfl, hnd.2.1.1⟩

theorem filter_ne_of_not_mem {es : List (α × β)} (h : k ∉ es.map Prod.fst) :
    es.filter (·.1 ≠ k) = es := by
  refine List.filter_eq_self.2 fun p hp => ?_
  simp only [decide_eq_true_eq]
  rintro rfl
  exact h (List.mem_map_of_mem hp)

theorem remove_of_find_none (h : l.find k = none) : l.remove k = l :=
  RecencyList.ext (filter_ne_of_not_mem (find_eq_none_iff.1 h))

theorem remove_entries {l₁ l₂ : List (α × β)} (he : l.entries = l₁ ++ (k, v) :: l₂)
    (h₁ : k ∉ l₁.map Prod.fst) (h₂ : k ∉ l₂.map Prod.fst) :
    (l.remove k).entries = l₁ ++ l₂ := by
  simp only [remove, he, List.filter_append]
  rw [filter_ne_of_not_mem h₁, List.filter_cons_of_neg (by simp), filter_ne_of_not_mem h₂]

/-- A new key goes behind all others. -/
theorem entries_push_of_find_none (h : l.find k = none) (v : β) :
    (l.push k v).entries = l.entries ++ [(k, v)] := by
  change (l.remove k).entries ++ [(k, v)] = _
  rw [remove_of_find_none h]

theorem length_push_of_find (h : l.find k = some v) (w : β) :
    (l.push k w).entries.length = l.entries.length := by
  obtain ⟨l₁, l₂, he, h₁, h₂⟩ := find_split h
  change ((l.remove k).entries ++ [(k, w)]).length = _
  rw [remove_entries he h₁ h₂, he]
  simp only [List.length_append, List.length_cons, List.length_nil]
  omega

theorem map_replace_of_not_mem {es : List (α × β)} (h : k ∉ es.map Prod.fst) (v : β) :
    es.map (fun p => if p.1 = k then (k, v) else p) = es := by
  conv_rhs => rw [← List.map_id es]
  refine List.map_congr_left fun p hp => if_neg ?_
  rintro rfl
  exact h (List.mem_map_of_mem hp)

theorem replace_entries {l₁ l₂ : List (α × β)} (he : l.entries = l₁ ++ (k, v) :: l₂)
    (h₁ : k ∉ l₁.map Prod.fst) (h₂ : k ∉ l₂.map Prod.fst) (v' : β) :
    (l.replace k v').entries = l₁ ++ (k, v') :: l₂ := by
  simp only [replace, he, List.map_append, List.map_cons, if_true]
  rw [map_replace_of_not_mem h₁, map_replace_of_not_mem h₂]

/-- What is found after a removal. -/
theorem find_remove (l : RecencyList α β) (k k' : α) :
    (l.remove k).find k' = if k' = k then none else l.find k' := by
  ext v
  rw [find_eq_some_iff]
  split_ifs with h
  · simp [remove, h]
  · rw [find_eq_some_iff]
    simp [remove, h]

theorem find_push (l : RecencyList α β) (k k' : α) (v : β) :
    (l.push k v).find k' = if k' = k then some v else l.find k' := by
  have h := find_remove l k k'
  unfold find at h ⊢
  rw [push, List.lookup_append, h]
  by_cases hk : k' = k
  · simp [hk]
  · simp [hk, List.lookup_cons, beq_eq_false_iff_ne.2 hk]

theorem find_replace (l : RecencyList α β) (k k' : α) (v : β) :
    (l.replace k v).find k' = if k' = k then (l.find k).map fun _ => v else l.find k' := by
  rcases hf : l.find k with _ | w
  · have he : l.replace k v = l :=
      RecencyList.ext (map_replace_of_not_mem (find_eq_none_iff.1 hf) v)
    rw [he]
    split_ifs with hk
    · rw [hk, hf]
      rfl
    · rfl
  · obtain ⟨l₁, l₂, he, h₁, h₂⟩ := find_split hf
    have hr := replace_entries he h₁ h₂ v
    unfold find
    rw [hr, he, List.lookup_append, List.lookup_append, List.lookup_cons, List.lookup_cons]
    split_ifs with hk
    · have hn : l₁.lookup k = none := by
        rw [List.lookup_eq_none_iff]
        intro p hp
        simpa using fun hc : k = p.1 => h₁ (hc ▸ List.mem_map_of_mem hp)
      rw [hk, hn]
      simp
    · simp [beq_eq_false_iff_ne.2 hk]

theorem remove_push (l : RecencyList α β) (k : α) (v : β) :
    (l.push k v).remove k = l.remove k := by
  refine RecencyList.ext ?_
  simp [push, remove, List.filter_append, List.filter_filter]

theorem remove_replace (l : RecencyList α β) (k : α) (v : β) :
    (l.replace k v).remove k = l.remove k := by
  refine RecencyList.ext ?_
  simp only [replace, remove, List.filter_map]
  rcases hf : l.find k with _ | w
  · rw [filter_ne_of_not_mem (find_eq_none_iff.1 hf)]
    have hk := find_eq_none_iff.1 hf
    have hfilter : l.entries.filter ((fun p => decide (p.1 ≠ k)) ∘
        fun p => if p.1 = k then (k, v) else p) = l.entries :=
      List.filter_eq_self.2 fun p hp => by
        have : p.1 ≠ k := fun hc => hk (hc ▸ List.mem_map_of_mem hp)
        simp [this]
    rw [hfilter, map_replace_of_not_mem hk]
  · obtain ⟨l₁, l₂, he, h₁, h₂⟩ := find_split hf
    have hr := remove_entries (l := l.replace k v) (replace_entries he h₁ h₂ v) h₁ h₂
    have hl := remove_entries he h₁ h₂
    simp only [remove, replace, List.filter_map] at hr hl
    rw [hr, hl]

/-- Pushing looks at the other entries only. -/
theorem push_push (l : RecencyList α β) (k : α) (v v' : β) :
    (l.push k v).push k v' = l.push k v' := by
  refine RecencyList.ext ?_
  change ((l.push k v).remove k).entries ++ _ = (l.remove k).entries ++ _
  rw [remove_push]

theorem push_replace (l : RecencyList α β) (k : α) (v v' : β) :
    (l.replace k v).push k v' = l.push k v' := by
  refine RecencyList.ext ?_
  change ((l.replace k v).remove k).entries ++ _ = (l.remove k).entries ++ _
  rw [remove_replace]

theorem replace_push (l : RecencyList α β) (k : α) (v v' : β) :
    (l.push k v).replace k v' = l.push k v' := by
  refine RecencyList.ext ?_
  have hk : k ∉ (l.remove k).entries.map Prod.fst := by
    rw [← keys, ← find_eq_none_iff, find_remove, if_pos rfl]
  simp only [replace, push, List.map_append]
  rw [map_replace_of_not_mem hk]
  simp

theorem keys_push (l : RecencyList α β) (k : α) (v : β) :
    (l.push k v).keys = (l.remove k).keys ++ [k] := by
  simp [keys, push]

theorem keys_replace (l : RecencyList α β) (k : α) (v : β) : (l.replace k v).keys = l.keys := by
  unfold keys replace
  rw [List.map_map]
  refine List.map_congr_left fun p _ => ?_
  by_cases hp : p.1 = k <;> simp [hp]

theorem keys_remove (l : RecencyList α β) (k : α) :
    (l.remove k).keys = l.keys.filter fun a => decide (a ≠ k) := by
  simp [keys, remove, List.filter_map, Function.comp_def]

theorem not_mem_keys_remove (l : RecencyList α β) (k : α) : k ∉ (l.remove k).keys := by
  rw [← find_eq_none_iff, find_remove, if_pos rfl]

end Find

/-! ## The order of accesses -/

section Related

variable {R R' : α → β → β → Prop} {l l' : RecencyList α β} {k : α} {v w : β}

/-- The same keys in the same order, with related values. -/
def Related (R : α → β → β → Prop) (l l' : RecencyList α β) : Prop :=
  List.Forall₂ (fun e e' => e.1 = e'.1 ∧ R e.1 e.2 e'.2) l.entries l'.entries

omit [DecidableEq α] in
theorem related_empty : Related R (empty : RecencyList α β) empty := List.Forall₂.nil

theorem Related.find (h : Related R l l') (k : α) : l.find k = none ∧ l'.find k = none ∨
    ∃ v w, l.find k = some v ∧ l'.find k = some w ∧ R k v w := by
  unfold Related at h
  unfold RecencyList.find
  generalize l.entries = es, l'.entries = es' at h ⊢
  induction h with
  | nil => exact .inl ⟨rfl, rfl⟩
  | @cons e e' es es' he _ ih =>
    obtain ⟨k₁, v⟩ := e
    obtain ⟨k₂, w⟩ := e'
    obtain ⟨rfl, hR⟩ : k₁ = k₂ ∧ R k₁ v w := he
    rw [List.lookup_cons, List.lookup_cons]
    by_cases hk : k = k₁
    · subst hk
      exact .inr ⟨v, w, by simp, by simp, hR⟩
    · rw [beq_false_of_ne hk]
      exact ih

theorem Related.remove (h : Related R l l') (hR : ∀ k' v w, k' ≠ k → R k' v w → R' k' v w) :
    Related R' (l.remove k) (l'.remove k) := by
  change List.Forall₂ _ (l.entries.filter (·.1 ≠ k)) (l'.entries.filter (·.1 ≠ k))
  unfold Related at h
  generalize l.entries = es, l'.entries = es' at h ⊢
  induction h with
  | nil => exact .nil
  | @cons e e' es es' he _ ih =>
    by_cases hk : e.1 = k
    · rwa [List.filter_cons_of_neg (by simpa using hk),
        List.filter_cons_of_neg (by simpa [← he.1] using hk)]
    · rw [List.filter_cons_of_pos (by simpa using hk),
        List.filter_cons_of_pos (by simpa [← he.1] using hk)]
      exact .cons ⟨he.1, hR _ _ _ hk he.2⟩ ih

theorem Related.push (h : Related R l l') (hR : ∀ k' v w, k' ≠ k → R k' v w → R' k' v w)
    (hk : R' k v w) : Related R' (l.push k v) (l'.push k w) :=
  List.rel_append (h.remove hR) (.cons ⟨rfl, hk⟩ .nil)

theorem Related.replace (h : Related R l l') (hR : ∀ k' v w, k' ≠ k → R k' v w → R' k' v w)
    (hk : R' k v w) : Related R' (l.replace k v) (l'.replace k w) := by
  change List.Forall₂ _ (l.entries.map fun p => if p.1 = k then (k, v) else p)
    (l'.entries.map fun p => if p.1 = k then (k, w) else p)
  unfold Related at h
  generalize l.entries = es, l'.entries = es' at h ⊢
  induction h with
  | nil => exact .nil
  | @cons e e' es es' he _ ih =>
    rw [List.map_cons, List.map_cons]
    refine .cons ?_ ih
    by_cases hk' : e.1 = k
    · rw [if_pos hk', if_pos (he.1 ▸ hk')]
      exact ⟨rfl, hk⟩
    · rw [if_neg hk', if_neg (he.1 ▸ hk')]
      exact ⟨he.1, hR _ _ _ hk' he.2⟩

omit [DecidableEq α] in
/-- Related entries are shed together where they count the same. -/
theorem Related.shed (exceeds : σ → Bool) {drop : σ → α × β → σ}
    (hdrop : ∀ s k v w, R k v w → drop s (k, v) = drop s (k, w)) (h : Related R l l') (s : σ) :
    Related R (l.shed exceeds drop s).1 (l'.shed exceeds drop s).1 ∧
      (l.shed exceeds drop s).2 = (l'.shed exceeds drop s).2 := by
  change List.Forall₂ _ (shedList exceeds drop l.entries s).1 (shedList exceeds drop l'.entries s).1 ∧
    (shedList exceeds drop l.entries s).2 = (shedList exceeds drop l'.entries s).2
  unfold Related at h
  generalize l.entries = es, l'.entries = es' at h ⊢
  induction h generalizing s with
  | nil => exact ⟨.nil, rfl⟩
  | @cons e e' es es' he hes ih =>
    obtain ⟨k₁, v⟩ := e
    obtain ⟨k₂, w⟩ := e'
    obtain ⟨rfl, hR⟩ : k₁ = k₂ ∧ R k₁ v w := he
    unfold shedList
    split_ifs
    · rw [hdrop s k₁ v w hR]
      exact ih _
    · exact ⟨.cons ⟨rfl, hR⟩ hes, rfl⟩

end Related

section Age

variable {hist : List (List α)} {ks l₁ l₂ : List α} {k : α}

/-- How many accesses have passed since the key was last among them; a history has its latest
access first. -/
def age (hist : List (List α)) (k : α) : ℕ := hist.findIdx fun ks => decide (k ∈ ks)

theorem age_cons_of_mem (hist : List (List α)) (h : k ∈ ks) : age (ks :: hist) k = 0 := by
  simp [age, List.findIdx_cons, h]

theorem age_cons_of_not_mem (hist : List (List α)) (h : k ∉ ks) :
    age (ks :: hist) k = age hist k + 1 := by
  simp [age, List.findIdx_cons, h]

/-- The keys stand in the order of their last accesses, the oldest first. -/
def Ordered (hist : List (List α)) (l : List α) : Prop :=
  l.Pairwise fun a b => age hist b ≤ age hist a

/-- An access to the keys behind all others keeps the order, whatever their own was. -/
theorem Ordered.access (h : Ordered hist l₁) (h₁ : ∀ a ∈ l₁, a ∉ ks) (h₂ : ∀ b ∈ l₂, b ∈ ks) :
    Ordered (ks :: hist) (l₁ ++ l₂) := by
  refine List.pairwise_append.2 ⟨?_, ?_, fun a _ b hb => ?_⟩
  · refine h.imp_of_mem fun ha hb hab => ?_
    rw [age_cons_of_not_mem hist (h₁ _ ha), age_cons_of_not_mem hist (h₁ _ hb)]
    omega
  · refine List.pairwise_of_forall_mem_list fun a _ b hb => ?_
    rw [age_cons_of_mem hist (h₂ b hb)]
    exact Nat.zero_le _
  · rw [age_cons_of_mem hist (h₂ b hb)]
    exact Nat.zero_le _

end Age

end RecencyList
