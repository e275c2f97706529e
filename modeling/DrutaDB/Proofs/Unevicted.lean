import DrutaDB.Proofs.Outcomes

/-!
# Effects that evict nothing

The eviction loop leaves the list as it is exactly where the counter does not exceed the limit
(`settle_of_le`, `le_of_settle`).  So an effect that evicts nothing has the outcome it would have
without a limit (`perform_after`).
-/

namespace DrutaDB

open Machine Decimal Capacity

theorem Store.notified_self (u n : ℕ) : Store.notified u n n = u := by
  unfold Store.notified
  split_ifs <;> omega

namespace Account

/-- A node joins the account. -/
def join (a : Account) (k : Bytes) (v : DrutaValue) : Account :=
  { a with usage := addSize a.usage (nodeUsage k v) }

/-- What an effect with a change of size makes of the account. -/
def change (a : Account) (c : Option (ℕ × ℕ)) (wraps : Bool) : Account :=
  match c with
  | some (oldSize, newSize) => (a.note wraps).notify oldSize newSize
  | none => a.note wraps

end Account

namespace Effect

/-- The list after the effect if nothing is evicted. -/
def after (key : Bytes) (r : Recency) : Effect → Recency
  | .keep => r
  | .drop => r.drop key
  | .assign v c wraps => ⟨r.nodes.push key v, r.account.change c wraps⟩
  | .pop v oldSize newSize wraps =>
    ⟨r.nodes.push key v, r.account.change (some (oldSize, newSize)) wraps⟩
  | .create v => ⟨r.nodes.push key v, r.account.join key v⟩
  | .createAssign v₀ v oldSize newSize wraps =>
    ⟨r.nodes.push key v, (r.account.join key v₀).change (some (oldSize, newSize)) wraps⟩
  | .fail _ => r

/-- The counters at which the eviction loop runs. -/
def counters (key : Bytes) (a : Account) : Effect → List ℕ
  | .assign _ (some (oldSize, newSize)) _ => [Store.notified a.usage oldSize newSize]
  | .pop _ oldSize newSize _ => [Store.notified a.usage oldSize newSize]
  | .create v => [(a.join key v).usage]
  | .createAssign v₀ _ oldSize newSize _ =>
    [(a.join key v₀).usage, Store.notified (a.join key v₀).usage oldSize newSize]
  | _ => []

end Effect

namespace Recency

variable {r r' : Recency} {k : Bytes} {v w : DrutaValue} {e : Effect}

theorem settle_of_le (h : r.account.usage ≤ lruMaxMemory) : r.settle = r := by
  have hexc : r.account.exceeds = false := by simpa [Account.exceeds] using h
  unfold settle
  rw [RecencyList.shed_of_not_exceeds _ _ hexc]

/-- The keys evicted so far stay. -/
theorem evicted_shedList (l : List (Bytes × DrutaValue)) (a : Account) :
    a.evicted <+: (RecencyList.shedList Account.exceeds Account.evict l a).2.evicted := by
  refine RecencyList.shedList_induction (I := fun b : Account => a.evicted <+: b.evicted) _ _ ?_ l
    List.prefix_rfl
  intro b e hb _
  exact hb.trans (List.prefix_append b.evicted [e.1])

theorem evicted_settle (r : Recency) : r.account.evicted <+: r.settle.account.evicted :=
  evicted_shedList r.nodes.entries r.account

theorem evicted_notify (r : Recency) (oldSize newSize : ℕ) :
    r.account.evicted <+: (r.notify oldSize newSize).account.evicted :=
  evicted_settle ⟨r.nodes, r.account.notify oldSize newSize⟩

/-- An eviction loop that evicted nothing did not have to. -/
theorem le_of_settle (hr : r.nodes.entries ≠ [])
    (h : r.settle.account.evicted = r.account.evicted) : r.account.usage ≤ lruMaxMemory := by
  by_contra hc
  have hexc : r.account.exceeds = true := by simpa [Account.exceeds] using hc
  obtain ⟨e, l, he⟩ := List.exists_cons_of_ne_nil hr
  have hpre := evicted_shedList l (r.account.evict e)
  have hset : r.settle.account =
      (RecencyList.shedList Account.exceeds Account.evict l (r.account.evict e)).2 := by
    simp only [settle, RecencyList.shed, he, RecencyList.shedList, hexc, if_true]
  rw [← hset, h] at hpre
  have hlen := hpre.length_le
  simp [Account.evict] at hlen

theorem entries_push_ne_nil (l : RecencyList Bytes DrutaValue) (k : Bytes) (v : DrutaValue) :
    (l.push k v).entries ≠ [] := by
  simp [RecencyList.push]

theorem entries_ne_nil_of_find (h : r.find k = some v) : r.nodes.entries ≠ [] :=
  List.ne_nil_of_mem (RecencyList.find_eq_some_iff.1 h)

theorem entries_replace_ne_nil (h : r.find k = some v) (w : DrutaValue) :
    (r.nodes.replace k w).entries ≠ [] := by
  simpa [RecencyList.replace] using entries_ne_nil_of_find h

theorem find_write (h : r.find k = some v) (w : DrutaValue) (b : Bool) :
    (r.write k w b).find k = some w := by
  have hf : r.nodes.find k = some v := h
  simp [find, write, RecencyList.find_replace, hf]

/-- Writing, notifying and touching a key that is there. -/
theorem assign_of_le (h : r.find k = some v) (w : DrutaValue) {oldSize newSize : ℕ} (b : Bool)
    (hle : Store.notified r.account.usage oldSize newSize ≤ lruMaxMemory) :
    r.assign k w (some (oldSize, newSize)) b =
      .ok ⟨r.nodes.push k w, r.account.change (some (oldSize, newSize)) b⟩ := by
  have hs : (r.write k w b).notify oldSize newSize =
      ⟨(r.write k w b).nodes, (r.write k w b).account.notify oldSize newSize⟩ :=
    settle_of_le hle
  have hf : (⟨(r.write k w b).nodes, (r.write k w b).account.notify oldSize newSize⟩ :
      Recency).find k = some w := find_write h w b
  simp only [assign, hs]
  rw [touch_eq _ hf]
  simp only [write, RecencyList.push_replace]
  rfl

/-- What evicted nothing kept the limit. -/
theorem le_of_assign (h : r.find k = some v) {oldSize newSize : ℕ} {b : Bool}
    (ha : r.assign k w (some (oldSize, newSize)) b = .ok r')
    (hev : r'.account.evicted = r.account.evicted) :
    Store.notified r.account.usage oldSize newSize ≤ lruMaxMemory := by
  refine le_of_settle (r := ⟨(r.write k w b).nodes, (r.write k w b).account.notify oldSize newSize⟩)
    (entries_replace_ne_nil h w) ?_
  unfold assign touch at ha
  dsimp only at ha
  split at ha
  · rw [← Except.ok.inj ha] at hev
    exact hev
  · cases ha

/-- An effect that keeps the limit has the outcome it would have without one. -/
theorem perform_of_le (hfit : e.Fits (r.find k)) (hf : ∀ f, e ≠ .fail f)
    (hle : ∀ u ∈ e.counters k r.account, u ≤ lruMaxMemory) :
    r.perform k e = .ok (e.after k r) := by
  cases e with
  | keep => rfl
  | drop => rfl
  | fail f => exact absurd rfl (hf f)
  | create w => exact congrArg Except.ok (settle_of_le (hle _ List.mem_cons_self))
  | assign w c b =>
    obtain ⟨v, hv⟩ := Option.isSome_iff_exists.1 hfit
    rcases c with _ | ⟨oldSize, newSize⟩
    · exact touch_write r hv w b
    · exact assign_of_le hv w b (hle _ List.mem_cons_self)
  | pop w oldSize newSize b =>
    obtain ⟨v, hv⟩ := Option.isSome_iff_exists.1 hfit
    have hs := hle _ List.mem_cons_self
    rw [perform, touch_eq r hv]
    refine congrArg Except.ok ((settle_of_le hs).trans ?_)
    simp only [write, RecencyList.replace_push]
    rfl
  | createAssign v₀ w oldSize newSize b =>
    have hadd : r.add k v₀ = ⟨r.nodes.push k v₀, r.account.join k v₀⟩ :=
      settle_of_le (hle _ List.mem_cons_self)
    have hv : (⟨r.nodes.push k v₀, r.account.join k v₀⟩ : Recency).find k = some v₀ := by
      simp [find, RecencyList.find_push]
    have hle₂ := hle _ (List.mem_cons_of_mem _ List.mem_cons_self)
    simp only [perform, hadd, hv]
    rw [assign_of_le hv w b hle₂]
    simp only [RecencyList.push_push]
    rfl

/-- No effect takes an eviction back. -/
theorem evicted_perform (h : r.perform k e = .ok r') : r.account.evicted <+: r'.account.evicted := by
  have htouch : ∀ {q q' : Recency}, q.touch k = .ok q' → q'.account = q.account := by
    intro q q' ht
    unfold touch at ht
    split at ht
    · rw [← Except.ok.inj ht]
    · cases ht
  have hassign : ∀ {q : Recency} {w : DrutaValue} {c : Option (ℕ × ℕ)} {b : Bool},
      q.assign k w c b = .ok r' → q.account.evicted <+: r'.account.evicted := by
    intro q w c b ha
    rcases c with _ | ⟨oldSize, newSize⟩
    · rw [htouch ha]
      exact List.prefix_rfl
    · rw [htouch ha]
      exact evicted_notify (q.write k w b) oldSize newSize
  cases e with
  | keep => rw [← Except.ok.inj h]
  | drop =>
    rw [← Except.ok.inj h]
    unfold drop
    split
    · exact List.prefix_rfl
    · exact List.prefix_rfl
  | fail f => cases h
  | create w =>
    rw [← Except.ok.inj h]
    exact evicted_settle ⟨r.nodes.push k w, r.account.join k w⟩
  | assign w c b => exact hassign h
  | pop w oldSize newSize b =>
    simp only [perform] at h
    rcases ht : r.touch k with f | q <;> rw [ht] at h
    · cases h
    · rw [← Except.ok.inj h, ← htouch ht]
      exact evicted_notify (q.write k w b) oldSize newSize
  | createAssign v₀ w oldSize newSize b =>
    simp only [perform] at h
    split at h
    · exact (evicted_settle ⟨r.nodes.push k v₀, r.account.join k v₀⟩).trans (hassign h)
    · cases h

theorem evicted_of_touch {b : Bool} (h : r.perform k (.assign w none b) = .ok r') :
    r'.account.evicted = r.account.evicted := by
  simp only [perform, assign, touch] at h
  split at h
  · rw [← Except.ok.inj h]
    rfl
  · cases h

theorem eq_of_prefix_prefix {α : Type*} {a b c : List α} (hab : a <+: b) (hbc : b <+: c)
    (h : c = a) : b = a :=
  (hab.eq_of_length_le (h ▸ hbc.length_le)).symm

/-- What evicted nothing kept the limit all along. -/
theorem le_of_perform (hfit : e.Fits (r.find k)) (h : r.perform k e = .ok r')
    (hev : r'.account.evicted = r.account.evicted) :
    ∀ u ∈ e.counters k r.account, u ≤ lruMaxMemory := by
  cases e with
  | keep => simp [Effect.counters]
  | drop => simp [Effect.counters]
  | fail f => simp [Effect.counters]
  | create w =>
    obtain rfl := Except.ok.inj h
    simpa [Effect.counters] using le_of_settle (r := ⟨r.nodes.push k w, r.account.join k w⟩)
      (entries_push_ne_nil _ _ _) hev
  | assign w c b =>
    obtain ⟨v, hv⟩ := Option.isSome_iff_exists.1 hfit
    rcases c with _ | ⟨oldSize, newSize⟩
    · simp [Effect.counters]
    · simpa [Effect.counters] using le_of_assign hv h hev
  | pop w oldSize newSize b =>
    obtain ⟨v, hv⟩ := Option.isSome_iff_exists.1 hfit
    rw [perform, touch_eq r hv] at h
    obtain rfl := Except.ok.inj h
    have hpush : (⟨r.nodes.push k v, r.account⟩ : Recency).find k = some v := by
      simp [find, RecencyList.find_push]
    have hle : Store.notified r.account.usage oldSize newSize ≤ lruMaxMemory :=
      le_of_settle (r := ⟨(r.nodes.push k v).replace k w,
        (r.account.note b).notify oldSize newSize⟩) (entries_replace_ne_nil hpush w) hev
    simpa [Effect.counters] using hle
  | createAssign v₀ w oldSize newSize b =>
    have hadd : r.account.evicted <+: (r.add k v₀).account.evicted :=
      evicted_settle ⟨r.nodes.push k v₀, r.account.join k v₀⟩
    simp only [perform] at h
    split at h
    · rename_i v hv
      have hpre : (r.add k v₀).account.evicted <+: r'.account.evicted :=
        evicted_perform (e := .assign w (some (oldSize, newSize)) b) h
      have heq := eq_of_prefix_prefix hadd hpre hev
      have hle : (r.account.join k v₀).usage ≤ lruMaxMemory :=
        le_of_settle (r := ⟨r.nodes.push k v₀, r.account.join k v₀⟩)
          (entries_push_ne_nil _ _ _) heq
      have hle₂ := le_of_assign hv h (hev.trans heq.symm)
      have hset : r.add k v₀ = ⟨r.nodes.push k v₀, r.account.join k v₀⟩ := settle_of_le hle
      rw [hset] at hle₂
      simpa [Effect.counters] using ⟨hle, hle₂⟩
    · cases h

/-- What a command that evicts nothing leaves. -/
theorem perform_after (hfit : e.Fits (r.find k)) (h : r.perform k e = .ok r')
    (hev : r'.account.evicted = r.account.evicted) : r' = e.after k r := by
  have hf : ∀ f, e ≠ .fail f := by
    rintro f rfl
    cases h
  rw [perform_of_le hfit hf (le_of_perform hfit h hev)] at h
  exact (Except.ok.inj h).symm

end Recency

namespace Effect

/-- The value of the key after the effect. -/
def result (o : Option DrutaValue) : Effect → Option DrutaValue
  | .keep => o
  | .drop => none
  | .assign v _ _ => some v
  | .pop v _ _ _ => some v
  | .create v => some v
  | .createAssign _ v _ _ _ => some v
  | .fail _ => o

variable {q r : Recency} {k : Bytes}

theorem find_drop (r : Recency) (k k' : Bytes) :
    (r.drop k).find k' = if k' = k then none else r.find k' := by
  unfold Recency.drop
  split
  · exact RecencyList.find_remove r.nodes k k'
  · rename_i hn
    split_ifs with hk
    · rw [hk, hn]
    · rfl

theorem find_push (l : RecencyList Bytes DrutaValue) (a : Account) (k k' : Bytes) (v : DrutaValue) :
    (⟨l.push k v, a⟩ : Recency).find k' = if k' = k then some v else (⟨l, a⟩ : Recency).find k' :=
  RecencyList.find_push l k k' v

/-- An effect changes the value of its own key only. -/
theorem find_after (e : Effect) (k : Bytes) (r : Recency) (k' : Bytes) :
    (e.after k r).find k' = if k' = k then e.result (r.find k) else r.find k' := by
  have hkeep : r.find k' = if k' = k then r.find k else r.find k' := by
    split_ifs with hk
    · rw [hk]
    · rfl
  cases e with
  | keep => exact hkeep
  | drop => exact find_drop r k k'
  | assign v c b => exact find_push r.nodes _ k k' v
  | pop v m n b => exact find_push r.nodes _ k k' v
  | create v => exact find_push r.nodes _ k k' v
  | createAssign v₀ v m n b => exact find_push r.nodes _ k k' v
  | fail f => exact hkeep

theorem evicted_drop (r : Recency) (k : Bytes) : (r.drop k).account.evicted = r.account.evicted := by
  unfold Recency.drop
  split
  · rfl
  · rfl

theorem evicted_after (e : Effect) (k : Bytes) (r : Recency) :
    (e.after k r).account.evicted = r.account.evicted := by
  cases e with
  | drop => exact evicted_drop r k
  | assign v c b => rcases c with _ | ⟨m, n⟩ <;> rfl
  | _ => rfl

theorem usage_drop (h : q.find k = r.find k) (hu : q.account.usage = r.account.usage) :
    (q.drop k).account.usage = (r.drop k).account.usage := by
  unfold Recency.drop
  rw [h]
  split
  · simp only [Account.release, hu]
  · exact hu

/-- The counter depends on the counter and the value of the key only. -/
theorem usage_after (e : Effect) (h : q.find k = r.find k)
    (hu : q.account.usage = r.account.usage) :
    (e.after k q).account.usage = (e.after k r).account.usage := by
  cases e with
  | drop => exact usage_drop h hu
  | assign v c b =>
    rcases c with _ | ⟨m, n⟩
    · exact hu
    · exact congrArg (Store.notified · m n) hu
  | pop v m n b => exact congrArg (Store.notified · m n) hu
  | create v => exact congrArg (addSize · (nodeUsage k v)) hu
  | createAssign v₀ v m n b =>
    exact congrArg (fun u => Store.notified (addSize u (nodeUsage k v₀)) m n) hu
  | keep => exact hu
  | fail f => exact hu

theorem counters_eq (e : Effect) (hu : q.account.usage = r.account.usage) :
    e.counters k q.account = e.counters k r.account := by
  cases e with
  | assign v c b => rcases c with _ | ⟨m, n⟩ <;> simp [counters, hu]
  | _ => simp [counters, Account.join, hu]

end Effect

namespace Recency

variable {q r r' : Recency} {k : Bytes} {e : Effect}

/-- What evicts nothing in one list evicts nothing in another that agrees with it on the key and
the counter. -/
theorem perform_of_perform (hfit : e.Fits (r.find k)) (h : r.perform k e = .ok r')
    (hev : r'.account.evicted = r.account.evicted) (hq : q.find k = r.find k)
    (hu : q.account.usage = r.account.usage) : q.perform k e = .ok (e.after k q) := by
  refine perform_of_le (hq.symm ▸ hfit) ?_ ?_
  · rintro f rfl
    cases h
  · rw [Effect.counters_eq e hu]
    exact le_of_perform hfit h hev

end Recency

/-- A command on a key that keeps the limit. -/
theorem Action.run_access {r : Recency} {k : Bytes} {f : Option DrutaValue → Outcome}
    (hfit : (f (r.find k)).effect.Fits (r.find k)) (hf : ∀ x, (f (r.find k)).effect ≠ .fail x)
    (hle : ∀ u ∈ (f (r.find k)).effect.counters k r.account, u ≤ lruMaxMemory) :
    (Action.access k f).run r = .ok (((f (r.find k)).reply, (f (r.find k)).success),
      (f (r.find k)).effect.after k r) := by
  simp only [Action.run, Recency.apply, Recency.perform_of_le hfit hf hle]
  rfl

section DeleteAll

theorem evicted_deleteAll : ∀ (keys : List Bytes) (r : Recency),
    (Action.deleteAll keys r).2.account.evicted = r.account.evicted
  | [], _ => rfl
  | key :: keys, r => by
    unfold Action.deleteAll
    split
    · exact (evicted_deleteAll keys (r.drop key)).trans (Effect.evicted_drop r key)
    · exact evicted_deleteAll keys r

/-- The loop of `DEL` removes its keys. -/
theorem find_deleteAll : ∀ (keys : List Bytes) (r : Recency) (k : Bytes),
    (Action.deleteAll keys r).2.find k = if k ∈ keys then none else r.find k
  | [], r, k => by simp [Action.deleteAll]
  | key :: keys, r, k => by
    unfold Action.deleteAll
    split
    · rw [find_deleteAll keys (r.drop key), Effect.find_drop]
      by_cases hk : k = key <;> simp [hk]
    · rename_i hn
      rw [find_deleteAll keys r]
      by_cases hk : k = key <;> simp [hk, hn]

theorem eq_of_deleteAll : ∀ {keys : List Bytes} {r : Recency}, (Action.deleteAll keys r).1 = 0 →
    (Action.deleteAll keys r).2 = r
  | [], _, _ => rfl
  | key :: keys, r, h => by
    unfold Action.deleteAll at h ⊢
    split at h
    · cases h
    · exact eq_of_deleteAll h

/-- A `DEL` that is not logged found none of its keys. -/
theorem Action.eq_of_delete {keys : List Bytes} {r r' : Recency} {reply : Bytes}
    (h : (Action.delete keys).run r = .ok ((reply, false), r')) : r' = r := by
  obtain ⟨hx, rfl⟩ := Prod.mk.inj (Except.ok.inj h)
  exact eq_of_deleteAll (by simpa using (Prod.mk.inj hx).2)

/-- A command that only reads leaves the list. -/
theorem Action.eq_of_inspect {now : ℤ} {args : List Bytes} {m : StoreM (Bytes × Bool)}
    {r r' : Recency} {x : Bytes × Bool} (ha : (callOf args).action now args = some (.inspect m))
    (h : (Action.inspect m).run r = .ok (x, r')) : r' = r := by
  obtain ⟨b, -, hb, -⟩ := (answers_of_action ha).run r
  exact (Prod.mk.inj (Except.ok.inj (hb.symm.trans h))).2.symm

/-- A command never takes an eviction back. -/
theorem Action.evicted_run {a : Action} {r r' : Recency} {x : Bytes × Bool}
    (h : a.run r = .ok (x, r')) : r.account.evicted <+: r'.account.evicted := by
  rcases a with ⟨key, f⟩ | m | keys
  · obtain ⟨reply, ok⟩ := x
    exact Recency.evicted_perform (apply_ok h).2.2
  · simp only [Action.run] at h
    rcases hm : m r.toStore with f | b <;> rw [hm] at h
    · cases h
    · rw [← (Prod.mk.inj (Except.ok.inj h)).2]
  · simp only [Action.run] at h
    rw [← (Prod.mk.inj (Except.ok.inj h)).2, evicted_deleteAll]

end DeleteAll

end DrutaDB
