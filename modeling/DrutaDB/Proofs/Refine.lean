import DrutaDB.Proofs.Linked

/-!
# The commands on a recency list

On the store of a recency list a command of `commands.cpp` does what its action does to the list:
the same reply, the same success flag, the same fault, and the store of the list after it
(`Call.run_action`).
-/

namespace DrutaDB

open Machine Decimal Capacity Store

/-- The result of an action, with the store of the list after it. -/
def onList {α : Type} (x : Except Fault (α × Recency)) : Except Fault (α × Store) :=
  x.map fun p => (p.1, p.2.toStore)

namespace Recency

variable (r : Recency) {k : Bytes} {v : DrutaValue} {α : Type}

@[simp]
theorem find_replace (h : r.find k = some v) (w : DrutaValue) (a : Account) :
    find ⟨r.nodes.replace k w, a⟩ k = some w := by
  have hf : r.nodes.find k = some v := h
  change (r.nodes.replace k w).find k = some w
  rw [RecencyList.find_replace, if_pos rfl, hf]
  rfl

theorem note_false (a : Account) : a.note false = a := by
  simp [Account.note]

theorem note_note (a : Account) (b c : Bool) : (a.note b).note c = a.note (b || c) := by
  simp [Account.note, Bool.or_assoc]

/-- A written value and the touch after it. -/
theorem touch_write (h : r.find k = some v) (w : DrutaValue) (b : Bool) :
    (r.write k w b).touch k = .ok ⟨r.nodes.push k w, r.account.note b⟩ := by
  simp only [touch, write, r.find_replace h, RecencyList.push_replace]

theorem touch_eq (h : r.find k = some v) :
    r.touch k = .ok ⟨r.nodes.push k v, r.account⟩ := by
  simp only [touch, h]

theorem perform_touch (h : r.find k = some v) :
    r.perform k (.touch v) = r.touch k := by
  change (r.write k v false).touch k = _
  rw [touch_write r h, touch_eq r h, note_false]

theorem bind_map {β γ : Type} {m : StoreM Unit} {s : Store} {x : Except Fault β}
    {g : β → Store} (h : m s = x.map fun y => ((), g y)) (f : Unit → StoreM γ) :
    (m >>= f) s = x.bind fun y => f () (g y) := by
  rcases x with e | y
  · exact bind_error h
  · exact bind_ok h

theorem bind_touchLru (f : Unit → StoreM α) :
    (touchLru k >>= f) r.toStore = (r.touch k).bind fun r' => f () r'.toStore :=
  bind_map (touchLru_toStore r k) f

theorem touch_reply (f : Except Fault Recency) (a : α) :
    (f.bind fun r' => (pure a : StoreM α) r'.toStore) = onList (f.map fun r' => (a, r')) := by
  rcases f with e | r' <;> rfl

/-- A command that first checks its number of arguments. -/
theorem apply_check {c : Prop} [Decidable c] {m : StoreM (Bytes × Bool)} {o : Outcome}
    {b : Bytes} (h : m r.toStore = onList (r.apply k o)) :
    (if c then pure (b, false) else m : StoreM (Bytes × Bool)) r.toStore =
      onList (r.apply k (if c then { reply := b } else o)) := by
  split_ifs
  · rfl
  · exact h

/-- A command that touches its key and replies. -/
theorem apply_touch (h : r.find k = some v) (b : Bytes) (c : Bool) :
    (touchLru k >>= fun _ => (pure (b, c) : StoreM _)) r.toStore =
      onList (r.apply k { reply := b, success := c, effect := .touch v }) := by
  rw [bind_touchLru, touch_reply, apply, perform_touch r h]

/-- A command that writes a value, notifies its change, touches its key and replies. -/
theorem apply_assign (h : r.find k = some v) (w : DrutaValue) (wraps : Bool)
    (oldSize newSize : ℕ) (b : Bytes) (c : Bool) :
    (setValue k w >>= fun _ => noteWrap wraps >>= fun _ => notifyMemoryChange oldSize newSize >>=
        fun _ => touchLru k >>= fun _ => (pure (b, c) : StoreM _)) r.toStore =
      onList (r.apply k { reply := b, success := c
                          effect := .assign w (some (oldSize, newSize)) wraps }) := by
  rw [bind_ok (setValue_toStore r h w), bind_ok (noteWrap_toStore _ wraps),
    bind_ok (notifyMemoryChange_toStore _ oldSize newSize), bind_touchLru, touch_reply]
  rfl

theorem apply_assign_noWrap (h : r.find k = some v) (w : DrutaValue) (oldSize newSize : ℕ)
    (b : Bytes) (c : Bool) :
    (setValue k w >>= fun _ => notifyMemoryChange oldSize newSize >>=
        fun _ => touchLru k >>= fun _ => (pure (b, c) : StoreM _)) r.toStore =
      onList (r.apply k { reply := b, success := c
                          effect := .assign w (some (oldSize, newSize)) false }) := by
  rw [bind_ok (setValue_toStore r h w), bind_ok (notifyMemoryChange_toStore _ oldSize newSize),
    bind_touchLru, touch_reply, apply, perform, assign, write, note_false]

/-- A command that touched its key, writes a value, notifies its change and replies. -/
theorem apply_pop (h : r.find k = some v) (w : DrutaValue) (wraps : Bool) (oldSize newSize : ℕ)
    (b : Bytes) (c : Bool) :
    (setValue k w >>= fun _ => noteWrap wraps >>= fun _ => notifyMemoryChange oldSize newSize >>=
        fun _ => (pure (b, c) : StoreM _)) (toStore ⟨r.nodes.push k v, r.account⟩) =
      onList (r.apply k { reply := b, success := c
                          effect := .pop w oldSize newSize wraps }) := by
  have hf : find ⟨r.nodes.push k v, r.account⟩ k = some v := by
    change (r.nodes.push k v).find k = some v
    rw [RecencyList.find_push, if_pos rfl]
  rw [bind_ok (setValue_toStore _ hf w), bind_ok (noteWrap_toStore _ wraps),
    bind_ok (notifyMemoryChange_toStore _ oldSize newSize), apply, perform, touch_eq r h]
  rfl

/-- A command that makes its key and replies. -/
theorem apply_create (h : r.find k = none) (w : DrutaValue) (b : Bytes) (c : Bool) :
    (newNode k w >>= fun _ => addLru k >>= fun _ => (pure (b, c) : StoreM _)) r.toStore =
      onList (r.apply k { reply := b, success := c, effect := .create w }) := by
  have hadd := addLru_toStore r h w
  rw [← bind_assoc, bind_ok hadd]
  rfl

theorem apply_drop (h : r.find k = some v) (b : Bytes) (c : Bool) :
    (removeFromLru k >>= fun _ => erase k >>= fun _ => (pure (b, c) : StoreM _)) r.toStore =
      onList (r.apply k { reply := b, success := c, effect := .drop }) := by
  rw [← bind_assoc, bind_ok (removeFromLru_toStore r h)]
  rfl

end Recency

open Recency

section Commands

variable (r : Recency) (now : ℤ) (args : List Bytes)

theorem updateLru_toStore {k : Bytes} {v : DrutaValue} (h : r.find k = some v) (w : DrutaValue) :
    updateLru k w r.toStore =
      (r.assign k w (some (nodeUsage k v, nodeUsage k w)) false).map fun r' =>
        ((), r'.toStore) := by
  obtain ⟨n, hn, hnk, hnv⟩ := deref_toStore r h
  obtain ⟨m, hm, hmk, hmv⟩ := deref_toStore ⟨r.nodes.replace k w, r.account⟩
    (r.find_replace h w r.account)
  have hold : n.getMemoryUsage = nodeUsage k v := by rw [DrutaNode.getMemoryUsage, hnk, hnv]
  have hnew : m.getMemoryUsage = nodeUsage k w := by rw [DrutaNode.getMemoryUsage, hmk, hmv]
  unfold updateLru
  rw [bind_ok hn, bind_ok (setValue_toStore r h w), bind_ok hm, hold, hnew,
    bind_ok (notifyMemoryChange_toStore _ _ _), touchLru_toStore]
  simp only [assign, write, note_false]

theorem commandSet_toStore : commandSet now args r.toStore =
    onList (r.apply (arg args 1) (setOutcome now args (r.find (arg args 1)))) := by
  unfold commandSet setOutcome
  rcases setOptions now (args.drop 3) 0 with e | expireAt
  · rfl
  dsimp only
  rw [bind_ok (find_toStore r _)]
  rcases h : r.find (arg args 1) with _ | v
  · exact apply_create r h _ _ _
  · dsimp only
    rw [bind_map (updateLru_toStore r h _), touch_reply]
    rfl

theorem commandGet_toStore : commandGet now args r.toStore =
    onList (r.apply (arg args 1) (getOutcome now (r.find (arg args 1)))) := by
  unfold commandGet getOutcome
  rw [bind_ok (find_toStore r _)]
  rcases h : r.find (arg args 1) with _ | ⟨d, e, m⟩
  · rfl
  rcases d with d | l | h' | s
  · dsimp only
    split_ifs with hexp
    · exact apply_drop r h _ _
    · exact apply_touch r h _ _
  all_goals rfl

theorem genericPush_toStore (atFront : Bool) : genericPush args atFront r.toStore =
    onList (r.apply (arg args 1) (pushOutcome args atFront (r.find (arg args 1)))) := by
  unfold genericPush pushOutcome
  rw [bind_ok (find_toStore r _)]
  rcases h : r.find (arg args 1) with _ | ⟨d, e, m⟩
  · exact apply_create r h _ _ _
  rcases d with d | l | h' | s
  · rfl
  · exact apply_assign_noWrap r h _ _ _ _ _
  all_goals rfl

theorem commandLrange_toStore : commandLrange args r.toStore =
    onList (r.apply (arg args 1) (lrangeOutcome args (r.find (arg args 1)))) := by
  unfold commandLrange lrangeOutcome
  rw [bind_ok (find_toStore r _)]
  rcases h : r.find (arg args 1) with _ | ⟨d, e, m⟩
  · rfl
  rcases d with d | l | h' | s
  · rfl
  · dsimp only
    rcases stoi (arg args 2) with _ | li <;> rcases stoi (arg args 3) with _ | ri <;>
      exact apply_touch r h _ _
  all_goals rfl

theorem genericPop_toStore (fromFront : Bool) : genericPop args fromFront r.toStore =
    onList (r.apply (arg args 1) (popOutcome args fromFront (r.find (arg args 1)))) := by
  unfold genericPop popOutcome
  by_cases hlen : 3 < args.length
  · simp only [hlen, if_true]
    rcases r.find (arg args 1) <;> rfl
  simp only [hlen, if_false]
  rw [bind_ok (find_toStore r _)]
  rcases h : r.find (arg args 1) with _ | ⟨d, e, m⟩
  · rfl
  rcases d with d | l | h' | s
  · rfl
  · dsimp only
    rw [bind_touchLru, touch_eq r h]
    rcases popLoop (if fromFront then l else l.reverse)
      (min (popCount args) (toInt l.length)) with f | ⟨taken, left⟩
    · rfl
    · exact apply_pop r h _ _ _ _ _ _
  all_goals rfl

theorem commandLlen_toStore : commandLlen args r.toStore =
    onList (r.apply (arg args 1) (llenOutcome (r.find (arg args 1)))) := by
  unfold commandLlen llenOutcome
  rw [bind_ok (find_toStore r _)]
  rcases h : r.find (arg args 1) with _ | ⟨d, e, m⟩
  · rfl
  rcases d with d | l | h' | s
  · rfl
  · exact apply_touch r h _ _
  all_goals rfl

theorem commandHset_toStore : commandHset args r.toStore =
    onList (r.apply (arg args 1) (hsetOutcome args (r.find (arg args 1)))) := by
  unfold commandHset hsetOutcome
  refine apply_check r ?_
  rw [bind_ok (find_toStore r _)]
  rcases h : r.find (arg args 1) with _ | ⟨d, e, m⟩
  · dsimp only
    have hadd := addLru_toStore r h { data := .hash .empty, memoryUsage := 0 }
    rw [← bind_assoc, bind_ok hadd]
    rcases hf : (r.add (arg args 1) { data := .hash .empty, memoryUsage := 0 }).find (arg args 1)
      with _ | v
    · rw [bind_error (deref_toStore_none _ hf), apply, perform]
      simp only [hf]
      rfl
    · obtain ⟨n, hn, -, -⟩ := deref_toStore _ hf
      rw [bind_ok hn]
      have hz : ∀ n, decide (0 < DrutaHash.empty.memoryUsage - n) = false := fun n => by
        simp [DrutaHash.empty]
      refine (apply_assign _ hf _ _ _ _ _ _).trans ?_
      simp only [apply, perform, hf, hz, Bool.or_false]
      rfl
  rcases d with d | l | h' | s
  · rfl
  · rfl
  · exact apply_assign r h _ _ _ _ _ _
  · rfl

theorem commandHget_toStore : commandHget args r.toStore =
    onList (r.apply (arg args 1) (hgetOutcome args (r.find (arg args 1)))) := by
  unfold commandHget hgetOutcome
  refine apply_check r ?_
  rw [bind_ok (find_toStore r _)]
  rcases h : r.find (arg args 1) with _ | ⟨d, e, m⟩
  · rfl
  rcases d with d | l | h' | s
  · rfl
  · rfl
  · dsimp only
    rcases h'.getHash (arg args 2) with _ | val
    · rfl
    · exact apply_touch r h _ _
  · rfl

theorem commandHgetall_toStore : commandHgetall args r.toStore =
    onList (r.apply (arg args 1) (hgetallOutcome args (r.find (arg args 1)))) := by
  unfold commandHgetall hgetallOutcome
  refine apply_check r ?_
  rw [bind_ok (find_toStore r _)]
  rcases h : r.find (arg args 1) with _ | ⟨d, e, m⟩
  · rfl
  rcases d with d | l | h' | s
  · rfl
  · rfl
  · dsimp only
    rcases reserve (addSize 1024 h'.memoryUsage) with f | _
    · rw [bind_touchLru, touch_eq r h]
      rfl
    · exact apply_touch r h _ _
  · rfl

theorem commandHdel_toStore : commandHdel args r.toStore =
    onList (r.apply (arg args 1) (hdelOutcome args (r.find (arg args 1)))) := by
  unfold commandHdel hdelOutcome
  refine apply_check r ?_
  rw [bind_ok (find_toStore r _)]
  rcases h : r.find (arg args 1) with _ | ⟨d, e, m⟩
  · rfl
  rcases d with d | l | h' | s
  · rfl
  · rfl
  · dsimp only
    rcases hdelLoop (args.drop 2) h' 0 false with ⟨h'', deleted, wraps⟩
    dsimp only
    rw [bind_ok (noteWrap_toStore r wraps)]
    split_ifs with hm
    · refine (apply_assign ⟨r.nodes, r.account.note wraps⟩ h _ _ _ _ _ _).trans ?_
      simp only [apply, perform, assign, write, note_note]
    · rw [bind_ok (setValue_toStore ⟨r.nodes, r.account.note wraps⟩ h _), bind_touchLru,
        touch_reply]
      rfl
  · rfl

theorem commandHlen_toStore : commandHlen args r.toStore =
    onList (r.apply (arg args 1) (hlenOutcome args (r.find (arg args 1)))) := by
  unfold commandHlen hlenOutcome
  refine apply_check r ?_
  rw [bind_ok (find_toStore r _)]
  rcases r.find (arg args 1) with _ | ⟨d, e, m⟩
  · rfl
  rcases d with d | l | h' | s <;> rfl

theorem commandSadd_toStore : commandSadd args r.toStore =
    onList (r.apply (arg args 1) (saddOutcome args (r.find (arg args 1)))) := by
  unfold commandSadd saddOutcome
  rw [bind_ok (find_toStore r _)]
  rcases h : r.find (arg args 1) with _ | ⟨d, e, m⟩
  · exact apply_create r h _ _ _
  rcases d with d | l | h' | s
  · rfl
  · rfl
  · rfl
  · exact apply_assign_noWrap r h _ _ _ _ _

theorem commandSdel_toStore : commandSdel args r.toStore =
    onList (r.apply (arg args 1) (sdelOutcome args (r.find (arg args 1)))) := by
  unfold commandSdel sdelOutcome
  rw [bind_ok (find_toStore r _)]
  rcases h : r.find (arg args 1) with _ | ⟨d, e, m⟩
  · rfl
  rcases d with d | l | h' | s
  · rfl
  · rfl
  · rfl
  · exact apply_assign r h _ _ _ _ _ _

theorem commandSismember_toStore : commandSismember args r.toStore =
    onList (r.apply (arg args 1) (sismemberOutcome args (r.find (arg args 1)))) := by
  unfold commandSismember sismemberOutcome
  refine apply_check r ?_
  rw [bind_ok (find_toStore r _)]
  rcases r.find (arg args 1) with _ | ⟨d, e, m⟩
  · rfl
  rcases d with d | l | h' | s <;> rfl

theorem commandSmismember_toStore : commandSmismember args r.toStore =
    onList (r.apply (arg args 1) (smismemberOutcome args (r.find (arg args 1)))) := by
  unfold commandSmismember smismemberOutcome
  refine apply_check r ?_
  rw [bind_ok (find_toStore r _)]
  rcases r.find (arg args 1) with _ | ⟨d, e, m⟩
  · rfl
  rcases d with d | l | h' | s <;> rfl

theorem commandScard_toStore : commandScard args r.toStore =
    onList (r.apply (arg args 1) (scardOutcome args (r.find (arg args 1)))) := by
  unfold commandScard scardOutcome
  refine apply_check r ?_
  rw [bind_ok (find_toStore r _)]
  rcases r.find (arg args 1) with _ | ⟨d, e, m⟩
  · rfl
  rcases d with d | l | h' | s <;> rfl

theorem commandSmembers_toStore : commandSmembers args r.toStore =
    onList (r.apply (arg args 1) (smembersOutcome args (r.find (arg args 1)))) := by
  unfold commandSmembers smembersOutcome
  refine apply_check r ?_
  rw [bind_ok (find_toStore r _)]
  rcases r.find (arg args 1) with _ | ⟨d, e, m⟩
  · rfl
  rcases d with d | l | h' | s
  · rfl
  · rfl
  · rfl
  · dsimp only
    rcases reserve (addSize 1024 m) with f | _ <;> rfl

theorem delLoop_toStore : ∀ (keys : List Bytes) (r : Recency),
    delLoop keys r.toStore =
      .ok ((Action.deleteAll keys r).1, (Action.deleteAll keys r).2.toStore)
  | [], r => rfl
  | key :: keys, r => by
    unfold delLoop Action.deleteAll
    rw [bind_ok (find_toStore r key)]
    rcases h : r.find key with _ | v
    · exact delLoop_toStore keys r
    · dsimp only
      rw [← bind_assoc, bind_ok (removeFromLru_toStore r h),
        bind_ok (delLoop_toStore keys (r.drop key)), Nat.add_comm]
      rfl

theorem commandDel_toStore : commandDel args r.toStore =
    onList (Action.run r (.delete (args.drop 1))) := by
  unfold commandDel
  rw [bind_ok (delLoop_toStore (args.drop 1) r)]
  rfl

/-! ## The commands that only read -/

/-- The computation leaves the store as it is. -/
def Reads {α : Type} (m : StoreM α) : Prop := ∀ s, ∃ a, m s = .ok (a, s)

theorem Reads.pure {α : Type} (a : α) : Reads (pure a : StoreM α) := fun _ => ⟨a, rfl⟩

theorem Reads.bind {α β : Type} {m : StoreM α} {f : α → StoreM β} (hm : Reads m)
    (hf : ∀ a, Reads (f a)) : Reads (m >>= f) := by
  intro s
  obtain ⟨a, ha⟩ := hm s
  obtain ⟨b, hb⟩ := hf a s
  exact ⟨b, (bind_ok ha).trans hb⟩

theorem Reads.find (key : Bytes) : Reads (Store.find key) := fun _ => ⟨_, rfl⟩

theorem Reads.get : Reads (get : StoreM Store) := fun s => ⟨s, rfl⟩

theorem Reads.ite {α : Type} {c : Prop} [Decidable c] {m m' : StoreM α} (h : Reads m)
    (h' : Reads m') : Reads (if c then m else m') := by
  split_ifs
  · exact h
  · exact h'

theorem sdiffLoop_reads : ∀ (keys : List Bytes) (d : Std.ExtTreeSet Bytes),
    Reads (sdiffLoop keys d)
  | [], d => .pure d
  | key :: keys, d => by
    refine (Reads.find key).bind fun v => ?_
    rcases v with _ | ⟨d', e, m⟩
    · exact sdiffLoop_reads keys _
    · cases d' <;> exact sdiffLoop_reads keys _

theorem sunionLoop_reads : ∀ (keys : List Bytes) (d : Std.ExtTreeSet Bytes),
    Reads (sunionLoop keys d)
  | [], d => .pure d
  | key :: keys, d => by
    refine (Reads.find key).bind fun v => ?_
    rcases v with _ | ⟨d', e, m⟩
    · exact sunionLoop_reads keys _
    · cases d' <;> exact sunionLoop_reads keys _

theorem sinterLoop_reads : ∀ (keys : List Bytes) (d : Std.ExtTreeSet Bytes),
    Reads (sinterLoop keys d)
  | [], d => .pure _
  | key :: keys, d => by
    refine (Reads.find key).bind fun v => ?_
    rcases v with _ | ⟨d', e, m⟩
    · exact .pure _
    · rcases d' with _ | _ | _ | s
      · exact .pure _
      · exact .pure _
      · exact .pure _
      · exact .ite (.pure _) (sinterLoop_reads keys _)

section Answers

variable {P : Bytes → Prop} {α : Type}

/-- A command that leaves the store as it is, replies what `P` says and is not logged. -/
def Answers (P : Bytes → Prop) (m : StoreM (Bytes × Bool)) : Prop :=
  ∀ s, ∃ b, P b ∧ m s = .ok ((b, false), s)

theorem Answers.pure {b : Bytes} (h : P b) : Answers P (pure (b, false)) := fun _ => ⟨b, h, rfl⟩

theorem Answers.bind {m : StoreM α} {f : α → StoreM (Bytes × Bool)} (hm : Reads m)
    (hf : ∀ a, Answers P (f a)) : Answers P (m >>= f) := by
  intro s
  obtain ⟨a, ha⟩ := hm s
  obtain ⟨b, hb, hfb⟩ := hf a s
  exact ⟨b, hb, (bind_ok ha).trans hfb⟩

theorem Answers.ite {c : Prop} [Decidable c] {m m' : StoreM (Bytes × Bool)} (h : Answers P m)
    (h' : Answers P m') : Answers P (if c then m else m') := by
  split_ifs
  · exact h
  · exact h'

theorem commandSdiff_answers (hn : P (wrongNumber "sismember")) (hw : P wrongType)
    (hl : ∀ l, P (respArrayOf l)) : Answers P (commandSdiff args) := by
  refine .ite (.pure hn) (.bind (Reads.find _) fun v => ?_)
  rcases v with _ | ⟨d, e, m⟩
  · exact .bind (sdiffLoop_reads _ _) fun _ => .pure (hl _)
  · rcases d with _ | _ | _ | s
    · exact .pure hw
    · exact .pure hw
    · exact .pure hw
    · exact .bind (sdiffLoop_reads _ s) fun _ => .pure (hl _)

theorem commandSinter_answers (hn : P (wrongNumber "sismember")) (hw : P wrongType)
    (hl : ∀ l, P (respArrayOf l)) : Answers P (commandSinter args) := by
  have hr : ∀ o, P (sinterReply o) := fun o => by
    cases o
    · exact hw
    · exact hl _
  refine .ite (.pure hn) (.bind (Reads.find _) fun v => ?_)
  rcases v with _ | ⟨d, e, m⟩
  · exact .bind (sinterLoop_reads _ _) fun _ => .pure (hr _)
  · rcases d with _ | _ | _ | s
    · exact .pure hw
    · exact .pure hw
    · exact .pure hw
    · exact .bind (sinterLoop_reads _ s) fun _ => .pure (hr _)

theorem commandSunion_answers (hn : P (wrongNumber "sismember"))
    (hl : ∀ l, P (respArrayOf l)) : Answers P (commandSunion args) :=
  .ite (.pure hn) (.bind (sunionLoop_reads _ _) fun _ => .pure (hl _))

/-- The reply of a command that only reads. -/
theorem Answers.run {m : StoreM (Bytes × Bool)} (h : Answers P m) (r : Recency) :
    ∃ b, P b ∧ Action.run r (.inspect m) = .ok ((b, false), r)
      ∧ m r.toStore = onList (Action.run r (.inspect m)) := by
  obtain ⟨b, hb, hm⟩ := h r.toStore
  have hrun : Action.run r (.inspect m) = .ok ((b, false), r) := by
    rw [Action.run, hm]
    rfl
  exact ⟨b, hb, hrun, by rw [hm, hrun]; rfl⟩

end Answers

theorem inspect_toStore {m : StoreM (Bytes × Bool)} (h : Answers (fun _ => True) m) :
    m r.toStore = onList (Action.run r (.inspect m)) := by
  obtain ⟨b, -, -, hb⟩ := h.run r
  exact hb

theorem commandMemstats_answers {P : Bytes → Prop}
    (h : ∀ n, P (ascii "+Memory Usage: " ++ toDecimal n ++ ascii " bytes" ++ crlf ++
      ascii " +Memory Limit: " ++ toDecimal lruMaxMemory ++ ascii " bytes" ++ crlf)) :
    Answers P commandMemstats :=
  .bind Reads.get fun _ => .pure (h _)

/-- A branch of `handle_command` that works on the store runs its action. -/
theorem Call.run_action {c : Call} {a : Action} (hc : c.action now args = some a) (fd : ℤ)
    (cmd : Bytes) {s : Server} (hs : s.store = r.toStore) :
    c.run now fd cmd args s = (a.run r).map fun p =>
      ((sendTo fd p.1.1, p.1.2), { s with store := p.2.toStore }) := by
  have hrun : ∀ {m : StoreM (Bytes × Bool)}, m r.toStore = onList (a.run r) →
      onStore fd m s = (a.run r).map fun p =>
        ((sendTo fd p.1.1, p.1.2), { s with store := p.2.toStore }) := by
    intro m hm
    rw [onStore, hs, hm]
    rcases a.run r with f | ⟨⟨b, ok⟩, r'⟩ <;> rfl
  cases c <;> simp only [Call.action, Option.some.injEq, reduceCtorEq] at hc <;> subst hc <;>
    simp only [Call.run] <;> refine hrun ?_
  · exact commandSet_toStore r now args
  · exact commandGet_toStore r now args
  · exact genericPush_toStore r args false
  · exact genericPush_toStore r args true
  · exact commandLrange_toStore r args
  · exact genericPop_toStore r args true
  · exact genericPop_toStore r args false
  · exact commandDel_toStore r args
  · exact commandLlen_toStore r args
  · exact commandHset_toStore r args
  · exact commandHget_toStore r args
  · exact commandHgetall_toStore r args
  · exact commandHdel_toStore r args
  · exact commandHlen_toStore r args
  · exact commandSadd_toStore r args
  · exact commandScard_toStore r args
  · exact commandSismember_toStore r args
  · exact commandSmembers_toStore r args
  · exact commandSmismember_toStore r args
  · exact inspect_toStore r (commandSinter_answers args trivial trivial fun _ => trivial)
  · exact inspect_toStore r (commandSunion_answers args trivial fun _ => trivial)
  · exact inspect_toStore r (commandSdiff_answers args trivial trivial fun _ => trivial)
  · exact commandSdel_toStore r args
  · exact inspect_toStore r (commandMemstats_answers fun _ => trivial)

end Commands

end DrutaDB
