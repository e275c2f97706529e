import DrutaDB.Proofs.Delivery
import DrutaDB.Proofs.Lifetime
import DrutaDB.Proofs.Unevicted

/-!
# Errors

An error is a reply that starts with `-`.  A command on one key that gives one has no success and
at most touches its key (`Outcome.Sound`), one branch lemma for each command, so nothing but the
recency of that key differs after it (`handleCommand_error`).
-/

namespace DrutaDB

open Machine Decimal Run

def IsError (reply : Bytes) : Prop := reply.head? = some (byte '-')

/-! ## Replies that are no errors -/

section Replies

@[simp]
theorem head_sendInteger (n : ℤ) : (sendInteger n).head? = some (byte ':') := rfl

@[simp]
theorem head_respBulkString (s : Bytes) : (respBulkString s).head? = some (byte '$') := rfl

@[simp]
theorem head_respArray (n : ℤ) : (respArray n).head? = some (byte '*') := rfl

theorem not_isError {reply : Bytes} {c : UInt8} (h : reply.head? = some c) (hc : c ≠ byte '-') :
    ¬ IsError reply := fun he => hc (Option.some.inj (h.symm.trans he))

theorem not_isError_sendInteger (n : ℤ) : ¬ IsError (sendInteger n) :=
  not_isError rfl (by decide)

theorem not_isError_respBulkString (s : Bytes) : ¬ IsError (respBulkString s) :=
  not_isError rfl (by decide)

theorem not_isError_respArray (n : ℤ) (b : Bytes) : ¬ IsError (respArray n ++ b) :=
  not_isError rfl (by decide)

theorem not_isError_lrangeReply (l : List Bytes) (li ri : ℤ) : ¬ IsError (lrangeReply l li ri) := by
  unfold lrangeReply
  dsimp only
  split_ifs
  · exact not_isError rfl (by decide)
  · exact not_isError_respArray _ _

end Replies

/-! ## Outcomes -/

/-- An outcome with an error has no success and leaves the key or touches it. -/
def Outcome.Sound (o : Option DrutaValue) (out : Outcome) : Prop :=
  IsError out.reply → out.success = false ∧
    (out.effect = .keep ∨ ∃ v, o = some v ∧ out.effect = .touch v)

namespace Outcome

variable {o : Option DrutaValue} {out : Outcome} {now : ℤ} {args : List Bytes}

theorem Sound.of_not_isError (h : ¬ IsError out.reply) : out.Sound o := fun he => absurd he h

theorem Sound.of_keep (b : Bytes) : Sound o { reply := b } := fun _ => ⟨rfl, .inl rfl⟩

theorem setOutcome_sound : (setOutcome now args o).Sound o := by
  unfold setOutcome
  split
  · exact .of_keep _
  · exact .of_not_isError (not_isError rfl (by decide))

theorem getOutcome_sound : (getOutcome now o).Sound o := by
  unfold getOutcome
  split
  · exact .of_keep _
  · split
    · split_ifs
      · exact .of_not_isError (not_isError rfl (by decide))
      · exact .of_not_isError (not_isError_respBulkString _)
    · exact .of_keep _

theorem pushOutcome_sound (b : Bool) : (pushOutcome args b o).Sound o := by
  unfold pushOutcome
  split
  · split
    · exact .of_not_isError (not_isError_sendInteger _)
    · exact .of_keep _
  · exact .of_not_isError (not_isError_sendInteger _)

theorem lrangeOutcome_sound : (lrangeOutcome args o).Sound o := by
  unfold lrangeOutcome
  split
  · exact .of_keep _
  · rename_i v
    split
    · split
      · exact .of_not_isError (not_isError_lrangeReply _ _ _)
      · exact fun _ => ⟨rfl, .inr ⟨v, rfl, rfl⟩⟩
    · exact .of_keep _

theorem popOutcome_sound (b : Bool) : (popOutcome args b o).Sound o := by
  unfold popOutcome
  split
  · split_ifs
    · exact .of_keep _
    · exact .of_keep _
  · split
    · exact .of_keep _
    · split
      · dsimp only
        split
        · exact .of_not_isError fun he => by cases he
        · exact .of_not_isError (not_isError_respArray _ _)
      · exact .of_keep _

theorem llenOutcome_sound : (llenOutcome o).Sound o := by
  unfold llenOutcome
  split
  · exact .of_keep _
  · split
    · exact .of_not_isError (not_isError_sendInteger _)
    · exact .of_keep _

theorem hsetOutcome_sound : (hsetOutcome args o).Sound o := by
  unfold hsetOutcome
  split_ifs
  · exact .of_keep _
  · split
    · split
      · exact .of_not_isError (not_isError_sendInteger _)
      · exact .of_keep _
    · exact .of_not_isError (not_isError_sendInteger _)

theorem hgetOutcome_sound : (hgetOutcome args o).Sound o := by
  unfold hgetOutcome
  split_ifs
  · exact .of_keep _
  · split
    · exact .of_keep _
    · split
      · split
        · exact .of_not_isError (not_isError_respBulkString _)
        · exact .of_keep _
      · exact .of_keep _

theorem hgetallOutcome_sound : (hgetallOutcome args o).Sound o := by
  unfold hgetallOutcome
  split_ifs
  · exact .of_keep _
  · split
    · exact .of_keep _
    · split
      · split
        · exact .of_not_isError (not_isError_respArray _ _)
        · exact .of_not_isError fun he => by cases he
      · exact .of_keep _

theorem hdelOutcome_sound : (hdelOutcome args o).Sound o := by
  unfold hdelOutcome
  split_ifs
  · exact .of_keep _
  · split
    · exact .of_keep _
    · split
      · exact .of_not_isError (not_isError_sendInteger _)
      · exact .of_keep _

theorem hlenOutcome_sound : (hlenOutcome args o).Sound o := by
  unfold hlenOutcome
  split_ifs
  · exact .of_keep _
  · split
    · exact .of_keep _
    · split
      · exact .of_keep _
      · exact .of_keep _

theorem saddOutcome_sound : (saddOutcome args o).Sound o := by
  unfold saddOutcome
  split
  · split
    · exact .of_not_isError (not_isError_sendInteger _)
    · exact .of_keep _
  · exact .of_not_isError (not_isError_sendInteger _)

theorem sismemberOutcome_sound : (sismemberOutcome args o).Sound o := by
  unfold sismemberOutcome
  split_ifs
  · exact .of_keep _
  · split
    · exact .of_keep _
    · split
      · exact .of_keep _
      · exact .of_keep _

theorem smismemberOutcome_sound : (smismemberOutcome args o).Sound o := by
  unfold smismemberOutcome
  split_ifs
  · exact .of_keep _
  · split
    · exact .of_keep _
    · split
      · exact .of_keep _
      · exact .of_keep _

theorem scardOutcome_sound : (scardOutcome args o).Sound o := by
  unfold scardOutcome
  split_ifs
  · exact .of_keep _
  · split
    · exact .of_keep _
    · split
      · exact .of_keep _
      · exact .of_keep _

theorem smembersOutcome_sound : (smembersOutcome args o).Sound o := by
  unfold smembersOutcome
  split_ifs
  · exact .of_keep _
  · split
    · exact .of_keep _
    · split
      · split
        · exact .of_keep _
        · exact .of_not_isError fun he => by cases he
      · exact .of_keep _

theorem sdelOutcome_sound : (sdelOutcome args o).Sound o := by
  unfold sdelOutcome
  split
  · split
    · exact .of_not_isError (not_isError_sendInteger _)
    · exact .of_keep _
  · exact .of_keep _

end Outcome

open Outcome in
theorem sound_of_action {c : Call} {now : ℤ} {args : List Bytes} {key : Bytes}
    {f : Option DrutaValue → Outcome} (hc : c.action now args = some (.access key f))
    (o : Option DrutaValue) : (f o).Sound o := by
  cases c <;> simp only [Call.action, Option.some.injEq, reduceCtorEq, Action.access.injEq] at hc <;>
    obtain ⟨-, rfl⟩ := hc
  · exact setOutcome_sound
  · exact getOutcome_sound
  · exact pushOutcome_sound _
  · exact pushOutcome_sound _
  · exact lrangeOutcome_sound
  · exact popOutcome_sound _
  · exact popOutcome_sound _
  · exact llenOutcome_sound
  · exact hsetOutcome_sound
  · exact hgetOutcome_sound
  · exact hgetallOutcome_sound
  · exact hdelOutcome_sound
  · exact hlenOutcome_sound
  · exact saddOutcome_sound
  · exact scardOutcome_sound
  · exact sismemberOutcome_sound
  · exact smembersOutcome_sound
  · exact smismemberOutcome_sound
  · exact sdelOutcome_sound

/-! ## Commands -/

section Command

variable {r r' : Recency} {s : Server} {env : Env} {fd : ℤ} {args : List Bytes} {reply : Bytes}

/-- The same values, and as much memory. -/
def Recency.Equal (r r' : Recency) : Prop :=
  (∀ k, r'.find k = r.find k) ∧ r'.account.usage = r.account.usage

theorem Action.run_error {c : Call} {now : ℤ} {a : Action} {ok : Bool}
    (hc : c.action now args = some a) (h : a.run r = .ok ((reply, ok), r')) (he : IsError reply) :
    ok = false ∧ r.Equal r' := by
  rcases a with ⟨key, f⟩ | m | keys
  · obtain ⟨rfl, rfl, hp⟩ := apply_ok h
    obtain ⟨hok, hkeep | ⟨v, hv, htouch⟩⟩ := sound_of_action hc (r.find key) he
    · rw [hkeep] at hp
      obtain rfl := Except.ok.inj hp
      exact ⟨hok, fun _ => rfl, rfl⟩
    · rw [htouch, Recency.perform_touch r hv, Recency.touch_eq r hv] at hp
      obtain rfl := Except.ok.inj hp
      refine ⟨hok, fun k => ?_, rfl⟩
      rw [Effect.find_push]
      split_ifs with hk
      · rw [hk, hv]
      · rfl
  · obtain ⟨b, -, hb, -⟩ := (answers_of_action hc).run r
    obtain ⟨hpair, rfl⟩ := Prod.mk.inj (Except.ok.inj (hb.symm.trans h))
    exact ⟨(Prod.mk.inj hpair).2.symm, fun _ => rfl, rfl⟩
  · obtain ⟨hpair, -⟩ := Prod.mk.inj (Except.ok.inj h)
    exact absurd ((Prod.mk.inj hpair).1 ▸ he) (not_isError_sendInteger _)

theorem not_isError_pubsubUnsubscribe (fd : ℤ) (args : List Bytes) (s : Server) :
    ¬ IsError (pubsubUnsubscribe fd args s).1 := by
  unfold pubsubUnsubscribe
  dsimp only
  generalize (if args.length = 1 then _ else args.drop 1) = channels
  split_ifs with hne
  · exact not_isError rfl (by decide)
  · obtain ⟨channel, rest, rfl⟩ := List.exists_cons_of_ne_nil hne
    exact not_isError rfl (by decide)

theorem not_isError_messageFrame (channel message : Bytes) :
    ¬ IsError (messageFrame channel message) :=
  not_isError rfl (by decide)

theorem eq_of_mem_sendTo {b b' : Bytes} {fd' : ℤ} (h : (fd', b) ∈ sendTo fd b') : b = b' := by
  unfold sendTo at h
  split_ifs at h
  · cases h
  · exact (Prod.mk.inj (List.mem_singleton.1 h)).2

/-- What `PUBLISH` sends are messages and a number. -/
theorem not_isError_commandPublish {b : Bytes} {fd' : ℤ}
    (h : (fd', b) ∈ (commandPublish fd args s).1.1) : ¬ IsError b := by
  unfold commandPublish pubsubPublish at h
  dsimp only at h
  rcases List.mem_append.1 h with h | h
  · split_ifs at h
    · cases h
    · split at h
      · cases h
      · obtain ⟨fd'', -, heq⟩ := List.mem_map.1 h
        rw [← (Prod.mk.inj heq).2]
        exact not_isError_messageFrame _ _
  · rw [eq_of_mem_sendTo h]
    exact not_isError_sendInteger _

/-- A branch that sends an error has no success and changes no more than the recency of a key. -/
theorem Call.run_error {c : Call} {now : ℤ} {cmd b : Bytes} {fd' : ℤ} {sends : Sends} {ok : Bool}
    {s' : Server} (hs : s.store = r.toStore) (hc : c ≠ .subscribe)
    (h : c.run now fd cmd args s = .ok ((sends, ok), s')) (hb : (fd', b) ∈ sends)
    (he : IsError b) :
    ok = false ∧ s'.aof = s.aof ∧ ∃ r', s'.store = r'.toStore ∧ r.Equal r' := by
  rcases ha : c.action now args with _ | a
  · cases c <;> simp only [Call.action, reduceCtorEq] at ha
    case flushdb =>
      have hf := Except.ok.inj h
      unfold commandFlushdb at hf
      split_ifs at hf
      · obtain ⟨hpair, rfl⟩ := Prod.mk.inj hf
        exact ⟨(Prod.mk.inj hpair).2.symm, rfl, r, hs, fun _ => rfl, rfl⟩
      · obtain ⟨hpair, -⟩ := Prod.mk.inj hf
        rw [← (Prod.mk.inj hpair).1] at hb
        rw [eq_of_mem_sendTo hb] at he
        exact absurd he (not_isError rfl (by decide))
    case subscribe => exact absurd rfl hc
    case publish =>
      have hpair : (commandPublish fd args s).1 = (sends, ok) :=
        (Prod.mk.inj (Except.ok.inj h)).1
      have hsends : (commandPublish fd args s).1.1 = sends := congrArg Prod.fst hpair
      exact absurd he (not_isError_commandPublish (hsends ▸ hb))
    case unknown =>
      obtain ⟨hpair, rfl⟩ := Prod.mk.inj (Except.ok.inj h)
      exact ⟨(Prod.mk.inj hpair).2.symm, rfl, r, hs, fun _ => rfl, rfl⟩
    all_goals
      obtain ⟨hpair, -⟩ := Prod.mk.inj (Except.ok.inj h)
      rw [← (Prod.mk.inj hpair).1] at hb
      rw [eq_of_mem_sendTo hb] at he
      first
        | exact absurd he (not_isError_pubsubUnsubscribe _ _ _)
        | exact absurd he (not_isError_respBulkString _)
        | exact absurd he (not_isError rfl (by decide))
  · rw [Call.run_action r now args ha fd cmd hs] at h
    rcases hrun : a.run r with f | ⟨⟨reply, ok'⟩, r'⟩ <;> rw [hrun] at h
    · cases h
    · obtain ⟨hpair, rfl⟩ := Prod.mk.inj (Except.ok.inj h)
      obtain ⟨rfl, rfl⟩ := Prod.mk.inj hpair
      have hreply : b = reply := eq_of_mem_sendTo hb
      obtain ⟨hok, heq⟩ := Action.run_error ha hrun (hreply ▸ he)
      exact ⟨hok, rfl, r', rfl, heq⟩

/-- A command that sends an error goes through, and changes no more than the recency of a key. -/
theorem handleCommand_error {b : Bytes} (hs : s.store = r.toStore) (hc : callOf args ≠ .subscribe)
    {fd' : ℤ} (hb : (fd', b) ∈ (handleCommand env fd args s).1) (he : IsError b) :
    ∃ s' r', (handleCommand env fd args s).2 = .ok s' ∧ s'.aof = s.aof
      ∧ s'.store = r'.toStore ∧ r.Equal r' := by
  rcases args with _ | ⟨a, as⟩
  · cases hb
  have hcall : route (toUpper a) (a :: as).length = callOf (a :: as) := rfl
  simp only [handleCommand, turnedAway_ensureClient, hcall] at hb ⊢
  by_cases ht : turnedAway s fd (toUpper a)
  · rw [if_pos ht]
    exact ⟨_, r, rfl, rfl, hs, fun _ => rfl, rfl⟩
  · rw [if_neg ht] at hb ⊢
    rcases hrun : (callOf (a :: as)).run env.now fd (toUpper a) (a :: as) (s.ensureClient fd) with
      f | ⟨⟨sends, ok⟩, t⟩ <;> rw [hrun] at hb
    · cases hb
    · obtain ⟨rfl, haof, r', hst, heq⟩ := Call.run_error (s := s.ensureClient fd) hs hc hrun hb he
      exact ⟨t, r', by simp, haof, hst, heq⟩

/-- A command that sends an error does nothing to the two maps. -/
theorem handleCommand_error_maps {s' : Server} {b : Bytes} {fd' : ℤ}
    (h : (handleCommand env fd args s).2 = .ok s') (hc : callOf args ≠ .subscribe)
    (hb : (fd', b) ∈ (handleCommand env fd args s).1) (he : IsError b) :
    SameMaps (s.ensureClient fd) s' := by
  have hmaps := handleCommand_maps h
  rcases args with _ | ⟨a, as⟩
  · cases hb
  have hcall : route (toUpper a) (a :: as).length = callOf (a :: as) := rfl
  simp only [handleCommand, turnedAway_ensureClient, hcall] at hb
  have hpart : SameMaps (if turnedAway s fd (toUpper a) then s.ensureClient fd
      else (callOf (a :: as)).pubsub fd (a :: as) (s.ensureClient fd)) s' := hmaps
  by_cases ht : turnedAway s fd (toUpper a)
  · rw [if_pos ht] at hpart
    exact hpart
  · rw [if_neg ht] at hb hpart
    rcases hcase : callOf (a :: as) <;> rw [hcase] at hb hpart
    case subscribe => exact absurd hcase hc
    case unsubscribe =>
      rw [eq_of_mem_sendTo hb] at he
      exact absurd he (not_isError_pubsubUnsubscribe _ _ _)
    case publish => exact absurd he (not_isError_commandPublish hb)
    all_goals exact hpart

end Command

/-- After a command that sends an error the keys, their values, the memory counter, the two maps
and the file are what they were. -/
theorem run_error_unchanged {events : List Event} {s : Server} {env : Env} {fd : ℤ}
    {args : List Bytes} (ho : Orderly events) (hopen : isOpen events fd = true)
    (h : run Server.step {} events = .ok s) (hc : callOf args ≠ .subscribe) {b : Bytes}
    (hb : (fd, b) ∈ (handleCommand env fd args s).1) (he : IsError b) :
    ∃ s', s.step (.command env fd args) = .ok s'
      ∧ (∀ k, s'.store.value k = s.store.value k)
      ∧ s'.store.currentMemoryUsage = s.store.currentMemoryUsage
      ∧ s'.clientsMap = s.clientsMap ∧ s'.channelsSubscribers = s.channelsSubscribers
      ∧ s'.aof = s.aof := by
  obtain ⟨r, hr⟩ := exists_store h
  obtain ⟨s', r', hs', haof, hst, hfind, husage⟩ := handleCommand_error hr hc hb he
  have hmaps := handleCommand_error_maps hs' hc hb he
  have hmem : fd ∈ s.clientsMap := (run_connected ho h).mem_of_isOpen fd hopen
  refine ⟨s', hs', fun k => ?_, ?_, hmaps.1.trans ?_, hmaps.2, haof⟩
  · rw [hst, hr, value_toStore, value_toStore, hfind]
  · rw [hst, hr]
    exact husage
  · refine Std.ExtTreeMap.ext_getElem? fun fd' => ?_
    simp only [Server.ensureClient, Server.setClient, Std.ExtTreeMap.getElem?_insert,
      compare_eq_iff_eq]
    split_ifs with hfd
    · rw [← hfd, Server.client, Std.ExtTreeMap.getElem?_eq_some_getElem hmem]
      rfl
    · rfl

/-- A list command on a string. -/
theorem run_error_unchanged_lpush : ∃ s, run Server.step {} [.connect 4,
      .command {} 4 [ascii "SET", ascii "k", ascii "v"]] = .ok s ∧
    ∃ s', s.step (.command {} 4 [ascii "LPUSH", ascii "k", ascii "x"]) = .ok s'
      ∧ ∀ k, s'.store.value k = s.store.value k := by
  have hrun : ∃ s, run Server.step {} [.connect 4,
      .command {} 4 [ascii "SET", ascii "k", ascii "v"]] = .ok s ∧
      (handleCommand {} 4 [ascii "LPUSH", ascii "k", ascii "x"] s).1 = [(4, wrongType)] :=
    ⟨_, rfl, rfl⟩
  obtain ⟨s, hs, hsends⟩ := hrun
  have ho : Orderly [.connect 4, .command {} 4 [ascii "SET", ascii "k", ascii "v"]] := by
    refine orderly_snoc [_] _ ?_ (.inl rfl)
    exact orderly_snoc [] _ orderly_nil ⟨by decide, rfl⟩
  have hmem : (4, wrongType) ∈ (handleCommand {} 4 [ascii "LPUSH", ascii "k", ascii "x"] s).1 := by
    rw [hsends]
    exact List.mem_singleton.2 rfl
  obtain ⟨s', hs', hvalue, -⟩ := run_error_unchanged ho rfl hs (by decide) hmem (by rfl)
  exact ⟨s, hs, s', hs', hvalue⟩

end DrutaDB
