import DrutaDB.Proofs.Deadlines
import DrutaDB.Proofs.Errors
import DrutaDB.Proofs.ListCommands
import DrutaDB.Proofs.RewriteGet

/-!
# Times to live

What a `SET` with a lifetime stores as its deadline: the clock and the lifetime added up, wrapped.
It is their sum, and the key is readable until then, exactly if the sum fits a `long long`
(`set_lifetime_iff`).
-/

namespace DrutaDB

open Machine Decimal Run Store

section Set

variable {r r' : Recency} {now e : ℤ} {args : List Bytes} {k : Bytes} {v w : DrutaValue}
  {x : Bytes × Bool}

theorem find_touch (h : r.touch k = .ok r') (hv : r'.find k = some v) : r.find k = some v := by
  rcases hf : r.find k with _ | u
  · rw [Recency.touch, hf] at h
    cases h
  · rw [Recency.touch_eq r hf] at h
    obtain rfl := Except.ok.inj h
    have hpush : (r.nodes.push k u).find k = some v := hv
    rwa [RecencyList.find_push, if_pos rfl] at hpush

/-- What is found under a key that was written is what was written. -/
theorem find_assign {m n : ℕ} {b : Bool} (hf : r.find k = some v)
    (h : r.assign k w (some (m, n)) b = .ok r') {u : DrutaValue} (hu : r'.find k = some u) :
    u = w := by
  have hsettled := find_touch h hu
  have hwritten := find_of_settle hsettled
  have hwrite := Recency.find_write (r := r) hf w b
  exact Option.some.inj (hwritten.symm.trans hwrite)

/-- What a `SET` leaves under its key, if the memory limit leaves anything there. -/
theorem find_set (hopts : setOptions now (args.drop 3) 0 = .ok e)
    (hrun : (Action.access (arg args 1) (setOutcome now args)).run r = .ok (x, r'))
    (hv : r'.find (arg args 1) = some v) : v = .ofString (arg args 2) e := by
  rcases x with ⟨reply, ok⟩
  obtain ⟨-, -, hp⟩ := apply_ok hrun
  rcases hf : r.find (arg args 1) with _ | u <;> rw [hf] at hp <;>
    simp only [setOutcome, hopts, Recency.perform] at hp
  · obtain rfl := Except.ok.inj hp
    have hpush : (r.nodes.push (arg args 1) (.ofString (arg args 2) e)).find (arg args 1) = some v :=
      find_of_settle hv
    rw [RecencyList.find_push, if_pos rfl] at hpush
    exact (Option.some.inj hpush).symm
  · exact find_assign hf hp hv

end Set

section Step

variable {s s' : Server} {env : Env} {fd d : ℤ} {args : List Bytes} {v : DrutaValue}

/-- A client that was answered `+OK` was not turned away. -/
theorem turnedAway_of_answer (h : handleCommand env fd args s = ([(fd, okReply)], .ok s')) :
    turnedAway s fd (toUpper (args.headD [])) = false := by
  rcases args with _ | ⟨a, as⟩
  · cases congrArg Prod.fst h
  rw [Bool.eq_false_iff]
  intro ht
  have hturn : turnedAway s fd (toUpper a) = true := ht
  have hsent : sendTo fd subscriberMode = [(fd, okReply)] := by
    have hfst := congrArg Prod.fst h
    simpa only [handleCommand, turnedAway_ensureClient, hturn, if_true] using hfst
  unfold sendTo at hsent
  split_ifs at hsent
  have hreply : subscriberMode = okReply := (Prod.mk.inj (List.singleton_inj.1 hsent)).2
  exact absurd hreply (by decide)

/-- The deadline of a `SET` with a lifetime is the clock and the lifetime, wrapped. -/
theorem set_lifetime {r : Recency} (hr : s.store = r.toStore) (hset : callOf args = .set)
    (hd : lifetime (args.drop 3) none = some d)
    (hs : handleCommand env fd args s = ([(fd, okReply)], .ok s'))
    (hv : s'.store.value (arg args 1) = some v) :
    v = .ofString (arg args 2) (toLong (env.now + d)) := by
  have hturn := turnedAway_of_answer hs
  have hchange : (Event.command env fd args).change s =
      .act (.access (arg args 1) (setOutcome env.now args)) := by
    simp only [Event.change, hturn, Bool.false_eq_true, if_false, hset]
    rfl
  have hstep : s.step (.command env fd args) = .ok s' := congrArg Prod.snd hs
  obtain ⟨r', hr', htook⟩ := step_took hr hstep
  rw [hr', value_toStore] at hv
  cases htook with
  | quiet hc => exact absurd (hchange.symm.trans hc) (by simp)
  | flush hc => exact absurd (hchange.symm.trans hc) (by simp)
  | act hc hrun =>
    obtain rfl := Change.act.inj (hchange.symm.trans hc)
    exact find_set (setOptions_lifetime env.now _ none 0 (by simp) hd) hrun hv

end Step

/-- A deadline is the clock and the lifetime added up, and the key is readable until then as long
as it holds what was stored, exactly if the sum fits a `long long`. -/
theorem set_lifetime_iff {events : List Event} {s s' : Server} {env : Env} {fd d : ℤ}
    {args : List Bytes} {v : DrutaValue} (hrun : run Server.step {} events = .ok s)
    (hset : callOf args = .set) (hd : lifetime (args.drop 3) none = some d)
    (hs : handleCommand env fd args s = ([(fd, okReply)], .ok s'))
    (hv : s'.store.value (arg args 1) = some v) :
    (v.expiryTime = env.now + d
      ∧ (0 < d → ∀ (later : List Event) (s'' : Server), run Server.step s' later = .ok s'' →
        s''.store.value (arg args 1) = some v → ∀ t < env.now + d,
          getReply t (arg args 1) s''.store = some (respBulkString (arg args 2)))) ↔
      -2 ^ 63 ≤ env.now + d ∧ env.now + d < 2 ^ 63 := by
  obtain ⟨r, hr⟩ := exists_store hrun
  have hstored := set_lifetime hr hset hd hs hv
  have hdeadline : v.expiryTime = toLong (env.now + d) := by rw [hstored]; rfl
  constructor
  · rintro ⟨hexact, -⟩
    exact toLong_eq_iff.1 (hdeadline.symm.trans hexact)
  · intro hfits
    have hexact : v.expiryTime = env.now + d := hdeadline.trans (toLong_eq_iff.2 hfits)
    refine ⟨hexact, fun _ later s'' hlater hvalue t ht => ?_⟩
    have hwhole : run Server.step {} (events ++ .command env fd args :: later) = .ok s'' := by
      rw [run_append _ _ hrun, run_cons_ok (congrArg Prod.snd hs), hlater]
    obtain ⟨r'', hr''⟩ := exists_store hwhole
    rw [hr'', value_toStore] at hvalue
    have hlive : v.expired t = false := by
      rw [Bool.eq_false_iff, Ne, expired_eq_true]
      omega
    rw [hr'', getReply_toStore, hvalue, getOutcome_reply (d := arg args 2) (by rw [hstored]; rfl),
      hlive]
    rfl

/-- A first `SET` with options. -/
theorem exists_set {opts : List Bytes} {e : ℤ} (hopts : setOptions 0 opts 0 = .ok e)
    (hcall : callOf (ascii "SET" :: ascii "k" :: ascii "v" :: opts) = .set)
    (hlen : ((ascii "SET" :: ascii "k" :: ascii "v" :: opts).map fun a => a.length + 16).sum + 80 <
      2 ^ 31) :
    ∃ s', handleCommand {} 4 (ascii "SET" :: ascii "k" :: ascii "v" :: opts) {} =
        ([(4, okReply)], .ok s')
      ∧ s'.store.value (ascii "k") = some (.ofString (ascii "v") e) := by
  have ha : (callOf (ascii "SET" :: ascii "k" :: ascii "v" :: opts)).action 0
      (ascii "SET" :: ascii "k" :: ascii "v" :: opts) = some (.access (ascii "k")
        (setOutcome 0 (ascii "SET" :: ascii "k" :: ascii "v" :: opts))) := by
    rw [hcall]
    rfl
  have hrun := run_setOptions (r := .initial) (k := ascii "k") (v := ascii "v") rfl hopts
  have hexec := Call.run_action .initial 0 _ ha 4 (ascii "SET") (s := Server.ensureClient {} 4) rfl
  rw [hrun] at hexec
  have hturn : turnedAway {} 4 (ascii "SET") = false := by decide
  have hupper : toUpper (ascii "SET") = ascii "SET" := by decide
  have hroute : route (ascii "SET") (ascii "SET" :: ascii "k" :: ascii "v" :: opts).length =
      callOf (ascii "SET" :: ascii "k" :: ascii "v" :: opts) := rfl
  have hsent : (handleCommand {} 4 (ascii "SET" :: ascii "k" :: ascii "v" :: opts) {}).1 =
      [(4, okReply)] := by
    simp only [handleCommand, turnedAway_ensureClient, hupper, hturn, Bool.false_eq_true, if_false,
      hroute, hexec, Except.map]
    rfl
  obtain ⟨s', hs, h⟩ := step_serves {} 4 _ serves_initial ha hrun (by decide) (by decide) hlen
  refine ⟨s', Prod.ext hsent hs, ?_⟩
  rw [h.store, value_toStore]
  rfl

theorem set_lifetime_iff_short : ∃ s' : Server,
    handleCommand {} 4 [ascii "SET", ascii "k", ascii "v", ascii "EX", ascii "5"] {} =
      ([(4, okReply)], .ok s') ∧
    ∃ v, s'.store.value (ascii "k") = some v ∧ v.expiryTime = 0 + 5000 := by
  have hrun : run Server.step {} [] = .ok {} := rfl
  have hset : callOf [ascii "SET", ascii "k", ascii "v", ascii "EX", ascii "5"] = .set := by decide
  have hopts : setOptions 0 [ascii "EX", ascii "5"] 0 = .ok 5000 := by decide
  have hd : lifetime [ascii "EX", ascii "5"] none = some 5000 := by decide
  obtain ⟨s', hs, hv⟩ := exists_set hopts hset (by decide)
  exact ⟨s', hs, _, hv, ((set_lifetime_iff hrun hset hd hs hv).2 (by decide)).1⟩

/-- A lifetime of some hundred million years is over at once. -/
theorem set_lifetime_wraps : ¬ ∀ (events : List Event) (s s' : Server) (env : Env) (fd d : ℤ)
    (args : List Bytes) (v : DrutaValue), run Server.step {} events = .ok s → callOf args = .set →
      lifetime (args.drop 3) none = some d →
      handleCommand env fd args s = ([(fd, okReply)], .ok s') →
      s'.store.value (arg args 1) = some v →
        v.expiryTime = env.now + d ∧
          (0 < d → ∀ t < env.now + d, getReply t (arg args 1) s'.store ≠ some nilReply) := by
  intro h
  have hrun : run Server.step {} [] = .ok {} := rfl
  have hset : callOf [ascii "SET", ascii "k", ascii "v", ascii "EX", ascii "10000000000000000"] =
      .set := by decide
  have hopts : setOptions 0 [ascii "EX", ascii "10000000000000000"] 0 =
      .ok (-8446744073709551616) := by decide +kernel
  have hd : lifetime [ascii "EX", ascii "10000000000000000"] none =
      some 10000000000000000000 := by decide +kernel
  obtain ⟨s', hs, hv⟩ := exists_set hopts hset (by decide)
  obtain ⟨hexact, -⟩ := h [] {} s' {} 4 _ _ _ hrun hset hd hs hv
  have hne : (-8446744073709551616 : ℤ) ≠ 0 + 10000000000000000000 := by norm_num
  exact hne hexact

end DrutaDB
