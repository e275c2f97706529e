import DrutaDB.Proofs.Lifetime

/-!
# Values of another type

A command on one key that finds a value of another type answers `WRONGTYPE`, whatever the store.
The commands on several sets stop looking, or skip what is no set, so whether they notice one
depends on where it stands (`wrongType_iff`).
-/

namespace DrutaDB

open Machine Decimal Store

inductive Kind
  | string
  | list
  | hash
  | set
  deriving DecidableEq

def Data.kind : Data → Kind
  | .string _ => .string
  | .list _ => .list
  | .hash _ => .hash
  | .set _ => .set

/-- The type of value a typed command works on. -/
def Call.kind : Call → Option Kind
  | .get => some .string
  | .rpush | .lpush | .lrange | .lpop | .rpop | .llen => some .list
  | .hset | .hget | .hgetall | .hdel | .hlen => some .hash
  | .sadd | .scard | .sismember | .smembers | .smismember | .sinter | .sunion | .sdiff | .sdel =>
    some .set
  | _ => none

/-- The keys a typed command names. -/
def namedKeys (args : List Bytes) : List Bytes :=
  match callOf args with
  | .sinter | .sunion | .sdiff => args.drop 1
  | _ => [arg args 1]

/-- A typed command with a number of arguments it accepts. -/
structure Acceptable (args : List Bytes) : Prop where
  typed : (callOf args).kind.isSome
  even : callOf args = .hset → args.length % 2 = 0
  count : callOf args = .lpop ∨ callOf args = .rpop → args.length ≤ 3

/-- The key holds a value of another type than the command works on. -/
def IllTyped (s : Store) (args : List Bytes) (key : Bytes) : Prop :=
  ∃ v, s.value key = some v ∧ (callOf args).kind ≠ some v.data.kind

theorem find_value (s : Store) (key : Bytes) : Store.find key s = .ok (s.value key, s) := rfl

/-! ## Commands on one key -/

section One

variable {c : Call} {s : Server} {v : DrutaValue} {args : List Bytes}

/-- The typed commands on one key look it up and compare its type before anything else. -/
theorem Call.run_wrongType (now fd : ℤ) (cmd : Bytes) {k : Kind} (hc : c.kind = some k)
    (hone : c ≠ .sinter ∧ c ≠ .sunion ∧ c ≠ .sdiff) (hsize : c.Takes args.length)
    (heven : c = .hset → args.length % 2 = 0) (hcount : c = .lpop ∨ c = .rpop → args.length ≤ 3)
    (hv : s.store.value (arg args 1) = some v) (hk : v.data.kind ≠ k) :
    c.run now fd cmd args s = .ok ((sendTo fd wrongType, false), s) := by
  have hstore : ∀ {m : StoreM (Bytes × Bool)}, m s.store = .ok ((wrongType, false), s.store) →
      onStore fd m s = .ok ((sendTo fd wrongType, false), s) := fun hm => by
    rw [onStore, hm]
  cases c <;> simp only [Call.kind, reduceCtorEq, Option.some.injEq] at hc <;> subst hc <;>
    simp only [Call.Takes, reduceCtorEq, ne_eq, not_true_eq_false, and_false, false_and,
      forall_const, true_or, or_true] at hsize heven hcount hone <;> refine hstore ?_
  all_goals first
    | unfold commandGet
    | unfold commandRpush genericPush
    | unfold commandLpush genericPush
    | unfold commandLrange
    | unfold commandLpop genericPop
    | unfold commandRpop genericPop
    | unfold commandLlen
    | unfold commandHset
    | unfold commandHget
    | unfold commandHgetall
    | unfold commandHdel
    | unfold commandHlen
    | unfold commandSadd
    | unfold commandScard
    | unfold commandSismember
    | unfold commandSmembers
    | unfold commandSmismember
    | unfold commandSdel
  all_goals
    try dsimp only
    first
      | rw [if_neg (by omega), bind_ok (find_value s.store _), hv]
      | rw [bind_ok (find_value s.store _), hv]
    rcases hd : v.data <;> simp only [hd] <;> first
      | rfl
      | exact absurd (congrArg Data.kind hd) hk

end One

/-! ## Commands on several sets -/

section Several

variable {s : Store} {args : List Bytes}

/-- The key holds a set with the member. -/
def HoldsMember (s : Store) (a key : Bytes) : Prop :=
  ∃ v t, s.value key = some v ∧ v.data = .set t ∧ a ∈ t

/-- The key holds something that is no set. -/
def HoldsOther (s : Store) (key : Bytes) : Prop :=
  ∃ v, s.value key = some v ∧ v.data.kind ≠ .set

theorem mem_foldl_insert (t : Std.ExtTreeSet Bytes) (a : Bytes) :
    ∀ (l : List Bytes) (n : Std.ExtTreeSet Bytes),
      a ∈ l.foldl (fun n b => if t.contains b then n.insert b else n) n ↔ a ∈ n ∨ a ∈ l ∧ a ∈ t
  | [], n => by simp
  | b :: l, n => by
    rw [List.foldl_cons, mem_foldl_insert t a l, List.mem_cons]
    split_ifs with hb
    · rw [Std.ExtTreeSet.contains_iff_mem] at hb
      rw [Std.ExtTreeSet.mem_insert, Std.LawfulEqCmp.compare_eq_iff_eq]
      grind
    · rw [Std.ExtTreeSet.contains_iff_mem] at hb
      grind

/-- One of the keys holds no set, and the keys before it hold sets with a common member of a
kind. -/
def MeetsOther (s : Store) (P : Bytes → Prop) (keys : List Bytes) : Prop :=
  ∃ pre key post, keys = pre ++ key :: post ∧ HoldsOther s key ∧
    (pre = [] ∨ ∃ a, P a ∧ ∀ k ∈ pre, HoldsMember s a k)

theorem not_meetsOther_nil (P : Bytes → Prop) : ¬ MeetsOther s P [] := by
  rintro ⟨pre, key, post, h, -⟩
  simp at h

theorem meetsOther_cons {P : Bytes → Prop} {key : Bytes} {keys : List Bytes}
    (hkey : ¬ HoldsOther s key) : MeetsOther s P (key :: keys) ↔
      (∃ a, P a ∧ HoldsMember s a key) ∧
        MeetsOther s (fun a => P a ∧ HoldsMember s a key) keys := by
  constructor
  · rintro ⟨_ | ⟨k, pre⟩, other, post, h, hother, hpre⟩
    · obtain ⟨rfl, -⟩ := List.cons.inj h
      exact absurd hother hkey
    · obtain ⟨rfl, rfl⟩ := List.cons.inj h
      obtain ⟨a, ha, hall⟩ := hpre.resolve_left (List.cons_ne_nil _ _)
      rw [List.forall_mem_cons] at hall
      exact ⟨⟨a, ha, hall.1⟩, pre, other, post, rfl, hother, .inr ⟨a, ⟨ha, hall.1⟩, hall.2⟩⟩
  · rintro ⟨⟨a, ha, hmem⟩, pre, other, post, rfl, hother, hpre⟩
    refine ⟨key :: pre, other, post, rfl, hother, .inr ?_⟩
    rcases hpre with rfl | ⟨b, ⟨hb, hbmem⟩, hall⟩
    · exact ⟨a, ha, by simpa using hmem⟩
    · exact ⟨b, hb, List.forall_mem_cons.2 ⟨hbmem, hall⟩⟩

/-- The three things a key may hold for a command on sets. -/
theorem holds_cases (s : Store) (key : Bytes) : (s.value key = none ∧ ∀ a, ¬ HoldsMember s a key) ∨
    (∃ v t, s.value key = some v ∧ v.data = .set t ∧ ∀ a, HoldsMember s a key ↔ a ∈ t) ∨
    HoldsOther s key := by
  rcases hv : s.value key with _ | v
  · refine .inl ⟨rfl, fun a ⟨w, t, hw, _⟩ => ?_⟩
    rw [hv] at hw
    cases hw
  · rcases hd : v.data with _ | _ | _ | t
    case set =>
      refine .inr (.inl ⟨v, t, rfl, hd, fun a => ⟨fun ⟨w, u, hw, hu, ha⟩ => ?_, fun ha => ?_⟩⟩)
      · obtain rfl := Option.some.inj (hv.symm.trans hw)
        cases hd.symm.trans hu
        exact ha
      · exact ⟨v, t, hv, hd, ha⟩
    all_goals exact .inr (.inr ⟨v, hv, by rw [hd]; exact Kind.noConfusion⟩)

theorem not_holdsOther_of_set {key : Bytes} {v : DrutaValue} {t : Std.ExtTreeSet Bytes}
    (hv : s.value key = some v) (ht : v.data = .set t) : ¬ HoldsOther s key := by
  rintro ⟨w, hw, hk⟩
  obtain rfl := Option.some.inj (hv.symm.trans hw)
  exact hk (by rw [ht]; rfl)

theorem not_holdsOther_of_none {key : Bytes} (hv : s.value key = none) : ¬ HoldsOther s key := by
  rintro ⟨w, hw, -⟩
  rw [hv] at hw
  cases hw

/-- The loop meets what is no set unless it stops before: at a missing key, or where the sets so
far have no common member. -/
theorem sinterLoop_none_iff : ∀ (keys : List Bytes) (inter : Std.ExtTreeSet Bytes),
    ∃ o, sinterLoop keys inter s = .ok (o, s) ∧ (o = none ↔ MeetsOther s (· ∈ inter) keys)
  | [], inter => ⟨some inter, rfl, iff_of_false (by simp) (not_meetsOther_nil _)⟩
  | key :: keys, inter => by
    unfold sinterLoop
    rw [bind_ok (find_value s key)]
    rcases holds_cases s key with ⟨hv, hno⟩ | ⟨v, t, hv, ht, hmember⟩ | hother
    · rw [hv]
      refine ⟨some ∅, rfl, iff_of_false (by simp) ?_⟩
      rw [meetsOther_cons (not_holdsOther_of_none hv)]
      exact fun h => h.1.elim fun a ha => hno a ha.2
    · simp only [hv, ht]
      set next := inter.toList.foldl
        (fun n a => if t.contains a then n.insert a else n) (∅ : Std.ExtTreeSet Bytes) with hnext
      have hmem : ∀ a, a ∈ next ↔ a ∈ inter ∧ HoldsMember s a key := fun a => by
        rw [hnext, mem_foldl_insert, Std.ExtTreeSet.mem_toList, hmember]
        simp
      rw [meetsOther_cons (not_holdsOther_of_set hv ht)]
      simp only [← hmem]
      split_ifs with hempty
      · refine ⟨some next, rfl, iff_of_false (by simp) fun h => h.1.elim fun a ha => ?_⟩
        rw [Std.ExtTreeSet.isEmpty_iff.1 hempty] at ha
        exact Std.ExtTreeSet.not_mem_empty ha
      · obtain ⟨o, ho, hiff⟩ := sinterLoop_none_iff keys next
        refine ⟨o, ho, hiff.trans (iff_and_self.2 fun _ => ?_)⟩
        by_contra hnone
        refine hempty (Std.ExtTreeSet.isEmpty_iff.2 (Std.ExtTreeSet.ext_mem fun a => ?_))
        exact iff_of_false (fun ha => hnone ⟨a, ha⟩) Std.ExtTreeSet.not_mem_empty
    · obtain ⟨v, hv, hk⟩ := hother
      refine ⟨none, ?_, iff_of_true rfl ⟨[], key, keys, rfl, ⟨v, hv, hk⟩, .inl rfl⟩⟩
      simp only [hv]
      rcases hd : v.data
      case set => exact absurd (congrArg Data.kind hd) hk
      all_goals rfl

/-- What `SINTER` notices: a first key that holds no set, or a later one its loop reaches. -/
def SinterNotices (s : Store) (keys : List Bytes) : Prop :=
  ∃ pre key post, keys = pre ++ key :: post ∧ HoldsOther s key ∧
    (pre.length ≤ 1 ∨ ∃ a, ∀ k ∈ pre, HoldsMember s a k)

theorem sinterNotices_cons {key : Bytes} {keys : List Bytes} (hkey : ¬ HoldsOther s key) :
    SinterNotices s (key :: keys) ↔ MeetsOther s (HoldsMember s · key) keys := by
  constructor
  · rintro ⟨_ | ⟨k, pre⟩, other, post, h, hother, hpre⟩
    · obtain ⟨rfl, -⟩ := List.cons.inj h
      exact absurd hother hkey
    · obtain ⟨rfl, rfl⟩ := List.cons.inj h
      refine ⟨pre, other, post, rfl, hother, hpre.imp (fun hlen => ?_) fun ⟨a, hall⟩ => ?_⟩
      · rw [List.length_cons] at hlen
        exact List.length_eq_zero_iff.1 (by omega)
      · rw [List.forall_mem_cons] at hall
        exact ⟨a, hall.1, hall.2⟩
  · rintro ⟨pre, other, post, rfl, hother, hpre⟩
    refine ⟨key :: pre, other, post, rfl, hother, hpre.imp (fun hnil => ?_) fun ⟨a, ha, hall⟩ => ?_⟩
    · rw [hnil]
      rfl
    · exact ⟨a, List.forall_mem_cons.2 ⟨ha, hall⟩⟩

theorem respArrayOf_ne_wrongType (l : List Bytes) : respArrayOf l ≠ wrongType := fun h =>
  absurd (congrArg List.head? h) (by simp [respArrayOf, respArray]; decide)

theorem commandSinter_wrongType (hsize : 2 ≤ args.length) :
    ∃ reply, commandSinter args s = .ok ((reply, false), s) ∧
      (reply = wrongType ↔ SinterNotices s (args.drop 1)) := by
  obtain ⟨cmd, key, keys, rfl⟩ : ∃ cmd key keys, args = cmd :: key :: keys := by
    rcases args with _ | ⟨cmd, _ | ⟨key, keys⟩⟩
    · simp at hsize
    · simp at hsize
    · exact ⟨cmd, key, keys, rfl⟩
  unfold commandSinter
  rw [if_neg (by simp), bind_ok (find_value s _)]
  change ∃ reply, _ ∧ (reply = wrongType ↔ SinterNotices s (key :: keys))
  have hloop : ∀ inter : Std.ExtTreeSet Bytes, ∃ reply,
      (sinterLoop keys inter >>= fun o => pure (sinterReply o, false)) s =
        .ok ((reply, false), s) ∧ (reply = wrongType ↔ MeetsOther s (· ∈ inter) keys) := by
    intro inter
    obtain ⟨o, ho, hiff⟩ := sinterLoop_none_iff (s := s) keys inter
    refine ⟨sinterReply o, bind_ok ho, Iff.trans ?_ hiff⟩
    rcases o with _ | next
    · exact iff_of_true rfl rfl
    · exact iff_of_false (respArrayOf_ne_wrongType _) (by simp)
  rcases holds_cases s key with ⟨hv, hno⟩ | ⟨v, t, hv, ht, hmember⟩ | hother
  · have hv' : s.value (arg (cmd :: key :: keys) 1) = none := hv
    rw [sinterNotices_cons (not_holdsOther_of_none hv), hv']
    obtain ⟨reply, hreply, hiff⟩ := hloop ∅
    refine ⟨reply, hreply, hiff.trans ?_⟩
    have hsame : (fun a : Bytes => a ∈ (∅ : Std.ExtTreeSet Bytes)) = (HoldsMember s · key) :=
      funext fun a => propext (iff_of_false Std.ExtTreeSet.not_mem_empty (hno a))
    rw [hsame]
  · have hv' : s.value (arg (cmd :: key :: keys) 1) = some v := hv
    rw [sinterNotices_cons (not_holdsOther_of_set hv ht), hv']
    simp only [ht]
    obtain ⟨reply, hreply, hiff⟩ := hloop t
    refine ⟨reply, hreply, hiff.trans ?_⟩
    simp only [hmember]
  · obtain ⟨v, hv, hk⟩ := hother
    have hv' : s.value (arg (cmd :: key :: keys) 1) = some v := hv
    refine ⟨wrongType, ?_, iff_of_true rfl ⟨[], key, keys, rfl, ⟨v, hv, hk⟩, .inl (by simp)⟩⟩
    simp only [hv']
    rcases hd : v.data
    case set => exact absurd (congrArg Data.kind hd) hk
    all_goals rfl

theorem commandSdiff_wrongType (hsize : 2 ≤ args.length) :
    ∃ reply, commandSdiff args s = .ok ((reply, false), s) ∧
      (reply = wrongType ↔ HoldsOther s (arg args 1)) := by
  unfold commandSdiff
  rw [if_neg (by omega), bind_ok (find_value s _)]
  have hloop : ∀ d : Std.ExtTreeSet Bytes, ∃ reply,
      (sdiffLoop (args.drop 2) d >>= fun d' => pure (respArrayOf d'.toList, false)) s =
        .ok ((reply, false), s) ∧ reply ≠ wrongType := by
    intro d
    obtain ⟨d', hd'⟩ := sdiffLoop_reads (args.drop 2) d s
    exact ⟨_, bind_ok hd', respArrayOf_ne_wrongType _⟩
  rcases holds_cases s (arg args 1) with ⟨hv, -⟩ | ⟨v, t, hv, ht, -⟩ | hother
  · rw [hv]
    obtain ⟨reply, hreply, hne⟩ := hloop ∅
    exact ⟨reply, hreply, iff_of_false hne (not_holdsOther_of_none hv)⟩
  · rw [hv]
    simp only [ht]
    obtain ⟨reply, hreply, hne⟩ := hloop t
    exact ⟨reply, hreply, iff_of_false hne (not_holdsOther_of_set hv ht)⟩
  · obtain ⟨v, hv, hk⟩ := hother
    refine ⟨wrongType, ?_, iff_of_true rfl ⟨v, hv, hk⟩⟩
    simp only [hv]
    rcases hd : v.data
    case set => exact absurd (congrArg Data.kind hd) hk
    all_goals rfl

theorem commandSunion_wrongType (hsize : 2 ≤ args.length) :
    ∃ reply, commandSunion args s = .ok ((reply, false), s) ∧ reply ≠ wrongType := by
  unfold commandSunion
  rw [if_neg (by omega)]
  obtain ⟨u, hu⟩ := sunionLoop_reads (args.drop 1) ∅ s
  exact ⟨_, bind_ok hu, respArrayOf_ne_wrongType _⟩

end Several

/-- Whether a command notices that a key it names holds a value of another type. -/
def Notices (s : Store) (args : List Bytes) : Prop :=
  match callOf args with
  | .sinter => SinterNotices s (args.drop 1)
  | .sdiff => HoldsOther s (arg args 1)
  | .sunion => False
  | _ => True

/-- Of a client that is not subscribed, a typed command that names a key with a value of another
type is answered `WRONGTYPE` exactly where it notices it. -/
theorem wrongType_iff {s : Server} {env : Env} {fd : ℤ} {args : List Bytes} (hfd : fd ≠ -1)
    (hsub : (s.client fd).isSubscriber = false) (hargs : Acceptable args)
    (hkey : ∃ key ∈ namedKeys args, IllTyped s.store args key) :
    (handleCommand env fd args s).1 = [(fd, wrongType)] ↔ Notices s.store args := by
  obtain ⟨k, hk⟩ := Option.isSome_iff_exists.1 hargs.typed
  have hne : callOf args ≠ .unknown := fun h => by
    rw [h] at hk
    cases hk
  have hsize := (of_route hne rfl).2
  rcases args with _ | ⟨a, as⟩
  · exact absurd (by decide) hne
  have hcall : route (toUpper a) (a :: as).length = callOf (a :: as) := rfl
  have ht : turnedAway s fd (toUpper a) = false := by simp [turnedAway, hsub]
  have hsent : ∀ {reply : Bytes}, sendTo fd reply = [(fd, wrongType)] ↔ reply = wrongType := by
    intro reply
    simp [sendTo, hfd]
  have hreply : ∀ {m : StoreM (Bytes × Bool)} {P : Prop},
      (∃ reply, m s.store = .ok ((reply, false), s.store) ∧ (reply = wrongType ↔ P)) →
      (callOf (a :: as)).run env.now fd (toUpper a) (a :: as) (s.ensureClient fd) =
        onStore fd m (s.ensureClient fd) →
      ((handleCommand env fd (a :: as) s).1 = [(fd, wrongType)] ↔ P) := by
    rintro m P ⟨reply, hm, hiff⟩ hrun
    have hm' : m (s.ensureClient fd).store = .ok ((reply, false), s.store) := hm
    simp only [handleCommand, turnedAway_ensureClient, ht, hcall, hrun, onStore, hm']
    exact hsent.trans hiff
  unfold Notices
  rcases hc : callOf (a :: as) <;> rw [hc] at hreply hsize
  case sinter => exact hreply (commandSinter_wrongType hsize) rfl
  case sdiff => exact hreply (commandSdiff_wrongType hsize) rfl
  case sunion =>
    obtain ⟨reply, hm, hno⟩ := commandSunion_wrongType (s := s.store) hsize
    exact hreply ⟨reply, hm, iff_of_false hno id⟩ rfl
  all_goals
    have hone : namedKeys (a :: as) = [arg (a :: as) 1] := by
      unfold namedKeys
      rw [hc]
    obtain ⟨key, hmem, v, hv, hill⟩ := hkey
    rw [hone, List.mem_singleton] at hmem
    subst hmem
    have hkind : v.data.kind ≠ k := fun he => hill (hk.trans (congrArg some he.symm))
    have hrun := Call.run_wrongType (s := s.ensureClient fd) env.now fd (toUpper a) hk
      (by rw [hc]; decide) (by rw [hc]; exact hsize) hargs.even hargs.count hv hkind
    rw [hc] at hrun
    simp only [handleCommand, turnedAway_ensureClient, ht, hcall, hc, hrun]
    exact iff_of_true (hsent.2 rfl) trivial

theorem exists_string : ∃ s, Run.run Server.step {} [.connect 4,
      .command {} 4 [ascii "SET", ascii "k", ascii "v"]] = .ok s ∧
    (s.client 4).isSubscriber = false ∧
    (∃ v, s.store.value (ascii "k") = some v ∧ v.data.kind = .string) ∧
    (handleCommand {} 4 [ascii "SDIFF", ascii "t", ascii "k"] s).1 = [(4, respArrayOf [])] :=
  ⟨_, rfl, rfl, ⟨_, rfl, rfl⟩, rfl⟩

theorem wrongType_iff_lpush : ∃ s, Run.run Server.step {} [.connect 4,
      .command {} 4 [ascii "SET", ascii "k", ascii "v"]] = .ok s ∧
    (handleCommand {} 4 [ascii "LPUSH", ascii "k", ascii "x"] s).1 = [(4, wrongType)] := by
  obtain ⟨s, hs, hsub, ⟨v, hv, hkind⟩, -⟩ := exists_string
  refine ⟨s, hs, (wrongType_iff (by decide) hsub ⟨by decide, by decide, by decide⟩ ?_).2 trivial⟩
  refine ⟨ascii "k", List.mem_singleton.2 rfl, v, hv, ?_⟩
  rw [hkind]
  decide

/-- `SDIFF` skips a string behind its first key. -/
theorem sdiff_skips_string : ¬ ∀ (s : Server) (env : Env) (fd : ℤ) (args : List Bytes), fd ≠ -1 →
    (s.client fd).isSubscriber = false → Acceptable args →
      (∃ key ∈ namedKeys args, IllTyped s.store args key) →
        (handleCommand env fd args s).1 = [(fd, wrongType)] := by
  intro h
  obtain ⟨s, -, hsub, ⟨v, hv, hkind⟩, hsends⟩ := exists_string
  have hargs : Acceptable [ascii "SDIFF", ascii "t", ascii "k"] := ⟨by decide, by decide, by decide⟩
  have heq := h s {} 4 [ascii "SDIFF", ascii "t", ascii "k"] (by decide) hsub hargs
    ⟨ascii "k", by decide, v, hv, by rw [hkind]; decide⟩
  rw [hsends] at heq
  exact respArrayOf_ne_wrongType [] (Prod.mk.inj (List.singleton_inj.1 heq)).2

end DrutaDB
