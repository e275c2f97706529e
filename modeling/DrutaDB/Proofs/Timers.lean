import DrutaDB.Lib.Throttle
import DrutaDB.Proofs.Process

/-!
# The two timers

`flush_aof` and `check_and_rewrite_aof` wait for a second and for five (`flushAof_eq`,
`checkAndRewriteAof_eq`).  So a process never holds back what came in more than a second before it
last looked at the clock (`run_flushed`), and rewrites the file no more often than every five
seconds (`run_rewrites`).
-/

namespace DrutaDB

open Machine Decimal Feed Run Throttle

/-! ## Periods -/

theorem le_tdiv_iff {k d x : ℤ} (hk : 0 < k) (hd : 0 < d) : k ≤ x.tdiv d ↔ k * d ≤ x := by
  refine ⟨fun h => ?_, Int.le_tdiv_of_mul_le hd⟩
  rcases le_or_gt 0 x with hx | hx
  · rw [Int.tdiv_eq_ediv_of_nonneg hx] at h
    exact (Int.le_ediv_iff_mul_le hd).1 h
  · have hneg : x.tdiv d ≤ (0 : ℤ).tdiv d := Int.tdiv_le_tdiv hd hx.le
    rw [Int.zero_tdiv] at hneg
    omega

/-- A second, in nanoseconds. -/
def second : ℤ := 1000000000

theorem second_pos : 0 < second := by decide

namespace Process

variable {p p' : Process} {m : Moment} {f : Fault} {started now : ℤ} {fd : ℤ}

theorem flushAof_eq (started now : ℤ) (p : Process) : p.flushAof started now =
    { (if Elapsed second p.lastFlush started now then p.flush else p) with
      lastFlush := some (remark second p.lastFlush started now) } := by
  have hiff : 1000 ≤ (now - p.lastFlush.getD started).tdiv 1000000 ↔
      Elapsed second p.lastFlush started now := le_tdiv_iff (by decide) (by decide)
  unfold flushAof
  by_cases hpassed : Elapsed second p.lastFlush started now
  · rw [remark_of_elapsed hpassed, if_pos hpassed]
    exact if_pos (hiff.2 hpassed)
  · rw [remark_of_not_elapsed hpassed, if_neg hpassed]
    exact if_neg (mt hiff.1 hpassed)

theorem rewriteAof_lastSizeCheck (h : p.rewriteAof m = .ok p') :
    p'.lastSizeCheck = p.lastSizeCheck := by
  unfold rewriteAof at h
  rcases hs : DrutaDB.rewriteAof { now := m.now, disk := m.disk }
    (if m.disk.opens then p.flush else p).server with f | s <;> simp only [hs, bind, Except.bind] at h
  · cases h
  obtain rfl := Except.ok.inj h
  split_ifs <;> rfl

/-- The check leaves its mark, and a rewrite is due by it. -/
theorem checkAndRewriteAof_marks (h : p.checkAndRewriteAof m = .ok p') :
    p'.lastSizeCheck = some (remark (5 * second) p.lastSizeCheck m.started m.steady) ∧
      ∃ k, p'.server.rewrites = p.server.rewrites + k ∧
        (k = 0 ∨ k = 1 ∧ Elapsed (5 * second) p.lastSizeCheck m.started m.steady) := by
  have hiff : 5 ≤ (m.steady - p.lastSizeCheck.getD m.started).tdiv 1000000000 ↔
      Elapsed (5 * second) p.lastSizeCheck m.started m.steady := le_tdiv_iff (by decide) (by decide)
  unfold checkAndRewriteAof at h
  by_cases hpassed : Elapsed (5 * second) p.lastSizeCheck m.started m.steady
  · rw [if_neg (not_lt.2 (hiff.2 hpassed))] at h
    rw [remark_of_elapsed hpassed]
    dsimp only at h
    split_ifs at h
    · obtain ⟨-, hrewrites⟩ := rewriteAof_kept h
      refine ⟨?_, 1, hrewrites, .inr ⟨rfl, hpassed⟩⟩
      exact rewriteAof_lastSizeCheck h
    · obtain rfl := Except.ok.inj h
      exact ⟨rfl, 0, rfl, .inl rfl⟩
  · rw [if_pos (not_le.1 (mt hiff.1 hpassed))] at h
    obtain rfl := Except.ok.inj h
    rw [remark_of_not_elapsed hpassed]
    exact ⟨rfl, 0, rfl, .inl rfl⟩

theorem appendToAof_lastSizeCheck {args : List Bytes} (h : p.appendToAof m args = .ok p') :
    p'.lastSizeCheck = p.lastSizeCheck := by
  unfold appendToAof at h
  rcases args with _ | ⟨a, as⟩
  · exact Except.ok.inj h ▸ rfl
  dsimp only at h
  split_ifs at h
  · rcases hf : formatRespCommand (a :: as) with e | resp <;> rw [hf] at h
    · cases h
    · exact Except.ok.inj h ▸ rfl
  · exact Except.ok.inj h ▸ rfl

/-- What a command does to the size check, and the rewrites it leads to. -/
theorem handleCommand_marks {args : List Bytes} (h : (p.handleCommand m fd args).2 = .ok p') :
    p'.lastSizeCheck = p.lastSizeCheck ∧ p'.server.rewrites = p.server.rewrites ∨
      p'.lastSizeCheck = some (remark (5 * second) p.lastSizeCheck m.started m.steady) ∧
        ∃ k, p'.server.rewrites = p.server.rewrites + k ∧
          (k = 0 ∨ k = 1 ∧ Elapsed (5 * second) p.lastSizeCheck m.started m.steady) := by
  obtain ⟨q, hmark, hsame, -, rfl | ⟨u, ha, hcheck⟩⟩ := handleCommand_ok h
  · exact .inl ⟨hmark, hsame⟩
  · have hmarks := checkAndRewriteAof_marks hcheck
    rw [appendToAof_lastSizeCheck ha, (appendToAof_kept ha).2, hmark, hsame] at hmarks
    exact .inr hmarks

end Process

/-! ## Rewrites -/

/-- When the steady clock is read, but for what initialises a timer. -/
def Tick.steady : Tick → List ℤ
  | .byte _ b => [b.1.steady]
  | .flush _ now => [now]
  | _ => []

/-- When the steady clock is read in the rounds. -/
def readings (rounds : List Round) : List ℤ := (rounds.flatMap Round.ticks).flatMap Tick.steady

/-- The rewrites of a process since then, in a stretch of time. -/
def RewritesSince (a b : ℤ) (rewrites : ℕ) (p : Process) : Prop :=
  ∃ n, p.server.rewrites = rewrites + n ∧ Spaced (5 * second) a b n p.lastSizeCheck

section Rewrites

variable {a b : ℤ} {rewrites : ℕ} {p p' : Process}

theorem RewritesSince.tick {t : Tick} (h : RewritesSince a b rewrites p)
    (ht : ∀ u ∈ t.steady, a ≤ u ∧ u ≤ b) (hp : p.tick t = .ok p') :
    RewritesSince a b rewrites p' := by
  rcases t with fd | fd | ⟨fd, c⟩ | fd | ⟨started, now⟩
  · exact Except.ok.inj hp ▸ h
  · exact Except.ok.inj hp ▸ h
  · obtain ⟨ha, hb⟩ := ht _ List.mem_cons_self
    simp only [Process.tick, Process.receiveByte] at hp
    rcases hc : (p.server.client fd).parser.step c.2 with x | ⟨_ | args, parser⟩ <;>
      simp only [hc] at hp
    · cases hp
    · exact Except.ok.inj hp ▸ h
    · rcases hd : p.handleCommand c.1 fd args with ⟨sends, f | q⟩ <;> rw [hd] at hp
      · cases hp
      obtain rfl := Except.ok.inj hp
      obtain ⟨n, hn, hspaced⟩ := h
      rcases Process.handleCommand_marks (congrArg Prod.snd hd) with
        ⟨hmark, hsame⟩ | ⟨hmark, k, hk, hdue⟩
      · exact ⟨n, hsame.trans hn, hmark.symm ▸ hspaced⟩
      · refine ⟨n + k, ?_, hmark.symm ▸ hspaced.look (by decide) ha hb hdue⟩
        change q.server.rewrites = _
        omega
  · obtain rfl := Except.ok.inj hp
    obtain ⟨n, hn, hspaced⟩ := h
    exact ⟨n, (pubsubCleanupClient_data fd p.server).2.2.trans hn, hspaced⟩
  · obtain rfl := Except.ok.inj hp
    obtain ⟨n, hn, hspaced⟩ := h
    refine ⟨n, ?_, ?_⟩
    · rw [Process.flushAof_eq]
      split_ifs <;> exact hn
    · rw [Process.flushAof_eq]
      split_ifs <;> exact hspaced

/-- Whatever came in, and however the file grew, in a stretch of time there is one rewrite and one
more for every five seconds of it. -/
theorem run_rewrites {rounds : List Round} (hread : ∀ t ∈ readings rounds, a ≤ t ∧ t ≤ b)
    (hab : a ≤ b) (h : run Process.round p rounds = .ok p') :
    (p'.server.rewrites - p.server.rewrites - 1) * (5 * second) ≤ b - a := by
  rw [run_round_eq] at h
  have hm : Meets Process.tick (fun _ t => ∀ u ∈ t.steady, a ≤ u ∧ u ≤ b) p
      (rounds.flatMap Round.ticks) :=
    Meets.of_mem fun t ht _ u hu => hread u (List.mem_flatMap.2 ⟨t, ht, hu⟩)
  have hstart : RewritesSince a b p.server.rewrites p := ⟨0, rfl, spaced_zero _ _ _ _⟩
  obtain ⟨n, hn, hspaced⟩ := run_invariant (fun q t q' hq ht => hq.tick ht) hstart hm h
  have hle := hspaced.le (by decide) hab
  rw [hn]
  push_cast
  linarith

/-- `RPUSH l` with 52 values of 200 bytes -/
def fillCommand : List Bytes :=
  ascii "RPUSH" :: ascii "l" :: List.replicate 52 (List.replicate 200 97)

/-- A connection makes the file larger than the size from which it is rewritten. -/
def fillRound : Round where
  reports := [.accept 4, .recv 4 (typed (respCommand fillCommand))]
  started := 0
  now := 0

/-- It pops a value when the size is checked again. -/
def popRound : Round where
  reports := [.recv 4 ((respCommand [ascii "LPOP", ascii "l"]).map fun c =>
    ({ steady := 6000000000 }, c))]
  started := 6000000000
  now := 6000000000

/-- The file is rewritten to the list without the value. -/
theorem exists_rewrite : ∃ p, run Process.round {} [fillRound, quietRound, popRound] = .ok p ∧
    p.record = [.connect 4, .command {} 4 fillCommand,
      .command { sinceCheck := 5 } 4 [ascii "LPOP", ascii "l"]] ∧
    p.server.rewrites = 1 ∧ p.server.aof.length = 10631 :=
  exists_of_any (by decide +kernel)

theorem run_rewrites_fill : ∃ p', run Process.round {} [fillRound, quietRound, popRound] = .ok p' ∧
    p'.server.rewrites = 1 ∧
    (p'.server.rewrites - ({} : Process).server.rewrites - 1) * (5 * second) ≤ 6000000000 - 0 := by
  obtain ⟨p', hp', -, hrewrites, -⟩ := exists_rewrite
  have hread : ∀ t ∈ readings [fillRound, quietRound, popRound], (0 : ℤ) ≤ t ∧ t ≤ 6000000000 := by
    intro t ht
    simp [readings, Round.ticks, Report.ticks, Tick.steady, typed, fillRound, quietRound,
      popRound] at ht
    omega
  exact ⟨p', hp', hrewrites, run_rewrites hread (by decide) hp'⟩

end Rewrites

/-! ## Flushes -/

/-- The steady clock does not go back from one look at it to the next. -/
def Steady (rounds : List Round) : Prop :=
  (rounds.flatMap fun r => [r.started, r.now]).Pairwise (· ≤ ·)

section Flushes

variable {p q p' : Process} {rounds : List Round} {r : Round}

theorem Steady.of_append {later : List Round} (h : Steady (rounds ++ later)) : Steady rounds := by
  unfold Steady at h
  rw [List.flatMap_append] at h
  exact (List.pairwise_append.1 h).1

theorem Steady.snoc (h : Steady (rounds ++ [r])) :
    r.started ≤ r.now ∧ ∀ u ∈ rounds, u.now ≤ r.now := by
  unfold Steady at h
  rw [List.flatMap_append, List.flatMap_singleton] at h
  obtain ⟨-, hlast, hpast⟩ := List.pairwise_append.1 h
  refine ⟨List.rel_of_pairwise_cons hlast List.mem_cons_self, fun u hu => ?_⟩
  exact hpast u.now (List.mem_flatMap.2 ⟨u, hu, by simp⟩) r.now (by simp)

/-- A flush is all that sets the mark of the flushes. -/
theorem tick_lastFlush {t : Tick} (ht : ∀ started now, t ≠ .flush started now)
    (h : p.tick t = .ok p') : p'.lastFlush = p.lastFlush := by
  rcases t with fd | fd | ⟨fd, c⟩ | fd | ⟨started, now⟩
  · exact Except.ok.inj h ▸ rfl
  · exact Except.ok.inj h ▸ rfl
  · simp only [Process.tick, Process.receiveByte] at h
    rcases hc : (p.server.client fd).parser.step c.2 with x | ⟨_ | args, parser⟩ <;>
      simp only [hc] at h
    · cases h
    · exact Except.ok.inj h ▸ rfl
    · obtain ⟨env, -, -, -, hkept⟩ := Process.handleCommand_logical c.1 fd args p
      rcases hd : p.handleCommand c.1 fd args with ⟨sends, f | q⟩ <;> rw [hd] at h hkept
      · cases h
      · obtain rfl := Except.ok.inj h
        exact (hkept q rfl).1.lastFlush
  · exact Except.ok.inj h ▸ rfl
  · exact absurd rfl (ht started now)

theorem reports_lastFlush {reports : List Report} (h : run Process.report p reports = .ok p') :
    p'.lastFlush = p.lastFlush := by
  rw [run_flatMap report_eq_run] at h
  refine run_invariant (I := fun q => q.lastFlush = p.lastFlush)
    (C := fun _ t => ∀ started now, t ≠ Tick.flush started now)
    (fun q t q' hq ht hstep => (tick_lastFlush ht hstep).trans hq) rfl (Meets.of_mem ?_) h
  intro t ht _ started now heq
  obtain ⟨e, -, he⟩ := List.mem_flatMap.1 ht
  rcases e with fd | ⟨fd, chunk⟩ | fd <;> subst heq <;> simp [Report.ticks] at he

/-- The process after the rounds had nothing left to write after some of them, and the others ended
after its mark. -/
def FlushedAt (mark : ℤ) (p : Process) (rounds : List Round) (q : Process) : Prop :=
  ∃ done later u, rounds = done ++ later ∧ run Process.round p done = .ok u ∧ u.pending = [] ∧
    run Process.round u later = .ok q ∧ ∀ r ∈ later, mark ≤ r.now

/-- The mark of the flushes after some rounds. -/
structure Flushes (p : Process) (rounds : List Round) (q : Process) : Prop where
  unmarked : q.lastFlush = none → rounds = []
  at_mark : ∀ mark, q.lastFlush = some mark → FlushedAt mark p rounds q
  past : ∀ mark, q.lastFlush = some mark → ∃ u ∈ rounds, mark ≤ u.now

theorem FlushedAt.snoc {mark : ℤ} (h : FlushedAt mark p rounds q) (hp : q.round r = .ok p')
    (hr : mark ≤ r.now) : FlushedAt mark p (rounds ++ [r]) p' := by
  obtain ⟨done, later, u, rfl, hdone, hheld, hlater, hpast⟩ := h
  refine ⟨done, later ++ [r], u, List.append_assoc _ _ _, hdone, hheld, ?_, ?_⟩
  · rw [run_append _ _ hlater, run_cons_ok hp]
    rfl
  · exact List.forall_mem_append.2 ⟨hpast, List.forall_mem_singleton.2 hr⟩

/-- A round leaves what came in since its mark, which is not older than a second. -/
theorem Flushes.round (hheld : p.pending = []) (h : Flushes p rounds q)
    (hsteady : Steady (rounds ++ [r])) (hq : run Process.round p rounds = .ok q)
    (hp : q.round r = .ok p') :
    Flushes p (rounds ++ [r]) p' ∧ ∃ mark, p'.lastFlush = some mark ∧ r.now < mark + second := by
  obtain ⟨hstarted, hpast⟩ := hsteady.snoc
  have hround := hp
  unfold Process.round at hround
  rcases hreports : run Process.report q r.reports with f | q₁ <;> rw [hreports] at hround
  · cases hround
  obtain rfl := Except.ok.inj hround
  have hmark := congrArg Process.lastFlush (Process.flushAof_eq r.started r.now q₁)
  dsimp only at hmark
  rw [reports_lastFlush hreports] at hmark
  refine ⟨?_, _, hmark, lt_remark second_pos⟩
  suffices hsuffices : FlushedAt (remark second q.lastFlush r.started r.now) p (rounds ++ [r])
      (q₁.flushAof r.started r.now) ∧
      ∃ u ∈ rounds ++ [r], remark second q.lastFlush r.started r.now ≤ u.now by
    refine ⟨fun hnone => ?_, fun mark heq => ?_, fun mark heq => ?_⟩
    · rw [hmark] at hnone
      cases hnone
    · rw [← Option.some.inj (hmark.symm.trans heq)]
      exact hsuffices.1
    · rw [← Option.some.inj (hmark.symm.trans heq)]
      exact hsuffices.2
  have hlast : r ∈ rounds ++ [r] := List.mem_append_right _ (List.mem_singleton_self r)
  by_cases hpassed : Elapsed second q.lastFlush r.started r.now
  · -- everything is written
    rw [remark_of_elapsed hpassed]
    refine ⟨⟨rounds ++ [r], [], _, (List.append_nil _).symm, ?_, ?_, rfl, by simp⟩, r, hlast, le_rfl⟩
    · rw [run_append _ _ hq, run_cons_ok hp]
      rfl
    · rw [Process.flushAof_eq, reports_lastFlush hreports, if_pos hpassed]
      rfl
  · rw [remark_of_not_elapsed hpassed]
    rcases hnone : q.lastFlush with _ | t
    · obtain rfl := h.unmarked hnone
      obtain rfl := Except.ok.inj hq
      exact ⟨⟨[], [r], p, rfl, rfl, hheld, by rw [run_cons_ok hp]; rfl,
        List.forall_mem_singleton.2 hstarted⟩, r, hlast, hstarted⟩
    · obtain ⟨u, hu, htu⟩ := h.past t hnone
      have ht : t ≤ r.now := htu.trans (hpast u hu)
      exact ⟨(h.at_mark t hnone).snoc hp ht, r, hlast, ht⟩

theorem flushes_run (hheld : p.pending = []) (hmark : p.lastFlush = none) :
    ∀ {rounds : List Round} {q : Process}, Steady rounds → run Process.round p rounds = .ok q →
      Flushes p rounds q := by
  intro rounds
  induction rounds using List.reverseRecOn with
  | nil =>
    intro q _ hq
    obtain rfl := Except.ok.inj hq
    exact ⟨fun _ => rfl, fun mark heq => by simp [hmark] at heq, fun mark heq => by
      simp [hmark] at heq⟩
  | append_singleton rounds r ih =>
    intro q hsteady hq
    obtain ⟨u, hu, hr⟩ := run_snoc hq
    exact ((ih hsteady.of_append hu).round hheld hsteady hu hr).1

/-- After any round, a process had everything in the file that came in more than a second before it
looked at the clock. -/
theorem run_flushed {m : Moment} {file : Bytes} (hstart : Process.start m file = .ok p)
    (hsteady : Steady (rounds ++ [r])) (h : run Process.round p (rounds ++ [r]) = .ok p') :
    ∃ done later u, rounds ++ [r] = done ++ later ∧ run Process.round p done = .ok u ∧
      u.pending = [] ∧ run Process.round u later = .ok p' ∧
      ∀ l ∈ later, r.now - l.now < second := by
  have hfresh : p.pending = [] ∧ p.lastFlush = none := by
    unfold Process.start at hstart
    rcases hs : replayAof { now := m.now, disk := m.disk } { aof := file } with f | s <;>
      rw [hs] at hstart
    · cases hstart
    · exact Except.ok.inj hstart ▸ ⟨rfl, rfl⟩
  obtain ⟨q, hq, hr⟩ := run_snoc h
  obtain ⟨hflushes, mark, hmark, hnow⟩ :=
    (flushes_run hfresh.1 hfresh.2 hsteady.of_append hq).round hfresh.1 hsteady hq hr
  obtain ⟨done, later, u, happ, hdone, hheld, hlater, hpast⟩ := hflushes.at_mark mark hmark
  refine ⟨done, later, u, happ, hdone, hheld, hlater, fun l hl => ?_⟩
  have := hpast l hl
  omega

theorem run_flushed_push : ∃ p', run Process.round {} ([firstPush, quietRound] ++ [secondPush]) =
      .ok p' ∧ p'.server.aof = respCommand (pushOf "a") ∧ p'.pending = respCommand (pushOf "b") ∧
    ∃ done later u, [firstPush, quietRound] ++ [secondPush] = done ++ later ∧
      run Process.round {} done = .ok u ∧ u.pending = [] ∧ run Process.round u later = .ok p' ∧
      ∀ l ∈ later, secondPush.now - l.now < second := by
  obtain ⟨p', hp', -, haof, hheld, -⟩ := exists_pushes
  have hstart : Process.start {} [] = .ok {} := rfl
  have hsteady : Steady ([firstPush, quietRound] ++ [secondPush]) := by unfold Steady; decide
  exact ⟨p', hp', haof, hheld, run_flushed hstart hsteady hp'⟩

end Flushes

end DrutaDB
