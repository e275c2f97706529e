import DrutaDB.Lib.Doubling
import DrutaDB.Proofs.Timers

/-!
# The size of the file

A size check leads to a rewrite only when the file is more than twice as large as the last rewrite
left it.  So the rewrites of a run write no more than what was appended to the file, but for what
the last of them wrote (`rewrites_paid`).
-/

namespace DrutaDB

open Machine Run Doubling

/-- The bytes that an event appends to the file, whether or not it is rewritten then. -/
def Event.appended (s : Server) (e : Event) : ℕ :=
  match s.step e.untimed with
  | .ok s₁ => s₁.aof.length - s.aof.length
  | .error _ => 0

/-- A rewrite at the event would replace the file. -/
def Event.replaces : Event → Bool
  | .command env _ _ => env.disk.opens && env.disk.renames
  | _ => true

/-- The bytes that a rewrite at the event leaves in the file, if there is one. -/
def Event.rewritten (s : Server) (e : Event) : ℕ :=
  match s.step e with
  | .ok s' => if s.rewrites < s'.rewrites ∧ e.replaces then s'.aof.length else 0
  | .error _ => 0

/-- The file as a log that is compacted. -/
def Server.log (s : Server) (appended compacted : ℕ) : Log where
  size := s.aof.length
  base := s.lastRewriteSize
  appended := appended
  compacted := compacted

section Growth

variable {s s' : Server} {e : Event} {events : List Event} {env : Env} {a c : ℕ}

theorem rewriteAof_size (h : rewriteAof env s = .ok s') :
    (env.disk.opens && env.disk.renames) = true ∧ s'.lastRewriteSize = s'.aof.length ∨
      (env.disk.opens && env.disk.renames) = false ∧ s'.lastRewriteSize = s.lastRewriteSize ∧
        s'.aof = s.aof := by
  unfold rewriteAof at h
  dsimp only at h
  by_cases ho : env.disk.opens
  · rw [if_pos ho] at h
    rcases hw : s.store.walk s.store.kvStore.size s.store.tail with f | nodes <;> rw [hw] at h
    · cases h
    change (uncaught (rewriteText env.now nodes) >>= _) = _ at h
    rcases ht : uncaught (rewriteText env.now nodes) with f | text <;> rw [ht] at h
    · cases h
    by_cases hr : env.disk.renames
    · simp only [hr, if_true, bind, Except.bind] at h
      exact .inl ⟨by rw [ho, hr]; rfl, Except.ok.inj h ▸ rfl⟩
    · simp only [hr, bind, Except.bind] at h
      exact .inr ⟨by simp [hr], Except.ok.inj h ▸ ⟨rfl, rfl⟩⟩
  · rw [if_neg ho] at h
    exact .inr ⟨by simp [ho], Except.ok.inj h ▸ ⟨rfl, rfl⟩⟩

/-- A step appends to the file, and may compact it after that. -/
theorem step_log (h : s.step e = .ok s') : Relation.ReflTransGen Step (s.log a c)
    (s'.log (a + e.appended s) (c + e.rewritten s)) := by
  obtain ⟨s₁, hs₁, hrewrites, hsize, hlast⟩ := step_untimed h
  have happended : e.appended s = s₁.aof.length - s.aof.length := by
    unfold Event.appended
    rw [hs₁]
  have happend : Step (s.log a c) (s₁.log (a + e.appended s) c) := by
    have hle : s₁.aof.length ≤ (s.log a c).size + e.appended s := by
      rw [happended]
      exact le_add_tsub
    have hstep := Step.append hle
    rwa [Server.log, ← hsize] at hstep ⊢
  have hrewritten : e.rewritten s =
      if s.rewrites < s'.rewrites ∧ e.replaces then s'.aof.length else 0 := by
    unfold Event.rewritten
    rw [h]
  refine .trans (.single happend) ?_
  rcases hlast with rfl | ⟨env, fd, args, rfl, hdouble, hr⟩
  · rw [hrewritten, if_neg fun hc => by omega]
    exact .refl
  · have hmore := rewriteAof_rewrites hr
    rcases rewriteAof_size hr with ⟨hreplaces, hsize'⟩ | ⟨hkeeps, hsize', haof⟩
    · have hcompact := Step.compact (l := s₁.log (a + (Event.command env fd args).appended s) c)
        s'.aof.length (by change 2 * s₁.lastRewriteSize < _; rw [mul_comm]; exact hdouble)
      rw [hrewritten, if_pos ⟨by omega, hreplaces⟩]
      have hbase : ∀ n m, s'.log n m = ⟨s'.aof.length, s'.aof.length, n, m⟩ := fun n m => by
        rw [Server.log, hsize']
      rw [hbase]
      exact .single hcompact
    · have hsame : (Event.command env fd args).replaces = false := hkeeps
      rw [hrewritten, if_neg fun hc => by simp [hsame] at hc]
      unfold Server.log
      rw [hsize', haof]
      exact .refl

/-- The file stays paid for. -/
theorem run_paid : ∀ {events : List Event} {s : Server} {a c : ℕ}, Paid (s.log a c) →
    run Server.step s events = .ok s' → Paid (s'.log (a + total Server.step Event.appended s events)
      (c + total Server.step Event.rewritten s events))
  | [], s, a, c, hp, h => by
    obtain rfl := Except.ok.inj h
    exact hp
  | e :: events, s, a, c, hp, h => by
    obtain ⟨u, hu, h⟩ := run_cons h
    have hnext := run_paid (hp.steps (step_log hu)) h
    rwa [total_cons_ok hu, total_cons_ok hu, ← Nat.add_assoc, ← Nat.add_assoc]

/-- At the start the size of the file is known. -/
theorem start_size {m : Moment} {file : Bytes} {p : Process} (h : Process.start m file = .ok p) :
    p.logical.aof.length = p.logical.lastRewriteSize := by
  unfold Process.start at h
  rcases hs : replayAof { now := m.now, disk := m.disk } { aof := file } with f | s <;> rw [hs] at h
  · cases h
  obtain rfl := Except.ok.inj h
  change (s.aof ++ []).length = s.lastRewriteSize
  rw [List.append_nil]
  unfold replayAof at hs
  rcases hr : replayCommands { now := m.now, disk := m.disk } { aof := file } with f | t <;>
    rw [hr] at hs
  · cases hs
  change (if rewriteThreshold < t.aof.length then
    rewriteAof { now := m.now, disk := m.disk } { t with lastRewriteSize := t.aof.length }
      else .ok { t with lastRewriteSize := t.aof.length }) = .ok s at hs
  split_ifs at hs
  · rcases rewriteAof_size hs with ⟨-, hsize⟩ | ⟨-, hsize, haof⟩
    · exact hsize.symm
    · rw [hsize, haof]
  · exact Except.ok.inj hs ▸ rfl

/-- What the rewrites of a process write is no more than what was appended to the file, but for what
the last of them wrote. -/
theorem rewrites_paid {m : Moment} {file : Bytes} {p p' : Process} {rounds : List Round}
    (hstart : Process.start m file = .ok p) (ho : Orderly (reported rounds))
    (h : run Process.round p rounds = .ok p') :
    total Server.step Event.rewritten p.logical p'.record ≤
      p'.server.lastRewriteSize + total Server.step Event.appended p.logical p'.record := by
  rw [run_round_eq] at h
  obtain ⟨d, -, hrefines⟩ := refines_run hstart ho h
  have hfile : p.logical.aof.length = p.logical.lastRewriteSize := start_size hstart
  have hpaid := run_paid (paid_start (by omega)) hrefines.runs
  rw [Nat.zero_add, Nat.zero_add] at hpaid
  exact hpaid.compacted_le

/-- A list is pushed, and popped from when the file is rewritten. -/
theorem rewrites_paid_fill : ∃ p', run Process.round {} [fillRound, quietRound, popRound] = .ok p' ∧
    total Server.step Event.rewritten ({} : Process).logical p'.record = 10631 ∧
    total Server.step Event.rewritten ({} : Process).logical p'.record ≤
      p'.server.lastRewriteSize +
        total Server.step Event.appended ({} : Process).logical p'.record := by
  obtain ⟨p', hp', hrecord, -, -⟩ := exists_rewrite
  have hstart : Process.start {} [] = .ok {} := rfl
  have ho : Orderly (reported [fillRound, quietRound, popRound]) := by decide +kernel
  refine ⟨p', hp', ?_, rewrites_paid hstart ho hp'⟩
  rw [hrecord]
  decide +kernel

end Growth

end DrutaDB
