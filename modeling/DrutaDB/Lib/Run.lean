import Mathlib.Tactic

/-!
# Runs of a machine that may fail

A run takes one event after another and stops at the first failure.  A condition on the state
and the event before each step is met by a whole run (`Meets`), and what such a step preserves
holds of every state a run reaches (`run_invariant`), also where it speaks of the events so far
(`run_history`).  A machine whose steps are paths of another one has runs that are (`run_path`).
-/

namespace Run

variable {σ ε φ : Type*} (step : σ → ε → Except φ σ)

/-- The state after the events, or the first failure. -/
def run : σ → List ε → Except φ σ
  | s, [] => .ok s
  | s, e :: es =>
    match step s e with
    | .ok s' => run s' es
    | .error f => .error f

/-- Every step of the run meets the condition. -/
def Meets (C : σ → ε → Prop) : σ → List ε → Prop
  | _, [] => True
  | s, e :: es => C s e ∧ ∀ s', step s e = .ok s' → Meets C s' es

/-- What the steps of the run add up to. -/
def total (f : σ → ε → ℕ) : σ → List ε → ℕ
  | _, [] => 0
  | s, e :: es => f s e +
    match step s e with
    | .ok s' => total f s' es
    | .error _ => 0

/-- What the events make of a value, each of them after those before it. -/
def since {α : Type*} (f : List ε → ε → α → α) : List ε → List ε → α → α
  | _, [], a => a
  | hist, e :: es, a => since f (hist ++ [e]) es (f hist e a)

/-- The labels of the steps, one after the other. -/
def trace {ℓ : Type*} (labels : σ → ε → σ → List ℓ) : σ → List ε → List ℓ
  | _, [] => []
  | s, e :: es =>
    match step s e with
    | .ok s' => labels s e s' ++ trace labels s' es
    | .error _ => []

/-- The relation leads from one state to the other along the labels. -/
inductive Path {τ ℓ : Type*} (R : τ → ℓ → τ → Prop) : τ → List ℓ → τ → Prop
  | nil (a : τ) : Path R a [] a
  | cons {a b c : τ} {l : ℓ} {ls : List ℓ} (h : R a l b) (hp : Path R b ls c) :
    Path R a (l :: ls) c

variable {step} {C : σ → ε → Prop} {I : σ → Prop} {s s' t : σ} {e : ε} {es : List ε} {f : φ}

theorem run_cons_ok (h : step s e = .ok s') (es : List ε) :
    run step s (e :: es) = run step s' es := by
  simp only [run, h]

theorem run_cons_error (h : step s e = .error f) (es : List ε) :
    run step s (e :: es) = .error f := by
  simp only [run, h]

theorem total_cons_ok {g : σ → ε → ℕ} (h : step s e = .ok s') (es : List ε) :
    total step g s (e :: es) = g s e + total step g s' es := by
  simp only [total, h]

instance decidableMeets [∀ s e, Decidable (C s e)] :
    ∀ (s : σ) (es : List ε), Decidable (Meets step C s es)
  | _, [] => .isTrue trivial
  | s, e :: es =>
    have : Decidable (∀ s', step s e = .ok s' → Meets step C s' es) :=
      match step s e with
      | .ok s' =>
        have := decidableMeets s' es
        decidable_of_iff (Meets step C s' es) (by simp)
      | .error _ => .isTrue nofun
    inferInstanceAs (Decidable (C s e ∧ _))

/-- A run that got through did so step by step. -/
theorem run_cons (h : run step s (e :: es) = .ok t) :
    ∃ s', step s e = .ok s' ∧ run step s' es = .ok t := by
  rcases hs : step s e with f | s'
  · rw [run_cons_error hs] at h
    simp at h
  · rw [run_cons_ok hs] at h
    exact ⟨s', rfl, h⟩

/-- What comes out, if it can be checked. -/
theorem exists_of_any {x : Except φ σ} {P : σ → Prop} [DecidablePred P]
    (h : (x.toOption.any fun s => P s) = true) : ∃ s, x = .ok s ∧ P s := by
  rcases x with f | s
  · cases h
  · exact ⟨s, rfl, of_decide_eq_true h⟩

theorem run_append : ∀ {s : σ} (es : List ε) (ds : List ε), run step s es = .ok s' →
    run step s (es ++ ds) = run step s' ds
  | s, [], ds, h => by
    simp only [run, Except.ok.injEq] at h
    rw [h, List.nil_append]
  | s, e :: es, ds, h => by
    obtain ⟨u, hu, h⟩ := run_cons h
    rw [List.cons_append, run_cons_ok hu, run_append es ds h]

theorem run_append_error : ∀ {s : σ} {es : List ε} (ds : List ε), run step s es = .error f →
    run step s (es ++ ds) = .error f
  | s, [], ds, h => by cases h
  | s, e :: es, ds, h => by
    rw [List.cons_append]
    rcases he : step s e with g | s'
    · rw [run_cons_error he] at h ⊢
      exact h
    · rw [run_cons_ok he] at h ⊢
      exact run_append_error ds h

/-- The last step of a run. -/
theorem run_snoc (h : run step s (es ++ [e]) = .ok t) :
    ∃ u, run step s es = .ok u ∧ step u e = .ok t := by
  rcases hes : run step s es with g | u
  · rw [run_append_error _ hes] at h
    cases h
  · rw [run_append _ _ hes] at h
    obtain ⟨v, hv, h⟩ := run_cons h
    exact ⟨u, rfl, hv.trans h⟩

/-- A step that is itself a run. -/
theorem run_flatMap {δ : Type*} {step' : σ → δ → Except φ σ} {f : ε → List δ}
    (hf : ∀ s e, step s e = run step' s (f e)) : ∀ (s : σ) (es : List ε),
      run step s es = run step' s (es.flatMap f)
  | _, [] => rfl
  | s, e :: es => by
    rw [List.flatMap_cons]
    rcases he : step s e with g | s'
    · rw [run_cons_error he, run_append_error _ ((hf s e).symm.trans he)]
    · rw [run_cons_ok he, run_append _ _ ((hf s e).symm.trans he), run_flatMap hf s' es]

/-- The step a run fails at. -/
theorem run_error : ∀ {s : σ} {es : List ε}, run step s es = .error f →
    ∃ pre e post t, es = pre ++ e :: post ∧ run step s pre = .ok t ∧ step t e = .error f
  | s, [], h => by cases h
  | s, e :: es, h => by
    rcases he : step s e with g | s'
    · rw [run_cons_error he] at h
      exact ⟨[], e, es, s, rfl, rfl, he.trans h⟩
    · rw [run_cons_ok he] at h
      obtain ⟨pre, d, post, t, rfl, hpre, hd⟩ := run_error h
      exact ⟨e :: pre, d, post, t, rfl, (run_cons_ok he pre).trans hpre, hd⟩

theorem Meets.imp {D : σ → ε → Prop} (hcd : ∀ s e, C s e → D s e) :
    ∀ {s : σ} {es : List ε}, Meets step C s es → Meets step D s es
  | _, [], _ => trivial
  | s, e :: _, ⟨hc, hm⟩ => ⟨hcd s e hc, fun s' hs' => Meets.imp hcd (hm s' hs')⟩

theorem Meets.of_forall (h : ∀ s e, C s e) : ∀ (s : σ) (es : List ε), Meets step C s es
  | _, [] => trivial
  | s, e :: es => ⟨h s e, fun s' _ => Meets.of_forall h s' es⟩

theorem Meets.of_mem : ∀ {s : σ} {es : List ε}, (∀ e ∈ es, ∀ s, C s e) → Meets step C s es
  | _, [], _ => trivial
  | s, e :: _, h => ⟨h e List.mem_cons_self s,
      fun _ _ => Meets.of_mem fun e' he' => h e' (List.mem_cons_of_mem e he')⟩

theorem Meets.and {D : σ → ε → Prop} : ∀ {s : σ} {es : List ε}, Meets step C s es →
    Meets step D s es → Meets step (fun s e => C s e ∧ D s e) s es
  | _, [], _, _ => trivial
  | _, _ :: _, ⟨hc, hm⟩, ⟨hd, hn⟩ => ⟨⟨hc, hd⟩, fun s' hs' => Meets.and (hm s' hs') (hn s' hs')⟩

/-- The parts of a run that meets the condition. -/
theorem Meets.append : ∀ {s : σ} {es ds : List ε}, Meets step C s (es ++ ds) →
    Meets step C s es ∧ ∀ t, run step s es = .ok t → Meets step C t ds
  | _, [], _, h => ⟨trivial, fun _ ht => Except.ok.inj ht ▸ h⟩
  | _, _ :: _, _, ⟨hc, hm⟩ => by
    refine ⟨⟨hc, fun s' hs' => (Meets.append (hm s' hs')).1⟩, fun t ht => ?_⟩
    obtain ⟨s', hs', ht⟩ := run_cons ht
    exact (Meets.append (hm s' hs')).2 t ht

/-- An invariant of the steps that meet the condition. -/
theorem run_invariant (hstep : ∀ s e s', I s → C s e → step s e = .ok s' → I s') :
    ∀ {s : σ} {es : List ε}, I s → Meets step C s es → run step s es = .ok t → I t
  | s, [], hs, _, h => by
    simp only [run, Except.ok.injEq] at h
    exact h ▸ hs
  | s, e :: es, hs, ⟨hc, hm⟩, h => by
    obtain ⟨s', hs', h⟩ := run_cons h
    exact run_invariant hstep (hstep s e s' hs hc hs') (hm s' hs') h

/-- What each step keeps between the events so far and the state. -/
theorem run_history {J : List ε → σ → Prop} : ∀ {es : List ε} {hist : List ε} {s : σ},
    (∀ pre e s s', hist <+: pre → pre ++ [e] <+: hist ++ es → J pre s → step s e = .ok s' →
      J (pre ++ [e]) s') → J hist s → run step s es = .ok t → J (hist ++ es) t
  | [], hist, s, _, hs, h => by
    simp only [run, Except.ok.injEq] at h
    rw [List.append_nil]
    exact h ▸ hs
  | e :: es, hist, s, hstep, hs, h => by
    obtain ⟨s', hs', h⟩ := run_cons h
    have happ : hist ++ e :: es = (hist ++ [e]) ++ es := by simp
    rw [happ] at hstep ⊢
    refine run_history (fun pre e' u u' hpre => hstep pre e' u u' ?_) ?_ h
    · exact (List.prefix_append hist [e]).trans hpre
    · exact hstep hist e s s' List.prefix_rfl (List.prefix_append _ _) hs hs'

/-- What each step of a run keeps between all events so far and the state. -/
theorem run_all {J : List ε → σ → Prop} (hstep : ∀ pre e s s', pre ++ [e] <+: es → J pre s →
      step s e = .ok s' → J (pre ++ [e]) s')
    (hs : J [] s) (h : run step s es = .ok t) : J es t :=
  @run_history _ _ _ step t J es [] s (fun pre e u u' _ => hstep pre e u u') hs h

theorem since_snoc {α : Type*} {f : List ε → ε → α → α} : ∀ (hist es : List ε) (e : ε) (a : α),
    since f hist (es ++ [e]) a = f (hist ++ es) e (since f hist es a)
  | hist, [], e, a => by rw [List.append_nil]; rfl
  | hist, d :: es, e, a => by
    rw [List.append_cons hist d es]
    exact since_snoc (hist ++ [d]) es e (f hist d a)

/-- A value that each step changes or resets is what the events made of it since it was last
reset. -/
theorem run_since {α : Type*} {f : List ε → ε → α → α} {a : α} {v : σ → α}
    {J : List ε → σ → Prop} {R : List ε → Prop}
    (hstep : ∀ pre e s s', pre ++ [e] <+: es → run step t pre = .ok s → J pre s →
      step s e = .ok s' → J (pre ++ [e]) s' ∧ (v s' = f pre e (v s) ∨ R (pre ++ [e]) ∧ v s' = a))
    (ht : J [] t) (ha : v t = a) (h : run step t es = .ok s) :
    ∃ pre post, es = pre ++ post ∧ (pre = [] ∨ R pre) ∧ v s = since f pre post a := by
  have hrun := run_all (J := fun hist u => run step t hist = .ok u ∧ J hist u ∧
    ∃ pre post, hist = pre ++ post ∧ (pre = [] ∨ R pre) ∧ v u = since f pre post a)
    (fun hist e u u' hpre hJ hu => ?_) ⟨rfl, ht, [], [], rfl, .inl rfl, ha⟩ h
  · exact hrun.2.2
  obtain ⟨hruns, hJ, pre, post, rfl, hreset, hvalue⟩ := hJ
  have hnext : run step t (pre ++ post ++ [e]) = .ok u' := by
    rw [run_append _ _ hruns, run_cons_ok hu]
    rfl
  obtain ⟨hJ', hkept | ⟨hR, hnone⟩⟩ := hstep _ e u u' hpre hruns hJ hu
  · refine ⟨hnext, hJ', pre, post ++ [e], List.append_assoc _ _ _, hreset, ?_⟩
    rw [since_snoc, ← hvalue]
    exact hkept
  · exact ⟨hnext, hJ', _, [], (List.append_nil _).symm, .inr hR, hnone⟩

section Paths

variable {τ ℓ : Type*} {R : τ → ℓ → τ → Prop} {labels : σ → ε → σ → List ℓ}

theorem trace_cons_ok (h : step s e = .ok s') (es : List ε) :
    trace step labels s (e :: es) = labels s e s' ++ trace step labels s' es := by
  simp only [trace, h]

theorem Path.append {b c : τ} {ms : List ℓ} (hc : Path R b ms c) :
    ∀ {a : τ} {ls : List ℓ}, Path R a ls b → Path R a (ls ++ ms) c
  | _, [], .nil _ => hc
  | _, _ :: _, .cons h hp => .cons h (hc.append hp)

theorem Path.split {c : τ} {ms : List ℓ} : ∀ {ls : List ℓ} {a : τ}, Path R a (ls ++ ms) c →
    ∃ b, Path R a ls b ∧ Path R b ms c
  | [], a, h => ⟨a, .nil a, h⟩
  | _ :: _, _, .cons h hp => by
    obtain ⟨b, hls, hms⟩ := hp.split
    exact ⟨b, .cons h hls, hms⟩

theorem Path.invariant {P : τ → Prop} : ∀ {ls : List ℓ} {a b : τ},
    (∀ l ∈ ls, ∀ c d, P c → R c l d → P d) → P a → Path R a ls b → P b
  | [], _, _, _, ha, .nil _ => ha
  | l :: _, a, _, hstep, ha, .cons h hp =>
    Path.invariant (fun l' hl' => hstep l' (List.mem_cons_of_mem l hl'))
      (hstep l List.mem_cons_self a _ ha h) hp

/-- What the states stand for goes along the labels of the steps. -/
theorem run_path {abs : σ → τ} (hstep : ∀ s e s', I s → C s e → step s e = .ok s' →
      I s' ∧ Path R (abs s) (labels s e s') (abs s')) :
    ∀ {s : σ} {es : List ε}, I s → Meets step C s es → run step s es = .ok t →
      Path R (abs s) (trace step labels s es) (abs t)
  | s, [], _, _, h => by
    obtain rfl := Except.ok.inj h
    exact .nil _
  | s, e :: es, hs, ⟨hc, hm⟩, h => by
    obtain ⟨s', hs', h⟩ := run_cons h
    obtain ⟨hI, hpath⟩ := hstep s e s' hs hc hs'
    rw [trace_cons_ok hs']
    exact (run_path hstep hI (hm s' hs') h).append hpath

end Paths

/-- A failure that no step from an invariant state leads to. -/
theorem run_ne_error (hstep : ∀ s e s', I s → C s e → step s e = .ok s' → I s')
    (hf : ∀ s e, I s → C s e → step s e ≠ .error f) :
    ∀ {s : σ} {es : List ε}, I s → Meets step C s es → run step s es ≠ .error f
  | s, [], _, _ => by simp [run]
  | s, e :: es, hs, ⟨hc, hm⟩ => by
    rcases he : step s e with g | s'
    · rw [run_cons_error he, ← he]
      exact hf s e hs hc
    · rw [run_cons_ok he]
      exact run_ne_error hstep hf (hstep s e s' hs hc he) (hm s' he)

end Run
