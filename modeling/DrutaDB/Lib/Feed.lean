import DrutaDB.Lib.Run

/-!
# Machines fed one symbol at a time

A machine takes one symbol, may put one output out, and may fail.  What it puts out over a list
is a prefix of what it puts out over a longer one (`feed_prefix`), and cutting the list into
chunks changes nothing (`batches_eq`).  When it fails, one of its steps does (`exists_of_error`).
-/

namespace Feed

variable {σ ι ο ε : Type*} (step : σ → ι → Except ε (Option ο × σ))

/-- What the machine puts out over a list, and its state after it or the error it stopped on. -/
def feed : σ → List ι → List ο × Except ε σ
  | s, [] => ([], .ok s)
  | s, x :: xs =>
    match step s x with
    | .error e => ([], .error e)
    | .ok (o, s') => (o.toList ++ (feed s' xs).1, (feed s' xs).2)

/-- One batch after another, each from the state the last one left. -/
def batches {β : Type*} (run : σ → β → List ο × Except ε σ) : σ → List β → List ο × Except ε σ
  | s, [] => ([], .ok s)
  | s, b :: bs =>
    match run s b with
    | (os, .error e) => (os, .error e)
    | (os, .ok s') => (os ++ (batches run s' bs).1, (batches run s' bs).2)

@[simp]
theorem feed_nil (s : σ) : feed step s [] = ([], .ok s) := rfl

theorem feed_cons_ok {s s' : σ} {x : ι} {o : Option ο} (h : step s x = .ok (o, s'))
    (xs : List ι) :
    feed step s (x :: xs) = (o.toList ++ (feed step s' xs).1, (feed step s' xs).2) := by
  simp only [feed, h]

theorem feed_cons_error {s : σ} {x : ι} {e : ε} (h : step s x = .error e) (xs : List ι) :
    feed step s (x :: xs) = ([], .error e) := by
  simp only [feed, h]

/-- What is put out aside, a machine that is fed runs. -/
theorem feed_snd : ∀ (s : σ) (xs : List ι),
    (feed step s xs).2 = Run.run (fun s x => (step s x).map Prod.snd) s xs
  | _, [] => rfl
  | s, x :: xs => by
    rcases hx : step s x with e | ⟨o, s'⟩
    · rw [feed_cons_error step hx, Run.run_cons_error (congrArg (Except.map Prod.snd) hx)]
    · rw [feed_cons_ok step hx, Run.run_cons_ok (congrArg (Except.map Prod.snd) hx)]
      exact feed_snd s' xs

theorem feed_append_ok : ∀ {s s' : σ} {xs : List ι} {os : List ο} (ys : List ι),
    feed step s xs = (os, .ok s') →
      feed step s (xs ++ ys) = (os ++ (feed step s' ys).1, (feed step s' ys).2)
  | s, s', [], os, ys, h => by
    simp only [feed_nil, Prod.mk.injEq, Except.ok.injEq] at h
    obtain ⟨rfl, rfl⟩ := h
    rfl
  | s, s', x :: xs, os, ys, h => by
    rcases hx : step s x with e | ⟨o, t⟩
    · rw [feed_cons_error step hx] at h
      simp at h
    · rw [feed_cons_ok step hx] at h
      simp only [Prod.mk.injEq] at h
      obtain ⟨rfl, h⟩ := h
      have hxs : feed step t xs = ((feed step t xs).1, .ok s') := Prod.ext rfl h
      have ih := feed_append_ok ys hxs
      rw [List.cons_append, feed_cons_ok step hx, ih, List.append_assoc]

theorem feed_append_error : ∀ {s : σ} {xs : List ι} {os : List ο} {e : ε} (ys : List ι),
    feed step s xs = (os, .error e) → feed step s (xs ++ ys) = (os, .error e)
  | s, [], os, e, ys, h => by simp at h
  | s, x :: xs, os, e, ys, h => by
    rcases hx : step s x with e' | ⟨o, t⟩
    · rw [feed_cons_error step hx] at h
      rw [List.cons_append, feed_cons_error step hx, h]
    · rw [feed_cons_ok step hx] at h
      simp only [Prod.mk.injEq] at h
      obtain ⟨rfl, h⟩ := h
      have hxs : feed step t xs = ((feed step t xs).1, .error e) := Prod.ext rfl h
      have ih := feed_append_error ys hxs
      rw [List.cons_append, feed_cons_ok step hx, ih]

/-- What is put out over a list is put out first over any longer one. -/
theorem feed_prefix (s : σ) (xs ys : List ι) :
    (feed step s xs).1 <+: (feed step s (xs ++ ys)).1 := by
  rcases h : feed step s xs with ⟨os, e | s'⟩
  · rw [feed_append_error step ys h]
  · rw [feed_append_ok step ys h]
    exact List.prefix_append _ _

/-- Where an output is put out. -/
theorem exists_of_getElem? : ∀ {s : σ} {xs : List ι} {j : ℕ} {o : ο},
    (feed step s xs).1[j]? = some o → ∃ pre x post t t', xs = pre ++ x :: post
      ∧ feed step s pre = ((feed step s xs).1.take j, .ok t) ∧ step t x = .ok (some o, t')
  | s, [], j, o, h => by simp at h
  | s, x :: xs, j, o, h => by
    rcases hx : step s x with e | ⟨_ | o', s'⟩
    · rw [feed_cons_error step hx] at h
      simp at h
    · rw [feed_cons_ok step hx] at h ⊢
      obtain ⟨pre, y, post, t, t', rfl, hpre, hy⟩ := exists_of_getElem? h
      refine ⟨x :: pre, y, post, t, t', rfl, ?_, hy⟩
      rw [feed_cons_ok step hx, hpre]
      rfl
    · rw [feed_cons_ok step hx] at h ⊢
      rcases j with _ | j
      · obtain rfl : o' = o := Option.some.inj h
        exact ⟨[], x, xs, s, s', rfl, rfl, hx⟩
      · obtain ⟨pre, y, post, t, t', rfl, hpre, hy⟩ := exists_of_getElem? (j := j) h
        refine ⟨x :: pre, y, post, t, t', rfl, ?_, hy⟩
        rw [feed_cons_ok step hx, hpre]
        rfl

/-- Cutting the list into chunks changes nothing. -/
theorem batches_eq {run : σ → List ι → List ο × Except ε σ} :
    ∀ (s : σ) (bs : List (List ι)), (∀ s, ∀ b ∈ bs, run s b = feed step s b) →
      batches run s bs = feed step s bs.flatten
  | s, [], _ => rfl
  | s, b :: bs, hrun => by
    have hb := hrun s b List.mem_cons_self
    rcases h : feed step s b with ⟨os, e | s'⟩
    · rw [List.flatten_cons, feed_append_error step _ h]
      simp only [batches, hb, h]
    · rw [List.flatten_cons, feed_append_ok step _ h,
        ← batches_eq s' bs fun t c hc => hrun t c (List.mem_cons_of_mem _ hc)]
      simp only [batches, hb, h]

theorem batches_map {β γ : Type*} (run : σ → β → List ο × Except ε σ) (f : γ → β) :
    ∀ (s : σ) (bs : List γ), batches (fun s b => run s (f b)) s bs = batches run s (bs.map f)
  | s, [] => rfl
  | s, b :: bs => by
    rcases h : run s (f b) with ⟨os, e | s'⟩
    · simp only [batches, List.map_cons, h]
    · simp only [batches, List.map_cons, h, batches_map run f s' bs]

/-- Where an error comes from. -/
theorem exists_of_error : ∀ {s : σ} {xs : List ι} {os : List ο} {e : ε},
    feed step s xs = (os, .error e) → ∃ pre x post t, xs = pre ++ x :: post
      ∧ feed step s pre = (os, .ok t) ∧ step t x = .error e
  | s, [], os, e, h => by simp at h
  | s, x :: xs, os, e, h => by
    rcases hx : step s x with e' | ⟨o, s'⟩
    · rw [feed_cons_error step hx] at h
      obtain ⟨rfl, he⟩ := Prod.mk.inj h
      exact ⟨[], x, xs, s, rfl, rfl, hx.trans (congrArg Except.error (Except.error.inj he))⟩
    · rw [feed_cons_ok step hx] at h
      obtain ⟨rfl, he⟩ := Prod.mk.inj h
      have hxs : feed step s' xs = ((feed step s' xs).1, .error e) := Prod.ext rfl he
      obtain ⟨pre, y, post, t, rfl, hpre, hy⟩ := exists_of_error hxs
      refine ⟨x :: pre, y, post, t, rfl, ?_, hy⟩
      rw [feed_cons_ok step hx, hpre]

end Feed
