import Mathlib.Tactic

/-!
# Loops that settle what they handle

A loop over a list that may stop early.  If handling an element settles it, if a settled element is
handled without effect, and nothing else unsettles it, then running the loop once more changes
nothing, wherever it stops (`loop_loop`).
-/

namespace Settling

variable {α σ : Type*} (stop : α → σ → Bool) (exit : σ → σ) (handle : α → σ → σ)

def loop : List α → σ → σ
  | [], s => s
  | x :: xs, s => if stop x s then exit s else loop xs (handle x s)

/-- The elements that are settled are handled without effect, and stay settled. -/
structure Settles (settled : α → σ → Prop) : Prop where
  handle_eq : ∀ x s, settled x s → handle x s = s
  not_stop : ∀ x s, settled x s → stop x s = false
  self : ∀ x s, stop x s = false → settled x (handle x s)
  keep : ∀ x y s, settled y s → settled y (handle x s)
  exit_exit : ∀ s, exit (exit s) = exit s
  exit_stop : ∀ x s, stop x s → stop x (exit s)
  exit_keep : ∀ y s, settled y s → settled y (exit s)

variable {stop exit handle} {settled : α → σ → Prop} (h : Settles stop exit handle settled)
include h

theorem Settles.loop_append : ∀ {done : List α} {s : σ} (xs : List α),
    (∀ d ∈ done, settled d s) → loop stop exit handle (done ++ xs) s = loop stop exit handle xs s
  | [], s, xs, _ => rfl
  | d :: done, s, xs, hdone => by
    have hd := hdone d List.mem_cons_self
    rw [List.cons_append, loop, h.not_stop d s hd, h.handle_eq d s hd]
    exact Settles.loop_append xs fun e he => hdone e (List.mem_cons_of_mem _ he)

/-- Behind elements that are settled, the loop run once more changes nothing. -/
theorem Settles.loop_done : ∀ (xs : List α) {done : List α} {s : σ}, (∀ d ∈ done, settled d s) →
    loop stop exit handle (done ++ xs) (loop stop exit handle xs s) = loop stop exit handle xs s
  | [], done, s, hdone => h.loop_append [] hdone
  | x :: xs, done, s, hdone => by
    by_cases hx : stop x s
    · have hexit := h.exit_stop x s hx
      have hone : loop stop exit handle (x :: xs) s = exit s := by rw [loop, if_pos hx]
      rw [hone, h.loop_append _ fun d hd => h.exit_keep d s (hdone d hd), loop, if_pos hexit,
        h.exit_exit]
    · have hone : loop stop exit handle (x :: xs) s = loop stop exit handle xs (handle x s) := by
        rw [loop, if_neg hx]
      have hsettled : ∀ d ∈ done ++ [x], settled d (handle x s) :=
        List.forall_mem_append.2 ⟨fun d hd => h.keep x d s (hdone d hd),
          List.forall_mem_singleton.2 (h.self x s (Bool.eq_false_iff.2 hx))⟩
      rw [hone, List.append_cons]
      exact Settles.loop_done xs hsettled

/-- The loop run twice over the same list. -/
theorem Settles.loop_loop (xs : List α) (s : σ) :
    loop stop exit handle xs (loop stop exit handle xs s) = loop stop exit handle xs s :=
  h.loop_done xs (List.forall_mem_nil _)

end Settling
