import Mathlib.Tactic

/-!
# Codes whose words are not prefixes of one another

Of a text made of such words, the words can be read off one by one, however much of it has come in
(`PrefixFree.prefix_of_flatten`).
-/

namespace InformationTheory

variable {α : Type*} {S : Set (List α)}

/-- No word goes on where another one ends. -/
def PrefixFree (S : Set (List α)) : Prop :=
  ∀ a ∈ S, ∀ b ∈ S, ∀ x y, a ++ x = b ++ y → a = b

/-- As many words of which none goes on where another one ends. -/
theorem flatten_inj_of_length : ∀ {vs ws : List (List α)} {x y : List α},
    (∀ v ∈ vs, ∀ w ∈ ws, ∀ x y, v ++ x = w ++ y → v = w) → vs.length = ws.length →
      vs.flatten ++ x = ws.flatten ++ y → vs = ws
  | [], [], _, _, _, _, _ => rfl
  | [], _ :: _, _, _, _, hlen, _ => by cases hlen
  | _ :: _, [], _, _, _, hlen, _ => by cases hlen
  | v :: vs, w :: ws, x, y, h, hlen, heq => by
    rw [List.flatten_cons, List.flatten_cons, List.append_assoc, List.append_assoc] at heq
    obtain rfl := h v List.mem_cons_self w List.mem_cons_self _ _ heq
    rw [flatten_inj_of_length (fun v hv w hw => h v (List.mem_cons_of_mem _ hv) w
      (List.mem_cons_of_mem _ hw)) (Nat.succ.inj hlen) (List.append_cancel_left heq)]

/-- What has come in of a text is made of the first of its words. -/
theorem PrefixFree.prefix_of_flatten (h : PrefixFree S) (hnil : [] ∉ S) :
    ∀ {vs ws : List (List α)}, (∀ v ∈ vs, v ∈ S) → (∀ w ∈ ws, w ∈ S) →
      vs.flatten <+: ws.flatten → vs <+: ws
  | [], _, _, _, _ => List.nil_prefix
  | v :: vs, [], hv, _, hpre => by
    rw [List.flatten_nil, List.prefix_nil, List.flatten_cons, List.append_eq_nil_iff] at hpre
    exact absurd (hpre.1 ▸ hv v List.mem_cons_self) hnil
  | v :: vs, w :: ws, hv, hw, hpre => by
    rw [List.forall_mem_cons] at hv hw
    obtain ⟨rest, hrest⟩ := hpre
    rw [List.flatten_cons, List.flatten_cons, List.append_assoc] at hrest
    obtain rfl := h v hv.1 w hw.1 _ _ hrest
    refine List.cons_prefix_cons.2 ⟨rfl, ?_⟩
    exact h.prefix_of_flatten hnil hv.2 hw.2 ⟨rest, List.append_cancel_left hrest⟩

end InformationTheory
