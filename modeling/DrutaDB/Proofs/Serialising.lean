import DrutaDB.Proofs.Logging

/-!
# Commands that can be written

`format_resp_command` estimates the size of a text in an `int`.  The estimate is the sum wrapped
(`estimatedSize_toInt`), so a command is written as it should be exactly while the sum, with the
64 bytes that are added to it, fits (`serialises_iff`).
-/

namespace DrutaDB

open Machine Decimal

/-- The sum that `estimated_size` stands for. -/
def trueSize (args : List Bytes) : ℕ := 16 + (args.map fun a => a.length + 16).sum

/-- The estimate is the sum, `reserve` returns, and a write that was executed and acknowledged is
appended to the file. -/
structure Serialises (args : List Bytes) : Prop where
  estimate : estimatedSize args = trueSize args
  reserves : reserve (toSize (toInt (estimatedSize args + 64))) = .ok ()
  appends : ∀ s : Server, isValid (toUpper (args.headD [])) →
    appendToAof args s = .ok { s with aof := s.aof ++ respCommand args }
  handles : ∀ (env : Env) (fd : ℤ) (s s' : Server) (sends : Sends), fd ≠ -1 → env.sinceCheck < 5 →
    isValid (toUpper (args.headD [])) → turnedAway s fd (toUpper (args.headD [])) = false →
    (callOf args).run env.now fd (toUpper (args.headD [])) args (s.ensureClient fd) =
      .ok ((sends, true), s') →
    handleCommand env fd args s = (sends, .ok { s' with aof := s'.aof ++ respCommand args })

theorem foldl_estimate : ∀ (args : List Bytes) (n : ℤ),
    args.foldl (fun (n : ℤ) arg => toInt (toSize (n + arg.length + 16))) (toInt n) =
      toInt (n + ((args.map fun a => a.length + 16).sum : ℕ))
  | [], n => by simp
  | a :: args, n => by
    have hsum : n + (a.length + 16) + ((args.map fun a => a.length + 16).sum : ℕ) =
        n + (((a :: args).map fun a => a.length + 16).sum : ℕ) := by
      rw [List.map_cons, List.sum_cons]
      push_cast
      ring
    rw [List.foldl_cons, toInt_toSize, add_assoc, toInt_add, foldl_estimate args, hsum]

/-- The estimate is the sum, wrapped. -/
theorem estimatedSize_toInt (args : List Bytes) : estimatedSize args = toInt (trueSize args) := by
  have h16 : (16 : ℤ) = toInt 16 := by decide
  have hfold := foldl_estimate args 16
  rw [← h16] at hfold
  rw [estimatedSize, hfold, trueSize]
  push_cast
  rfl

/-- What is reserved for a sum that does not fit. -/
theorem reserve_error {n : ℤ} (h : -2 ^ 63 ≤ n) (h' : n < 0) :
    reserve (toSize n) = .error .lengthError := by
  unfold reserve maxSize toSize
  rw [if_pos (by omega)]

theorem trueSize_lt_of_reserve {args : List Bytes} (hestimate : estimatedSize args = trueSize args)
    (hreserve : reserve (toSize (toInt (estimatedSize args + 64))) = .ok ()) :
    trueSize args + 64 < 2 ^ 31 := by
  have hlt : trueSize args < 2 ^ 31 := by
    rw [estimatedSize_toInt, toInt_eq_iff] at hestimate
    omega
  by_contra hge
  have hwrap : toInt (estimatedSize args + 64) = trueSize args + 64 - 2 ^ 32 := by
    rw [hestimate, toInt, Int.bmod_def]
    split_ifs <;> omega
  rw [hwrap, reserve_error (by omega) (by omega)] at hreserve
  cases hreserve

theorem serialises_of_lt {args : List Bytes} (hne : args ≠ [])
    (h : trueSize args + 64 < 2 ^ 31) : Serialises args := by
  have hestimate : estimatedSize args = trueSize args := by
    rw [estimatedSize_toInt, toInt_natCast (by omega)]
  have hformat : formatRespCommand args = .ok (respCommand args) :=
    formatRespCommand_eq (by unfold trueSize at h; omega)
  have happends : ∀ s : Server, isValid (toUpper (args.headD [])) →
      appendToAof args s = .ok { s with aof := s.aof ++ respCommand args } := fun s hvalid => by
    obtain ⟨a, as, rfl⟩ := List.exists_cons_of_ne_nil hne
    simp only [appendToAof, show isValid (toUpper a) = true from hvalid, if_true, hformat, uncaught,
      Except.mapError, bind, Except.bind, pure, Except.pure]
  refine ⟨hestimate, ?_, happends, ?_⟩
  · have hcast : ((trueSize args : ℤ) + 64) = ((trueSize args + 64 : ℕ) : ℤ) := by push_cast; ring
    rw [hestimate, hcast, toInt_natCast h, toSize_natCast (by omega), reserve, maxSize,
      if_neg (by omega)]
  · intro env fd s s' sends hfd hcheck hvalid hturn hrun
    obtain ⟨a, as, rfl⟩ := List.exists_cons_of_ne_nil hne
    have hcall : route (toUpper a) (a :: as).length = callOf (a :: as) := rfl
    have hturn' : turnedAway s fd (toUpper a) = false := hturn
    have hrun' : (callOf (a :: as)).run env.now fd (toUpper a) (a :: as) (s.ensureClient fd) =
      .ok ((sends, true), s') := hrun
    simp only [handleCommand, turnedAway_ensureClient, hturn', hcall, hrun', happends s' hvalid,
      Bool.false_eq_true, if_false, ne_eq, hfd, not_false_eq_true, and_self, if_true, bind,
      Except.bind, checkAndRewriteAof, hcheck]

/-- A command is written as it should be exactly while the estimate, with what is added to it,
fits an `int`. -/
theorem serialises_iff {args : List Bytes} (h : Deliverable args) :
    Serialises args ↔ trueSize args + 64 < 2 ^ 31 :=
  ⟨fun hs => trueSize_lt_of_reserve hs.estimate hs.reserves, serialises_of_lt h.1⟩

theorem serialises_iff_set : Serialises [ascii "SET", ascii "k", ascii "v"] :=
  (serialises_iff (by decide)).2 (by decide)

/-- A `SET` of the longest value that can be delivered. -/
theorem not_serialises : ¬ ∀ args : List Bytes, Deliverable args → Serialises args := by
  intro h
  obtain ⟨n, hn⟩ : ∃ n : ℕ, n = 2 ^ 31 - 1 := ⟨_, rfl⟩
  have hdeliver : Deliverable [ascii "SET", ascii "k", List.replicate n 0] := by
    refine ⟨by simp, by simp, fun a ha => ?_⟩
    simp only [List.mem_cons, List.not_mem_nil, or_false] at ha
    rcases ha with rfl | rfl | rfl
    · decide
    · decide
    · rw [List.length_replicate]
      omega
  have hs := h _ hdeliver
  have hsize := trueSize_lt_of_reserve hs.estimate hs.reserves
  simp only [trueSize, List.map_cons, List.map_nil, List.sum_cons, List.sum_nil,
    List.length_replicate] at hsize
  omega

end DrutaDB
