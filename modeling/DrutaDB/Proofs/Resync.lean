import DrutaDB.Proofs.Frames

/-!
# A parser that missed a header

A parser that is past the first byte of a stream of commands never catches up with it: each
command it takes ends behind the place where the same command ends in the stream
(`feed_ne_of_late`).  An array header that is not positive makes it miss one, so the commands
after such a header are executed only if there are none (`header_nonpositive`).
-/

namespace DrutaDB

open Machine Decimal Feed RespParser

section Late

/-- An occurrence that does not fit the front lies behind it. -/
theorem suffix_of_split {x a b rest : Bytes} {c : UInt8} (h : x ++ c :: rest <:+ a ++ b)
    (ha : c ∉ a) : c :: rest <:+ b := by
  obtain ⟨y, hy⟩ := h
  rw [← List.append_assoc] at hy
  rcases List.append_eq_append_iff.1 hy with ⟨z, rfl, hz⟩ | ⟨z, -, rfl⟩
  · rcases z with _ | ⟨d, z⟩
    · exact hz ▸ List.suffix_rfl
    · obtain ⟨rfl, -⟩ := List.cons.inj hz
      exact absurd (by simp) ha
  · exact ⟨z, rfl⟩

theorem IsLength.two_le {n : ℤ} {w : Bytes} (h : IsLength n w) : 2 ≤ w.length := by
  obtain ⟨lines, line, -, -, hn, rfl⟩ := h
  have hne : line ≠ [] := fun hnil => by
    rw [hnil, lengthText_nil, stoi_nil] at hn
    cases hn
  have hpos := List.length_pos_iff.2 hne
  simp only [List.length_append, List.length_singleton]
  omega

/-- An argument read late ends behind its place. -/
theorem IsArgument.late {a g rest S : Bytes} (h : IsArgument a g)
    (hs : g ++ rest <:+ a ++ crlf ++ S) : ∃ skipped, skipped ++ lf :: rest <:+ S := by
  obtain ⟨n, w, skipped, hw, -, -, rfl⟩ := h
  have htwo := hw.two_le
  have hlen := hs.length_le
  have hskip : skipped ++ lf :: rest <:+ a ++ crlf ++ S := .trans ⟨w ++ a, by simp⟩ hs
  refine ⟨skipped, List.suffix_of_suffix_length_le hskip (List.suffix_append _ _) ?_⟩
  simp [crlf] at hlen ⊢
  omega

/-- So do the arguments after it. -/
theorem arguments_late {as gs : List Bytes} {rest Z : Bytes}
    (h : List.Forall₂ IsArgument as gs) : ∀ {a g : Bytes}, IsArgument a g →
      g ++ (gs.flatten ++ rest) <:+ a ++ crlf ++ (as.flatMap respBulkString ++ Z) →
        rest.length < Z.length := by
  induction h with
  | nil =>
    intro a g hg hs
    obtain ⟨skipped, hs⟩ := hg.late hs
    have hlen := hs.length_le
    simp at hlen
    omega
  | @cons b g' as gs hb hgs ih =>
    intro a g hg hs
    obtain ⟨skipped, hs⟩ := hg.late hs
    have hdigits : lf ∉ byte '$' :: toDecimal b.length ++ [cr] := by
      have hd : lf ≠ byte '$' := by decide
      have hc : lf ≠ cr := by decide
      have hn : lf ∉ toDecimal b.length := fun hm =>
        (ne_of_isDigit (isDigit_of_mem_toDecimal hm)).1 rfl
      simp [hd, hc, hn]
    have hsplit : (b :: as).flatMap respBulkString ++ Z =
        (byte '$' :: toDecimal b.length ++ [cr]) ++
          lf :: (b ++ crlf ++ (as.flatMap respBulkString ++ Z)) := by
      simp [respBulkString, crlf]
    rw [hsplit] at hs
    have hlf := suffix_of_split hs hdigits
    refine ih hb ?_
    rw [List.suffix_cons_iff] at hlf
    rw [← List.append_assoc, ← List.flatten_cons]
    rcases hlf with heq | hsuf
    · rw [(List.cons.inj heq).2]
    · exact (List.suffix_cons _ _).trans hsuf

/-- A frame that does not start with the stream ends behind the first command of it. -/
theorem IsFrame.late {c : List Bytes} {x f rest Z : Bytes} (h : IsFrame c f)
    (hs : x ++ f ++ rest <:+ respCommand c ++ Z)
    (hlen : (x ++ f ++ rest).length < (respCommand c ++ Z).length) : rest.length < Z.length := by
  obtain ⟨hne, -, line, gs, -, -, hgs, rfl⟩ := h
  rcases hgs with _ | @⟨a, g, as, gs, hg, hgs⟩
  · exact absurd rfl hne
  have hstar : ∀ n : ℕ, byte '*' ∉ toDecimal n := fun n hm =>
    absurd (isDigit_of_mem_toDecimal hm) (by decide)
  have hsplit : respCommand (a :: as) ++ Z = byte '*' ::
      ((toDecimal (a :: as).length ++ crlf ++ byte '$' :: toDecimal a.length ++ crlf) ++
        (a ++ crlf ++ (as.flatMap respBulkString ++ Z))) := by
    simp [respCommand, respBulkString]
  have hfront : byte '*' ∉
      toDecimal (a :: as).length ++ crlf ++ byte '$' :: toDecimal a.length ++ crlf := by
    have hc : byte '*' ∉ crlf := by decide
    have hd : byte '*' ≠ byte '$' := by decide
    simp [hc, hd, hstar]
  rw [hsplit] at hs hlen
  rcases List.suffix_cons_iff.1 hs with heq | hs
  · rw [heq] at hlen
    exact absurd hlen (lt_irrefl _)
  have hs' : x ++ byte '*' :: (line ++ lf :: (g :: gs).flatten ++ rest) <:+
      (toDecimal (a :: as).length ++ crlf ++ byte '$' :: toDecimal a.length ++ crlf) ++
        (a ++ crlf ++ (as.flatMap respBulkString ++ Z)) := by
    simpa using hs
  have hopen := suffix_of_split hs' hfront
  refine arguments_late hgs hg (.trans ?_ hopen)
  exact ⟨byte '*' :: line ++ [lf], by simp⟩

/-- What is read late of a stream of commands is never the stream. -/
theorem feed_ne_of_late : ∀ {cs : List (List Bytes)} {xs : Bytes},
    xs <:+ cs.flatMap respCommand → xs.length < (cs.flatMap respCommand).length →
      (feed step {} xs).1 ≠ cs
  | [], xs, _, hlen => absurd hlen (Nat.not_lt_zero _)
  | c :: cs, xs, hs, hlen => by
    intro hcs
    have hcall : (feed step {} xs).1[0]? = some c := by rw [hcs]; rfl
    obtain ⟨u, f, rest, rfl, hu, hf⟩ := feed_call_iff.1 hcall
    rw [List.flatMap_cons] at hs hlen
    have hlate := hf.late hs hlen
    rw [List.append_assoc, feed_append_ok step _ hu, feed_append_ok step rest (feed_isFrame hf)]
      at hcs
    have hrest : rest <:+ cs.flatMap respCommand :=
      List.suffix_of_suffix_length_le ((List.suffix_append _ _).trans hs)
        (List.suffix_append _ _) hlate.le
    exact feed_ne_of_late hrest hlate (List.cons.inj hcs).2

end Late

/-! ## Headers that are not positive -/

section Header

variable {h : Bytes} {n : ℤ}

/-- What an array header leaves behind. -/
theorem feed_array_header (hlf : lf ∉ h) (hcr : cr ∉ h) (hn : stoi h = .ok n) :
    feed step {} (byte '*' :: h ++ crlf) =
      ([], .ok { state := .readingBulkSize, arrayCount := n }) := by
  have hstar : step {} (byte '*') = .ok (none, { state := .readingArraySize }) := rfl
  have hfilter : h.filter (· ≠ cr) = h := by
    rw [List.filter_eq_self]
    exact fun c hc => decide_eq_true fun heq => hcr (heq ▸ hc)
  have hline : feed step { state := .readingArraySize } h = ([], .ok {
      state := .readingArraySize, currentBuffer := h }) := by
    rw [feed_line_array rfl hlf, hfilter]
    rfl
  have hne : cr ≠ lf := by decide
  rw [List.cons_append, feed_cons_ok step hstar, feed_append_ok step _ hline]
  simp [feed, step, crlf, hne, hn]

/-- The header of a command is not a length; behind it the parser is fresh. -/
theorem feed_header_bulk (k : ℕ) :
    feed step { state := .readingBulkSize, arrayCount := n } (byte '*' :: toDecimal k ++ crlf) =
      ([], .ok {}) := by
  have hd : byte '*' ≠ byte '$' := by decide
  have hl : byte '*' ≠ lf := by decide
  have hc : byte '*' ≠ cr := by decide
  have hstar : step { state := .readingBulkSize, arrayCount := n } (byte '*') = .ok (none, {
      state := .readingBulkSize, arrayCount := n, currentBuffer := [byte '*'] }) := by
    simp [step, hd, hl, hc]
  have hdigits := feed_digits_bulk (p := {
    state := .readingBulkSize, arrayCount := n, currentBuffer := [byte '*'] }) rfl
    fun c (hc : c ∈ toDecimal k) => isDigit_of_mem_toDecimal hc
  have hbad : ∀ s, stoi (byte '*' :: s) = .error .invalidArgument := fun s => rfl
  have hcd : cr ≠ byte '$' := by decide
  have hcl : cr ≠ lf := by decide
  have hld : lf ≠ byte '$' := by decide
  rw [List.cons_append, feed_cons_ok step hstar, feed_append_ok step _ hdigits]
  simp [feed, step, crlf, hcd, hcl, hld, hbad, reset]

/-- The commands behind a header that is not positive are executed exactly if there are none, and
behind it the parser waits for a number of arguments it is already past. -/
theorem header_nonpositive (hlf : lf ∉ h) (hcr : cr ∉ h) (hn : stoi h = .ok n) (hle : n ≤ 0)
    {cs : List (List Bytes)} {chunks : List Bytes} (hch : ∀ b ∈ chunks, b.length < 2 ^ 31)
    (hbytes : chunks.flatten = byte '*' :: h ++ crlf ++ cs.flatMap respCommand) :
    ((parseChunks {} chunks).1 = cs ↔ cs = [])
      ∧ ∃ p, feed step {} (byte '*' :: h ++ crlf) = ([], .ok p) ∧ p.state = .readingBulkSize
        ∧ ¬ (p.args.length : ℤ) < p.arrayCount := by
  have hheader := feed_array_header hlf hcr hn
  refine ⟨?_, _, hheader, rfl, by simpa using hle⟩
  rw [parseChunks_eq {} hch, hbytes, feed_append_ok step _ hheader]
  rcases cs with _ | ⟨c, cs⟩
  · simp
  · have hrest : (feed step { state := .readingBulkSize, arrayCount := n }
        ((c :: cs).flatMap respCommand)).1 =
        (feed step {} (c.flatMap respBulkString ++ cs.flatMap respCommand)).1 := by
      rw [List.flatMap_cons, respCommand, List.append_assoc,
        feed_append_ok step _ (feed_header_bulk _)]
      rfl
    refine iff_of_false ?_ (by simp)
    rw [List.nil_append, hrest]
    refine feed_ne_of_late ?_ ?_
    · exact ⟨byte '*' :: toDecimal c.length ++ crlf, by simp [respCommand]⟩
    · simp [respCommand]
      omega

/-- The empty array. -/
theorem header_nonpositive_empty :
    ((parseChunks {} [ascii "*0\r\n", respCommand [ascii "PING"]]).1 = [[ascii "PING"]] ↔
      [[ascii "PING"]] = ([] : List (List Bytes)))
      ∧ ∃ p, feed step {} (byte '*' :: ascii "0" ++ crlf) = ([], .ok p)
        ∧ p.state = .readingBulkSize ∧ ¬ (p.args.length : ℤ) < p.arrayCount :=
  header_nonpositive (by decide) (by decide) (n := 0) (by decide) le_rfl (by decide) (by decide)

/-- A command behind the empty array is lost. -/
theorem header_nonpositive_swallows : ¬ ∀ (h : Bytes) (n : ℤ) (cs : List (List Bytes))
    (chunks : List Bytes), lf ∉ h → cr ∉ h → stoi h = .ok n → n ≤ 0 →
      (∀ c ∈ cs, Deliverable c) → (∀ b ∈ chunks, b.length < 2 ^ 31) →
      chunks.flatten = byte '*' :: h ++ crlf ++ cs.flatMap respCommand →
        (parseChunks {} chunks).1 = cs := by
  intro hall
  have hping := hall (ascii "0") 0 [[ascii "PING"]] [ascii "*0\r\n*1\r\n$4\r\nPING\r\n"]
    (by decide) (by decide) (by decide) le_rfl (by decide) (by decide) (by decide)
  revert hping
  decide

end Header

end DrutaDB
