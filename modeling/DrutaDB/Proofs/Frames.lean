import DrutaDB.Proofs.RoundTrip
import Mathlib.Data.List.DropRight

/-!
# What the parser takes for a command

A call of `handle_command` comes at the end of a frame and from nothing else (`IsFrame`): a line
with the number of arguments, and for each argument a line with its length, as many bytes, and
whatever stands before the next LF.  A CR is dropped from the lines wherever it stands, and what
`std::stoi` does not look at is not looked at.  Between two frames there are frames that are given
up and bytes that open none (`Between`).
-/

namespace DrutaDB

open Machine Decimal Feed RespParser

/-! ## Frames -/

/-- What is left of a line in `READING_BULK_SIZE`: what follows its last `$`, without CRs. -/
def lengthText (line : Bytes) : Bytes :=
  (line.rtakeWhile (· ≠ byte '$')).filter (· ≠ cr)

/-- Lines of which nothing is left. -/
def Blank (lines : List Bytes) : Prop := ∀ l ∈ lines, lf ∉ l ∧ lengthText l = []

/-- Lines that announce `n` bytes. -/
def IsLength (n : ℤ) (w : Bytes) : Prop :=
  ∃ lines line, Blank lines ∧ lf ∉ line ∧ stoi (lengthText line) = .ok n
    ∧ w = lines.flatMap (· ++ [lf]) ++ line ++ [lf]

/-- The bytes of an argument; of a negative length it is empty. -/
def IsArgument (a g : Bytes) : Prop :=
  ∃ n w skipped, IsLength n w ∧ a.length = n.toNat ∧ lf ∉ skipped ∧ g = w ++ a ++ skipped ++ [lf]

/-- A header and the arguments after it. -/
def IsHeaded (n : ℤ) (args : List Bytes) (f : Bytes) : Prop :=
  ∃ line gs, lf ∉ line ∧ stoi (line.filter (· ≠ cr)) = .ok n ∧ List.Forall₂ IsArgument args gs
    ∧ f = byte '*' :: line ++ lf :: gs.flatten

/-- The bytes of a command; a count that does not fit an `int` is met by the wrapped number of
arguments. -/
def IsFrame (args : List Bytes) (f : Bytes) : Prop :=
  args ≠ [] ∧ args.length ≤ 2 ^ 32 ∧ IsHeaded (toInt args.length) args f

/-- A header whose number is not met by the arguments after it, nor was by fewer. -/
def Unmet (n : ℤ) (args : List Bytes) (f : Bytes) : Prop :=
  IsHeaded n args f ∧ ∀ k : ℕ, 0 < k → k ≤ args.length → toInt k ≠ n

/-- The bytes of a frame that is given up: instead of the length of an argument there is no
number. -/
def IsGivenUp (f : Bytes) : Prop :=
  ∃ n args f' lines line, Unmet n args f' ∧ Blank lines ∧ lf ∉ line ∧ lengthText line ≠ [] ∧
    (∀ m, stoi (lengthText line) ≠ .ok m) ∧ f = f' ++ lines.flatMap (· ++ [lf]) ++ line ++ [lf]

/-- The bytes end between two frames. -/
inductive Between : Bytes → Prop
  | nil : Between []
  | skip {u : Bytes} {c : UInt8} (h : Between u) (hc : c ≠ byte '*') : Between (u ++ [c])
  | frame {u f : Bytes} {args : List Bytes} (h : Between u) (hf : IsFrame args f) : Between (u ++ f)
  | givenUp {u f : Bytes} (h : Between u) (hf : IsGivenUp f) : Between (u ++ f)

theorem lengthText_nil : lengthText [] = [] := rfl

theorem lengthText_concat (line : Bytes) (c : UInt8) :
    lengthText (line ++ [c]) =
      if c = byte '$' then [] else if c = cr then lengthText line else lengthText line ++ [c] := by
  unfold lengthText
  rw [List.rtakeWhile_concat]
  by_cases hd : c = byte '$'
  · simp [hd]
  · by_cases hc : c = cr
    · have hcd : cr ≠ byte '$' := by decide
      simp [hc, hcd]
    · simp [hd, hc]

theorem blank_nil : Blank [] := by simp [Blank]

theorem Blank.concat {lines : List Bytes} {l : Bytes} (h : Blank lines) (hl : lf ∉ l)
    (hb : lengthText l = []) : Blank (lines ++ [l]) :=
  List.forall_mem_append.2 ⟨h, List.forall_mem_singleton.2 ⟨hl, hb⟩⟩

theorem stoi_nil : stoi [] = .error .invalidArgument := rfl

theorem stoi_lt {s : Bytes} {n : ℤ} (h : stoi s = .ok n) : n < 2 ^ 31 := by
  unfold stoi strto at h
  split at h
  · cases h
  · split_ifs at h with hm
    exact Except.ok.inj h ▸ hm.2

theorem IsHeaded.concat {n : ℤ} {args : List Bytes} {f a g : Bytes} (h : IsHeaded n args f)
    (hg : IsArgument a g) : IsHeaded n (args ++ [a]) (f ++ g) := by
  obtain ⟨line, gs, hline, hn, hgs, rfl⟩ := h
  refine ⟨line, gs ++ [g], hline, hn, List.rel_append hgs (.cons hg .nil), ?_⟩
  simp

/-! ## From the bytes to the call -/

namespace RespParser

/-- The bytes a call reads of its chunk. -/
def readBytes (chunk : Bytes) : Bytes := chunk.take (toInt chunk.length).toNat

theorem parseChunks_readBytes (p : RespParser) (chunks : List Bytes) :
    parseChunks p chunks = feed step p (chunks.map readBytes).flatten := by
  unfold parseChunks
  have hrun : (fun (p : RespParser) (b : Bytes) => p.parseAndExecute b (toInt b.length)) =
      fun p b => feed step p (readBytes b) := rfl
  rw [hrun, batches_map (feed step) readBytes]
  exact batches_eq step p _ fun _ _ _ => rfl

/-- Where the bytes since the opening `*` have taken the parser. -/
inductive Opened (p : RespParser) (f : Bytes) : Prop
  | array (line : Bytes) (hst : p.state = .readingArraySize) (hargs : p.args = [])
      (hline : lf ∉ line) (hbuf : p.currentBuffer = line.filter (· ≠ cr))
      (hf : f = byte '*' :: line)
  | bulk (f' : Bytes) (lines : List Bytes) (line : Bytes) (hst : p.state = .readingBulkSize)
      (hmet : Unmet p.arrayCount p.args f') (hblank : Blank lines) (hline : lf ∉ line)
      (hbuf : p.currentBuffer = lengthText line) (hf : f = f' ++ lines.flatMap (· ++ [lf]) ++ line)
  | data (f' w skipped : Bytes) (hst : p.state = .readingData)
      (hmet : Unmet p.arrayCount p.args f') (hw : IsLength p.currentBulkLen w)
      (hlt : p.currentBulkLen < 2 ^ 31) (hacc : p.dataAccumulator.length ≤ p.currentBulkLen.toNat)
      (hfull : skipped ≠ [] → p.dataAccumulator.length = p.currentBulkLen.toNat)
      (hskip : lf ∉ skipped) (hf : f = f' ++ w ++ p.dataAccumulator ++ skipped)

/-- What a byte of a frame leads to: the frame goes on, or is given up, or ends with the call. -/
def Leads (f : Bytes) (o : Option (List Bytes)) (q : RespParser) : Prop :=
  (o = none ∧ Opened q f) ∨ (o = none ∧ q = {} ∧ IsGivenUp f) ∨
    ∃ args, o = some args ∧ q = {} ∧ IsFrame args f

theorem toInt_length_lt {acc : Bytes} {n : ℤ} (hn : n < 2 ^ 31) (h : acc.length ≤ n.toNat) :
    toInt acc.length < n ↔ acc.length < n.toNat := by
  rw [toInt_natCast (by omega)]
  omega

/-- The wrapped number of arguments is not met by fewer of them. -/
theorem toInt_ne {k n : ℕ} (h : k < n) (hn : n < k + 2 ^ 32) : toInt k ≠ toInt n := by
  intro heq
  have hmod : (k : ℤ) % (2 ^ 32 : ℕ) = (n : ℤ) % (2 ^ 32 : ℕ) := by
    rw [← Int.bmod_emod, ← Int.bmod_emod (x := n)]
    exact congrArg (· % ((2 ^ 32 : ℕ) : ℤ)) heq
  omega

theorem toInt_sub (n : ℕ) (h : 2 ^ 32 ≤ n) : toInt (n - 2 ^ 32 : ℕ) = toInt n := by
  have hcast : ((n - 2 ^ 32 : ℕ) : ℤ) = n - (2 ^ 32 : ℕ) := by omega
  rw [toInt, hcast, Int.sub_bmod_right]
  rfl

variable {p q : RespParser} {f : Bytes} {c : UInt8} {o : Option (List Bytes)}

theorem step_array (hst : p.state = .readingArraySize) (h : Opened p f)
    (hs : step p c = .ok (o, q)) : Leads (f ++ [c]) o q := by
  cases h with
  | array line _ hargs hline hbuf hf =>
    simp only [step, hst] at hs
    split_ifs at hs with hlf hcr
    · rcases hn : stoi p.currentBuffer with e | n <;> simp only [hn] at hs
      · cases hs
      · obtain ⟨rfl, rfl⟩ := Prod.mk.inj (Except.ok.inj hs)
        refine .inl ⟨rfl, .bulk (f ++ [c]) [] [] rfl ⟨⟨line, [], hline, hbuf ▸ hn, ?_, ?_⟩, ?_⟩
          blank_nil (by simp) rfl (by simp)⟩
        · exact (congrArg (List.Forall₂ IsArgument · []) hargs).mpr .nil
        · simp [hf, hlf]
        · intro k hk hle
          simp only [hargs, List.length_nil] at hle
          omega
    · obtain ⟨rfl, rfl⟩ := Prod.mk.inj (Except.ok.inj hs)
      exact .inl ⟨rfl, .array (line ++ [c]) rfl hargs (by simp [hline, Ne.symm hlf])
        (by simp [hbuf, hcr]) (by simp [hf])⟩
    · obtain ⟨rfl, rfl⟩ := Prod.mk.inj (Except.ok.inj hs)
      exact .inl ⟨rfl, .array (line ++ [c]) hst hargs (by simp [hline, Ne.symm hlf])
        (by simp [hbuf, not_not.1 hcr]) (by simp [hf])⟩
  | bulk _ _ _ hst' => exact absurd (hst.symm.trans hst') (by decide)
  | data _ _ _ hst' => exact absurd (hst.symm.trans hst') (by decide)

theorem step_bulk (hst : p.state = .readingBulkSize) (h : Opened p f)
    (hs : step p c = .ok (o, q)) : Leads (f ++ [c]) o q := by
  cases h with
  | array _ hst' => exact absurd (hst.symm.trans hst') (by decide)
  | bulk f' lines line _ hmet hblank hline hbuf hf =>
    have hconcat := lengthText_concat line c
    simp only [step, hst] at hs
    split_ifs at hs with hd hlf hne hcr
    · obtain ⟨rfl, rfl⟩ := Prod.mk.inj (Except.ok.inj hs)
      rw [if_pos hd] at hconcat
      exact .inl ⟨rfl, .bulk f' lines (line ++ [c]) rfl hmet hblank
        (by simp [hline, hd]; decide) hconcat.symm (by simp [hf])⟩
    · rcases hn : stoi p.currentBuffer with e | n <;> simp only [hn] at hs
      · obtain ⟨rfl, rfl⟩ := Prod.mk.inj (Except.ok.inj hs)
        refine .inr (.inl ⟨rfl, rfl, _, _, f', lines, line, hmet, hblank, hline, hbuf ▸ hne, ?_, ?_⟩)
        · intro m hm
          rw [← hbuf, hn] at hm
          cases hm
        · rw [hf, hlf]
      · obtain ⟨rfl, rfl⟩ := Prod.mk.inj (Except.ok.inj hs)
        refine .inl ⟨rfl, .data f' (lines.flatMap (· ++ [lf]) ++ line ++ [lf]) [] rfl hmet
          ⟨lines, line, hblank, hline, hbuf ▸ hn, rfl⟩ (stoi_lt hn) (by simp) (by simp) (by simp) ?_⟩
        simp [hf, hlf]
    · obtain ⟨rfl, rfl⟩ := Prod.mk.inj (Except.ok.inj hs)
      refine .inl ⟨rfl, .bulk f' (lines ++ [line]) [] hst hmet
        (hblank.concat hline (hbuf.symm.trans (not_not.1 hne))) (by simp) (not_not.1 hne) ?_⟩
      simp [hf, hlf]
    · obtain ⟨rfl, rfl⟩ := Prod.mk.inj (Except.ok.inj hs)
      rw [if_neg hd, if_neg hcr, ← hbuf] at hconcat
      exact .inl ⟨rfl, .bulk f' lines (line ++ [c]) rfl hmet hblank
        (by simp [hline, Ne.symm hlf]) hconcat.symm (by simp [hf])⟩
    · obtain ⟨rfl, rfl⟩ := Prod.mk.inj (Except.ok.inj hs)
      rw [if_neg hd, if_pos (not_not.1 hcr), ← hbuf] at hconcat
      exact .inl ⟨rfl, .bulk f' lines (line ++ [c]) hst hmet hblank
        (by simp [hline, Ne.symm hlf]) hconcat.symm (by simp [hf])⟩
  | data _ _ _ hst' => exact absurd (hst.symm.trans hst') (by decide)

theorem step_data (hst : p.state = .readingData) (h : Opened p f)
    (hs : step p c = .ok (o, q)) : Leads (f ++ [c]) o q := by
  cases h with
  | array _ hst' => exact absurd (hst.symm.trans hst') (by decide)
  | bulk _ _ _ hst' => exact absurd (hst.symm.trans hst') (by decide)
  | data f' w skipped _ hmet hw hlt hacc hfull hskip hf =>
    have hroom := toInt_length_lt hlt hacc
    have hwhole : ¬ toInt p.dataAccumulator.length < p.currentBulkLen →
        p.dataAccumulator.length = p.currentBulkLen.toNat := fun h => by
      have := hroom.not.1 h
      omega
    have harg : ¬ toInt p.dataAccumulator.length < p.currentBulkLen →
        IsArgument p.dataAccumulator (w ++ p.dataAccumulator ++ skipped ++ [lf]) := fun h =>
      ⟨_, w, skipped, hw, hwhole h, hskip, rfl⟩
    simp only [step, hst] at hs
    split_ifs at hs with hshort hlf hlast
    · obtain ⟨rfl, rfl⟩ := Prod.mk.inj (Except.ok.inj hs)
      have hnil : skipped = [] := by
        by_contra hne
        exact absurd (hroom.1 hshort) (by rw [hfull hne]; exact lt_irrefl _)
      have hroom' := hroom.1 hshort
      exact .inl ⟨rfl, .data f' w [] rfl hmet hw hlt (by simp; omega) (by simp) (by simp)
        (by simp [hf, hnil])⟩
    · obtain ⟨rfl, rfl⟩ := Prod.mk.inj (Except.ok.inj hs)
      have hf' : f ++ [c] = f' ++ (w ++ p.dataAccumulator ++ skipped ++ [lf]) := by
        simp [hf, hlf]
      refine .inr (.inr ⟨_, rfl, rfl, by simp, ?_, hf' ▸ hlast ▸ hmet.1.concat (harg hshort)⟩)
      by_contra hlong
      refine hmet.2 ((p.args ++ [p.dataAccumulator]).length - 2 ^ 32) (by omega) ?_ ?_
      · simp
      · rw [toInt_sub _ (by omega), hlast]
    · obtain ⟨rfl, rfl⟩ := Prod.mk.inj (Except.ok.inj hs)
      refine .inl ⟨rfl, .bulk (f' ++ (w ++ p.dataAccumulator ++ skipped ++ [lf])) [] [] rfl
        ⟨hmet.1.concat (harg hshort), ?_⟩ blank_nil (by simp) rfl (by simp [hf, hlf])⟩
      intro k hk hle
      rcases Nat.lt_or_ge p.args.length k with hnew | hold
      · have hkeq : k = (p.args ++ [p.dataAccumulator]).length := by
          simp only [List.length_append, List.length_singleton] at hle ⊢
          omega
        rw [hkeq]
        exact hlast
      · exact hmet.2 k hk hold
    · obtain ⟨rfl, rfl⟩ := Prod.mk.inj (Except.ok.inj hs)
      exact .inl ⟨rfl, .data f' w (skipped ++ [c]) hst hmet hw hlt hacc (fun _ => hwhole hshort)
        (by simp [hskip, Ne.symm hlf]) (by simp [hf])⟩

theorem step_opened (h : Opened p f) (hs : step p c = .ok (o, q)) : Leads (f ++ [c]) o q := by
  rcases hst : p.state with _ | _ | _ | _
  · cases h with
    | array _ hst' => exact absurd (hst.symm.trans hst') (by decide)
    | bulk _ _ _ hst' => exact absurd (hst.symm.trans hst') (by decide)
    | data _ _ _ hst' => exact absurd (hst.symm.trans hst') (by decide)
  · exact step_array hst h hs
  · exact step_bulk hst h hs
  · exact step_data hst h hs

/-- Between frames the parser is fresh, and a `*` opens the next one. -/
theorem step_fresh (hs : step {} c = .ok (o, q)) :
    o = none ∧ (q = {} ∧ c ≠ byte '*' ∨ Opened q [c]) := by
  simp only [step] at hs
  split_ifs at hs with hc
  · obtain ⟨rfl, rfl⟩ := Prod.mk.inj (Except.ok.inj hs)
    exact ⟨rfl, .inr (.array [] rfl rfl (by simp) rfl (by rw [hc]))⟩
  · obtain ⟨rfl, rfl⟩ := Prod.mk.inj (Except.ok.inj hs)
    exact ⟨rfl, .inl ⟨rfl, hc⟩⟩

/-- The last bytes of what was read are those of an open frame, or there is none. -/
theorem feed_opened : ∀ {xs : Bytes} {os : List (List Bytes)} {p : RespParser},
    feed step {} xs = (os, .ok p) → ∃ u f, xs = u ++ f ∧ feed step {} u = (os, .ok {}) ∧ Between u ∧
      (p = {} ∧ f = [] ∨ Opened p f) := by
  intro xs
  induction xs using List.reverseRecOn with
  | nil =>
    intro os p h
    obtain ⟨rfl, hp⟩ := Prod.mk.inj h
    exact ⟨[], [], rfl, rfl, .nil, .inl ⟨(Except.ok.inj hp).symm, rfl⟩⟩
  | append_singleton xs c ih =>
    intro os p h
    rcases hxs : feed step {} xs with ⟨os', e | p'⟩
    · rw [feed_append_error step _ hxs] at h
      cases h
    obtain ⟨u, f, rfl, hu, hbetween, hf⟩ := ih hxs
    rcases hc : step p' c with e | ⟨o, q⟩
    · rw [feed_append_ok step _ hxs, feed_cons_error step hc] at h
      cases h
    have hall := feed_append_ok step [c] hxs
    rw [feed_cons_ok step hc, feed_nil] at hall
    obtain ⟨hos, hp⟩ := Prod.mk.inj (hall.symm.trans h)
    obtain rfl := Except.ok.inj hp
    have hclosed : q = {} → feed step {} (u ++ f ++ [c]) = (os, .ok {}) := fun hq => hq ▸ h
    have hquiet : o = none → os' = os := fun ho => by simpa [ho] using hos
    have hlast : u ++ (f ++ [c]) = u ++ f ++ [c] := (List.append_assoc u f [c]).symm
    rcases hf with ⟨rfl, rfl⟩ | hf
    · obtain ⟨ho, ⟨rfl, hne⟩ | hq⟩ := step_fresh hc
      · refine ⟨u ++ [] ++ [c], [], by simp, hclosed rfl, ?_, .inl ⟨rfl, rfl⟩⟩
        rw [List.append_nil]
        exact hbetween.skip hne
      · exact ⟨u, [c], by simp, hquiet ho ▸ hu, hbetween, .inr hq⟩
    · rcases step_opened hf hc with ⟨ho, hq⟩ | ⟨-, hq, hgiven⟩ | ⟨args, -, hq, hframe⟩
      · exact ⟨u, f ++ [c], by simp, hquiet ho ▸ hu, hbetween, .inr hq⟩
      · exact ⟨u ++ f ++ [c], [], by simp, hclosed hq, hlast ▸ hbetween.givenUp hgiven,
          .inl ⟨hq, rfl⟩⟩
      · exact ⟨u ++ f ++ [c], [], by simp, hclosed hq, hlast ▸ hbetween.frame hframe,
          .inl ⟨hq, rfl⟩⟩

end RespParser

/-! ## From the call to the bytes -/

namespace RespParser

variable {p : RespParser}

theorem feed_line_array (hst : p.state = .readingArraySize) {line : Bytes} (h : lf ∉ line) :
    feed step p line =
      ([], .ok { p with currentBuffer := p.currentBuffer ++ line.filter (· ≠ cr) }) := by
  have hcr : cr ≠ lf := by decide
  induction line using List.reverseRecOn with
  | nil => simp
  | append_singleton line c ih =>
    simp only [List.mem_append, List.mem_singleton, not_or] at h
    rw [feed_append_ok step [c] (ih h.1)]
    by_cases hc : c = cr
    · simp [feed, step, hst, hc, hcr]
    · simp [feed, step, hst, Ne.symm h.2, hc]

theorem feed_line_bulk (hst : p.state = .readingBulkSize) {line : Bytes} (h : lf ∉ line)
    (hbuf : p.currentBuffer = []) :
    feed step p line = ([], .ok { p with currentBuffer := lengthText line }) := by
  have hcr : cr ≠ lf := by decide
  have hcd : cr ≠ byte '$' := by decide
  induction line using List.reverseRecOn with
  | nil =>
    rw [feed_nil, lengthText_nil, ← hbuf]
  | append_singleton line c ih =>
    simp only [List.mem_append, List.mem_singleton, not_or] at h
    rw [feed_append_ok step [c] (ih h.1), lengthText_concat]
    by_cases hd : c = byte '$'
    · simp [feed, step, hst, hd]
    · by_cases hc : c = cr
      · simp [feed, step, hst, hc, hcr, hcd]
      · simp [feed, step, hst, Ne.symm h.2, hd, hc]

theorem feed_blank (hst : p.state = .readingBulkSize) (hbuf : p.currentBuffer = []) :
    ∀ {lines : List Bytes}, Blank lines →
      feed step p (lines.flatMap (· ++ [lf])) = ([], .ok p)
  | [], _ => rfl
  | l :: lines, h => by
    obtain ⟨hl, hb⟩ := h l List.mem_cons_self
    have hline : feed step p l = ([], .ok p) := by
      rw [feed_line_bulk hst hl hbuf, hb, ← hbuf]
    have hlf : step p lf = .ok (none, p) := by
      have hd : lf ≠ byte '$' := by decide
      simp [step, hst, hd, hbuf]
    rw [List.flatMap_cons, List.append_assoc, feed_append_ok step _ hline,
      feed_append_ok step _ (feed_single hlf),
      feed_blank hst hbuf fun l' hl' => h l' (List.mem_cons_of_mem _ hl')]
    rfl

theorem feed_isLength (hst : p.state = .readingBulkSize) (hbuf : p.currentBuffer = []) {n : ℤ}
    {w : Bytes} (h : IsLength n w) :
    feed step p w = ([], .ok { p with
      currentBulkLen := n, currentBuffer := [], dataAccumulator := [], state := .readingData }) := by
  obtain ⟨lines, line, hblank, hline, hn, rfl⟩ := h
  have hne : lengthText line ≠ [] := fun hnil => by
    rw [hnil, stoi_nil] at hn
    cases hn
  have hd : lf ≠ byte '$' := by decide
  have hlf : step { p with currentBuffer := lengthText line } lf = .ok (none, { p with
      currentBulkLen := n, currentBuffer := [], dataAccumulator := [],
      state := .readingData }) := by
    simp [step, hst, hd, hne, hn]
  rw [List.append_assoc, feed_append_ok step _ (feed_blank hst hbuf hblank),
    feed_append_ok step _ (feed_line_bulk hst hline hbuf), feed_single hlf]
  rfl

theorem feed_skipped (hst : p.state = .readingData)
    (hfull : ¬ toInt p.dataAccumulator.length < p.currentBulkLen) :
    ∀ {skipped : Bytes}, lf ∉ skipped → feed step p skipped = ([], .ok p)
  | [], _ => rfl
  | c :: skipped, h => by
    simp only [List.mem_cons, not_or] at h
    rw [feed_cons_ok step (step_data_full hst hfull (Ne.symm h.1)), feed_skipped hst hfull h.2]
    rfl

/-- An argument up to the LF that ends it. -/
theorem feed_isArgument (hst : p.state = .readingBulkSize) (hbuf : p.currentBuffer = [])
    {a g : Bytes} (h : IsArgument a g) :
    ∃ g' n, g = g' ++ [lf] ∧ ¬ toInt a.length < n ∧ feed step p g' = ([], .ok { p with
      currentBulkLen := n, currentBuffer := [], dataAccumulator := a, state := .readingData }) := by
  obtain ⟨n, w, skipped, hw, ha, hskip, rfl⟩ := h
  have hlt : n < 2 ^ 31 := by
    obtain ⟨_, _, -, -, hn, -⟩ := hw
    exact stoi_lt hn
  have hfull : ¬ toInt a.length < n := by
    rw [toInt_natCast (by omega)]
    omega
  have hdata : feed step { p with
      currentBulkLen := n, currentBuffer := [], dataAccumulator := [], state := .readingData } a =
      ([], .ok { p with
        currentBulkLen := n, currentBuffer := [], dataAccumulator := a,
        state := .readingData }) := by
    rcases lt_or_ge n 0 with hneg | hnonneg
    · obtain rfl : a = [] := List.eq_nil_of_length_eq_zero (by omega)
      rfl
    · exact feed_data (n := n.toNat) rfl (by simp [hnonneg]) (by omega) (by simp [ha])
  have hskipped := feed_skipped (p := { p with
    currentBulkLen := n, currentBuffer := [], dataAccumulator := a, state := .readingData })
    rfl hfull hskip
  refine ⟨w ++ a ++ skipped, n, rfl, hfull, ?_⟩
  rw [List.append_assoc, feed_append_ok step _ (feed_isLength hst hbuf hw),
    feed_append_ok step _ hdata, hskipped]
  simp only [List.nil_append]

/-- The arguments that are missing, and then the call. -/
theorem feed_arguments {c : ℤ} {as gs : List Bytes} (hgs : List.Forall₂ IsArgument as gs) :
    ∀ {p : RespParser} {m : ℕ}, p.state = .readingBulkSize → p.currentBuffer = [] →
    p.arrayCount = c → p.args.length = m → as ≠ [] →
    (∀ k : ℕ, m < k → k < m + as.length → toInt k ≠ c) → toInt (m + as.length : ℕ) = c →
      feed step p gs.flatten = ([p.args ++ as], .ok {}) := by
  induction hgs with
  | nil => exact fun _ _ _ _ hne => absurd rfl hne
  | @cons a g as gs hg hgs ih =>
    intro p m hst hbuf hc hm _ hunmet hmet
    obtain ⟨g', n, rfl, hfull, hfeed⟩ := feed_isArgument hst hbuf hg
    have hlen : (p.args ++ [a]).length = m + 1 := by simp [hm]
    rcases as with _ | ⟨b, bs⟩
    · cases hgs
      have hlast := step_data_last (p := { p with
        currentBulkLen := n, currentBuffer := [], dataAccumulator := a, state := .readingData })
        rfl hfull (by rw [hlen, hc]; exact hmet)
      rw [List.flatten_cons, List.flatten_nil, List.append_nil, feed_append_ok step _ hfeed,
        feed_cons_ok step hlast]
      simp
    · have hnext := step_data_next (p := { p with
        currentBulkLen := n, currentBuffer := [], dataAccumulator := a, state := .readingData })
        rfl hfull (by rw [hlen, hc]; exact hunmet _ (by omega) (by simp))
      have htotal : m + (a :: b :: bs).length = m + 1 + (b :: bs).length := by simp; omega
      rw [htotal] at hunmet hmet
      have hrest := ih (p := { p with
        currentBulkLen := n, currentBuffer := [], dataAccumulator := a, args := p.args ++ [a],
        state := .readingBulkSize }) rfl rfl hc hlen (by simp)
        (fun k hk hk' => hunmet k (Nat.lt_of_succ_lt hk) hk') hmet
      rw [List.flatten_cons, List.append_assoc, feed_append_ok step _ hfeed,
        feed_append_ok step _ (feed_single hnext), hrest]
      simp

/-- A header up to the LF that ends it. -/
theorem feed_opening {line : Bytes} (hline : lf ∉ line) :
    feed step {} (byte '*' :: line) =
      ([], .ok { state := .readingArraySize, currentBuffer := line.filter (· ≠ cr) }) := by
  have hstar : step {} (byte '*') = .ok (none, { state := .readingArraySize }) := rfl
  rw [feed_cons_ok step hstar,
    feed_line_array (p := { state := .readingArraySize }) rfl hline]
  rfl

/-- A header, and what is read after it. -/
theorem feed_headed {line rest : Bytes} {n : ℤ}
    {o : List (List Bytes) × Except StdException RespParser} (hline : lf ∉ line)
    (hn : stoi (line.filter (· ≠ cr)) = .ok n)
    (h : feed step { state := .readingBulkSize, arrayCount := n } rest = o) :
    feed step {} (byte '*' :: line ++ lf :: rest) = o := by
  have hlf : step { state := .readingArraySize, currentBuffer := line.filter (· ≠ cr) } lf =
      .ok (none, { state := .readingBulkSize, arrayCount := n }) := by
    simp only [step, if_pos, hn]
  rw [feed_append_ok step _ (feed_opening hline), feed_cons_ok step hlf, h]
  rfl

/-- A frame leads to its call. -/
theorem feed_isFrame {args : List Bytes} {f : Bytes} (h : IsFrame args f) :
    feed step {} f = ([args], .ok {}) := by
  obtain ⟨hne, hle, line, gs, hline, hn, hgs, rfl⟩ := h
  have hunmet : ∀ k : ℕ, 0 < k → k < 0 + args.length → toInt k ≠ toInt args.length :=
    fun k hk hk' => toInt_ne (by omega) (by omega)
  exact feed_headed hline hn (feed_arguments hgs (m := 0) (p := {
    state := .readingBulkSize, arrayCount := toInt args.length }) rfl rfl (by dsimp only) rfl
    hne hunmet (by rw [Nat.zero_add]))

/-- The arguments after a header that does not count them. -/
theorem feed_unmet {c : ℤ} {as gs : List Bytes} (hgs : List.Forall₂ IsArgument as gs) :
    ∀ {p : RespParser} {m : ℕ}, p.state = .readingBulkSize → p.currentBuffer = [] →
    p.arrayCount = c → p.args.length = m → (∀ k : ℕ, m < k → k ≤ m + as.length → toInt k ≠ c) →
      ∃ q, feed step p gs.flatten = ([], .ok q) ∧ q.state = .readingBulkSize ∧
        q.currentBuffer = [] := by
  induction hgs with
  | nil => exact fun hst hbuf _ _ _ => ⟨_, rfl, hst, hbuf⟩
  | @cons a g as gs hg hgs ih =>
    intro p m hst hbuf hc hm hunmet
    obtain ⟨g', n, rfl, hfull, hfeed⟩ := feed_isArgument hst hbuf hg
    have hlen : (p.args ++ [a]).length = m + 1 := by simp [hm]
    have hnext := step_data_next (p := { p with
      currentBulkLen := n, currentBuffer := [], dataAccumulator := a, state := .readingData })
      rfl hfull (by rw [hlen, hc]; exact hunmet _ (by omega) (by simp))
    obtain ⟨q, hq, hstate, hbuffer⟩ := ih (p := { p with
      currentBulkLen := n, currentBuffer := [], dataAccumulator := a, args := p.args ++ [a],
      state := .readingBulkSize }) rfl rfl hc hlen
      (fun k hk hk' => hunmet k (Nat.lt_of_succ_lt hk) (by rw [List.length_cons]; omega))
    refine ⟨q, ?_, hstate, hbuffer⟩
    rw [List.flatten_cons, List.append_assoc, feed_append_ok step _ hfeed,
      feed_append_ok step _ (feed_single hnext), hq]
    rfl

/-- A frame that is given up leaves the parser fresh. -/
theorem feed_isGivenUp {f : Bytes} (h : IsGivenUp f) : feed step {} f = ([], .ok {}) := by
  obtain ⟨n, args, f', lines, line, ⟨⟨header, gs, hheader, hn, hgs, rfl⟩, hunmet⟩, hblank, hline,
    hne, herr, rfl⟩ := h
  obtain ⟨q, hq, hst, hbuf⟩ := feed_unmet hgs (m := 0) (p := {
    state := .readingBulkSize, arrayCount := n }) rfl rfl rfl rfl
    (fun k hk hk' => hunmet k hk (by omega))
  have hlf : step { q with currentBuffer := lengthText line } lf = .ok (none, {}) := by
    have hd : lf ≠ byte '$' := by decide
    rcases hm : stoi (lengthText line) with e | m
    · simp [step, hst, hd, hne, hm, reset]
    · exact absurd hm (herr m)
  rw [List.append_assoc, List.append_assoc, feed_append_ok step _ (feed_headed hheader hn hq),
    feed_append_ok step _ (feed_blank hst hbuf hblank),
    feed_append_ok step _ (feed_line_bulk hst hline hbuf), feed_single hlf]
  rfl

/-- Between two frames the parser is fresh. -/
theorem feed_between {u : Bytes} (h : Between u) : ∃ os, feed step {} u = (os, .ok {}) := by
  induction h with
  | nil => exact ⟨[], rfl⟩
  | @skip u c _ hc ih =>
    obtain ⟨os, hos⟩ := ih
    have hstep : step {} c = .ok (none, {}) := by simp [step, hc]
    exact ⟨_, (feed_append_ok step [c] hos).trans (by rw [feed_single hstep])⟩
  | frame _ hf ih =>
    obtain ⟨os, hos⟩ := ih
    exact ⟨_, (feed_append_ok step _ hos).trans (by rw [feed_isFrame hf])⟩
  | givenUp _ hf ih =>
    obtain ⟨os, hos⟩ := ih
    exact ⟨_, (feed_append_ok step _ hos).trans (by rw [feed_isGivenUp hf])⟩

end RespParser

/-- A call is made at the end of a frame that opened when the parser was fresh, and there only. -/
theorem feed_call_iff {xs : Bytes} {j : ℕ} {args : List Bytes} :
    (feed step {} xs).1[j]? = some args ↔ ∃ u f rest, xs = u ++ f ++ rest
      ∧ feed step {} u = ((feed step {} xs).1.take j, .ok {}) ∧ IsFrame args f := by
  constructor
  · intro h
    obtain ⟨pre, c, rest, p, q, rfl, hpre, hcall⟩ := exists_of_getElem? step h
    obtain ⟨u, f, rfl, hu, -, ⟨rfl, rfl⟩ | hf⟩ := feed_opened hpre
    · obtain ⟨hnone, -⟩ := step_fresh hcall
      cases hnone
    · rcases step_opened hf hcall with ⟨hnone, -⟩ | ⟨hnone, -⟩ | ⟨args', hargs, -, hframe⟩
      · cases hnone
      · cases hnone
      · obtain rfl := Option.some.inj hargs
        exact ⟨u, f ++ [c], rest, by simp, hu, hframe⟩
  · rintro ⟨u, f, rest, rfl, hu, hf⟩
    have hall : (feed step {} (u ++ f ++ rest)).1 =
        (feed step {} (u ++ f ++ rest)).1.take j ++ args :: (feed step {} rest).1 := by
      conv_lhs => rw [List.append_assoc, feed_append_ok step _ hu,
        feed_append_ok step rest (feed_isFrame hf)]
      rfl
    generalize (feed step {} (u ++ f ++ rest)).1 = os at hall
    have hlen := congrArg List.length hall
    rw [List.length_append, List.length_cons, List.length_take] at hlen
    have hj : (os.take j).length = j := by
      rw [List.length_take]
      omega
    rw [hall, List.getElem?_append_right hj.le, hj, Nat.sub_self]
    rfl

/-- Whenever `handle_command` is called, the bytes read since the `*` that opened the frame are a
frame of its arguments, and every such frame leads to the call. -/
theorem parseChunks_call_iff (chunks : List Bytes) (j : ℕ) (args : List Bytes) :
    (parseChunks {} chunks).1[j]? = some args ↔
      ∃ u f rest, (chunks.map readBytes).flatten = u ++ f ++ rest
        ∧ feed step {} u = ((parseChunks {} chunks).1.take j, .ok {}) ∧ IsFrame args f := by
  rw [parseChunks_readBytes]
  exact feed_call_iff

/-- A header without a CR. -/
theorem parseChunks_call_lenient : ¬ ∀ (chunks : List Bytes) (j : ℕ) (args : List Bytes),
    (parseChunks {} chunks).1[j]? = some args →
      ∃ u rest, (chunks.map readBytes).flatten = u ++ respCommand args ++ rest
        ∧ feed step {} u = ((parseChunks {} chunks).1.take j, .ok {}) := by
  intro h
  obtain ⟨u, rest, heq, -⟩ := h [ascii "*1\n$4\r\nPING\r\n"] 0 [ascii "PING"] (by decide)
  have hlen := congrArg List.length heq
  have h1 : ([ascii "*1\n$4\r\nPING\r\n"].map readBytes).flatten.length = 13 := by decide
  have h2 : (respCommand [ascii "PING"]).length = 14 := by decide
  rw [List.length_append, List.length_append, h1, h2] at hlen
  omega

end DrutaDB
