import DrutaDB.Proofs.Replies

/-!
# Pops and ranges

`LPOP` and `RPOP` take as many elements as they are asked for, and leave the others, where the
count is not negative (`pops_iff`).  `LRANGE` answers with the elements from one position to
another (`lrange_reply`).
-/

namespace DrutaDB

open Machine Decimal Capacity Store

/-- A pop takes up to so many elements from its end of the list, answers with them in the order it
takes them, and leaves the others; only the memory limit takes the key away. -/
def Pops (args : List Bytes) (fromFront : Bool) (s : Store) (l : List Bytes) (count : ℤ) : Prop :=
  let m := (min (max count 0) l.length).toNat
  let taken := if fromFront then l.take m else l.reverse.take m
  let left := if fromFront then l.drop m else l.take (l.length - m)
  ∃ s', genericPop args fromFront s = .ok ((respArrayOf taken, true), s') ∧
    (∀ v, s'.value (arg args 1) = some v → v.data = .list left) ∧
    (s.currentMemoryUsage ≤ lruMaxMemory → (s'.value (arg args 1)).isSome)

/-- The position that an index stands for. -/
def positionOf (size i : ℤ) : ℤ := if i < 0 then i + size else i

/-- The elements from one position to another, both included. -/
def elementsBetween (l : List Bytes) (first last : ℤ) : List Bytes :=
  (l.take (last + 1).toNat).drop first.toNat

/-- The number is an `int`. -/
def FitsInt (n : ℤ) : Prop := -2 ^ 31 ≤ n ∧ n < 2 ^ 31

/-! ## Pops -/

section Pops

variable {args : List Bytes} {r : Recency} {v : DrutaValue} {l : List Bytes} {count : ℤ}

theorem respArrayOf_length_inj {a b : List Bytes} (h : respArrayOf a = respArrayOf b) :
    a.length = b.length := by
  unfold respArrayOf at h
  rw [respArray_natCast, respArray_natCast] at h
  have hdigits := congrArg (fun t => t.tail.takeWhile isDigit) h
  simp only [List.cons_append, List.tail_cons, List.append_assoc] at hdigits
  have hhead : ∀ (n : ℕ) (t : Bytes),
      (toDecimal n ++ (Resp.lineEnd ++ t)).takeWhile isDigit = toDecimal n := by
    intro n t
    rw [List.takeWhile_append_of_pos fun c hc => isDigit_of_mem_toDecimal hc]
    simp [Resp.lineEnd, isDigit]
  rw [hhead, hhead] at hdigits
  rw [← digitsValue_toDecimal a.length, hdigits, digitsValue_toDecimal]

theorem find_of_settle {k : Bytes} (h : r.settle.find k = some v) : r.find k = some v :=
  RecencyList.find_eq_some_iff.2 ((RecencyList.shedList_suffix _ _ _ _).subset
    (RecencyList.find_eq_some_iff.1 h))

theorem notified_le (usage oldSize : ℕ) : notified usage oldSize 0 ≤ usage := by
  unfold notified
  split_ifs <;> omega

/-- A pop writes its value, and only the memory limit takes the key away. -/
theorem perform_pop {k : Bytes} (hv : r.find k = some v) (w : DrutaValue) (m : ℕ) (b : Bool) :
    ∃ r', r.perform k (.pop w m 0 b) = .ok r' ∧ (∀ u, r'.find k = some u → u = w) ∧
      (r.account.usage ≤ lruMaxMemory → r'.find k = some w) := by
  have hpush : Recency.find ⟨r.nodes.push k v, r.account⟩ k = some v := by
    change (r.nodes.push k v).find k = some v
    rw [RecencyList.find_push, if_pos rfl]
  have hwrite : (Recency.write ⟨r.nodes.push k v, r.account⟩ k w b).find k = some w :=
    Recency.find_replace _ hpush w _
  refine ⟨(Recency.write ⟨r.nodes.push k v, r.account⟩ k w b).notify m 0, ?_, fun u hu => ?_,
    fun hle => ?_⟩
  · rw [Recency.perform, Recency.touch_eq r hv]
    rfl
  · exact Option.some.inj ((find_of_settle hu).symm.trans hwrite)
  · have husage : notified r.account.usage m 0 ≤ lruMaxMemory :=
      (notified_le _ _).trans hle
    rw [Recency.notify, Recency.settle_of_le husage]
    exact hwrite

theorem popCount_eq (hsize : args.length = 3) (hcount : stoi (arg args 2) = .ok count) :
    popCount args = count := by
  unfold popCount
  rw [if_pos hsize, hcount]

theorem popOutcome_list (hsize : args.length = 3) (hcount : stoi (arg args 2) = .ok count)
    (hl : v.data = .list l) (fromFront : Bool) : popOutcome args fromFront (some v) =
      match popLoop (if fromFront then l else l.reverse) (min count (toInt l.length)) with
      | .error f => { reply := [], effect := .fail f }
      | .ok (taken, left) =>
        { reply := respArray (min count (toInt l.length)) ++ taken.flatMap respBulkString
          success := true
          effect := .pop { v with
            data := .list (if fromFront then left else left.reverse)
            memoryUsage := subSize v.memoryUsage (toSize (taken.map listElementUsage).sum) }
            (toSize (taken.map listElementUsage).sum) 0
            (decide (v.memoryUsage < toSize (taken.map listElementUsage).sum)) } := by
  have hnot : ¬ 3 < args.length := by omega
  obtain rfl := popCount_eq hsize hcount
  rcases v with ⟨d, e, m⟩
  obtain rfl : d = .list l := hl
  exact if_neg hnot

/-- A count that is not negative. -/
theorem genericPop_ok (hsize : args.length = 3) (hcount : stoi (arg args 2) = .ok count)
    (hv : r.find (arg args 1) = some v) (hl : v.data = .list l) (fromFront : Bool) {n : ℕ}
    (hn : min count (toInt l.length) = n) :
    ∃ r' : Recency, genericPop args fromFront r.toStore =
        .ok ((respArrayOf ((if fromFront then l else l.reverse).take n), true), r'.toStore) ∧
      (∀ u, r'.find (arg args 1) = some u →
        u.data = .list (if fromFront then l.drop n else (l.reverse.drop n).reverse)) ∧
      (r.account.usage ≤ lruMaxMemory → (r'.find (arg args 1)).isSome) := by
  have hle : (n : ℤ) ≤ (if fromFront then l else l.reverse).length := by
    have hint := toInt_le l.length
    have hmin : min count (toInt l.length) ≤ toInt l.length := min_le_right _ _
    split_ifs
    · omega
    · rw [List.length_reverse]
      omega
  obtain ⟨taken, htaken⟩ : ∃ taken, (if fromFront then l else l.reverse).take n = taken := ⟨_, rfl⟩
  have hloop : popLoop (if fromFront then l else l.reverse) (min count (toInt l.length)) =
      .ok (taken, (if fromFront then l else l.reverse).drop n) := by
    rw [popLoop_eq, hn, if_pos ⟨Int.natCast_nonneg n, hle⟩, Int.toNat_natCast, htaken]
  have hlen : taken.length = n := by
    rw [← htaken, List.length_take_of_le]
    omega
  obtain ⟨r', hr', hval, hkeep⟩ := perform_pop hv { v with
    data := .list (if fromFront then (if fromFront then l else l.reverse).drop n
      else ((if fromFront then l else l.reverse).drop n).reverse)
    memoryUsage := subSize v.memoryUsage (toSize (taken.map listElementUsage).sum) }
    (toSize (taken.map listElementUsage).sum)
    (decide (v.memoryUsage < toSize (taken.map listElementUsage).sum))
  refine ⟨r', ?_, fun u hu => ?_, fun hle => ?_⟩
  · rw [genericPop_toStore, hv, popOutcome_list hsize hcount hl, hloop]
    dsimp only
    rw [Recency.apply, hr', hn, htaken, respArrayOf, hlen]
    rfl
  · rw [hval u hu]
    cases fromFront <;> rfl
  · rw [hkeep hle]
    rfl

/-- A negative count, or a size that is negative as an `int`. -/
theorem genericPop_error (hsize : args.length = 3) (hcount : stoi (arg args 2) = .ok count)
    (hv : r.find (arg args 1) = some v) (hl : v.data = .list l) (fromFront : Bool)
    (hn : min count (toInt l.length) < 0) :
    genericPop args fromFront r.toStore = .error .emptyDeque := by
  have hloop : popLoop (if fromFront then l else l.reverse) (min count (toInt l.length)) =
      .error .emptyDeque := by
    rw [popLoop_eq, if_neg fun hc => by omega]
  rw [genericPop_toStore, hv, popOutcome_list hsize hcount hl, hloop]
  rfl

/-- A pop does what it is asked for where the count is not negative and the size of the list, or
the count, is one that an `int` comparison gets right. -/
theorem pops_iff (hsize : args.length = 3) (hcount : stoi (arg args 2) = .ok count)
    (hv : r.find (arg args 1) = some v) (hl : v.data = .list l) (fromFront : Bool) :
    Pops args fromFront r.toStore l count ↔
      0 ≤ count ∧ (l.length < 2 ^ 31 ∨ count ≤ toInt l.length) := by
  have hint : l.length < 2 ^ 31 → toInt l.length = l.length := fun h => toInt_natCast h
  have hle := toInt_le l.length
  have hlt := toInt_lt l.length
  rcases lt_or_ge (min count (toInt l.length)) 0 with hneg | hpos
  · refine iff_of_false ?_ fun hc => by omega
    rintro ⟨s', hrun, -, -⟩
    rw [genericPop_error hsize hcount hv hl fromFront hneg] at hrun
    cases hrun
  · obtain ⟨n, hn⟩ := Int.eq_ofNat_of_zero_le hpos
    obtain ⟨r', hr', hval, hkeep⟩ := genericPop_ok hsize hcount hv hl fromFront hn
    have hm : (min (max count 0) (l.length : ℤ)).toNat = n ↔
        0 ≤ count ∧ (l.length < 2 ^ 31 ∨ count ≤ toInt l.length) := by omega
    rw [← hm]
    constructor
    · rintro ⟨s', hrun, -, -⟩
      rw [hr'] at hrun
      have hlen := respArrayOf_length_inj (congrArg (fun x => x.1.1) (Except.ok.inj hrun))
      cases fromFront <;> simp at hlen <;> omega
    · rintro rfl
      refine ⟨r'.toStore, ?_, fun u hu => ?_, fun husage => ?_⟩
      · rw [hr']
        cases fromFront <;> rfl
      · rw [value_toStore] at hu
        rw [hval u hu, List.reverse_drop]
        cases fromFront <;> simp
      · rw [value_toStore]
        exact hkeep husage

/-- Two of three elements. -/
theorem pops_two : Pops [ascii "RPOP", [107], ascii "2"] false
    (Recency.toStore ⟨⟨[([107], { data := .list [[97], [98], [99]], memoryUsage := 165 })],
      List.nodup_singleton _⟩, { usage := 350 }⟩) [[97], [98], [99]] 2 :=
  (pops_iff rfl (by decide) rfl rfl false).2 (by decide)

/-- A negative count takes the elements of an empty list. -/
theorem not_pops_negative : stoi (ascii "-1") = .ok (-1) ∧ ¬ Pops [ascii "LPOP", [107], ascii "-1"]
    true (Recency.toStore ⟨⟨[([107], { data := .list [[97]], memoryUsage := 55 })],
      List.nodup_singleton _⟩, { usage := 240 }⟩) [[97]] (-1) := by
  refine ⟨by decide, ?_⟩
  rintro ⟨s', hrun, -, -⟩
  have hcount : stoi (arg [ascii "LPOP", [107], ascii "-1"] 2) = .ok (-1) := by decide
  rw [genericPop_error rfl hcount rfl rfl true (by decide)] at hrun
  cases hrun

end Pops

/-! ## Ranges -/

section Ranges

variable {args : List Bytes} {r : Recency} {v : DrutaValue} {l : List Bytes} {li ri : ℤ}

theorem fitsInt_of_stoi {s : Bytes} {n : ℤ} (h : stoi s = .ok n) : FitsInt n := by
  unfold stoi strto at h
  split at h
  · cases h
  · split_ifs at h with hn
    obtain rfl := Except.ok.inj h
    exact hn

theorem map_getD_range {first n : ℕ} (h : first + n ≤ l.length) :
    (List.range n).map (fun i => l.getD (i + first) []) = (l.take (first + n)).drop first := by
  refine List.ext_getElem ?_ fun i h₁ h₂ => ?_
  · rw [List.length_map, List.length_range, List.length_drop, List.length_take_of_le h]
    omega
  · rw [List.length_map, List.length_range] at h₁
    have hi : i + first < l.length := by omega
    rw [List.getElem_map, List.getElem_range, List.getElem_drop, List.getElem_take,
      List.getD_eq_getElem?_getD, List.getElem?_eq_getElem hi, Option.getD_some]
    congr 1
    omega

/-- The bounds, without their `int` operations. -/
theorem lrangeBounds_eq (hlen : l.length < 2 ^ 31) (hli : FitsInt li) (hri : FitsInt ri) :
    lrangeBounds (toInt l.length) li ri =
      (max 0 (positionOf l.length li), min ((l.length : ℤ) - 1) (positionOf l.length ri)) := by
  obtain ⟨hli₁, hli₂⟩ := hli
  obtain ⟨hri₁, hri₂⟩ := hri
  have hposition : ∀ i : ℤ, -2 ^ 31 ≤ i → (if i < 0 then toInt (i + l.length) else i) =
      positionOf l.length i := by
    intro i hi
    unfold positionOf
    split_ifs
    · exact toInt_eq (by omega) (by omega)
    · rfl
  have hlast : toInt ((l.length : ℤ) - 1) = l.length - 1 := toInt_eq (by omega) (by omega)
  unfold lrangeBounds
  rw [toInt_natCast hlen, hposition li hli₁, hposition ri hri₁, hlast, max_comm, min_comm]

theorem lrangeReply_eq (hlen : l.length < 2 ^ 31) (hli : FitsInt li) (hri : FitsInt ri) :
    lrangeReply l li ri = respArrayOf (elementsBetween l (max 0 (positionOf l.length li))
      (min ((l.length : ℤ) - 1) (positionOf l.length ri))) := by
  unfold lrangeReply
  dsimp only
  rw [lrangeBounds_eq hlen hli hri, toInt_natCast hlen]
  generalize hfirst : max 0 (positionOf l.length li) = first
  generalize hlast : min ((l.length : ℤ) - 1) (positionOf l.length ri) = last
  unfold elementsBetween
  split_ifs with h
  · have hnil : (l.take (last + 1).toNat).drop first.toNat = [] := by
      refine List.drop_eq_nil_of_le ((List.length_take_le _ _).trans ?_)
      omega
    rw [hnil]
    decide
  · obtain ⟨f, rfl⟩ : ∃ f : ℕ, first = f := ⟨first.toNat, by omega⟩
    obtain ⟨n, hn⟩ : ∃ n : ℕ, last - f + 1 = n := ⟨(last - f + 1).toNat, by omega⟩
    have hend : (last + 1).toNat = f + n := by omega
    have hle : f + n ≤ l.length := by omega
    have hmap := map_getD_range hle
    have hlength : ((l.take (f + n)).drop f).length = n := by
      rw [← hmap, List.length_map, List.length_range]
    rw [hn, hend, Int.toNat_natCast, Int.toNat_natCast, respArrayOf, hlength, ← hmap,
      List.flatMap_map]

/-- `LRANGE` answers with the elements from the one position to the other, no operation on its
indices overflows, and it reads no position that the list does not have. -/
theorem lrange_reply (hv : r.find (arg args 1) = some v) (hl : v.data = .list l)
    (hlen : l.length < 2 ^ 31) (hli : stoi (arg args 2) = .ok li)
    (hri : stoi (arg args 3) = .ok ri) :
    let size : ℤ := l.length
    let first := max 0 (positionOf size li)
    let last := min (size - 1) (positionOf size ri)
    (∃ s', commandLrange args r.toStore =
        .ok ((respArrayOf (elementsBetween l first last), false), s') ∧
      ∀ key, s'.value key = r.toStore.value key) ∧
    (li < 0 → FitsInt (li + size)) ∧ (ri < 0 → FitsInt (ri + size)) ∧ FitsInt (size - 1) ∧
    (first ≤ last → FitsInt (last - first) ∧ FitsInt (last - first + 1) ∧
      ∀ i, 0 ≤ i → i ≤ last - first →
        FitsInt (i + first) ∧ 0 ≤ i + first ∧ i + first < size) := by
  intro size first last
  have hsize : 0 ≤ size ∧ size < 2 ^ 31 := by omega
  obtain ⟨hli₁, hli₂⟩ := fitsInt_of_stoi hli
  obtain ⟨hri₁, hri₂⟩ := fitsInt_of_stoi hri
  have hfirst : 0 ≤ first := le_max_left _ _
  have hlast : last ≤ size - 1 := min_le_left _ _
  refine ⟨⟨Recency.toStore ⟨r.nodes.push (arg args 1) v, r.account⟩, ?_, fun key => ?_⟩,
    fun hneg => ⟨by omega, by omega⟩, fun hneg => ⟨by omega, by omega⟩, ⟨by omega, by omega⟩,
    fun hle => ⟨⟨by omega, by omega⟩, ⟨by omega, by omega⟩,
      fun i hi hi' => ⟨⟨by omega, by omega⟩, by omega, by omega⟩⟩⟩
  · have hout : lrangeOutcome args (some v) =
        { reply := lrangeReply l li ri, effect := .touch v } := by
      simp only [lrangeOutcome, hl, hli, hri]
    rw [commandLrange_toStore, hv, hout, Recency.apply, Recency.perform_touch r hv,
      Recency.touch_eq r hv, lrangeReply_eq hlen ⟨hli₁, hli₂⟩ ⟨hri₁, hri₂⟩]
    rfl
  · rw [value_toStore, value_toStore]
    change (r.nodes.push (arg args 1) v).find key = r.nodes.find key
    rw [RecencyList.find_push]
    split_ifs with hk
    · rw [hk]
      exact hv.symm
    · rfl

/-- From the second last element on. -/
theorem lrange_last_two : elementsBetween [[97], [98], [99]] 1 2 = [[98], [99]] ∧
    ∃ s', commandLrange [ascii "LRANGE", [107], ascii "-2", ascii "5"]
      (Recency.toStore ⟨⟨[([107], { data := .list [[97], [98], [99]], memoryUsage := 165 })],
        List.nodup_singleton _⟩, { usage := 350 }⟩) =
      .ok ((respArrayOf [[98], [99]], false), s') := by
  have hli : stoi (arg [ascii "LRANGE", [107], ascii "-2", ascii "5"] 2) = .ok (-2) := by decide
  have hri : stoi (arg [ascii "LRANGE", [107], ascii "-2", ascii "5"] 3) = .ok 5 := by decide
  obtain ⟨⟨s', hs', -⟩, -⟩ := @lrange_reply _ ⟨⟨[([107], ⟨.list [[97], [98], [99]], 0, 165⟩)],
    List.nodup_singleton _⟩, { usage := 350 }⟩ _ _ _ _ rfl rfl (by decide) hli hri
  exact ⟨by decide, s', hs'⟩

end Ranges

end DrutaDB
