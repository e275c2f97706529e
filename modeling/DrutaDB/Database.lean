import DrutaDB.Lib.Run
import Mathlib.Data.Finmap

/-!
# The database

What the server is for: keys that hold strings, lists, finite maps and finite sets, and requests
that are answered from them.  Nothing is told of how a value is stored, in which order keys were
used, or how much memory they take; keys may be lost at any time.
-/

namespace DrutaDB

/-- What a key holds.  A string whose deadline is zero has none. -/
inductive Value (β : Type*)
  | string (s : β) (deadline : ℤ)
  | list (l : List β)
  | hash (h : Finmap fun _ : β => β)
  | set (s : Finset β)

abbrev Database (β : Type*) := β → Option (Value β)

/-- What is asked of one key. -/
inductive Query (β : Type*)
  | set (s : β) (deadline : ℤ)
  | get (now : ℤ)
  | push (atFront : Bool) (elements : List β)
  /-- The elements from one index to another, if the indices are numbers. -/
  | range (indices : Option (ℤ × ℤ))
  | pop (fromFront : Bool) (count : ℕ)
  | llen
  | hset (fields : List (β × β))
  | hget (field : β)
  | hgetall
  | hdel (fields : List β)
  | hlen
  | sadd (members : Finset β)
  | sdel (members : Finset β)
  | sismember (member : β)
  | smismember (members : List β)
  | scard
  | smembers

inductive Request (β : Type*)
  | query (key : β) (q : Query β)
  | del (keys : Finset β)
  | sinter (first : β) (keys : List β)
  | sunion (keys : Finset β)
  | sdiff (first : β) (keys : Finset β)
  | flush
  /-- It makes no sense, whatever the keys hold. -/
  | refused (reason : β)

inductive Answer (β : Type*)
  | ok
  | nil
  | count (n : ℕ)
  | bulk (s : β)
  | bulks (l : List β)
  | flags (l : List Bool)
  | fields (h : Finmap fun _ : β => β)
  | members (s : Finset β)
  | wrongType
  | noIndices
  | noKey
  | flushed
  | refused (reason : β)

section Queries

variable {β : Type*} [DecidableEq β]

/-- The fields get their values, one after the other. -/
def putAll (h : Finmap fun _ : β => β) (fields : List (β × β)) : Finmap fun _ : β => β :=
  fields.foldl (fun h p => h.insert p.1 p.2) h

def removeAll (h : Finmap fun _ : β => β) (fields : List β) : Finmap fun _ : β => β :=
  fields.foldl (fun h f => h.erase f) h

/-- The elements from one index to another; a negative one counts from the end. -/
def slice (l : List β) (i j : ℤ) : List β :=
  let position := fun i : ℤ => if i < 0 then i + l.length else i
  (l.take (position j + 1).toNat).drop (position i).toNat

/-- What becomes of the value. -/
def Query.result : Query β → Option (Value β) → Option (Value β)
  | .set s deadline, _ => some (.string s deadline)
  | .get now, some (.string s deadline) =>
    if deadline ≠ 0 ∧ deadline < now then none else some (.string s deadline)
  | .push atFront l', none => some (.list (if atFront then l'.reverse else l'))
  | .push atFront l', some (.list l) => some (.list (if atFront then l'.reverse ++ l else l ++ l'))
  | .pop fromFront n, some (.list l) =>
    some (.list (if fromFront then l.drop n else l.take (l.length - n)))
  | .hset fields, none => some (.hash (putAll ∅ fields))
  | .hset fields, some (.hash h) => some (.hash (putAll h fields))
  | .hdel fields, some (.hash h) => some (.hash (removeAll h fields))
  | .sadd t, none => some (.set t)
  | .sadd t, some (.set s) => some (.set (s ∪ t))
  | .sdel t, some (.set s) => some (.set (s \ t))
  | _, o => o

def Query.answer : Query β → Option (Value β) → Answer β
  | .set _ _, _ => .ok
  | .get _, none => .nil
  | .get now, some (.string s deadline) =>
    if deadline ≠ 0 ∧ deadline < now then .nil else .bulk s
  | .push _ l', none => .count l'.length
  | .push _ l', some (.list l) => .count (l.length + l'.length)
  | .range _, none => .bulks []
  | .range (some (i, j)), some (.list l) => .bulks (slice l i j)
  | .range none, some (.list _) => .noIndices
  | .pop _ _, none => .bulks []
  | .pop fromFront n, some (.list l) => .bulks (if fromFront then l.take n else l.reverse.take n)
  | .llen, none => .count 0
  | .llen, some (.list l) => .count l.length
  | .hset fields, none => .count (fields.map Prod.fst).toFinset.card
  | .hset fields, some (.hash h) => .count ((fields.map Prod.fst).toFinset \ h.keys).card
  | .hget _, none => .nil
  | .hget field, some (.hash h) => (h.lookup field).elim .nil .bulk
  | .hgetall, none => .bulks []
  | .hgetall, some (.hash h) => .fields h
  | .hdel _, none => .count 0
  | .hdel fields, some (.hash h) => .count (fields.toFinset ∩ h.keys).card
  | .hlen, none => .count 0
  | .hlen, some (.hash h) => .count h.keys.card
  | .sadd t, none => .count t.card
  | .sadd t, some (.set s) => .count (t \ s).card
  | .sdel _, none => .noKey
  | .sdel t, some (.set s) => .count (t ∩ s).card
  | .sismember _, none => .count 0
  | .sismember a, some (.set s) => .count (if a ∈ s then 1 else 0)
  | .smismember _, none => .count 0
  | .smismember l, some (.set s) => .flags (l.map fun a => decide (a ∈ s))
  | .scard, none => .count 0
  | .scard, some (.set s) => .count s.card
  | .smembers, none => .bulks []
  | .smembers, some (.set s) => .members s
  | _, some _ => .wrongType

end Queries

namespace Database

variable {β : Type*} [DecidableEq β]

def empty : Database β := fun _ => none

def without (d : Database β) (keys : Finset β) : Database β := fun key =>
  if key ∈ keys then none else d key

/-- The members a key has; none, if it holds no set. -/
def membersAt (d : Database β) (key : β) : Finset β :=
  match d key with
  | some (.set s) => s
  | _ => ∅

/-- What the set has in common with the keys.  It is looked for until nothing is left, and the keys
after that may hold anything. -/
def inter (d : Database β) : List β → Finset β → Answer β
  | [], s => .members s
  | key :: keys, s =>
    match d key with
    | none => .members ∅
    | some (.set t) => if s ∩ t = ∅ then .members ∅ else inter d keys (s ∩ t)
    | some _ => .wrongType

end Database

section Requests

variable {β : Type*} [DecidableEq β]

def Request.result : Request β → Database β → Database β
  | .query key q, d => Function.update d key (q.result (d key))
  | .del keys, d => d.without keys
  | .flush, _ => .empty
  | _, d => d

def Request.answer : Request β → Database β → Answer β
  | .query key q, d => q.answer (d key)
  | .del keys, d => .count (keys.filter fun key => (d key).isSome).card
  | .sinter first keys, d =>
    match d first with
    | none => d.inter keys ∅
    | some (.set s) => d.inter keys s
    | some _ => .wrongType
  | .sunion keys, d => .members (keys.biUnion d.membersAt)
  /- Of the other keys, those that hold no set are left out. -/
  | .sdiff first keys, d =>
    match d first with
    | none => .members ∅
    | some (.set s) => .members (s \ keys.biUnion d.membersAt)
    | some _ => .wrongType
  | .flush, _ => .flushed
  | .refused reason, _ => .refused reason

/-- What goes on: a client asks and is sent an answer, or keys are lost. -/
inductive Label (β : Type*)
  | asked (fd : ℤ) (q : Request β) (sent : β)
  | lost (keys : Finset β)

/-- The database, where an answer may be sent in some forms. -/
inductive Database.Step (Sent : Answer β → β → Prop) : Database β → Label β → Database β → Prop
  | asked {d : Database β} {fd : ℤ} {q : Request β} {sent : β} (h : Sent (q.answer d) sent) :
    Step Sent d (.asked fd q sent) (q.result d)
  | lost (d : Database β) (keys : Finset β) : Step Sent d (.lost keys) (d.without keys)

end Requests

/-! ## What is read back -/

section Reads

variable {β : Type*} [DecidableEq β] {Sent : Answer β → β → Prop} {d d' : Database β} {key s : β}
  {now deadline : ℤ}

/-- The query puts nothing where nothing is, and takes no string that is there up to the time. -/
def Query.Spares (now : ℤ) : Query β → Prop
  | .get now' => now' ≤ now
  | .set _ _ | .push _ _ | .hset _ | .sadd _ => False
  | _ => True

/-- Nothing is put at the key, and no string is lost there up to the time. -/
def Label.Spares (key : β) (now : ℤ) : Label β → Prop
  | .asked _ (.query k q) _ => k = key → q.Spares now
  | .asked _ (.del keys) _ => key ∉ keys
  | .asked _ .flush _ => False
  | .asked _ _ _ => True
  | .lost keys => key ∉ keys

/-- The string is there, or was found to be over. -/
def HoldsString (s : β) (deadline now : ℤ) (o : Option (Value β)) : Prop :=
  o = some (.string s deadline) ∨ o = none ∧ deadline ≠ 0 ∧ deadline < now

theorem Query.Spares.holds {q : Query β} {o : Option (Value β)} (hq : q.Spares now)
    (h : HoldsString s deadline now o) : HoldsString s deadline now (q.result o) := by
  rcases h with rfl | ⟨rfl, hover⟩
  · cases q with
    | get now' =>
      change HoldsString s deadline now
        (if deadline ≠ 0 ∧ deadline < now' then none else some (.string s deadline))
      split_ifs with hdue
      · exact .inr ⟨rfl, hdue.1, hdue.2.trans_le hq⟩
      · exact .inl rfl
    | set | push | hset | sadd => exact hq.elim
    | _ => exact .inl rfl
  · cases q with
    | set | push | hset | sadd => exact hq.elim
    | _ => exact .inr ⟨rfl, hover⟩

theorem Label.Spares.holds {l : Label β} (hl : l.Spares key now)
    (h : HoldsString s deadline now (d key)) (hstep : Database.Step Sent d l d') :
    HoldsString s deadline now (d' key) := by
  cases hstep with
  | @asked fd q sent hsent =>
    cases q with
    | query k q =>
      rw [Request.result, Function.update_apply]
      split_ifs with hk
      · subst hk
        exact (hl rfl : q.Spares now).holds h
      · exact h
    | del keys =>
      rw [Request.result, Database.without, if_neg hl]
      exact h
    | flush => exact hl.elim
    | _ => exact h
  | lost keys =>
    rw [Database.without, if_neg hl]
    exact h

/-- A string that is set is what is read, until its deadline, if nothing else is put there. -/
theorem Database.get_of_set {fd fd' : ℤ} {sent sent' : β} {mid post : List (Label β)}
    (h : Run.Path (Database.Step Sent) d (.asked fd (.query key (.set s deadline)) sent ::
      (mid ++ .asked fd' (.query key (.get now)) sent' :: post)) d')
    (hmid : ∀ l ∈ mid, l.Spares key now) :
    Sent (if deadline ≠ 0 ∧ deadline < now then .nil else .bulk s) sent' := by
  cases h with
  | cons hset hpath =>
    obtain ⟨e, hmids, hrest⟩ := hpath.split
    cases hset with
    | asked hsent =>
      have hset : HoldsString s deadline now
          ((Request.query key (.set s deadline)).result d key) := by
        rw [Request.result, Function.update_self]
        exact .inl rfl
      have hholds : HoldsString s deadline now (e key) :=
        hmids.invariant (P := fun d => HoldsString s deadline now (d key))
          (fun l hl _ _ hc hstep => (hmid l hl).holds hc hstep) hset
      cases hrest with
      | cons hget _ =>
        cases hget with
        | asked hsent' =>
          rw [Request.answer] at hsent'
          rcases hholds with hkey | ⟨hkey, hover⟩
          · rw [hkey] at hsent'
            exact hsent'
          · rw [hkey] at hsent'
            rw [if_pos hover]
            exact hsent'

end Reads

end DrutaDB
