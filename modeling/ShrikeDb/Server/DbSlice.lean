import ShrikeDb.Core.CompactObj
import ShrikeDb.Lib.Listing

/-! The databases of a shard (`db_table.rs`, `db_slice.rs`), with every
`DashTable` read as a finite map. A table is iterated in an arbitrary order `ω`. -/

namespace ShrikeDb

abbrev DbIndex := Fin 16

instance neZeroDbIndex : NeZero 16 := inferInstance

structure DbTable (F : Type) where
  prime : Finmap fun _ : Bytes => PrimeValue F
  expire : Finmap fun _ : Bytes => UInt64

structure FindResult (F : Type) where
  value : PrimeValue F
  hasExpire : Bool

inductive TtlResult
  | keyNotFound
  | noExpiry
  | expires (ms : UInt64)

structure DbSlice (F : Type) where
  dbs : DbIndex → DbTable F
  nowMs : UInt64

/-! ## Glob patterns -/

/-- From inside a class: the index of its end and whether it lists `c`. -/
def globClass (pattern : Bytes) (c : UInt8) : Nat → Nat → Bool → Nat × Bool
  | 0, pi, matched => (pi, matched)
  | fuel + 1, pi, matched =>
    match pattern[pi]? with
    | none => (pi, matched)
    | some p =>
      if p = 93 then (pi, matched)
      else
        match pattern[pi + 1]?, pattern[pi + 2]? with
        | some 45, some q => globClass pattern c fuel (pi + 3) (matched || (p ≤ c && c ≤ q))
        | _, _ => globClass pattern c fuel (pi + 1) (matched || c = p)

/-- The loop of `glob_match_str`; `star` holds `star_pi` and `star_ii` once a `*` was met. -/
def globLoop (pattern input : Bytes) : Nat → Nat → Nat → Option (Nat × Nat) → Option Bool
  | 0, _, _, _ => none
  | fuel + 1, pi, ii, star =>
    match input[ii]? with
    | none => some ((pattern.drop pi).all (· = 42))
    | some c =>
      let backtrack :=
        match star with
        | some (starPi, starIi) =>
          globLoop pattern input fuel starPi (starIi + 1) (some (starPi, starIi + 1))
        | none => some false
      match pattern[pi]? with
      | none => backtrack
      | some p =>
        if p = 63 ∨ p = c then globLoop pattern input fuel (pi + 1) (ii + 1) star
        else if p = 42 then globLoop pattern input fuel (pi + 1) ii (some (pi, ii))
        else if p = 91 then
          let negate : Bool := pattern[pi + 1]? = some 94
          let stop := globClass pattern c pattern.length (if negate then pi + 2 else pi + 1) false
          if stop.2 = negate then backtrack
          else
            globLoop pattern input fuel (if stop.1 < pattern.length then stop.1 + 1 else stop.1)
              (ii + 1) star
        else backtrack

def globMatchStr (pattern input : Bytes) : Bool :=
  (globLoop pattern input ((input.length + 1) * (input.length + pattern.length + 2) + 1) 0 0
    none).getD false

def globMatch (pattern input : Bytes) : Bool :=
  match fromUtf8 input with
  | some input => globMatchStr pattern input
  | none => false

example : globMatch (ascii "h[^a-d]l*o") (ascii "hello world o") = true := by decide +kernel

/-! ## One database -/

namespace DbTable

variable {F : Type}

def new : DbTable F := ⟨∅, ∅⟩

def clear (_db : DbTable F) : DbTable F := new

/-- Remove a key from both tables. -/
def forget (db : DbTable F) (key : Bytes) : DbTable F := ⟨db.prime.erase key, db.expire.erase key⟩

def lapsed (db : DbTable F) (now : UInt64) (key : Bytes) : Bool :=
  match db.expire.lookup key with
  | some deadline => deadline ≤ now
  | none => false

/-- Whether the key was expired and has been removed. -/
def checkAndExpire (db : DbTable F) (key : Bytes) (now : UInt64) : Bool × DbTable F :=
  if db.lapsed now key then (true, db.forget key) else (false, db)

end DbTable

/-! ## The databases -/

namespace DbSlice

variable {F : Type}

def new : DbSlice F := ⟨fun _ => DbTable.new, 0⟩

def updateTime (s : DbSlice F) (now : UInt64) : DbSlice F := { s with nowMs := now }

def setDb (s : DbSlice F) (i : DbIndex) (db : DbTable F) : DbSlice F :=
  { s with dbs := Function.update s.dbs i db }

def dbSize (s : DbSlice F) (i : DbIndex) : Nat := (s.dbs i).prime.keys.card

def find (s : DbSlice F) (i : DbIndex) (key : Bytes) : Option (FindResult F) × DbSlice F :=
  match (s.dbs i).checkAndExpire key s.nowMs with
  | (true, db) => (none, s.setDb i db)
  | (false, db) =>
    ((db.prime.lookup key).map fun value => ⟨value, (db.expire.lookup key).isSome⟩, s.setDb i db)

/-- The caller writes through the reference with `store`. -/
def findMut (s : DbSlice F) (i : DbIndex) (key : Bytes) : Option (FindResult F) × DbSlice F :=
  match (s.dbs i).checkAndExpire key s.nowMs with
  | (true, db) => (none, s.setDb i db)
  | (false, db) =>
    let hasExpire := (db.expire.lookup key).isSome
    ((db.prime.lookup key).map fun value => ⟨value, hasExpire⟩, s.setDb i db)

/-- A write through the reference `find_mut` returned. -/
def store (s : DbSlice F) (i : DbIndex) (key : Bytes) (value : PrimeValue F) : DbSlice F :=
  let db := s.dbs i
  if (db.prime.lookup key).isSome then s.setDb i { db with prime := db.prime.insert key value }
    else s

def addOrUpdate (s : DbSlice F) (i : DbIndex) (key : Bytes) (value : PrimeValue F) :
    Bool × DbSlice F :=
  let db := s.dbs i
  ((db.prime.lookup key).isNone, s.setDb i { db with prime := db.prime.insert key value })

def addIfAbsent (s : DbSlice F) (i : DbIndex) (key : Bytes) (value : PrimeValue F) :
    Bool × DbSlice F :=
  match (s.dbs i).checkAndExpire key s.nowMs with
  | (true, db) => (true, s.setDb i { db with prime := db.prime.insert key value })
  | (false, db) =>
    if (db.prime.lookup key).isSome then (false, s.setDb i db)
    else (true, s.setDb i { db with prime := db.prime.insert key value })

def del (s : DbSlice F) (i : DbIndex) (key : Bytes) : Bool × DbSlice F :=
  (((s.dbs i).prime.lookup key).isSome, s.setDb i ((s.dbs i).forget key))

def addExpire (s : DbSlice F) (i : DbIndex) (key : Bytes) (deadlineMs : UInt64) : DbSlice F :=
  let db := s.dbs i
  if (db.prime.lookup key).isSome then
    s.setDb i { db with expire := db.expire.insert key deadlineMs }
  else s

def removeExpire (s : DbSlice F) (i : DbIndex) (key : Bytes) : Bool × DbSlice F :=
  let db := s.dbs i
  ((db.expire.lookup key).isSome, s.setDb i { db with expire := db.expire.erase key })

def ttlMs (s : DbSlice F) (i : DbIndex) (key : Bytes) : TtlResult × DbSlice F :=
  let db := s.dbs i
  if (db.prime.lookup key).isNone then (.keyNotFound, s)
  else
    match db.expire.lookup key with
    | some deadline =>
      if deadline ≤ s.nowMs then (.keyNotFound, s.setDb i (db.forget key))
      else (.expires (deadline - s.nowMs), s)
    | none => (.noExpiry, s)

def rename (s : DbSlice F) (i : DbIndex) (source dest : Bytes) : Bool × DbSlice F :=
  let db := s.dbs i
  let rest := db.forget source
  match db.prime.lookup source with
  | some value =>
    let expire := rest.expire.erase dest
    (true, s.setDb i
      { prime := rest.prime.insert dest value
        expire :=
          match db.expire.lookup source with
          | some deadline => expire.insert dest deadline
          | none => expire })
  | none => (false, s.setDb i rest)

def flushDb (s : DbSlice F) (i : DbIndex) : DbSlice F := s.setDb i (s.dbs i).clear

section Iterate

variable (ω : Listing Bytes)

/-- Keys and next cursor. The end of the page is computed with wrapping addition, and
`none` is the panic of a slice that would end before it starts. -/
def scan (s : DbSlice F) (i : DbIndex) (cursor count : UInt64) (pattern : Option Bytes) :
    Option (List Bytes × UInt64) :=
  let entries := ω.list (s.dbs i).prime.keys
  let start := cursor.toNat
  let total := entries.length
  if total ≤ start then some ([], 0)
  else
    let stop := min (cursor + count).toNat total
    if stop < start then none
    else
      let page := (entries.drop start).take (stop - start)
      let keys :=
        match pattern with
        | some pattern => page.filter (globMatch pattern)
        | none => page
      some (keys, if total ≤ stop then 0 else UInt64.ofNat stop)

def keys (s : DbSlice F) (i : DbIndex) (pattern : Bytes) : List Bytes × DbSlice F :=
  let db := s.dbs i
  let entries := ω.list db.prime.keys
  let expired := entries.filter (db.lapsed s.nowMs)
  (entries.filter fun k => !db.lapsed s.nowMs k && globMatch pattern k,
    s.setDb i (expired.foldl DbTable.forget db))

/-- `random_entry` of the table is the first one in iteration order. -/
def randomEntry (s : DbSlice F) (i : DbIndex) : Option Bytes :=
  (ω.list (s.dbs i).prime.keys).head?

def expireSweep (s : DbSlice F) (i : DbIndex) (count : Nat) : Nat × DbSlice F :=
  let db := s.dbs i
  let expired := ((ω.list db.expire.keys).take count).filter (db.lapsed s.nowMs)
  (expired.length, s.setDb i (expired.foldl DbTable.forget db))

end Iterate

end DbSlice

end ShrikeDb
