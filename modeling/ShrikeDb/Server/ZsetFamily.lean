import ShrikeDb.Server.Command

/-! The handlers of `zset_family.rs`. The ordered map of a sorted set is the list of
its entries, searched from the left through `SortedSetEntry::cmp`. -/

namespace ShrikeDb.ZsetFamily

open Program Command ReplyBuilder

variable {F : Type} [F64 F]

abbrev Members (F : Type) := Finmap fun _ : Bytes => F

abbrev Scores (F : Type) := List (SortedSetEntry F)

def scoresInsert (e : SortedSetEntry F) : Scores F → Scores F
  | [] => [e]
  | k :: ks =>
    match e.cmp k with
    | .gt => k :: scoresInsert e ks
    | .eq => k :: ks
    | .lt => e :: k :: ks

def scoresRemove (e : SortedSetEntry F) : Scores F → Scores F
  | [] => []
  | k :: ks =>
    match e.cmp k with
    | .gt => k :: scoresRemove e ks
    | .eq => ks
    | .lt => k :: ks

/-- Whether the member is new, and the two views afterwards. -/
def zsetAdd (members : Members F) (scores : Scores F) (member : Bytes) (score : F) :
    Bool × Members F × Scores F :=
  match members.lookup member with
  | some oldScore =>
    (false, members.insert member score,
      scoresInsert ⟨score, member⟩ (scoresRemove ⟨oldScore, member⟩ scores))
  | none => (true, members.insert member score, scoresInsert ⟨score, member⟩ scores)

def zsetRemove (members : Members F) (scores : Scores F) (member : Bytes) :
    Bool × Members F × Scores F :=
  match members.lookup member with
  | some score => (true, members.erase member, scoresRemove ⟨score, member⟩ scores)
  | none => (false, members, scores)

/-! ## Adding and removing -/

/-- The pairs whose score parses; unwrapping a member that is no bulk string is a panic. -/
def scorePairs : List RespExpr → Option (List (F × Bytes))
  | score :: member :: rest =>
    match score.asStr.bind F64.parse with
    | some s => do
      let m ← member.asBytes
      let pairs ← scorePairs rest
      pure ((s, m) :: pairs)
    | none => scorePairs rest
  | _ => some []

def addAll (pairs : List (F × Bytes)) (members : Members F) (scores : Scores F) :
    Int64 × Members F × Scores F :=
  pairs.foldl (fun (added, members, scores) (score, member) =>
    let (new, members, scores) := zsetAdd members scores member score
    (if new then added + 1 else added, members, scores)) (0, members, scores)

def removeAll (mems : List Bytes) (members : Members F) (scores : Scores F) :
    Int64 × Members F × Scores F :=
  mems.foldl (fun (removed, members, scores) member =>
    let (found, members, scores) := zsetRemove members scores member
    (if found then removed + 1 else removed, members, scores)) (0, members, scores)

variable (ctx : CommandContext)

def cmdZadd : Command F Bytes := do
  let key ← arg ctx 1
  if (ctx.args.length - 2) % 2 ≠ 0 then
    pure (sendErr (ascii "wrong number of arguments for 'zadd' command"))
  else
    let pairs : List (F × Bytes) ← ofOption (scorePairs (ctx.args.drop 2))
    if pairs.length ≠ (ctx.args.length - 2) / 2 then pure notAFloat
    else
      edit zsetOf ctx.dbIndex key
        (fun (members, scores) =>
          let (added, members, scores) := addAll pairs members scores
          .put (.zset members scores) false (sendInteger added))
        (let (added, members, scores) := addAll pairs ∅ []
         create ctx.dbIndex key (.zset members scores) (sendInteger added))

def cmdZrem : Command F Bytes := do
  let key ← arg ctx 1
  let mems ← args ctx 2
  edit zsetOf ctx.dbIndex key
    (fun (members, scores) =>
      let (removed, members, scores) := removeAll mems members scores
      .put (.zset members scores) (members.keys = ∅) (sendInteger removed))
    (pure (sendInteger 0))

def cmdZincrby : Command F Bytes := do
  let key ← arg ctx 1
  match (ctx.argStr 2).bind F64.parse with
  | none => pure notAFloat
  | some delta =>
    let member ← arg ctx 3
    edit zsetOf ctx.dbIndex key
      (fun (members, scores) =>
        let newScore : F := F64.add ((members.lookup member).getD F64.zero) delta
        let (_, members, scores) := zsetAdd members scores member newScore
        .put (.zset members scores) false (sendBulkString (F64.display newScore)))
      (let (_, members, scores) := zsetAdd ∅ [] member delta
       create ctx.dbIndex key (.zset members scores) (sendBulkString (F64.display delta)))

/-! ## Scores and ranks -/

def scoreReply (score : Option F) : Bytes := sendOptional (score.map F64.display)

def cmdZscore : Command F Bytes := do
  let key ← arg ctx 1
  let member ← arg ctx 2
  view zsetOf ctx.dbIndex key (fun (members, _) => scoreReply (members.lookup member)) sendNull

def cmdZmscore : Command F Bytes := do
  let key ← arg ctx 1
  let mems ← args ctx 2
  let answer (members : Members F) :=
    sendArrayLen mems.length ++ mems.flatMap fun m => scoreReply (members.lookup m)
  view zsetOf ctx.dbIndex key (fun (members, _) => answer members) (answer ∅)

/-- Equality of entries is that of their fields, with `NaN` unequal to itself. -/
def entryEq (a b : SortedSetEntry F) : Bool :=
  F64.partialCmp a.score b.score = some .eq && a.member = b.member

-- The rank the source first computes with `range` is never used.
def zrankImpl (rev : Bool) : Command F Bytes := do
  let key ← arg ctx 1
  let member ← arg ctx 2
  view zsetOf ctx.dbIndex key
    (fun (members, scores) =>
      match members.lookup member with
      | some score =>
        let entries := if rev then scores.reverse else scores
        sendInteger (Int64.ofNat (entries.findIdx fun e => entryEq e ⟨score, member⟩))
      | none => sendNull)
    sendNull

def cmdZrank : Command F Bytes := zrankImpl ctx false

def cmdZrevrank : Command F Bytes := zrankImpl ctx true

def withScores (entries : Scores F) : Bytes :=
  sendArrayLen (entries.length * 2) ++
    entries.flatMap fun e => sendBulkString e.member ++ sendBulkString (F64.display e.score)

def membersReply (entries : Scores F) : Bytes := sendStringArray (entries.map SortedSetEntry.member)

def cmdZrange : Command F Bytes := do
  let key ← arg ctx 1
  let start := ((ctx.argStr 2).bind parseI64).getD 0
  let stop := ((ctx.argStr 3).bind parseI64).getD (-1)
  let withscores : Bool :=
    ctx.args.length > 4 && (ctx.argStr 4).map toUppercase = some (ascii "WITHSCORES")
  view zsetOf ctx.dbIndex key
    (fun (_, scores) =>
      let entries := sliceRange scores start stop
      if withscores then withScores entries else membersReply entries)
    (sendArrayLen 0)

def parseScoreBound (s : Bytes) (default : F) : F :=
  if s = ascii "-inf" then F64.negInfinity
  else if s = ascii "+inf" ∨ s = ascii "inf" then F64.infinity
  else
    match s with
    | 40 :: rest => (F64.parse rest).getD default
    | s => (F64.parse s).getD default

/-- The entries with a score between the bounds given as arguments 2 and 3. -/
def scoreInterval (scores : Scores F) : Scores F :=
  let min : F := parseScoreBound ((ctx.argStr 2).getD (ascii "-inf")) F64.negInfinity
  let max : F := parseScoreBound ((ctx.argStr 3).getD (ascii "+inf")) F64.infinity
  scores.filter fun e =>
    (F64.partialCmp e.score min).any Ordering.isGE && (F64.partialCmp e.score max).any Ordering.isLE

def cmdZrangebyscore : Command F Bytes := do
  let key ← arg ctx 1
  view zsetOf ctx.dbIndex key (fun (_, scores) => membersReply (scoreInterval ctx scores))
    (sendArrayLen 0)

def cmdZcard : Command F Bytes := do
  let key ← arg ctx 1
  view zsetOf ctx.dbIndex key (fun (members, _) => sendInteger (Int64.ofNat members.keys.card))
    (sendInteger 0)

def cmdZcount : Command F Bytes := do
  let key ← arg ctx 1
  view zsetOf ctx.dbIndex key
    (fun (_, scores) => sendInteger (Int64.ofNat (scoreInterval ctx scores).length))
    (sendInteger 0)

/-! ## Popping -/

/-- Up to `n` rounds of taking the first or last entry. -/
def popEntries (rev : Bool) : Nat → Members F → Scores F → Scores F × Members F × Scores F
  | 0, members, scores => ([], members, scores)
  | n + 1, members, scores =>
    match if rev then scores.getLast? else scores.head? with
    | some e =>
      let (popped, members, scores) :=
        popEntries rev n (members.erase e.member) (scoresRemove e scores)
      (e :: popped, members, scores)
    | none => ([], members, scores)

/-- The vector of what was popped doubles its capacity, at 32 bytes an entry: the next double of
this one is more than `isize::MAX` bytes. -/
def maxPopped : Nat := 2 ^ 57

/-- How many entries are to be popped. -/
def popCount : Nat :=
  if ctx.args.length > 2 then (((ctx.argStr 2).bind parseU64).getD 1).toNat else 1

-- Where a search for the entry to pop goes wrong, the loop takes it again and again. With more
-- than `maxPopped` rounds it panics; before that it is out of memory, so no one sees the set then.
def zpopImpl (rev : Bool) : Command F Bytes := do
  let key ← arg ctx 1
  let count := popCount ctx
  tryEdit zsetOf ctx.dbIndex key
    (fun (members, scores) =>
      let (popped, members', scores') := popEntries rev (min count (maxPopped + 1)) members scores
      if maxPopped < popped.length then .error (.zset members scores)
      else .ok (.put (.zset members' scores') (members'.keys = ∅) (withScores popped)))
    (pure (sendArrayLen 0))

def cmdZpopmin : Command F Bytes := zpopImpl ctx false

def cmdZpopmax : Command F Bytes := zpopImpl ctx true

end ShrikeDb.ZsetFamily
