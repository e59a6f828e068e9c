import ShrikeDb.Facade.Fragments
import ShrikeDb.Server.Arity
import ShrikeDb.Server.StoredShard

/-! When a client's command panics a shard whose tables do not: an argument that the
handler unwraps is no bulk string, the page of a `SCAN` wraps around, or a `SETRANGE`, an
`APPEND` or a pop from a sorted set asks for more bytes than an allocation can have. -/

namespace ShrikeDb

open Program Command CommandRegistry ReplyBuilder Dash ShardThread GenericFamily StringFamily
  StoreOp

variable {F : Type} {ctx : CommandContext}

/-! ## Operations never panic -/

namespace Stored

variable {α : Type} {i : DbIndex} {key : Bytes}

end Stored

namespace DashExec

/-- What the tables find under a key that has not lapsed. -/
def live (hash : Hashers) (d : DashExec F) (now : UInt64) (i : DbIndex) (key : Bytes) :
    Option (PrimeValue F) :=
  if ((d.table i .expire).find (hash i .expire) key).any (· ≤ now) then none
  else (d.table i .prime).find (hash i .prime) key

variable {hash : Hashers} {d d' : DashExec F}

end DashExec

/-! ## What is asked of the shard -/

section Fits

/-- The page asked for ends behind its start, or starts behind the last of `total` keys. -/
def ScanFits (ctx : CommandContext) (total : Nat) : Prop :=
  ∀ cursor ∈ (ctx.argStr 1).bind parseU64, cursor.toNat < total →
    cursor.toNat + (scanOptions (ctx.args.drop 2) ⟨10, none⟩).count.toNat < 2 ^ 64

/-- A new string of this length can be allocated; one that is there, and has to grow, keeps
below `limit`. -/
def RangeFits (limit needed : Nat) : Option (PrimeValue F) → Prop
  | none => needed < 2 ^ 63
  | some v => v.isString = true → v.asBytes.length < needed → needed < limit

def GrowthFits (limit more : Nat) (found : Option (PrimeValue F)) : Prop :=
  ∀ v ∈ found, v.isString = true → v.asBytes.length + more < limit

/-- The loop ends before the vector of what it has popped is too large. -/
def PopFits [F64 F] (rev : Bool) (count : Nat) (found : Option (PrimeValue F)) : Prop :=
  ∀ members scores, found = some (.zset members scores) →
    (ZsetFamily.popEntries rev count members scores).1.length ≤ ZsetFamily.maxPopped

/-- What a command that has its arguments still asks of a shard with `total` keys, of which
`live` are there to be found. -/
def Unwraps.Fits [F64 F] (limit : Nat) (ctx : CommandContext) (total : Nat)
    (live : Bytes → Option (PrimeValue F)) : Unwraps → Prop
  | .page => ScanFits ctx total
  | .offset => ∀ key ∈ ctx.argBytes 1, ∀ n ∈ ctx.argInt 2, 0 ≤ n → ∀ value ∈ ctx.argBytes 3,
      RangeFits limit (n.toInt.toNat + value.length) (live key)
  | .growing => ∀ key ∈ ctx.argBytes 1, ∀ data ∈ ctx.argBytes 2,
      GrowthFits limit data.length (live key)
  | .popping rev => ∀ key ∈ ctx.argBytes 1, PopFits rev (ZsetFamily.popCount ctx) (live key)
  | _ => True

end Fits

/-! ## The commands that can panic later -/

section Late

variable {i : DbIndex} {key : Bytes} {fits : Option (PrimeValue F) → Prop}

end Late

/-! ## Runs -/

section Runs

variable {hash : Hashers} {d d' : DashExec F} {out : Option Bytes} {key : Bytes}

variable [F64 F]

end Runs

/-! ## Every command -/

variable {name : Bytes}

section Dispatch

variable [F64 F] [HashOrder] {e : CommandEntry F} {hash : Hashers} {d d' : DashExec F}

variable [CaseTable]

/-- The command has bulk strings where its handler unwraps arguments, and what it asks of the
shard fits, where a string grows only below `limit`. -/
def Sound (limit : Nat) (hash : Hashers) (d : DashExec F) (now : UInt64) (i : DbIndex)
    (args : List RespExpr) : Prop :=
  ∀ e : CommandEntry F, resolve args = .run e →
    CommandContext.Bulk ⟨args, i⟩ ((unwraps e.name).positions F ⟨args, i⟩) ∧
      (unwraps e.name).Fits limit ⟨args, i⟩ (d.table i .prime).iter.length (d.live hash now i)

omit [HashOrder] [CaseTable] in
theorem Unwraps.Fits.mono {limit limit' total : Nat} {live : Bytes → Option (PrimeValue F)}
    {u : Unwraps} (hle : limit ≤ limit') (h : u.Fits limit ctx total live) :
    u.Fits limit' ctx total live := by
  cases u with
  | offset =>
    intro key hkey n hn hpos value hvalue
    have hfits := h key hkey n hn hpos value hvalue
    cases hlive : live key with
    | none =>
      rw [hlive] at hfits
      exact hfits
    | some v =>
      rw [hlive] at hfits
      exact fun hs hlt => (hfits hs hlt).trans_le hle
  | growing => exact fun key hkey data hdata v hv hs => (h key hkey data hdata v hv hs).trans_le hle
  | _ => exact h

variable {now : UInt64} {i : DbIndex} {args : List RespExpr}

variable {n : Nat} [NeZero n]

end Dispatch

section Fixed

attribute [local instance] F64.whole CaseTable.identity HashOrder.arbitrary

end Fixed

end ShrikeDb
