import ShrikeDb.Core.Text

/-! RESP values and replies (`resp_parser.rs`, `reply_builder.rs`), and the two
functions of `main_service.rs` that read a shard's reply back. A function of the
reply builder gives the bytes it appends to the buffer. -/

namespace ShrikeDb

/-- A parsed RESP expression. -/
inductive RespExpr
  | string (data : Bytes)
  | int (n : Int64)
  | nil
  | error (data : Bytes)
  | array (items : List RespExpr)

def RespExpr.asBytes : RespExpr → Option Bytes
  | .string data => some data
  | _ => none

def RespExpr.asStr (e : RespExpr) : Option Bytes := e.asBytes.bind fromUtf8

/-- The integer an argument spells, as `arg_int` reads it. -/
def RespExpr.asInt (e : RespExpr) : Option Int64 := e.asStr.bind fun s => parseI64 (Utf8.trim s)

def RespExpr.asPositiveInt (e : RespExpr) : Option UInt64 :=
  e.asInt.bind fun n => if n ≤ 0 then none else some n.toUInt64

def crlf : Bytes := [13, 10]

namespace ReplyBuilder

def sendOk : Bytes := ascii "+OK" ++ crlf

def sendPong : Bytes := ascii "+PONG" ++ crlf

def sendSimpleString (msg : Bytes) : Bytes := ascii "+" ++ msg ++ crlf

def sendErr (msg : Bytes) : Bytes := ascii "-ERR " ++ msg ++ crlf

def sendWrongType (msg : Bytes) : Bytes :=
  ascii "-WRONGTYPE Operation against a key holding the wrong kind of value" ++
    (if msg.isEmpty then [] else ascii ": " ++ msg) ++ crlf

def writeInt (n : Int64) : Bytes := i64ToString n

def sendBulkString (data : Bytes) : Bytes :=
  ascii "$" ++ writeInt (Int64.ofNat data.length) ++ crlf ++ data ++ crlf

def sendNull : Bytes := ascii "$-1" ++ crlf

def sendInteger (n : Int64) : Bytes := ascii ":" ++ writeInt n ++ crlf

def sendArrayLen (len : Nat) : Bytes := ascii "*" ++ writeInt (Int64.ofNat len) ++ crlf

def sendStringArray (items : List Bytes) : Bytes :=
  sendArrayLen items.length ++ items.flatMap sendBulkString

/-- A bulk string, or null. -/
def sendOptional : Option Bytes → Bytes
  | some v => sendBulkString v
  | none => sendNull

end ReplyBuilder

/-- The reply is an error: its first byte is `-`. -/
def isError (reply : Bytes) : Bool := reply.head? = some 45

/-! ## Reading a reply back -/

def parseRespInteger : Bytes → Option Int64
  | [] => none
  | b :: rest =>
    if b = 58 ∧ 13 ∈ rest then (fromUtf8 (rest.takeWhile (· ≠ 13))).bind parseI64 else none

def skipLine (data : Bytes) : Bytes := (data.dropWhile (· ≠ 10)).drop 1

/-- The element loop of `parse_resp_array`; every round takes at least one byte. -/
def parseElements : Nat → Bytes → List (Option Bytes)
  | 0, _ => []
  | _ + 1, [] => []
  | fuel + 1, b :: rest =>
    if b = 36 then
      let len := (((fromUtf8 (rest.takeWhile (· ≠ 13))).getD (ascii "-1")) |> parseI64).getD (-1)
      let line := rest.dropWhile (· ≠ 13)
      if len < 0 then none :: parseElements fuel (line.drop 2)
      else if 2 + len.toInt.toNat ≤ line.length then
        some ((line.drop 2).take len.toInt.toNat) ::
          parseElements fuel ((line.drop 2).drop (len.toInt.toNat + 2))
      else []
    else parseElements fuel (skipLine (b :: rest))

def parseRespArray (data : Bytes) : List (Option Bytes) :=
  if data.head? = some 42 then parseElements data.length (skipLine data) else []

example : parseRespArray (ReplyBuilder.sendArrayLen 2 ++
  ReplyBuilder.sendBulkString (ascii "a\r\n") ++
    ReplyBuilder.sendNull) = [some (ascii "a\r\n"), none] := by decide

/-! ## First bytes of replies -/

open ReplyBuilder

@[simp] theorem isError_sendOk : isError sendOk = false := rfl
@[simp] theorem isError_sendPong : isError sendPong = false := rfl
@[simp] theorem isError_sendSimpleString (msg : Bytes) :
    isError (sendSimpleString msg) = false := rfl
@[simp] theorem isError_sendBulkString (data : Bytes) : isError (sendBulkString data) = false := rfl
@[simp] theorem isError_sendNull : isError sendNull = false := rfl
@[simp] theorem isError_sendInteger (n : Int64) : isError (sendInteger n) = false := rfl
@[simp] theorem isError_sendArray (len : Nat) (items : Bytes) :
    isError (sendArrayLen len ++ items) = false := rfl
@[simp] theorem isError_sendArrayLen (len : Nat) : isError (sendArrayLen len) = false := rfl
@[simp] theorem isError_sendStringArray (items : List Bytes) :
    isError (sendStringArray items) = false := rfl

@[simp] theorem isError_sendOptional (v : Option Bytes) : isError (sendOptional v) = false := by
  cases v <;> rfl

end ShrikeDb
