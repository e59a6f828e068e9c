import ShrikeDb.Facade.Fragments
import ShrikeDb.Lib.Session
import ShrikeDb.Server.Command

/-! The loop of a connection (`connection.rs`, and `handle_connection` of `shard_thread.rs`):
parse what has been read, dispatch every complete command, write the replies, read on. The
dispatcher is arbitrary, as is the world it works in. A client that sends commands without
waiting for the replies gets them in order, as if it had sent one command after the other,
however its bytes arrive. -/

namespace ShrikeDb

open Session ReplyBuilder RespParser

/-! ## The loops -/

def ParseError.text : ParseError → Bytes
  | .badArrayLen => ascii "invalid array length"
  | .badBulkLen => ascii "invalid bulk string length"
  | .badInteger => ascii "invalid integer"
  | .badProtocol => ascii "protocol error"

def ConnContext.new : ConnContext := ⟨0⟩

/-- What a dispatcher makes of a command: the reply it appends, and whether the connection stays. -/
abbrev Dispatcher (W : Type) := W → List RespExpr → Reply W UInt8

variable {W E : Type}

def connectionHandler (dispatcher : Dispatcher W) : Handler W (List RespExpr) ParseError UInt8 where
  handle := dispatcher
  refuse e := sendErr (ascii "Protocol error: " ++ e.text)

/-- The common loop, over the reads of the stream. -/
def connectionLoop (dispatcher : Dispatcher W) (w : W) (reads : List Bytes) :
    Outcome W Bytes Bool :=
  serve respParser (connectionHandler dispatcher) .init [] w reads

namespace Facade

/-- The dispatchers change the context of the connection and the rest of the server. -/
abbrev CommandDispatcherEx (E : Type) :=
  E → List RespExpr → ConnContext → Bytes × Bool × ConnContext × E

def handleConnectionEx (dispatcher : CommandDispatcherEx E) (e : E) :
    List Bytes → Outcome (ConnContext × E) Bytes Bool :=
  connectionLoop (fun w args =>
    let (data, keepAlive, ctx, e) := dispatcher w.2 args w.1
    ⟨data, keepAlive, ctx, e⟩) (ConnContext.new, e)

/-- The legacy loop, whose dispatcher cannot close the connection. -/
def handleConnection (dispatcher : E → List RespExpr → ConnContext → Bytes × ConnContext × E)
    (e : E) : List Bytes → Outcome (ConnContext × E) Bytes Bool :=
  handleConnectionEx (fun e args ctx =>
    let (data, ctx, e) := dispatcher e args ctx
    (data, true, ctx, e)) e

end Facade

/-! ## Streams of commands -/

namespace RespParser

theorem Unambiguous.of_append {s : State} {stream buf more : Bytes} (h : Unambiguous s stream)
    (hstream : stream = buf ++ more) : Unambiguous s buf := by
  induction h generalizing buf with
  | @intro s stream hclear hnext ih =>
    subst hstream
    refine ⟨fun hact line rest hsplit => ?_, fun out s' rest hturn => ?_⟩
    · obtain ⟨act, hact⟩ := Option.isSome_iff_exists.mp hact
      refine hclear ?_ line (rest ++ more) (splitCrlf_append more hsplit)
      rw [lineAct_append more hact]
      rfl
    · exact ih out s' (rest ++ more) (stable.next ⟨hclear, hnext⟩ hturn) rfl

theorem Reads.requests_append (rs : List Request) (rest : Bytes) :
    Reads .init (rs.flatMap Request.encode ++ rest) (rs.map Request.args) .init rest := by
  induction rs with
  | nil => exact .refl .init rest
  | cons r rs ih =>
    rw [List.flatMap_cons, List.append_assoc]
    exact (Reads.request r _).trans ih

end RespParser

section Requests

variable (dispatcher : Dispatcher W) (w : W) {rs : List Request} {tail : Bytes}
  {ending : Incremental.Ending State UInt8 ParseError} {reads : List Bytes}

theorem unambiguous_stream (hclear : Unambiguous .init tail)
    (hstream : reads.flatten = rs.flatMap Request.encode ++ tail) :
    Unambiguous .init reads.flatten := by
  rw [hstream]
  exact (Reads.requests_append rs tail).clear hclear

theorem turn_init : respParser.turn .init [] = .wait := rfl

/-- The loop answers the commands of the stream, one after another. -/
theorem connectionLoop_settles (htail : respParser.drain .init tail = ([], ending))
    (hclear : Unambiguous .init tail) (hreads : [] ∉ reads)
    (hstream : reads.flatten = rs.flatMap Request.encode ++ tail) :
    (connectionLoop dispatcher w reads).Writes
      (settle (connectionHandler dispatcher) w (rs.map Request.args) ending) := by
  have hdrive : respParser.drive .init [] reads = (rs.map Request.args, ending) := by
    rw [stable.drive_eq_drain reads (unambiguous_stream hclear hstream) turn_init, List.nil_append,
      hstream, (Reads.requests_append rs tail).path.drain, htail, List.append_nil]
  have hserve := serve_writes (H := connectionHandler dispatcher) (w := w) turn_init hreads
  rw [hdrive] at hserve
  exact hserve

/-- Replies are written as soon as the commands have been read. -/
theorem connectionLoop_prompt {before later : List Bytes}
    (hall : Unambiguous .init (before ++ later).flatten) (hreads : [] ∉ before ++ later)
    (hbefore : rs.flatMap Request.encode <+: before.flatten) :
    (connectionLoop dispatcher w before).output <+:
      (connectionLoop dispatcher w (before ++ later)).output ∧
      respond (connectionHandler dispatcher) w (rs.map Request.args) <+:
        (connectionLoop dispatcher w before).output.flatten := by
  have hnonempty : [] ∉ before := fun hmem => hreads (List.mem_append_left later hmem)
  refine ⟨serve_extends turn_init hnonempty later, ?_⟩
  obtain ⟨more, hmore⟩ := hbefore
  have hdrive : respParser.drive .init [] before = respParser.drain .init before.flatten :=
    stable.drive_eq_drain before (hall.of_append List.flatten_append) turn_init
  have hserve :=
    (serve_writes (H := connectionHandler dispatcher) (w := w) turn_init hnonempty).output
  rw [hdrive, ← hmore, (Reads.requests_append rs more).path.drain] at hserve
  rw [connectionLoop, hserve]
  exact respond_prefix_settle ..

end Requests

/-- Commands that are sent without waiting for replies, followed by an unfinished or broken one,
are each dispatched once, in order, and answered in order, however the stream is cut into reads:
up to one that closes the connection, or up to the broken one, which is answered with a protocol
error. Before each read the replies to all commands that were read in full have been written. -/
theorem connectionLoop_pipelined (dispatcher : Dispatcher W) (w : W) (rs : List Request)
    (tail : Bytes) (ending : Incremental.Ending State UInt8 ParseError)
    (htail : respParser.drain .init tail = ([], ending)) (hclear : Unambiguous .init tail)
    (reads : List Bytes) (hreads : [] ∉ reads)
    (hstream : reads.flatten = rs.flatMap Request.encode ++ tail) :
    (connectionLoop dispatcher w reads).Writes
        (settle (connectionHandler dispatcher) w (rs.map Request.args) ending) ∧
    ∀ k before later, reads = before ++ later →
    (rs.take k).flatMap Request.encode <+: before.flatten →
      (connectionLoop dispatcher w before).output <+: (connectionLoop dispatcher w reads).output ∧
      respond (connectionHandler dispatcher) w ((rs.take k).map Request.args) <+:
        (connectionLoop dispatcher w before).output.flatten := by
  refine ⟨connectionLoop_settles dispatcher w htail hclear hreads hstream,
    fun k before later hsplit hbefore => ?_⟩
  have hall := unambiguous_stream hclear hstream
  subst hsplit
  exact connectionLoop_prompt dispatcher w hall hreads hbefore

section Fixed

/-- A dispatcher that answers `PONG` to everything and counts. -/
def pongs : Dispatcher Nat := fun count _ => ⟨sendPong, true, count + 1⟩

theorem length_ping : [Element.bulk (ascii "PING")].length ≤ 1048576 := by decide

theorem fits_ping : ∀ e ∈ [Element.bulk (ascii "PING")], e.Fits := by
  rintro e hmem
  rw [List.mem_singleton.mp hmem]
  change (ascii "PING").length ≤ 536870912
  decide

def ping : Request := ⟨[.bulk (ascii "PING")], List.cons_ne_nil _ _, length_ping, fits_ping⟩

theorem turn_badLength : turn .init (ascii "*x\r\n") = .fail .badArrayLen := rfl

theorem drain_badLength : respParser.drain .init (ascii "*x\r\n") = ([], .failed .badArrayLen) :=
  Incremental.Parser.drain_fail (P := respParser) turn_badLength

theorem unambiguous_badLength : Unambiguous .init (ascii "*x\r\n") := by
  have hsplit : splitCrlf (ascii "*x\r\n") = some (ascii "*x", []) := by decide
  refine ⟨fun _ line rest h => ?_, fun out s rest h => ?_⟩
  · rw [hsplit] at h
    cases h
    decide
  · rw [turn_badLength] at h
    cases h

/-- Two commands and a broken one, cut inside the second and inside the broken one. -/
theorem connectionLoop_pipelined_pings :
    (connectionLoop pongs 0 [ascii "*1\r\n$4\r\nPING\r\n*1\r\n$4\r\nPI", ascii "NG\r\n*x\r",
        ascii "\n"]).output.flatten =
      sendPong ++ sendPong ++ ascii "-ERR Protocol error: invalid array length\r\n" ∧
    (connectionLoop pongs 0 [ascii "*1\r\n$4\r\nPING\r\n*1\r\n$4\r\nPI", ascii "NG\r\n*x\r",
        ascii "\n"]).status = false := by
  obtain ⟨⟨hout, -, hstatus⟩, -⟩ :=
    connectionLoop_pipelined pongs 0 [ping, ping] _ _ drain_badLength
    unambiguous_badLength [ascii "*1\r\n$4\r\nPING\r\n*1\r\n$4\r\nPI", ascii "NG\r\n*x\r",
    ascii "\n"] (by decide) (by decide)
  exact ⟨hout.trans (by decide), hstatus⟩

end Fixed

end ShrikeDb
