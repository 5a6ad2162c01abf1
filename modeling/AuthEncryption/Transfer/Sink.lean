import AuthEncryption.Session

/-!
# Byte sinks

A sink takes bytes as a list of events says: a part of what it is offered, all
of it once the events are used up, or nothing because it fails. `writeAll` goes
on until all is taken, past interruptions, and gives up when nothing is taken.
-/
namespace AuthEncryption

/-- What a sink does with the next offer. -/
inductive SinkEvent where
  /-- It takes at most so many bytes. -/
  | accept (count : Nat)
  | fail (kind : IoKind)
deriving DecidableEq, Repr

structure Sink where
  /-- What was taken so far, the latest piece first. -/
  pieces : List Bytes
  /-- What it does with the next offers. -/
  events : List SinkEvent
  /-- The failure of every flush, if it fails. -/
  flushFailure : Option IoKind

namespace Sink

def taken (sink : Sink) : Bytes := sink.pieces.reverse.flatten

/-- The sink after it took one more piece. -/
def keep (sink : Sink) (piece : Bytes) : Sink := { sink with pieces := piece :: sink.pieces }

@[simp] theorem taken_keep (sink : Sink) (piece : Bytes) :
    (sink.keep piece).taken = sink.taken ++ piece := by
  simp [taken, keep]

/-- What a sink with these events takes of an offer that is repeated until all
is taken: the outcome, the bytes taken and the events left. -/
def deliver : List SinkEvent → Bytes → Except IoKind Unit × Bytes × List SinkEvent
  | events, [] => (.ok (), [], events)
  | [], data => (.ok (), data, [])
  | .accept 0 :: rest, _ => (.error .writeZero, [], rest)
  | .accept count :: rest, data =>
    let (result, more, events) := deliver rest (data.drop count)
    (result, data.take count ++ more, events)
  | .fail kind :: rest, data =>
    if kind = .interrupted then deliver rest data else (.error kind, [], rest)

/-- Offers a string until all of it is taken. -/
def writeAll (sink : Sink) (data : Bytes) : Except IoKind Unit × Sink :=
  let (result, taken, events) := deliver sink.events data
  (result, { sink.keep taken with events })

/-- Asks a sink to pass on what it has taken. -/
def flush (sink : Sink) : Except IoKind Unit :=
  match sink.flushFailure with
  | some kind => .error kind
  | none => .ok ()

/-- Offers a string; a failure is reported by `context`. -/
def send (context : String) (data : Bytes) : Session Sink Unit :=
  Session.ofRun fun sink log =>
    let (result, sink) := sink.writeAll data
    { result := result.mapError fun kind => .error (.io context kind), state := sink, log }

/-- Flushes; a failure is reported by `context`. -/
def sync (context : String) : Session Sink Unit := do
  liftExcept ((← get).flush.mapError fun kind => Failure.error (.io context kind))

end Sink

end AuthEncryption
