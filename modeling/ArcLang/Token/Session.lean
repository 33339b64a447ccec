import ArcLang.Token.Scan
import ArcLang.Diagnostic.Collector

/-!
# Sessions

Several streams may be opened on one source, each with a place of its own. They share a collector,
if there is one; without it a stream ends at its first fault.
-/

namespace ArcLang

/-- What a stream gives when it is asked for a token. -/
inductive Delivery
  | token (t : Token)
  | raised (why : Diagnostic)
  | ended

namespace Delivery

/-- A token has been delivered. -/
def isToken : Delivery → Bool
  | token _ => true
  | _ => false

end Delivery

/-- One source, the streams opened on it, and the collector they share. -/
structure Session where
  scans : List Scan
  streams : List (List Scan) := []
  errors : Option Collector

namespace Session

/-- Opens a stream at the front of the source; it is known by its number. -/
def openStream (s : Session) : Nat × Session :=
  (s.streams.length, { s with streams := s.streams ++ [s.scans] })

/-- Asks one stream for its next token. -/
def next (s : Session) (stream : Nat) : Delivery × Session :=
  match s.streams[stream]? with
  | none | some [] => (.ended, s)
  | some (scan :: rest) =>
    let moved := { s with streams := s.streams.set stream rest }
    match scan, s.errors with
    | .token t, _ => (.token t, moved)
    | .fault why t, some errors => (.token t, { moved with errors := some (errors.add why) })
    | .fault why _, none => (.raised why, { s with streams := s.streams.set stream [] })

/-- Asks one stream until it gives no token, at most `rounds` times. -/
def drainFor (stream : Nat) : Nat → Session → List Delivery × Session
  | 0, s => ([], s)
  | rounds + 1, s =>
    let (delivery, s) := s.next stream
    if delivery.isToken then
      let (more, s) := drainFor stream rounds s
      (delivery :: more, s)
    else ([delivery], s)

/-- Asks one stream until it gives no token. -/
def drain (s : Session) (stream : Nat) : List Delivery × Session :=
  drainFor stream (s.scans.length + 1) s

/-- Empties the shared collector. -/
def clear (s : Session) : Session := { s with errors := s.errors.map Collector.clear }

end Session

end ArcLang
