import Motif.Bind

/-!
Whole matches. A match starts from no captures and a fresh search; a tracer that
watches it is told of its start and, whatever the outcome, of its end. A shared
tracer can stand in wherever no tracer is given. Whether it does is part of the state
here; what sets it when a program starts is not.

A match goes as deep as its limits allow. The machine's own bound on the depth of calls
is no part of this.
-/

namespace Motif

structure Report where
  outcome : Outcome
  steps : Nat
  tracer : Option Tracer

/-- Match a value against a pattern within limits, watched or not. -/
def Pattern.matchAgainst (p : Pattern Value) (v : Value) (limits : Limits)
    (tracer : Option Tracer) : Report :=
  let (outcome, s) := p.bind v [] (Search.fresh limits (tracer.map (·.note .started)))
  ⟨outcome, s.steps, s.tracer.map (·.note (.ended outcome.isMatched s.steps))⟩

/-- The shared tracer, and whether matches without a tracer of their own report to it. -/
structure Observation where
  enabled : Bool
  shared : Tracer

namespace Observation

def off : Observation := ⟨false, .empty⟩

/-- Match a value without a tracer of its own. -/
def matchAgainst (o : Observation) (p : Pattern Value) (v : Value) (limits : Limits) :
    Outcome × Observation :=
  if o.enabled then
    let report := p.matchAgainst v limits (some o.shared)
    (report.outcome, { o with shared := report.tracer.getD o.shared })
  else ((p.matchAgainst v limits none).outcome, o)

end Observation

end Motif
