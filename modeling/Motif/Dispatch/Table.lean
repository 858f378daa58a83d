import Motif.Dispatch
import Motif.Dispatch.Handler

/-!
Dispatch tables: clauses with their fallback, kept for any number of values. Their handlers change
nothing but what is observed. A table answers as any dispatch does, and says who was asked as well.
-/

namespace Motif

namespace Handler

/-- A handler, as a callable of a world in which there are only observations. -/
def callable (handler : Handler) : Callable Unit HandlerError Reply := fun argument w =>
  let (reply, observation) := handler.apply w.observation argument
  (reply, { w with observation })

/-- How matches show in the replies and errors of handlers. -/
def setting : Setting HandlerError Reply where
  limits := .standard
  captured captures := .value (.record captures)
  noMatch := .noMatch
  aborted := .aborted
  superfluousArgument := .superfluousArgument

theorem callable_pattern (p : Pattern Value) :
    (Handler.pattern p).callable = setting.callPattern p := by
  funext argument w
  simp only [callable, apply, Setting.callPattern, World.matchAgainst, setting]
  rcases w.observation.matchAgainst p argument Limits.standard with ⟨_ | _ | _, o⟩ <;> rfl

def kind : HandlerKind Handler Unit HandlerError Reply where
  toSetting := setting
  call := callable
  ofPattern := pattern
  ofMarker := marker
  call_ofPattern := callable_pattern
  call_ofMarker _ := rfl

end Handler

/-- An item of a flat table. -/
abbrev ClauseItem := Dispatch.Item Handler

namespace ClauseItem

@[match_pattern]
abbrev value (v : Value) : ClauseItem := Dispatch.Item.value v

@[match_pattern]
abbrev handler (h : Handler) : ClauseItem := Dispatch.Item.handler h

/-- The handler that an item is, if it can be applied. -/
def handler? (item : ClauseItem) : Except Value Handler := Dispatch.Item.handler? Handler.kind item

end ClauseItem

/-- Clauses in the order in which they are tried, and what answers if none matches. -/
structure Table where
  clauses : List (Dispatch.Clause Handler)
  fallback : Option Handler

namespace Table

/-- A table from a flat list. -/
def ofItems (items : List ClauseItem) (fallback : Option Handler) : Except UsageError Table := do
  return ⟨← Dispatch.ofItems Handler.kind items, fallback⟩

/-- What a table answers, and who was asked. -/
structure Answer where
  selection : Dispatch.Selection Handler
  reply : Except HandlerError Reply

def dispatch (o : Observation) (table : Table) (v : Value) : Answer × Observation :=
  let (selection, w) :=
    Dispatch.selectFrom Handler.kind.limits table.fallback v 0 table.clauses ⟨o, ()⟩
  let (reply, w) := Dispatch.answer Handler.kind v selection w
  (⟨selection, reply⟩, w.observation)

end Table

end Motif
