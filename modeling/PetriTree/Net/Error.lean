import PetriTree.Expr.Evaluate
import PetriTree.Net.Component

/-!
# PetriTree — why an edit of a net is refused

* `NetError` — the causes, with their `code` and `message`.
-/

namespace PetriTree

/-- Why an edit of a net, or a look-up in it, is refused. -/
inductive NetError where
  | notFound (id : String) (kind : ComponentKind)
  | duplicate (id : String) (kind : ComponentKind)
  | invalidEndpoint (arc source target : String)
  /-- An inbound arc at a place that only takes input. -/
  | feedsFromInputOnly (arc place : String)
  /-- An outbound arc at a place that only gives output. -/
  | fillsOutputOnly (arc place : String)
  | inUse (id : String) (kind : ComponentKind) (user : String)
  | outboundKind (arc : String)
  | invalidExpression (component : String) (cause : ExprError)
deriving DecidableEq

/-- The name of the cause, for programs that tell errors apart. -/
def NetError.code : NetError → String
  | notFound .. => "NotFound"
  | duplicate .. => "Duplicate"
  | invalidEndpoint .. => "InvalidEndpoint"
  | feedsFromInputOnly .. | fillsOutputOnly .. => "StatusViolation"
  | inUse .. => "InUse"
  | outboundKind _ => "OutboundKind"
  | invalidExpression .. => "InvalidExpression"

def NetError.message : NetError → String
  | notFound id kind => "no " ++ kind.text ++ " with id `" ++ id ++ "`"
  | duplicate id kind => kind.text ++ " `" ++ id ++ "` already exists"
  | invalidEndpoint arc source target =>
    "arc `" ++ arc ++ "` must connect a place and a transition, found `" ++ source ++ "` -> `" ++
      target ++ "`"
  | feedsFromInputOnly arc place =>
    "arc `" ++ arc ++ "` violates the status of place `" ++ place ++
      "`: an input-only place cannot feed a transition"
  | fillsOutputOnly arc place =>
    "arc `" ++ arc ++ "` violates the status of place `" ++ place ++
      "`: an output-only place cannot receive tokens"
  | inUse id kind user => kind.text ++ " `" ++ id ++ "` is still used by `" ++ user ++ "`"
  | outboundKind arc => "outbound arc `" ++ arc ++ "` must be a normal arc"
  | invalidExpression component cause =>
    "invalid expression on " ++ component ++ ": " ++ cause.message

def NetError.required (id : String) (kind : ComponentKind) : Option α → Except NetError α
  | some value => .ok value
  | none => .error (.notFound id kind)

end PetriTree
