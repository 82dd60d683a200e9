import PetriTree.Firing.Error
import PetriTree.Net.Component

/-!
# PetriTree — why a tree cannot be joined

* `FlattenError` — the causes, with their `code` and `message`.
-/

namespace PetriTree

/-- Why an include tree cannot be joined into one net. -/
inductive FlattenError where
  | missingHome (awayId node : String)
  | invalidExpression (component : String) (cause : ExprError)
  | unknownPlace (component place : String)
  | unknownColor (component color : String)
  | unknownParameter (component parameter : String)
  | parameterCycle (parameter : String)
  | danglingArc (arc endpoint : String)
  | duplicateId (id : String) (kind : ComponentKind)
  | schedule (cause : FiringError)
  | handler (transition name reason : String)
deriving DecidableEq

/-- The name of the cause, for programs that tell errors apart. -/
def FlattenError.code : FlattenError → String
  | missingHome .. => "MissingHome"
  | invalidExpression .. => "InvalidExpression"
  | unknownPlace .. => "UnknownPlace"
  | unknownColor .. => "UnknownColor"
  | unknownParameter .. => "UnknownParameter"
  | parameterCycle _ => "ParameterCycle"
  | danglingArc .. => "DanglingArc"
  | duplicateId .. => "DuplicateId"
  | schedule _ => "Schedule"
  | handler .. => "Handler"

def FlattenError.message : FlattenError → String
  | missingHome awayId node =>
    "interface place `" ++ awayId ++ "` used by `" ++ node ++ "` has no home place in the hierarchy"
  | invalidExpression component cause =>
    "invalid expression on `" ++ component ++ "`: " ++ cause.message
  | unknownPlace component place =>
    "expression on `" ++ component ++ "` references unknown place `" ++ place ++ "`"
  | unknownColor component color =>
    "expression on `" ++ component ++ "` references unknown color `" ++ color ++ "`"
  | unknownParameter component parameter =>
    "`" ++ component ++ "` references unknown rate parameter `" ++ parameter ++ "`"
  | parameterCycle parameter => "rate parameters form a cycle through `" ++ parameter ++ "`"
  | danglingArc arc endpoint => "arc `" ++ arc ++ "` references missing endpoint `" ++ endpoint ++ "`"
  | duplicateId id kind => "flattened " ++ kind.text ++ " id `" ++ id ++ "` is not unique"
  | schedule cause =>
    "cannot schedule the timed transitions of the initial marking: " ++ cause.message
  | handler transition name reason =>
    "handler `" ++ name ++ "` of transition `" ++ transition ++ "` cannot be loaded: " ++ reason

end PetriTree
