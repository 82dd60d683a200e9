import PetriTree.Expr.Evaluate

/-!
# PetriTree — why a transition does not fire

* `FiringError` — the causes, with their `code` and `message`.
-/

namespace PetriTree

/-- Why a question about a transition has no answer, or why it does not fire. -/
inductive FiringError where
  | unknownTransition (id : String)
  | notEnabled (id : String)
  | evaluation (component : String) (cause : ExprError)
  | negativeCount (transition place : String)
  | handler (transition message : String)
deriving DecidableEq

namespace FiringError

/-- The name of the cause, for programs that tell errors apart. -/
def code : FiringError → String
  | unknownTransition _ => "UnknownTransition"
  | notEnabled _ => "NotEnabled"
  | evaluation .. => "Evaluation"
  | negativeCount .. => "NegativeCount"
  | handler .. => "Handler"

def message : FiringError → String
  | unknownTransition id => "unknown transition `" ++ id ++ "`"
  | notEnabled id => "transition `" ++ id ++ "` is not enabled"
  | evaluation component cause => "cannot evaluate `" ++ component ++ "`: " ++ cause.message
  | negativeCount transition place =>
    "firing `" ++ transition ++ "` backwards would leave `" ++ place ++ "` with a negative count"
  | handler transition text => "handler of `" ++ transition ++ "` failed: " ++ text

def component : FiringError → String
  | unknownTransition id | notEnabled id | evaluation id _ | negativeCount id _ | handler id _ => id

end FiringError

end PetriTree
