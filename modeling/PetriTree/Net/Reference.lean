import PetriTree.Net

/-!
# PetriTree — references to a place

A place is referred to by the arcs attached to it and by the expressions that mention it.

* `Net.references` — the components that refer to a place, each with a reason;
* `Net.renamePlace` — a place renamed together with every reference to it.
-/

namespace PetriTree

/-- How a component refers to a place. -/
inductive Reference where
  | attachedArc (arc : String)
  | arcWeight (arc : String)
  | rateParameter (parameter : String)
  | transitionRate (transition : String)
deriving DecidableEq

namespace Reference

def component : Reference → String
  | attachedArc arc => arc
  | arcWeight arc => arc
  | rateParameter parameter => parameter
  | transitionRate transition => transition

def reason (place : String) : Reference → String
  | attachedArc arc => "arc `" ++ arc ++ "` is connected to `" ++ place ++ "`"
  | arcWeight arc => "weight of arc `" ++ arc ++ "` references `" ++ place ++ "`"
  | rateParameter parameter => "rate parameter `" ++ parameter ++ "` references `" ++ place ++ "`"
  | transitionRate transition =>
    "rate of transition `" ++ transition ++ "` references `" ++ place ++ "`"

end Reference

namespace Net

/-- Does the text, read as an expression, mention the place? -/
def textMentions (place text : String) : Bool :=
  match Expr.ofText text with
  | .ok e => e.mentionsPlace place
  | .error _ => false

/-- How an arc refers to a place; being attached counts before being weighed by it. -/
def arcReference (place : String) (arc : Arc) : Option Reference :=
  if arc.place = place then some (.attachedArc arc.id)
  else if arc.weights.values.any (textMentions place) then some (.arcWeight arc.id)
  else none

def parameterReference (place : String) (parameter : RateParameter) : Option Reference :=
  if textMentions place parameter.expression then some (.rateParameter parameter.id) else none

def transitionReference (place : String) (transition : Transition) : Option Reference :=
  match transition.rate with
  | .expression text => if textMentions place text then some (.transitionRate transition.id) else none
  | .parameter _ => none

/-- The references to a place: arcs first, then rate parameters, then transitions. -/
def references (net : Net) (place : String) : List Reference :=
  net.arcs.values.filterMap (arcReference place) ++
    net.parameters.values.filterMap (parameterReference place) ++
    net.transitions.values.filterMap (transitionReference place)

/-- A text in which the place `old` is called `new`. A text that does not mention it, or that is no
expression, stays as it was written. -/
def renameInText (old new text : String) : String :=
  match Expr.ofText text with
  | .ok e =>
    if e.mentionsPlace old then (e.rename (Table.renamed old new) id).text else text
  | .error _ => text

/-- A rate in which the place `old` is called `new`. -/
def renameInRate (old new : String) : Rate → Rate
  | .expression text => .expression (renameInText old new text)
  | .parameter id => .parameter id

/-- Renames a place together with every arc end and every mention that refers to it. -/
def renamePlace (net : Net) (old new : String) : Except NetError Net := do
  refuseIf (net.isNode new) (.duplicate new .place)
  let _ ← net.place old
  let renameIn := renameInText old new
  return { net with
    arcs := net.arcs.map fun _ arc => { arc with
      place := Table.renamed old new arc.place
      weights := arc.weights.map fun _ => renameIn }
    parameters := net.parameters.map fun _ p => { p with expression := renameIn p.expression }
    transitions := net.transitions.map fun _ t => { t with rate := renameInRate old new t.rate }
    -- the key and the id inside the place go together
    places := (net.places.rename old new).modify new fun p => { p with id := new } }.touch

end Net

end PetriTree
