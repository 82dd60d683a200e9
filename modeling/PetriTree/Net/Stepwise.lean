import PetriTree.Net.Edit

/-!
# PetriTree — edits of a net that is changed in place

An edit answers a new net, so that a refused one has nothing to take back. Where a net is kept in one place
and written over, this has to be earned: an edit is then a list of steps, and what was written before a check
fails stays written.

* `EditStep.takeAll` — the net after some steps, up to the first check that fails;
* `NetEdit.steps` — what each edit looks at and writes, in this order.
-/

namespace PetriTree

/-- One step of an edit that is made in place. -/
inductive EditStep where
  /-- Looks at the net and may refuse to go on. -/
  | check (test : Net → Except NetError Unit)
  | write (change : Net → Net)

namespace EditStep

/-- Takes the steps one after the other, up to the first check that fails. -/
def takeAll : List EditStep → Net → Net × Except NetError Unit
  | [], net => (net, .ok ())
  | .check test :: rest, net =>
    match test net with
    | .error e => (net, .error e)
    | .ok () => takeAll rest net
  | .write change :: rest, net => takeAll rest (change net)

/-- Refuses to go on in a net that meets the condition. -/
def refuse (condition : Net → Bool) (error : NetError) : EditStep :=
  .check fun net => Net.refuseIf (condition net) error

/-- Refuses to go on where what is looked for is not there. -/
def need (find : Net → Except NetError α) : EditStep := .check fun net => (find net).map fun _ => ()

def reads (component text : String) : EditStep := .check fun _ => Net.checkExpression component text

/-- The colour of a weight has to be there, and the weight an expression. -/
def weight (arc : String) : String × String → List EditStep
  | (color, text) => [refuse (fun net => !net.colors.contains color) (.notFound color .color), reads arc text]

def structural (change : Net → Net) : List EditStep := [.write change, .write Net.touch]

end EditStep

namespace NetEdit

open EditStep

/-- The steps that add a component. -/
def addSteps : Component → List EditStep
  | .color color =>
    refuse (fun net => net.colors.contains color.id) (.duplicate color.id .color) ::
      structural fun net => { net with colors := net.colors.insert color.id color }
  | .note note =>
    refuse (fun net => net.notes.contains note.id) (.duplicate note.id .note) ::
      structural fun net => { net with notes := net.notes.insert note.id note }
  | .place place =>
    refuse (fun net => net.isNode place.id) (.duplicate place.id .place) ::
      structural fun net => { net with places := net.places.insert place.id place }
  | .rateParameter parameter =>
    refuse (fun net => net.parameters.contains parameter.id) (.duplicate parameter.id .rateParameter) ::
      reads parameter.id parameter.expression ::
      structural fun net => { net with parameters := net.parameters.insert parameter.id parameter }
  | .transition transition =>
    refuse (fun net => net.isNode transition.id) (.duplicate transition.id .transition) ::
      (match transition.rate with
        | .expression text => reads transition.id text
        | .parameter id => refuse (fun net => !net.parameters.contains id) (.notFound id .rateParameter)) ::
      structural fun net => { net with transitions := net.transitions.insert transition.id transition }
  | .arc arc =>
    refuse (fun net => net.arcs.contains arc.id) (.duplicate arc.id .arc) ::
      .check (fun net =>
        match net.places.get? arc.place, net.transitions.contains arc.transition with
        | some place, true => Net.checkStatus arc place.status
        | _, _ => .error (.invalidEndpoint arc.id arc.source arc.target)) ::
      refuse (fun _ => !arc.isInbound && arc.kind != .normal) (.outboundKind arc.id) ::
      arc.weights.entries.flatMap (EditStep.weight arc.id) ++
      structural fun net => { net with arcs := net.arcs.insert arc.id arc }

/-- What an edit looks at and writes. A place is renamed in five writes: at the ends of arcs, in their weights,
in the rate parameters, in the rates, and in the places themselves. -/
def steps : NetEdit → List EditStep
  | .add component => addSteps component
  | .removePlace id =>
    [need fun net => net.place id,
      .write fun net => { net with places := net.places.erase id },
      .write fun net => { net with arcs := net.arcs.filter fun _ arc => arc.place != id },
      .write Net.touch]
  | .removeTransition id =>
    [need fun net => net.transition id,
      .write fun net => { net with transitions := net.transitions.erase id },
      .write fun net => { net with arcs := net.arcs.filter fun _ arc => arc.transition != id },
      .write Net.touch]
  | .removeArc id =>
    need (fun net => net.arc id) :: structural fun net => { net with arcs := net.arcs.erase id }
  | .removeParameter id =>
    .check (fun net =>
      match net.transitions.values.find? fun t => t.rate == .parameter id with
      | some user => .error (.inUse id .rateParameter user.id)
      | none => .ok ()) ::
      need (fun net => NetError.required id .rateParameter (net.parameters.get? id)) ::
      structural fun net => { net with parameters := net.parameters.erase id }
  | .setTokens place color n =>
    [refuse (fun net => !net.colors.contains color) (.notFound color .color),
      need fun net => net.place place,
      .write fun net => { net with
        places := net.places.modify place fun p => { p with tokens := p.tokens.insert color n } },
      .write fun net => { net with markingRevision := net.markingRevision + 1 }]
  | .setCapacity place capacity =>
    need (fun net => net.place place) ::
      structural fun net => { net with
        places := net.places.modify place fun p => { p with capacity := capacity } }
  | .setStatus place status =>
    need (fun net => net.place place) ::
      structural fun net => { net with places := net.places.modify place fun p => { p with status := status } }
  | .setWeight arc color expression =>
    reads arc expression :: refuse (fun net => !net.colors.contains color) (.notFound color .color) ::
      need (fun net => net.arc arc) ::
      structural fun net => { net with
        arcs := net.arcs.modify arc fun a => { a with weights := a.weights.insert color expression } }
  | .setRate transition rate =>
    (match rate with
      | .expression text => reads transition text
      | .parameter _ => .check fun _ => .ok ()) ::
      need (fun net => net.transition transition) ::
      structural fun net => { net with
        transitions := net.transitions.modify transition fun t => { t with rate := rate } }
  | .setDelay transition delay =>
    need (fun net => net.transition transition) ::
      structural fun net => { net with
        transitions := net.transitions.modify transition fun t => { t with delay := delay } }
  | .renamePlace old new =>
    [refuse (fun net => net.isNode new) (.duplicate new .place),
      need fun net => net.place old,
      .write fun net => { net with
        arcs := net.arcs.map fun _ arc => { arc with place := Table.renamed old new arc.place } },
      .write fun net => { net with
        arcs := net.arcs.map fun _ arc => { arc with
          weights := arc.weights.map fun _ => Net.renameInText old new } },
      .write fun net => { net with
        parameters := net.parameters.map fun _ p =>
          { p with expression := Net.renameInText old new p.expression } },
      .write fun net => { net with
        transitions := net.transitions.map fun _ t => { t with rate := Net.renameInRate old new t.rate } },
      .write fun net => { net with
        places := (net.places.rename old new).modify new fun p => { p with id := new } },
      .write Net.touch]

/-- The net after an edit that is made in place, with its outcome. -/
def carryOut (edit : NetEdit) (net : Net) : Net × Except NetError Unit := takeAll edit.steps net

end NetEdit

end PetriTree
