import PetriTree.Expr.Reader
import PetriTree.Flat.Bindings
import PetriTree.Flat.Error
import PetriTree.Tree

/-!
# PetriTree — the parts of a joined net

Joining starts by copying the components of every node into one collection, ids qualified by the
path of the node. Colours are shared: of several with one id the first is kept. Then every place
that stands for a place of another node is merged into it, and all that referred to the copy refers
to the home place. Expressions are still texts.

* `Assembly.ofTree` — the copies of all components;
* `Assembly.merge` — one interface place merged into its home;
* `Assembly.joined` — both steps.
-/

namespace PetriTree

/-- A copied place whose home is in another node. -/
structure AwayPlace where
  flatId : String
  consumer : String
  home : HomeRef
deriving DecidableEq

/-- The components of several nodes in one name space. -/
structure Assembly where
  colors : Table TokenColor
  notes : Table Note
  places : Table Place
  parameters : Table RateParameter
  transitions : Table Transition
  arcs : Table Arc
  bindings : Bindings
  aways : List AwayPlace

namespace Assembly

def empty : Assembly :=
  ⟨Table.empty, Table.empty, Table.empty, Table.empty, Table.empty, Table.empty, Bindings.empty, []⟩

/-! ## Expressions as texts -/

/-- The expression of a text that belongs to a component. -/
def read (component text : String) : Except FlattenError Expr :=
  match Expr.ofText text with
  | .ok e => .ok e
  | .error cause => .error (.invalidExpression component cause)

/-- The text with places and parameters renamed. A text that mentions neither stays as it was
written. -/
def renameText (component : String) (places parameters : String → String) (text : String) :
    Except FlattenError String := do
  let e ← read component text
  -- what is not renamed keeps its blanks and brackets
  if e.placeMentions.isEmpty && e.parameterMentions.isEmpty then return text
  return (e.rename places parameters).text

def qualifyText (path component text : String) : Except FlattenError String :=
  renameText component (qualify path) (qualify path) text

/-- An arc with every weight changed. -/
def mapWeights (f : String → Except FlattenError String) (arc : Arc) : Except FlattenError Arc := do
  return { arc with weights := ← arc.weights.mapExcept fun _ => f }

/-- A rate with its text changed; a rate parameter stays. -/
def mapRate (f : String → Except FlattenError String) : Rate → Except FlattenError Rate
  | .expression text => do return .expression (← f text)
  | .parameter id => .ok (.parameter id)

/-! ## Copying a node -/

/-- The table with a new entry, whose id must be new. -/
def insertNew (t : Table α) (id : String) (value : α) (kind : ComponentKind) :
    Except FlattenError (Table α) :=
  if t.contains id then .error (.duplicateId id kind) else .ok (t.insert id value)

def addColor (a : Assembly) (color : TokenColor) : Assembly :=
  -- nodes share their colours: the first definition of a colour counts
  if a.colors.contains color.id then a else { a with colors := a.colors.insert color.id color }

def addNote (path : String) (a : Assembly) (note : Note) : Except FlattenError Assembly := do
  let flat := qualify path note.id
  return { a with notes := ← insertNew a.notes flat { note with id := flat } .note }

/-- The home of a place that stands for a place of another node. -/
def foreignHome (id : NodeId) (status : PlaceStatus) : Option HomeRef :=
  if status.merge = .inUse then status.home.filter fun home => home.node != id else none

/-- Copies a place and binds it; one that stands for a place of another node is noted. -/
def addPlace (id : NodeId) (node : TreeNode) (a : Assembly) (place : Place) : Except FlattenError Assembly := do
  let flat := qualify node.path place.id
  if a.transitions.contains flat then .error (.duplicateId flat .place)
  let copy := { place with id := flat }
  -- a copy of a foreign place waits in the table until every node is there
  let (copy, aways) := match foreignHome id place.status with
    | none => (copy, a.aways)
    | some home =>
      ({ copy with status := { place.status with merge := .away } },
        a.aways ++ [⟨flat, node.qualifiedName, home⟩])
  return { a with
    places := ← insertNew a.places flat copy .place
    bindings := a.bindings.bind ⟨id, place.id⟩ flat
    aways := aways }

def addParameter (path : String) (a : Assembly) (parameter : RateParameter) : Except FlattenError Assembly := do
  let flat := qualify path parameter.id
  let expression ← qualifyText path flat parameter.expression
  return { a with parameters := ← insertNew a.parameters flat ⟨flat, expression⟩ .rateParameter }

/-- The rate of a transition inside a node with the given path. -/
def qualifyRate (path component : String) : Rate → Except FlattenError Rate
  | .expression text => do return .expression (← qualifyText path component text)
  | .parameter id => .ok (.parameter (qualify path id))

def addTransition (path : String) (a : Assembly) (transition : Transition) : Except FlattenError Assembly := do
  let flat := qualify path transition.id
  if a.places.contains flat then .error (.duplicateId flat .transition)
  let rate ← qualifyRate path flat transition.rate
  let copy := { transition with id := flat, rate := rate }
  return { a with transitions := ← insertNew a.transitions flat copy .transition }

def addArc (path : String) (a : Assembly) (arc : Arc) : Except FlattenError Assembly := do
  let flat := qualify path arc.id
  let arc := { arc with
    id := flat
    place := qualify path arc.place
    transition := qualify path arc.transition }
  let arc ← mapWeights (qualifyText path flat) arc
  return { a with arcs := ← insertNew a.arcs flat arc .arc }

/-- Copies every component of a node: arcs into transitions come before arcs out of them. -/
def addNode (a : Assembly) (id : NodeId) (node : TreeNode) : Except FlattenError Assembly := do
  let net := node.net
  let a := net.colors.values.foldl addColor a
  let a ← net.notes.values.foldlM (addNote node.path) a
  let a ← net.places.values.foldlM (addPlace id node) a
  let a ← net.parameters.values.foldlM (addParameter node.path) a
  let a ← net.transitions.values.foldlM (addTransition node.path) a
  (net.inboundArcs ++ net.outboundArcs).foldlM (addArc node.path) a

/-- The copies of the components of every node, parents before children. -/
def ofTree (tree : IncludeTree) : Except FlattenError Assembly :=
  tree.walk.foldlM (fun a e => a.addNode e.1 e.2) empty

/-! ## Merging interface places -/

/-- The flat id of the home of an away place, if that home is there. -/
def homeOf (a : Assembly) (tree : IncludeTree) (home : HomeRef) : Option String := do
  let node ← tree.node? home.node
  let flat := qualify node.path home.place
  let place ← a.places.get? flat
  if place.status.merge = .home then some flat else none

/-- Merges an away place into its home: what referred to it refers to the home, and its own tokens
are dropped. -/
def merge (tree : IncludeTree) (a : Assembly) (away : AwayPlace) : Except FlattenError Assembly := do
  match a.homeOf tree away.home with
  | none => .error (.missingHome away.flatId away.consumer)
  | some home =>
    let redirect := Table.renamed away.flatId home
    -- parameters keep their names: only places are merged
    let arcs ← a.arcs.mapExcept fun _ arc =>
      mapWeights (renameText arc.id redirect id) { arc with place := redirect arc.place }
    let parameters ← a.parameters.mapExcept fun _ p => do
      return { p with expression := ← renameText p.id redirect id p.expression }
    let transitions ← a.transitions.mapExcept fun _ t => do
      return { t with rate := ← mapRate (renameText t.id redirect id) t.rate }
    return { a with
      arcs := arcs
      parameters := parameters
      transitions := transitions
      places := a.places.erase away.flatId
      bindings := a.bindings.redirect away.flatId home }

/-- The copies of all components, every interface place merged into its home. -/
def joined (tree : IncludeTree) : Except FlattenError Assembly := do
  let a ← ofTree tree
  a.aways.foldlM (merge tree) a

end Assembly

end PetriTree
