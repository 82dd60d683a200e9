import PetriTree.Net.Document
import PetriTree.StateSpace

/-!
# PetriTree — reports of state spaces

A state space is written as a document, or as a picture in the DOT language: one box per node, with a
double circle around those in which nothing may fire, and one arrow per edge.

* `StateSpace.toJson`, `StateSpace.jsonText` — the document;
* `StateSpace.dotText` — the picture.
-/

namespace PetriTree.StateSpace

/-! ## The document -/

def jsonOfNames (names : SortedSet String) : Json := .arr (names.toList.map Json.str)

def jsonOfStats (space : StateSpace) : Json :=
  .obj [
    ("state_count", .nat space.nodes.length),
    ("edge_count", .nat space.edges.length),
    ("deadlock_count", .nat space.deadCount),
    ("truncated", .bool space.isTruncated)]

def jsonOfNode (node : StateNode) (index : Nat) : Json :=
  .obj [
    ("index", .nat index),
    ("marking", Document.ofMarking node.marking),
    ("enabled", jsonOfNames node.enabled),
    ("dead", .bool node.isDead)]

def jsonOfEdge (edge : StateEdge) : Json :=
  .obj [
    ("source", .nat edge.source),
    ("target", .nat edge.target),
    ("transitions", jsonOfNames edge.transitions)]

def jsonOfFailure (failure : StateFailure) : Json :=
  .obj [
    ("state", .nat failure.state),
    ("transition", .str failure.component),
    ("reason", .str failure.reason)]

def toJson (space : StateSpace) : Json :=
  .obj [
    ("net", .str space.name),
    ("stats", jsonOfStats space),
    ("states", .arr (space.nodes.zipIdx.map fun (node, index) => jsonOfNode node index)),
    ("edges", .arr (space.edges.map jsonOfEdge)),
    ("failures", .arr (space.failures.map jsonOfFailure))]

/-- The document, indented. -/
def jsonText (space : StateSpace) : String := space.toJson.pretty

/-! ## The picture -/

/-- Text inside a quoted label: a backslash goes before quotes and backslashes, and nothing else is
touched. -/
def escapeLabel (text : String) : String :=
  String.ofList (text.toList.flatMap fun c => if c = '\\' ∨ c = '"' then ['\\', c] else [c])

/-- The lines of the label of a node, set apart by the line break of the DOT language. -/
def nodeLabel (node : StateNode) (index : Nat) : String :=
  let enabled := ", ".intercalate (node.enabled.toList.map escapeLabel)
  "s" ++ toString index ++ "\\n" ++ escapeLabel node.marking.text ++
    (if node.enabled.isEmpty then "" else "\\nenabled: " ++ enabled)

def nodeLine (node : StateNode) (index : Nat) : String :=
  "    " ++ toString index ++ " [ label=\"" ++ nodeLabel node index ++ "\"" ++
    (if node.isDead then ", shape=doublecircle" else "") ++ "]\n"

def edgeLine (edge : StateEdge) : String :=
  "    " ++ toString edge.source ++ " -> " ++ toString edge.target ++ " [ label=\"" ++
    escapeLabel (", ".intercalate edge.transitions.toList) ++ "\"]\n"

def dotText (space : StateSpace) : String :=
  "digraph \x7b\n" ++ String.join (space.nodes.zipIdx.map fun (node, index) => nodeLine node index) ++
    String.join (space.edges.map edgeLine) ++ "\x7d\n"

end PetriTree.StateSpace
