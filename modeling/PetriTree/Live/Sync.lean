import PetriTree.Live.Net

/-!
# PetriTree — tokens between a live net and its sources

Tokens travel between the flat places of a live net and the places of the tree they are bound to.

* `LiveNet.push` — the marking written into every source;
* `LiveNet.pull` — the marking read from the first source of every flat place.
-/

namespace PetriTree.LiveNet

/-- Writes the tokens of a flat place into a source place, in the colours the source net has. -/
def pushColors (m : Marking) (flat place : String) : List String → Net → Net × Except NetError Unit
  | [], net => (net, .ok ())
  | color :: rest, net =>
    -- a colour that only other nodes define has no tokens here
    if !net.colors.contains color then pushColors m flat place rest net
    else
      match net.setTokens place color (m.tokens flat color) with
      | .error e => (net, .error e)
      | .ok net => pushColors m flat place rest net

/-- Writes the tokens of flat places into their sources, one after the other. What was written before
a failure stays written. -/
def pushPairs (m : Marking) (colors : List String) :
    List (String × SourcePlace) → IncludeTree → IncludeTree × Except NetError Unit
  | [], tree => (tree, .ok ())
  | (flat, source) :: rest, tree =>
    match tree.net? source.node with
    | none => (tree, .error (.notFound source.place .place))
    | some net =>
      match pushColors m flat source.place colors net with
      -- the colours before the one that failed are written all the same
      | (net, .error e) => (tree.setNet source.node net, .error e)
      | (net, .ok ()) => pushPairs m colors rest (tree.setNet source.node net)

def sourcePairs (net : FlatNet) : List (String × SourcePlace) :=
  net.bindings.sources.entries.flatMap fun e => e.2.map fun source => (e.1, source)

/-- Writes the current marking into every source place. -/
def push (live : LiveNet) (tree : IncludeTree) : IncludeTree × Except NetError Unit :=
  pushPairs live.marking live.net.colors.names (sourcePairs live.net) tree

/-- The marking with the tokens of several flat places read from their first sources. -/
def pullPairs (tree : IncludeTree) (colors : List String) :
    List (String × SourcePlace) → Marking → Except NetError Marking
  | [], m => .ok m
  | (flat, source) :: rest, m => do
    let net ← NetError.required source.place .place (tree.net? source.node)
    -- colours the source lacks read as zero and so clear what the marking held
    let place ← net.place source.place
    pullPairs tree colors rest (colors.foldl (fun m color => m.put flat color (place.count color)) m)

/-- Every flat place that has a source, with the first. -/
def primaryPairs (net : FlatNet) : List (String × SourcePlace) :=
  net.bindings.sources.entries.filterMap fun e => e.2.head?.map fun source => (e.1, source)

/-- Reads the marking from the first source of every flat place. -/
def pull (live : LiveNet) (tree : IncludeTree) : Except NetError LiveNet := do
  let m ← pullPairs tree live.net.colors.names (primaryPairs live.net) live.marking
  return { live with marking := m }

end PetriTree.LiveNet
