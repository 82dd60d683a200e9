import PetriTree.Live.Cache
import PetriTree.Live.Sync

/-!
# PetriTree — sessions

Several live nets are worked on side by side and share one cache. A session is those nets with the
cache. A request edits one of the nets, asks which of its transitions may fire, or makes the cache
forget. An edit that is refused leaves its net as it was.

* `LiveEdit`, `LiveNet.edited` — what can be done to a live net without firing;
* `Request`, `Session.perform` — one request;
* `Session.performAll` — a run.
-/

namespace PetriTree

/-- A request to change a live net. -/
inductive LiveEdit where
  | setTokens (place color : String) (n : Count)
  | setMarking (m : Marking)
  | setDelay (transition : String) (delay : UInt64)
  | requireRefresh
  | pull (tree : IncludeTree)
  | refresh (tree : IncludeTree)

namespace LiveNet

/-- The net after a change that may have been refused. -/
def orKeep (live : LiveNet) : Except ε LiveNet → LiveNet
  | .ok after => after
  | .error _ => live

/-- The net after an edit. -/
def edited (live : LiveNet) : LiveEdit → LiveNet
  | .setTokens place color n => live.orKeep (live.setTokens place color n)
  | .setMarking m => { live with marking := m }
  | .setDelay transition delay => live.orKeep (live.setDelay transition delay)
  | .requireRefresh => live.requireRefresh
  | .pull tree => live.orKeep (live.pull tree)
  | .refresh tree => live.orKeep (live.refresh tree).2

end LiveNet

/-- Live nets and the cache that answers for all of them. -/
structure Session where
  nets : List LiveNet
  cache : EnabledCache

/-- A request to a session; nets are known by their places in the list. -/
inductive Request where
  | edit (net : Nat) (edit : LiveEdit)
  | candidates (net : Nat) (m : Marking)
  | successors (net : Nat) (m : Marking) (early : Bool)
  /-- The cache starts anew. -/
  | forget

namespace Session

def start (nets : List LiveNet) : Session := ⟨nets, EnabledCache.empty⟩

/-- The session after one of its nets was asked; there is nothing to ask where no net is. -/
def asked (s : Session) (net : Nat) (cacheAfter : LiveNet → EnabledCache) : Session :=
  match s.nets[net]? with
  | none => s
  | some live => { s with cache := cacheAfter live }

/-- The session after a request. -/
def perform (s : Session) : Request → Session
  | .edit net edit => { s with nets := s.nets.modify net fun live => live.edited edit }
  | .candidates net m => s.asked net fun live => (s.cache.candidates live m).1
  | .successors net m early => s.asked net fun live => (s.cache.successors live m early).1
  | .forget => { s with cache := EnabledCache.empty }

/-- The session after several requests. -/
def performAll (s : Session) (requests : List Request) : Session := requests.foldl perform s

end Session

end PetriTree
