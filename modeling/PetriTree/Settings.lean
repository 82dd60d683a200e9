import PetriTree.Toml.Reader
import PetriTree.Tree

/-!
# PetriTree — settings

Settings are read from a TOML document. Each has a default, so any may be missing, and what is not a
setting is passed over.

* `Settings` — the settings, with their defaults;
* `Settings.ofText?` — the settings of a document.
-/

namespace PetriTree

/-- How trees are made and simulations run. -/
structure Settings where
  /-- The nodes that see a place once it is published. -/
  accessScope : Scope := Scope.standard
  /-- The time a simulation starts at. -/
  startTime : UInt64 := 0
  /-- Where random choices start, if they are to be the same every time. -/
  seed : Option UInt64 := none
  /-- The pause between two rounds of playback, in milliseconds. -/
  tick : UInt64 := 100
  /-- What a round of playback adds to the clock. -/
  step : UInt64 := 100
  /-- The bound on the nodes of a state space. -/
  maxStates : UInt64 := 10000
deriving DecidableEq

namespace Settings

instance : Inhabited Settings := ⟨{}⟩

def word? : Toml → Option UInt64
  | .int n => if 0 ≤ n ∧ n ≤ 0xffffffffffffffff then some (UInt64.ofNat n.toNat) else none
  | _ => none

def isNothing : Toml → Bool
  | .table [] | .arr [] => true
  | _ => false

/-- A scope by name; a table with nothing but that name as a key, which carries nothing, counts too. -/
def scope? : Toml → Option Scope
  | .str name => Scope.named? name
  | .table [(name, value)] => if isNothing value then Scope.named? name else none
  | _ => none

/-- The value of a setting, or its default when the document does not mention it. -/
def setting? (document : Toml) (key : String) (read : Toml → Option α) (standard : α) : Option α :=
  match document.field? key with
  | none => some standard
  | some value => read value

/-- The settings of a document; nothing when one of them has a value it cannot have. -/
def ofToml? (document : Toml) : Option Settings := do
  some {
    accessScope := ← setting? document "interface_access_scope" scope? Scope.standard
    startTime := ← setting? document "start_time" word? 0
    seed := ← setting? document "seed" (fun value => (word? value).map some) none
    tick := ← setting? document "playback_tick_ms" word? 100
    step := ← setting? document "playback_step_ms" word? 100
    maxStates := ← setting? document "max_states" word? 10000 }

/-- The settings of a text; nothing when the text is not a document of settings. -/
def ofText? (text : String) : Option Settings := (Toml.ofText? text).bind ofToml?

end Settings

end PetriTree
