import PetriTree.Proofs.TreeCommand

/-!
# PetriTree — small nets

Nets of a few components, written down once and used where a theorem is applied to a net that can be
computed with.

* `Sample.place`, `Sample.transition`, `Sample.arc` — components with everything else as it is by default;
* `Sample.netOf` — the net of some components;
* `Sample.single`, `Sample.pair`, `Sample.also` — trees of one, of two and of more nets, which commands lead to.
-/

namespace PetriTree.Sample

/-- A place with tokens of the default colour and without a bound. -/
def placeOf (status : PlaceStatus) (id : String) (tokens : Nat) : Place :=
  ⟨id, Table.empty.insert defaultColor (Count.ofNat tokens), 0, status⟩

/-- A place that no other node knows. -/
def place (id : String) (tokens : Nat) : Component := .place (placeOf PlaceStatus.plain id tokens)

/-- An immediate transition. -/
def transition (id : String) (rate : Rate) : Component := .transition ⟨id, 1, .immediate, rate, 0, none⟩

/-- An arc that carries the default colour. -/
def arc (id place transition : String) (direction : ArcDirection) (weight : String) : Component :=
  .arc ⟨id, place, transition, direction, .normal, Table.empty.insert defaultColor weight, []⟩

/-- The net of the components. -/
def netOf (components : List Component) : Net := ((Net.new "sample").addAll components).1

/-- The tree of a single net. -/
def single (components : List Component) : IncludeTree := IncludeTree.new (netOf components) "root"

/-- The tree of two nets, the second one included in the first. -/
def pair (above below : List Component) (name : String) : IncludeTree :=
  match (single above).attach IncludeTree.rootId (netOf below) name with
  | .ok (_, tree) => tree
  | .error _ => single above

/-- The tree with one more net included in its root. -/
def also (tree : IncludeTree) (components : List Component) (name : String) : IncludeTree :=
  match tree.attach IncludeTree.rootId (netOf components) name with
  | .ok (_, tree) => tree
  | .error _ => tree

theorem built_netOf (components : List Component) : (netOf components).Built :=
  (Net.Built.new "sample").addAll components

theorem reachable_single (components : List Component) : (single components).Reachable :=
  .new "root" (built_netOf components)

theorem reachable_also {tree : IncludeTree} (h : tree.Reachable) (components : List Component) (name : String) :
    (also tree components name).Reachable := by
  have hperform := h.perform (.attach IncludeTree.rootId (netOf components) name)
    fun parent net name hattach => by
      cases hattach
      exact built_netOf components
  unfold also
  rw [IncludeTree.perform] at hperform
  cases hattach : tree.attach IncludeTree.rootId (netOf components) name with
  | error report => exact h
  | ok result =>
    rw [hattach] at hperform
    exact hperform

theorem reachable_pair (above below : List Component) (name : String) : (pair above below name).Reachable :=
  reachable_also (reachable_single above) below name

end PetriTree.Sample
