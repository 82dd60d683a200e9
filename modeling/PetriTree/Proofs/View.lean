import PetriTree.Proofs.Arrivals
import PetriTree.Proofs.Renaming

/-!
# PetriTree — a node's view of the joined net

A node of a tree has arcs of its own, whose weights are texts about its own places and rate parameters.
Read as what they stand for in the joined net, they say by themselves when a transition of the node is
enabled and what firing it does to a marking. Nothing of the copies is needed for that but where the
places of the node have ended.

Main results:
* `View.isEnabled`, `View.fire` — the test and the firing, told by the node's own arcs;
* `View.Mirrors` — a flat arc that does what an arc of the node does;
* `View.isEnabled_toOption`, `View.fire_toOption` — a flat net whose arcs at a transition mirror those of
  the node answers as the node does.
-/

namespace PetriTree

/-- The flat place that the copy of a place has ended in: its home if it stands for a place of another
node, and otherwise itself. -/
def IncludeTree.resolve (tree : IncludeTree) (flat : String) : String :=
  (((placesOf tree.walk).find? fun l => l.flat == flat).bind (Local.target? tree)).getD flat

/-- A node of a tree and a net that the tree is joined into. -/
structure View where
  tree : IncludeTree
  node : TreeNode
  net : FlatNet

namespace View

/-- The flat place that a place of the node stands for. -/
def place (v : View) (id : String) : String := v.tree.resolve (qualify v.node.path id)

/-- What the node's expressions look up in a marking of the net: places where they have ended, and rate
parameters under their qualified names. -/
def reading (v : View) (m : Marking) : Reading := (v.net.reading m).under v.place (qualify v.node.path)

/-- The number of tokens that a text of the node stands for. -/
def weigh (v : View) (m : Marking) (text : String) : Option Count := do
  let e ← (Expr.ofText text).toOption
  (e.evaluateWeight (v.reading m)).toOption

/-- The node's own arcs into a transition. -/
def inbound (v : View) (transition : String) : List Arc :=
  v.node.net.inboundArcs.filter fun a => a.transition == transition

/-- The node's own arcs out of a transition. -/
def outbound (v : View) (transition : String) : List Arc :=
  v.node.net.outboundArcs.filter fun a => a.transition == transition

/-! ## Firing -/

/-- What an arc moves, one transfer for every weight. -/
def transfersOf (v : View) (m : Marking) (arc : Arc) : Option (List Transfer) :=
  arc.weights.entries.mapM fun w => do
    let n ← v.weigh m w.2
    return ⟨v.place arc.place, w.1, n⟩

/-- What several arcs move. -/
def transfers (v : View) (m : Marking) (arcs : List Arc) : Option (List Transfer) := do
  let moved ← arcs.mapM (v.transfersOf m)
  return moved.flatten

/-- The marking after a transition of the node fired: what the arcs into it move is taken away and what
the arcs out of it move is added. -/
def fire (v : View) (m : Marking) (transition : String) : Option Marking := do
  let taken ← v.transfers m ((v.inbound transition).filter fun a => a.kind == .normal)
  let given ← v.transfers m (v.outbound transition)
  let left ← m.withdraw taken
  return left.deposit given

/-! ## Enabling -/

/-- Is the place of an inhibitor arc empty, altogether or in the colours the arc lists? -/
def isEmptyFor (v : View) (m : Marking) (arc : Arc) : Bool :=
  if arc.weights.entries.isEmpty then (m.total (v.place arc.place)).isZero
  else arc.weights.entries.all fun w => (m.tokens (v.place arc.place) w.1).isZero

/-- Does an arc into a transition find what it asks for? -/
def isSatisfied (v : View) (m : Marking) (arc : Arc) : Option Bool :=
  match arc.kind with
  | .inhibitor => some (v.isEmptyFor m arc)
  | .normal | .test => arc.weights.entries.allM fun w => do
    let n ← v.weigh m w.2
    return ((m.tokens (v.place arc.place) w.1).sub? n).isSome

/-- Has every bounded place that the transition fills, but is not fed from, room for all that arrives? -/
def hasRoom (v : View) (m : Marking) (transition : String) : Option Bool := do
  let sources := (v.inbound transition).map fun a => v.place a.place
  let filling := (v.outbound transition).filter fun a =>
    !decide (v.net.capacity (v.place a.place) = 0 ∨ v.place a.place ∈ sources)
  let arriving ← v.transfers m filling
  return filling.all fun a =>
    v.net.hasRoom m (v.place a.place) (arrivalsAt (v.place a.place) Count.zero arriving)

/-- Is a transition of the node enabled? The first arc into it that does not find what it asks for
decides. -/
def isEnabled (v : View) (m : Marking) (transition : String) : Option Bool := do
  if ← (v.inbound transition).allM (v.isSatisfied m) then v.hasRoom m transition else return false

/-! ## Arcs that do the same -/

/-- Does a flat arc do what an arc of the node does? -/
structure Mirrors (v : View) (m : Marking) (arc : Arc) (flat : FlatArc) : Prop where
  kind : flat.arc.kind = arc.kind
  place : flat.arc.place = v.place arc.place
  weights : List.Forall₂ (fun w d => d.1 = w.1 ∧
    (d.2.evaluateWeight (v.net.reading m)).toOption = v.weigh m w.2) arc.weights.entries flat.weights

variable {v : View} {m : Marking} {arc : Arc} {flat : FlatArc} {arcs : List Arc} {flats : List FlatArc}

theorem weigh_toOption (net : FlatNet) (m : Marking) (arc : String) (e : Expr) :
    (net.weigh m arc e).toOption = (e.evaluateWeight (net.reading m)).toOption := by
  unfold FlatNet.weigh
  cases e.evaluateWeight (net.reading m) <;> rfl

theorem Mirrors.transfersOf (h : v.Mirrors m arc flat) :
    (v.net.transfersOf m flat.arc flat.weights).toOption = v.transfersOf m arc := by
  have hweights := h.weights
  -- the place is the same for all weights, so only these are left to compare
  rw [View.transfersOf, ← h.place]
  generalize arc.weights.entries = ws, flat.weights = ds at hweights
  induction hweights with
  | nil => rfl
  | cons hd _ ih =>
    obtain ⟨hcolor, hweigh⟩ := hd
    rw [FlatNet.transfersOf, toOption_bind, weigh_toOption, hweigh, List.mapM_cons, hcolor]
    cases v.weigh m _ with
    | none => rfl
    | some n =>
      rw [Option.bind_some, toOption_bind, ih]
      rfl

theorem transfers_cons (v : View) (m : Marking) (arc : Arc) (rest : List Arc) :
    v.transfers m (arc :: rest) = (v.transfersOf m arc).bind fun first =>
      (v.transfers m rest).map fun others => first ++ others := by
  rw [transfers, transfers, List.mapM_cons]
  cases v.transfersOf m arc with
  | none => rfl
  | some first => cases rest.mapM (v.transfersOf m) <;> rfl

/-- Arcs that do the same move the same. -/
theorem transfers_toOption (h : List.Forall₂ (v.Mirrors m) arcs flats) :
    (v.net.transfers m flats).toOption = v.transfers m arcs := by
  induction h with
  | nil => rfl
  | cons hd _ ih =>
    rw [FlatNet.transfers_cons_toOption, hd.transfersOf, ih, transfers_cons]

theorem isSome_sub?_of_isZero {n : Count} (h : n.isZero = true) (tokens : Count) :
    (tokens.sub? n).isSome = true := by
  rw [Count.isZero_iff] at h
  subst h
  cases tokens with
  | infinite => rfl
  | finite a => simp [Count.sub?, Count.zero, Count.ofNat]

/-- A weight of zero is always held, so the flat test need not ask for it. -/
theorem Mirrors.holdsWeights (h : v.Mirrors m arc flat) :
    (v.net.holdsWeights m flat.arc flat.weights).toOption = arc.weights.entries.allM fun w => do
      let n ← v.weigh m w.2
      return ((m.tokens (v.place arc.place) w.1).sub? n).isSome := by
  have hweights := h.weights
  rw [← h.place]
  generalize arc.weights.entries = ws, flat.weights = ds at hweights
  induction hweights with
  | nil => rfl
  | @cons w d _ _ hd _ ih =>
    obtain ⟨hcolor, hweigh⟩ := hd
    rw [FlatNet.holdsWeights, toOption_bind, weigh_toOption, hweigh, List.allM_cons, hcolor]
    cases v.weigh m w.2 with
    | none => rfl
    | some n =>
      cases hsub : (m.tokens flat.arc.place w.1).sub? n with
      | some after => simpa [hsub] using ih
      | none =>
        -- the flat test looks only where the weight is not zero
        have hpositive : n.isZero = false := by
          cases hzero : n.isZero with
          | false => rfl
          | true => simpa [hsub] using isSome_sub?_of_isZero hzero (m.tokens flat.arc.place w.1)
        simp [hsub, hpositive]
        rfl

theorem Mirrors.isEmptyFor (h : v.Mirrors m arc flat) : FlatNet.isEmptyFor m flat = v.isEmptyFor m arc := by
  -- only the colours of the weights count
  have hcolors : flat.weights.map Prod.fst = arc.weights.entries.map Prod.fst := names_of_forall₂ h.weights
  have hempty : flat.weights.isEmpty = arc.weights.entries.isEmpty := by
    have hnone := congrArg List.isEmpty hcolors
    rwa [List.isEmpty_map, List.isEmpty_map] at hnone
  have hall : (flat.weights.all fun w => (m.tokens flat.arc.place w.1).isZero) =
      arc.weights.entries.all fun w => (m.tokens (v.place arc.place) w.1).isZero :=
    all_eq_of_forall₂ h.weights fun w d hd => by rw [hd.1, h.place]
  rw [FlatNet.isEmptyFor, View.isEmptyFor, hempty, hall, h.place]

theorem Mirrors.isSatisfied (h : v.Mirrors m arc flat) :
    (v.net.isSatisfied m flat).toOption = v.isSatisfied m arc := by
  rw [FlatNet.isSatisfied, View.isSatisfied, h.kind]
  cases arc.kind with
  | inhibitor => exact congrArg some h.isEmptyFor
  | normal => exact h.holdsWeights
  | test => exact h.holdsWeights

/-- Arcs that do the same are satisfied together. -/
theorem areSatisfied_toOption (h : List.Forall₂ (v.Mirrors m) arcs flats) :
    (v.net.areSatisfied m flats).toOption = arcs.allM (v.isSatisfied m) := by
  induction h with
  | nil => rfl
  | cons hd _ ih =>
    rw [FlatNet.areSatisfied, toOption_bind, hd.isSatisfied, List.allM_cons]
    cases v.isSatisfied m _ with
    | none => rfl
    | some satisfied =>
      cases satisfied with
      | false => rfl
      | true => exact ih

theorem places_of_mirrors (h : List.Forall₂ (v.Mirrors m) arcs flats) :
    (flats.map fun a => a.arc.place) = arcs.map fun a => v.place a.place :=
  map_eq_of_forall₂ h fun _ _ hd => hd.place

theorem filter_mirrors {p : Arc → Bool} {q : FlatArc → Bool} (h : List.Forall₂ (v.Mirrors m) arcs flats)
    (hpq : ∀ arc flat, v.Mirrors m arc flat → p arc = q flat) :
    List.Forall₂ (v.Mirrors m) (arcs.filter p) (flats.filter q) :=
  List.rel_filter (fun arc flat hmirrors => iff_of_eq (congrArg (· = true) (hpq arc flat hmirrors))) h

/-! ## Nets that answer as the node does -/

/-- The arcs of the net at a flat transition mirror those of the node at its own transition. -/
structure Reflects (v : View) (m : Marking) (transition flat : String) : Prop where
  known : v.net.transitions.contains flat = true
  inbound : List.Forall₂ (v.Mirrors m) (v.inbound transition) (v.net.inbound flat)
  outbound : List.Forall₂ (v.Mirrors m) (v.outbound transition) (v.net.outbound flat)

variable {transition id : String}

theorem fire_toOption (h : v.Reflects m transition id) :
    (v.net.fire m id).toOption = v.fire m transition := by
  have htaking : List.Forall₂ (v.Mirrors m)
      ((v.inbound transition).filter fun a => a.kind == .normal) (v.net.taking id) :=
    filter_mirrors h.inbound fun arc flat hmirrors => by rw [hmirrors.kind]
  have hgive : ∀ left, (v.net.giveAll m left (v.net.outbound id)).toOption =
      (v.transfers m (v.outbound transition)).map left.deposit := by
    intro left
    rw [FlatNet.giveAll_eq, ← transfers_toOption h.outbound]
    cases v.net.transfers m (v.net.outbound id) <;> rfl
  rw [FlatNet.fire, toOption_bind, FlatNet.takeAll_toOption, transfers_toOption htaking, View.fire]
  simp only [hgive]
  -- when taking fails, giving is not evaluated any more, which makes no difference to the outcome
  cases v.transfers m _ with
  | none => rfl
  | some taken =>
    cases v.transfers m (v.outbound transition) with
    | none => cases hleft : m.withdraw taken <;> simp [hleft]
    | some given => cases hleft : m.withdraw taken <;> simp [hleft]

theorem hasRoom_toOption (h : v.Reflects m transition id) :
    (do
      let arrivals ← v.net.addArrivals m ((v.net.inbound id).map fun a => a.arc.place) SortedMap.empty
        (v.net.outbound id)
      return arrivals.entries.all fun e => v.net.hasRoom m e.1 e.2 : Except FiringError Bool).toOption =
    v.hasRoom m transition := by
  rw [FlatNet.hasRoomForAll_toOption, places_of_mirrors h.inbound, View.hasRoom]
  set sources := (v.inbound transition).map fun a => v.place a.place
  have hfilling : List.Forall₂ (v.Mirrors m)
      ((v.outbound transition).filter fun a =>
        !decide (v.net.capacity (v.place a.place) = 0 ∨ v.place a.place ∈ sources))
      (v.net.filling sources (v.net.outbound id)) :=
    filter_mirrors h.outbound fun arc flat hmirrors => by rw [hmirrors.place]
  rw [transfers_toOption hfilling]
  cases v.transfers m _ with
  | none => rfl
  | some ts =>
    -- both ask about the same places, in order
    refine congrArg some (all_eq_of_forall₂ hfilling fun arc flat hmirrors => ?_)
    rw [hmirrors.place]

theorem isEnabled_toOption (h : v.Reflects m transition id) :
    (v.net.isEnabled m id).toOption = v.isEnabled m transition := by
  have hsatisfied := areSatisfied_toOption h.inbound
  have hroom := hasRoom_toOption h
  rw [FlatNet.isEnabled, h.known, View.isEnabled, ← hsatisfied, ← hroom]
  -- the net knows the transition, so the answer starts with the arcs into it
  show (v.net.areSatisfied m (v.net.inbound id) >>= _).toOption = _
  rw [toOption_bind]
  cases v.net.areSatisfied m (v.net.inbound id) with
  | error x => rfl
  | ok satisfied => cases satisfied <;> rfl

end View

end PetriTree
