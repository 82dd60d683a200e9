import PetriTree.Flat.Compile
import PetriTree.Live.Net
import PetriTree.Proofs.Cycle
import PetriTree.Proofs.Merge

/-!
# PetriTree — what compiling checks

Compiling reads every expression once and refuses a net in which one mentions something that is not
there. What is left after a successful run is a net whose expressions are those of its texts, mention
known things only, and define its rate parameters without a cycle.

Main results:
* `FlatNet.Knows` — an expression mentions places, colours and rate parameters of the net only;
* `FlatNet.CompiledFrom` — the components of a flat net in terms of those of an assembly;
* `FlatNet.compiledFrom_of_ofTree` — the flat net of a tree is compiled from the joined tree.
-/

namespace PetriTree

/-- Everything an expression mentions is in the tables. -/
structure Expr.KnownIn (e : Expr) (places : Table Place) (colors : Table TokenColor)
    (parameters : Table RateParameter) : Prop where
  places : ∀ place ∈ e.placeMentions, places.contains place = true
  colors : ∀ color ∈ e.colorMentions, colors.contains color = true
  parameters : ∀ id ∈ e.parameterMentions, parameters.contains id = true

/-- The expressions of a flat net: those of rate parameters, rates and weights. -/
inductive FlatNet.Holds (net : FlatNet) : Expr → Prop
  | parameter {id : String} {e : Expr} : (id, e) ∈ net.definitions → Holds net e
  | rate {t : FlatTransition} : t ∈ net.transitions.values → Holds net t.rate
  | weight {arc : FlatArc} {color : String} {e : Expr} : arc ∈ net.arcs.values →
      (color, e) ∈ arc.weights → Holds net e

/-- Everything an expression mentions is in the net. -/
def FlatNet.Knows (net : FlatNet) (e : Expr) : Prop := e.KnownIn net.places net.colors net.parameters

namespace Assembly

/-- Everything an expression mentions is in the assembly. -/
def Knows (a : Assembly) (e : Expr) : Prop := e.KnownIn a.places a.colors a.parameters

variable {a : Assembly}

theorem firstMissing_eq_none {mentions : SortedSet String} {t : Table α} :
    firstMissing mentions t = none ↔ ∀ id ∈ mentions.toList, t.contains id = true := by
  simp [firstMissing]

theorem checkMentions_eq_ok {component : String} {e : Expr} :
    a.checkMentions component e = .ok () ↔ a.Knows e := by
  unfold checkMentions
  constructor
  · intro h
    split at h
    · cases h
    · rename_i hplaces
      split at h
      · cases h
      · rename_i hcolors
        split at h
        · cases h
        · rename_i hparameters
          exact ⟨fun place hp => firstMissing_eq_none.1 hplaces place (Expr.mem_mentionedPlaces.2 hp),
            fun color hc => firstMissing_eq_none.1 hcolors color (Expr.mem_mentionedColors.2 hc),
            fun id hid => firstMissing_eq_none.1 hparameters id (Expr.mem_mentionedParameters.2 hid)⟩
  · intro h
    rw [firstMissing_eq_none.2 fun place hp => h.places place (Expr.mem_mentionedPlaces.1 hp),
      firstMissing_eq_none.2 fun color hc => h.colors color (Expr.mem_mentionedColors.1 hc),
      firstMissing_eq_none.2 fun id hid => h.parameters id (Expr.mem_mentionedParameters.1 hid)]

theorem compileText_eq_ok {component text : String} {e : Expr} :
    a.compileText component text = .ok e ↔ Expr.ofText text = .ok e ∧ a.Knows e := by
  simp only [compileText, bind_eq_ok, read_eq_ok, pure_eq_ok]
  constructor
  · rintro ⟨e', he', ⟨⟩, hknows, rfl⟩
    exact ⟨he', checkMentions_eq_ok.1 hknows⟩
  · rintro ⟨he, hknows⟩
    exact ⟨e, he, (), checkMentions_eq_ok.2 hknows, rfl⟩

/-- Is the pair the definition of a rate parameter? -/
def Defines (a : Assembly) (p : RateParameter) (d : String × Expr) : Prop :=
  d.1 = p.id ∧ Expr.ofText p.expression = .ok d.2 ∧ a.Knows d.2

theorem compileParameters_eq_ok :
    ∀ {ps : List RateParameter} {definitions : List (String × Expr)},
      a.compileParameters ps = .ok definitions → List.Forall₂ a.Defines ps definitions
  | [], _, h => by
    cases h
    exact .nil
  | p :: rest, _, h => by
    simp only [compileParameters, bind_eq_ok, compileText_eq_ok] at h
    obtain ⟨e, he, others, hothers, h⟩ := h
    cases h
    exact .cons ⟨rfl, he⟩ (compileParameters_eq_ok hothers)

theorem keys_of_defines {ps : List RateParameter} {definitions : List (String × Expr)}
    (h : List.Forall₂ a.Defines ps definitions) : definitions.map Prod.fst = ps.map RateParameter.id :=
  map_eq_of_forall₂ h fun _ _ hd => hd.1

/-- The expression of a rate: its text read, or the rate parameter itself. -/
def RateReads : Rate → Expr → Prop
  | .expression text, e => Expr.ofText text = .ok e
  | .parameter id, e => e = .parameter id

theorem compileTransition_eq_ok {t : Transition} {d : FlatTransition} (h : a.compileTransition t = .ok d) :
    d.transition = t ∧ RateReads t.rate d.rate ∧ a.Knows d.rate := by
  unfold compileTransition at h
  cases hrate : t.rate with
  | expression text =>
    simp only [hrate, bind_eq_ok] at h
    obtain ⟨e, he, ⟨⟩, hknows, h⟩ := h
    cases h
    exact ⟨rfl, read_eq_ok.1 he, checkMentions_eq_ok.1 hknows⟩
  | parameter id =>
    simp only [hrate, bind_eq_ok] at h
    obtain ⟨e, he, ⟨⟩, hknows, h⟩ := h
    cases he
    cases h
    exact ⟨rfl, rfl, checkMentions_eq_ok.1 hknows⟩

/-- Is the pair a weight, read? -/
def Weighs (a : Assembly) (w : String × String) (d : String × Expr) : Prop :=
  d.1 = w.1 ∧ a.colors.contains w.1 = true ∧ Expr.ofText w.2 = .ok d.2 ∧ a.Knows d.2

theorem compileWeights_eq_ok {arc : String} :
    ∀ {ws : List (String × String)} {weights : List (String × Expr)},
      a.compileWeights arc ws = .ok weights → List.Forall₂ a.Weighs ws weights
  | [], _, h => by
    cases h
    exact .nil
  | (color, text) :: rest, _, h => by
    simp only [compileWeights, guard_eq_ok, bind_eq_ok, compileText_eq_ok] at h
    obtain ⟨hcolor, e, he, others, hothers, h⟩ := h
    cases h
    exact .cons ⟨rfl, by simpa using hcolor, he⟩ (compileWeights_eq_ok hothers)

/-- Is there a place or a transition with the id? -/
def HasEnd (a : Assembly) (id : String) : Prop :=
  a.places.contains id = true ∨ a.transitions.contains id = true

theorem checkEndpoint_eq_ok {arc endpoint : String} (h : a.checkEndpoint arc endpoint = .ok ()) :
    a.HasEnd endpoint := by
  unfold checkEndpoint at h
  split at h
  · rename_i hend
    simpa [HasEnd] using hend
  · cases h

theorem compileArc_eq_ok {arc : Arc} {d : FlatArc} (h : a.compileArc arc = .ok d) :
    d.arc = arc ∧ a.HasEnd arc.place ∧ a.HasEnd arc.transition ∧
      List.Forall₂ a.Weighs arc.weights.entries d.weights := by
  simp only [compileArc, bind_eq_ok] at h
  obtain ⟨⟨⟩, hplace, ⟨⟩, htransition, weights, hweights, h⟩ := h
  cases h
  exact ⟨rfl, checkEndpoint_eq_ok hplace, checkEndpoint_eq_ok htransition, compileWeights_eq_ok hweights⟩

end Assembly

/-- A flat net with the components of an assembly, read and checked. -/
structure FlatNet.CompiledFrom (net : FlatNet) (a : Assembly) : Prop where
  colors : net.colors = a.colors
  notes : net.notes = a.notes
  places : net.places = a.places
  parameters : net.parameters = a.parameters
  bindings : net.bindings = a.bindings
  definitions : ∃ definitions, List.Forall₂ a.Defines a.parameters.values definitions ∧
    definitionOrder definitions = .ok net.definitions
  transitions : List.Forall₂ (fun e d => d.1 = e.1 ∧ d.2.transition = e.2 ∧
    Assembly.RateReads e.2.rate d.2.rate ∧ a.Knows d.2.rate) a.transitions.entries net.transitions.entries
  arcs : List.Forall₂ (fun e d => d.1 = e.1 ∧ d.2.arc = e.2 ∧ a.HasEnd e.2.place ∧
    a.HasEnd e.2.transition ∧ List.Forall₂ a.Weighs e.2.weights.entries d.2.weights)
    a.arcs.entries net.arcs.entries

theorem FlatNet.CompiledFrom.contains_transition {net : FlatNet} {a : Assembly} (h : net.CompiledFrom a) (id : String) :
    net.transitions.contains id = a.transitions.contains id := by
  rw [Bool.eq_iff_iff, ← Table.mem_names_iff, ← Table.mem_names_iff, Table.names, Table.names,
    names_of_forall₂ h.transitions]

theorem Assembly.compiledFrom_of_compile {a : Assembly} {name : String} {net : FlatNet}
    (h : a.compile name = .ok net) : net.CompiledFrom a := by
  rw [compile, bind_eq_ok] at h
  obtain ⟨definitions, hdefinitions, h⟩ := h
  cases horder : definitionOrder definitions with
  | error parameter =>
    rw [horder] at h
    cases h
  | ok order =>
    simp only [horder, bind_eq_ok] at h
    obtain ⟨_, horder', transitions, htransitions, arcs, harcs, h⟩ := h
    cases horder'
    cases h
    refine ⟨rfl, rfl, rfl, rfl, rfl, ⟨definitions, compileParameters_eq_ok hdefinitions, horder⟩, ?_, ?_⟩
    · exact (Table.mapExcept_eq_ok.1 htransitions).imp fun _ _ h => ⟨h.1, compileTransition_eq_ok h.2⟩
    · exact (Table.mapExcept_eq_ok.1 harcs).imp fun _ _ h => ⟨h.1, compileArc_eq_ok h.2⟩

/-- The flat net of a tree is compiled from the joined tree. -/
theorem FlatNet.compiledFrom_of_ofTree {tree : IncludeTree} {net : FlatNet}
    (h : FlatNet.ofTree tree = .ok net) :
    ∃ a, Assembly.joined tree = .ok a ∧ net.CompiledFrom a := by
  rw [FlatNet.ofTree, bind_eq_ok] at h
  obtain ⟨a, ha, h⟩ := h
  exact ⟨a, ha, Assembly.compiledFrom_of_compile h⟩

/-- A transition of the flat net of a tree is filed under its id. -/
theorem FlatNet.transition_id {tree : IncludeTree} {net : FlatNet} (h : FlatNet.ofTree tree = .ok net) :
    ∀ e ∈ net.transitions.entries, e.2.transition.id = e.1 := by
  intro e he
  obtain ⟨a, ha, hnet⟩ := compiledFrom_of_ofTree h
  obtain ⟨d, hd, hkey, htransition, _⟩ := exists_left_of_forall₂ hnet.transitions he
  rw [hkey, htransition]
  exact Assembly.transition_id_of_joined ha d hd

/-- A live net runs the flat net of its tree from the initial marking, with handlers that were attached to it. -/
theorem LiveNet.made_of_ofTree {registry : Registry} {instanceId : Nat} {tree : IncludeTree}
    {live : LiveNet} (h : (LiveNet.ofTree registry instanceId tree).2 = .ok live) :
    FlatNet.ofTree tree = .ok live.net ∧ registry.attach live.net = (live.handlers, .ok ()) ∧
      live.marking = live.net.initial := by
  unfold LiveNet.ofTree at h
  split at h
  · cases h
  · rename_i net hnet
    split at h
    · cases h
    · rename_i handlers hattach
      dsimp only at h
      split at h
      · cases h
      · rename_i started hstarted
        cases h
        rw [LiveNet.resetTiming, bind_eq_ok] at hstarted
        obtain ⟨timed, _, hlive⟩ := hstarted
        cases hlive
        exact ⟨hnet, hattach, rfl⟩

theorem LiveNet.net_of_ofTree {registry : Registry} {instanceId : Nat} {tree : IncludeTree}
    {live : LiveNet} (h : (LiveNet.ofTree registry instanceId tree).2 = .ok live) :
    FlatNet.ofTree tree = .ok live.net :=
  (LiveNet.made_of_ofTree h).1

end PetriTree
