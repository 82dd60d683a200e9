import PetriTree.Proofs.Compile
import PetriTree.Proofs.Reader
import PetriTree.Proofs.Sample

/-!
# PetriTree — evaluation never meets anything unknown

While a net runs, an expression may read the marking and any rate parameter, whose definition may read
further ones. Nothing is checked at that time: the check at compile time has to cover every expression,
and the cycle check has to end every chain of parameters.

Main results:
* `FlatNet.needs_wellFounded` — no chain of rate parameters, each needed by the one before, goes on
  for ever;
* `FlatNet.solves_iff` — looking parameters up by evaluating their definitions has one outcome, the one
  that `FlatNet.reading` uses;
* `FlatNet.evaluation_safe` — every expression of the flat net of a tree is evaluated to a value or
  fails by its arithmetic.
-/

namespace PetriTree

namespace FlatNet

/-! ## Parameters -/

/-- Does the definition of the rate parameter `q` mention `p`? -/
def Needs (net : FlatNet) (p q : String) : Prop :=
  ∃ e, net.definitions.lookup q = some e ∧ p ∈ e.parameterMentions

/-- Are parameters looked up by evaluating their definitions, in which parameters are looked up the same
way? -/
def Solves (net : FlatNet) (m : Marking) (value : String → Except ExprError Float) : Prop :=
  ∀ id, value id = match net.definitions.lookup id with
    | none => .error (.unknownParameter id)
    | some e => e.evaluate ⟨net.tokensIn m, net.capacityOf, value⟩

/-- The definitions of a net stand in an order in which each mentions later ones only. -/
def Ordered (net : FlatNet) : Prop := Settled net.definitions net.definitions

/-- Two ways to look parameters up that agree on what an expression mentions. -/
theorem evaluate_congr_parameter {net : FlatNet} {m : Marking} {e : Expr}
    {value value' : String → Except ExprError Float} (h : ∀ p ∈ e.parameterMentions, value p = value' p) :
    e.evaluate ⟨net.tokensIn m, net.capacityOf, value⟩ =
      e.evaluate ⟨net.tokensIn m, net.capacityOf, value'⟩ :=
  Expr.evaluate_congr ⟨fun _ _ _ => rfl, fun _ _ => rfl, h⟩

/-- Evaluating a definition with the ones after it is evaluating it with all of them. -/
theorem parameterValue_eq (net : FlatNet) (m : Marking) {definitions done : List (String × Expr)}
    (h : Settled definitions done) (id : String) :
    net.parameterValue m done id = match done.lookup id with
      | none => .error (.unknownParameter id)
      | some e => e.evaluate ⟨net.tokensIn m, net.capacityOf, net.parameterValue m done⟩ := by
  induction h generalizing id with
  | nil => rfl
  | @cons key e rest hrest hkey hopen hlater ih =>
    -- the new definition is in the way of no other parameter
    have hvalue : ∀ p, p ≠ key →
        net.parameterValue m rest p = net.parameterValue m ((key, e) :: rest) p := by
      intro p hne
      rw [parameterValue, if_neg (Ne.symm hne)]
    rw [lookup_cons_if]
    by_cases hid : id = key
    · rw [parameterValue, if_pos hid.symm, if_pos hid]
      exact evaluate_congr_parameter fun p hp => hvalue p (ne_of_later hkey hopen (hlater p hp))
    · rw [← hvalue id hid, if_neg hid, ih id]
      -- and what the older definitions mention is older still
      cases hfound : rest.lookup id with
      | none => rfl
      | some e' =>
        exact evaluate_congr_parameter fun p hp =>
          hvalue p (ne_of_later hkey hopen (hrest.lookup_isSome hfound hp))

/-- No chain of rate parameters, each needed by the one before, goes on for ever. -/
theorem needs_wellFounded {net : FlatNet} (h : net.Ordered) : WellFounded net.Needs := by
  refine Subrelation.wf ?_ (measure (rankIn net.definitions)).wf
  intro p q ⟨e, he, hp⟩
  exact h.rank_lt he hp

theorem solves_reading {net : FlatNet} (h : net.Ordered) (m : Marking) :
    net.Solves m (net.reading m).parameter := parameterValue_eq net m h

/-- Looking parameters up by evaluating their definitions has one outcome. -/
theorem solves_iff {net : FlatNet} (h : net.Ordered) {m : Marking}
    {value : String → Except ExprError Float} :
    net.Solves m value ↔ value = (net.reading m).parameter := by
  constructor
  · intro hsolves
    funext id
    -- on the way down the parameters that are needed
    induction id using (needs_wellFounded h).induction with
    | _ id ih =>
      rw [hsolves id, solves_reading h m id]
      cases hid : net.definitions.lookup id with
      | none => rfl
      | some e => exact evaluate_congr_parameter fun p hp => ih p ⟨e, hid, hp⟩
  · rintro rfl
    exact solves_reading h m

/-! ## What compiling leaves -/

/-- The expressions of a net are in order: they mention known things, give functions as many arguments
as they take, and define every rate parameter without a cycle. -/
structure Checked (net : FlatNet) : Prop where
  ordered : net.Ordered
  defined : ∀ p ∈ net.parameters.values, ∃ e, Expr.ofText p.expression = .ok e ∧
    net.definitions.lookup p.id = some e
  known : ∀ id, net.parameters.contains id = true → (net.definitions.lookup id).isSome
  expressions : ∀ e, net.Holds e → net.Knows e ∧ e.Saturated

theorem saturated_of_rateReads {rate : Rate} {e : Expr} (h : Assembly.RateReads rate e) : e.Saturated := by
  cases rate with
  | expression text => exact (Expr.written_of_ofText h).saturated
  | parameter id =>
    cases h
    exact .parameter trivial

theorem CompiledFrom.knows {a : Assembly} {net : FlatNet} (h : net.CompiledFrom a) {e : Expr}
    (he : a.Knows e) : net.Knows e := by
  rw [Knows, h.places, h.colors, h.parameters]
  exact he

section Definitions

variable {tree : IncludeTree} {a : Assembly} {definitions : List (String × Expr)}

theorem keys_of_joined (ha : Assembly.joined tree = .ok a)
    (h : List.Forall₂ a.Defines a.parameters.values definitions) :
    definitions.map Prod.fst = a.parameters.names := by
  rw [Assembly.keys_of_defines h, Table.values, Table.names, List.map_map]
  exact List.map_congr_left (Assembly.parameter_id_of_joined ha)

/-- The keys of a table differ, so the first definition of a rate parameter is the only one. -/
theorem lookup_of_joined (ha : Assembly.joined tree = .ok a)
    (h : List.Forall₂ a.Defines a.parameters.values definitions) {d : String × Expr}
    (hd : d ∈ definitions) : definitions.lookup d.1 = some d.2 := by
  have hnodup : (definitions.map Prod.fst).Nodup := by
    rw [keys_of_joined ha h]
    exact a.parameters.nodup
  rw [Table.lookup_eq]
  exact Table.lookup_of_mem hnodup hd

end Definitions

/-- Rates and weights were checked when they were compiled, and the definitions of rate parameters
before they were put in order. -/
theorem CompiledFrom.checks {a : Assembly} {net : FlatNet} (h : net.CompiledFrom a) {e : Expr}
    (he : net.Holds e) : net.Knows e ∧ e.Saturated := by
  cases he with
  | @parameter id e hmem =>
    obtain ⟨definitions, hdefinitions, horder⟩ := h.definitions
    obtain ⟨hordered, hlookup⟩ := definitionOrder_settled horder
    -- putting definitions in order added none
    have hfound : definitions.lookup id = some e := (hlookup id).symm.trans (hordered.lookup_of_mem hmem)
    obtain ⟨before, after, rfl, _⟩ := List.lookup_eq_some_iff.1 hfound
    obtain ⟨p, _, _, hread, hknown⟩ := exists_left_of_forall₂ hdefinitions
      (List.mem_append_right _ (List.mem_cons_self ..))
    exact ⟨h.knows hknown, (Expr.written_of_ofText hread).saturated⟩
  | rate ht =>
    obtain ⟨d, hd, rfl⟩ := List.mem_map.1 ht
    obtain ⟨_, _, _, _, hrate, hknown⟩ := exists_left_of_forall₂ h.transitions hd
    exact ⟨h.knows hknown, saturated_of_rateReads hrate⟩
  | weight harc hw =>
    obtain ⟨d, hd, rfl⟩ := List.mem_map.1 harc
    obtain ⟨_, _, _, _, _, _, hweights⟩ := exists_left_of_forall₂ h.arcs hd
    obtain ⟨_, _, _, _, hread, hknown⟩ := exists_left_of_forall₂ hweights hw
    exact ⟨h.knows hknown, (Expr.written_of_ofText hread).saturated⟩

theorem checked_of_ofTree {tree : IncludeTree} {net : FlatNet} (h : FlatNet.ofTree tree = .ok net) :
    net.Checked := by
  obtain ⟨a, ha, hnet⟩ := compiledFrom_of_ofTree h
  obtain ⟨definitions, hdefinitions, horder⟩ := hnet.definitions
  obtain ⟨hordered, hlookup⟩ := definitionOrder_settled horder
  have hdefined : ∀ d ∈ definitions, net.definitions.lookup d.1 = some d.2 := fun d hd =>
    (hlookup d.1).trans (lookup_of_joined ha hdefinitions hd)
  refine ⟨hordered, fun p hp => ?_, fun id hid => ?_, fun e he => hnet.checks he⟩
  · rw [hnet.parameters] at hp
    obtain ⟨d, hd, hkey, hread, _⟩ := exists_right_of_forall₂ hdefinitions hp
    exact ⟨d.2, hread, hkey ▸ hdefined d hd⟩
  · rw [hnet.parameters, ← Table.mem_names_iff, ← keys_of_joined ha hdefinitions] at hid
    obtain ⟨d, hd, rfl⟩ := List.mem_map.1 hid
    rw [hdefined d hd]
    rfl

/-! ## Evaluation -/

theorem covers_reading {net : FlatNet} {m : Marking} {e : Expr} (hknows : net.Knows e)
    (hparameters : ∀ p ∈ e.parameterMentions, ∀ x, (net.reading m).parameter p = .error x →
      Expr.Arithmetic x) : Expr.Covers (net.reading m) e.placeMentions e.parameterMentions where
  tokens place hp color := by
    simp [reading, tokensIn, hknows.places place hp]
  capacity place hp := by
    simp only [reading, capacityOf, Option.isSome_map]
    exact hknows.places place hp
  parameter := hparameters

/-- A rate parameter of a checked net has a value or fails by its arithmetic. -/
theorem Checked.parameter_arithmetic {net : FlatNet} (h : net.Checked) (m : Marking) {id : String}
    (hid : net.parameters.contains id = true) {x : ExprError}
    (hx : (net.reading m).parameter id = .error x) : Expr.Arithmetic x := by
  induction id using (needs_wellFounded h.ordered).induction generalizing x with
  | _ id ih =>
    obtain ⟨e, he⟩ := Option.isSome_iff_exists.1 (h.known id hid)
    have hmem : (id, e) ∈ net.definitions := Table.mem_of_lookup (Table.lookup_eq .. ▸ he)
    obtain ⟨hknows, hsaturated⟩ := h.expressions e (.parameter hmem)
    rw [solves_reading h.ordered m id, he] at hx
    refine Expr.evaluate_arithmetic hsaturated (covers_reading hknows fun p hp y hy => ?_) hx
    exact ih p ⟨e, he, hp⟩ (hknows.parameters p hp) hy

/-- An expression of a checked net has a value or fails by its arithmetic. -/
theorem Checked.evaluate_arithmetic {net : FlatNet} (h : net.Checked) (m : Marking) {e : Expr}
    (he : net.Holds e) {x : ExprError} (hx : e.evaluate (net.reading m) = .error x) :
    Expr.Arithmetic x := by
  obtain ⟨hknows, hsaturated⟩ := h.expressions e he
  refine Expr.evaluate_arithmetic hsaturated (covers_reading hknows fun p hp y hy => ?_) hx
  exact h.parameter_arithmetic m (hknows.parameters p hp) hy

/-- Once a tree is joined, evaluation ends and meets nothing unknown. No chain of rate parameters goes
on for ever, so looking parameters up through their definitions has exactly one outcome. Every rate
parameter, rate and weight has a value or fails by its arithmetic: by a division by zero or with
something that is not a number. As a weight it can also turn out negative. -/
theorem evaluation_safe {tree : IncludeTree} {net : FlatNet} (h : FlatNet.ofTree tree = .ok net)
    (m : Marking) :
    WellFounded net.Needs ∧
      (∀ value, net.Solves m value ↔ value = (net.reading m).parameter) ∧
      (∀ p ∈ net.parameters.values, ∃ e, Expr.ofText p.expression = .ok e ∧
        net.definitions.lookup p.id = some e) ∧
      (∀ e, net.Holds e → ∀ x, e.evaluate (net.reading m) = .error x →
        x = .divisionByZero ∨ x = .notANumber) ∧
      ∀ e, net.Holds e → ∀ x, e.evaluateWeight (net.reading m) = .error x →
        x = .divisionByZero ∨ x = .notANumber ∨ ∃ value, x = .negativeWeight value := by
  have hchecked := checked_of_ofTree h
  refine ⟨needs_wellFounded hchecked.ordered, fun value => solves_iff hchecked.ordered,
    hchecked.defined, fun e he x => hchecked.evaluate_arithmetic m he, ?_⟩
  intro e he x hx
  rcases Expr.evaluateWeight_error hx with hx | hx | hx
  · rcases hchecked.evaluate_arithmetic m he hx with hx | hx
    · exact Or.inl hx
    · exact Or.inr (Or.inl hx)
  · exact Or.inr (Or.inl hx)
  · exact Or.inr (Or.inr hx)

/-- A net whose transition fires at a rate that is defined through a second rate parameter. -/
def chained : IncludeTree := Sample.single
  [Sample.place "P" 2, .rateParameter ⟨"r", "2*s"⟩, .rateParameter ⟨"s", "#(P)/3"⟩,
    Sample.transition "T" (.parameter "r"), Sample.arc "in" "P" "T" .placeToTransition "#(P)-1"]

theorem evaluation_safe_chained : ∃ net, FlatNet.ofTree chained = .ok net ∧ net.parameters.size = 2 ∧
    net.arcs.size = 1 ∧ ∀ e, net.Holds e → ∀ x, e.evaluateWeight (net.reading net.initial) = .error x →
      x = .divisionByZero ∨ x = .notANumber ∨ ∃ value, x = .negativeWeight value := by
  have hrun : ((FlatNet.ofTree chained).map fun net => (net.parameters.size, net.arcs.size)) =
      .ok (2, 1) := by decide +kernel
  obtain ⟨net, hnet, hsizes⟩ := map_eq_ok.1 hrun
  exact ⟨net, hnet, congrArg Prod.fst hsizes, congrArg Prod.snd hsizes,
    (evaluation_safe hnet net.initial).2.2.2.2⟩

end FlatNet

end PetriTree
