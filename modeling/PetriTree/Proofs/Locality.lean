import PetriTree.Proofs.Arrivals
import PetriTree.Proofs.Expr

/-!
# PetriTree — where a transition looks

Whether a transition is enabled, and what it moves, is asked of a whole marking, but the answer depends on few
places: those its arcs end in, and those its weights read. A weight reads more than it mentions, for it may
mention a rate parameter, the definition of which mentions places and further parameters.

Nothing is assumed of the definitions here. A parameter of which a net knows no definition, or which is defined
in a circle, has no value in any marking, and this too is the same answer.

Main results:
* `FlatNet.Consults` — the places that an expression reads, through any chain of rate parameters;
* `FlatNet.steady_of_consults` — a value depends on these places only;
* `FlatNet.steady_of_constant` — the value of an expression that is not functional depends on nothing;
* `FlatNet.transfers_congr`, `FlatNet.isEnabled_congr` — arcs that look the same come to the same transfers, and
  to the same answer.
-/

namespace PetriTree

namespace Expr

theorem isFunctionalAny_eq (arguments : List Expr) : isFunctionalAny arguments = arguments.any isFunctional := by
  induction arguments with
  | nil => rfl
  | cons e rest ih => rw [isFunctionalAny, ih, List.any_cons]

/-- An expression that is not functional mentions nothing. -/
theorem mentions_of_constant {e : Expr} (h : e.isFunctional = false) :
    e.placeMentions = [] ∧ e.parameterMentions = [] := by
  induction e with
  | number value => exact ⟨rfl, rfl⟩
  | tokens place color => cases h
  | capacity place => cases h
  | parameter id => cases h
  | neg inner ih => exact ih h
  | binary operation left right ihl ihr =>
    rw [isFunctional, Bool.or_eq_false_iff] at h
    obtain ⟨hplaces, hparameters⟩ := ihl h.1
    obtain ⟨hplaces', hparameters'⟩ := ihr h.2
    rw [placeMentions, parameterMentions, hplaces, hparameters, hplaces', hparameters']
    exact ⟨rfl, rfl⟩
  | call callee arguments ih =>
    rw [isFunctional, isFunctionalAny_eq, List.any_eq_false] at h
    have hnone : ∀ a ∈ arguments, a.placeMentions = [] ∧ a.parameterMentions = [] :=
      fun a ha => ih a ha (Bool.eq_false_iff.2 (h a ha))
    rw [placeMentions, parameterMentions, placeMentionsAll_eq, parameterMentionsAll_eq, List.flatMap_eq_nil_iff,
      List.flatMap_eq_nil_iff]
    exact ⟨fun a ha => (hnone a ha).1, fun a ha => (hnone a ha).2⟩

end Expr

/-! ## Agreement in a place -/

namespace Marking

variable {m other : Marking}

/-- Does a place hold the same tokens in both markings? -/
def AgreesIn (m other : Marking) (place : String) : Prop := ∀ color, m.tokens place color = other.tokens place color

theorem AgreesIn.total {place : String} (h : m.AgreesIn other place) : m.total place = other.total place :=
  congrArg Holding.total (Holding.ext h)

end Marking

namespace FlatNet

variable {net : FlatNet} {m other : Marking}

theorem tokensIn_congr {place : String} (h : m.AgreesIn other place) (color : Option String) :
    net.tokensIn m place color = net.tokensIn other place color := by
  cases color with
  | none => simp only [tokensIn, h.total]
  | some color => simp only [tokensIn, h color]

theorem hasRoom_congr {place : String} (h : m.AgreesIn other place) (arriving : Count) :
    net.hasRoom m place arriving = net.hasRoom other place arriving := by
  rw [hasRoom, hasRoom, h.total]

/-! ## Expressions -/

/-- Is a place read by an expression: mentioned by it, or read by a definition of a rate parameter that it
mentions? -/
inductive Consults (net : FlatNet) (place : String) : Expr → Prop
  | mention {e : Expr} : place ∈ e.placeMentions → net.Consults place e
  | parameter {id : String} {e definition : Expr} : id ∈ e.parameterMentions → (id, definition) ∈ net.definitions →
      net.Consults place definition → net.Consults place e

/-- What is read is mentioned, by the expression or by some definition. -/
theorem Consults.mentioned {place : String} {e : Expr} (h : net.Consults place e) :
    place ∈ e.placeMentions ∨ ∃ d ∈ net.definitions, place ∈ d.2.placeMentions := by
  induction h with
  | mention hplace => exact Or.inl hplace
  | @parameter id e definition _ hdefinition _ ih =>
    right
    rcases ih with hplace | hlater
    · exact ⟨(id, definition), hdefinition, hplace⟩
    · exact hlater

/-- Has an expression the same value in both markings, or does it fail alike? -/
def Steady (net : FlatNet) (m other : Marking) (e : Expr) : Prop :=
  e.evaluate (net.reading m) = e.evaluate (net.reading other)

/-- The value of a rate parameter depends on what its definitions read. Every definition is evaluated with those
after it only, so the induction is on the definitions that are left. -/
theorem parameterValue_congr {definitions : List (String × Expr)} (hsub : definitions ⊆ net.definitions) {id : String}
    (h : ∀ e, (id, e) ∈ net.definitions → ∀ place, net.Consults place e → m.AgreesIn other place) :
    net.parameterValue m definitions id = net.parameterValue other definitions id := by
  induction definitions generalizing id with
  | nil => rfl
  | cons d rest ih =>
    obtain ⟨key, e⟩ := d
    have hrest : rest ⊆ net.definitions := fun d hd => hsub (List.mem_cons_of_mem _ hd)
    rw [parameterValue, parameterValue]
    by_cases hkey : key = id
    · subst hkey
      have hreads := h e (hsub (List.mem_cons_self ..))
      rw [if_pos rfl, if_pos rfl]
      refine Expr.evaluate_congr ⟨fun place hplace color => ?_, fun place hplace => rfl, fun q hq => ?_⟩
      · exact tokensIn_congr (hreads place (.mention hplace)) color
      · -- what a parameter in the definition reads, the definition reads
        exact ih hrest fun e' he' place hplace => hreads place (.parameter hq he' hplace)
    · rw [if_neg hkey, if_neg hkey]
      exact ih hrest h

/-- The value of an expression depends on the places that it reads only. -/
theorem steady_of_consults {e : Expr} (h : ∀ place, net.Consults place e → m.AgreesIn other place) :
    net.Steady m other e := by
  refine Expr.evaluate_congr ⟨fun place hplace color => ?_, fun place hplace => rfl, fun id hid => ?_⟩
  · exact tokensIn_congr (h place (.mention hplace)) color
  · exact parameterValue_congr (List.Subset.refl _) fun e' he' place hplace => h place (.parameter hid he' hplace)

/-- An expression that is not functional has the same value in all markings. -/
theorem steady_of_constant {e : Expr} (h : e.isFunctional = false) : net.Steady m other e := by
  obtain ⟨hplaces, hparameters⟩ := Expr.mentions_of_constant h
  refine steady_of_consults fun place hplace => ?_
  cases hplace with
  | mention hmention =>
    rw [hplaces] at hmention
    cases hmention
  | parameter hid =>
    rw [hparameters] at hid
    cases hid

/-! ## Weights -/

theorem weigh_congr {e : Expr} (h : net.Steady m other e) (arc : String) :
    net.weigh m arc e = net.weigh other arc e := by
  have hvalue : e.evaluate (net.reading m) = e.evaluate (net.reading other) := h
  rw [weigh, weigh, Expr.evaluateWeight, Expr.evaluateWeight, hvalue]

theorem transfersOf_congr {weights : List (String × Expr)} (h : ∀ w ∈ weights, net.Steady m other w.2) (arc : Arc) :
    net.transfersOf m arc weights = net.transfersOf other arc weights := by
  induction weights with
  | nil => rfl
  | cons w rest ih =>
    have hrest := ih fun w' hw' => h w' (List.mem_cons_of_mem _ hw')
    rw [transfersOf, transfersOf, weigh_congr (h w (List.mem_cons_self ..)), hrest]

/-- Arcs whose weights have the same values come to the same transfers. -/
theorem transfers_congr {arcs : List FlatArc} (h : ∀ a ∈ arcs, ∀ w ∈ a.weights, net.Steady m other w.2) :
    net.transfers m arcs = net.transfers other arcs := by
  induction arcs with
  | nil => rfl
  | cons a rest ih =>
    have hrest := ih fun a' ha' => h a' (List.mem_cons_of_mem _ ha')
    rw [transfers, transfers, transfersOf_congr (h a (List.mem_cons_self ..)), hrest]

theorem addWeights_congr {weights : List (String × Expr)} (h : ∀ w ∈ weights, net.Steady m other w.2) (arc : Arc)
    (sum : Count) : net.addWeights m arc.id sum weights = net.addWeights other arc.id sum weights := by
  rw [addWeights_eq, addWeights_eq, transfersOf_congr h]

theorem addArrivals_congr {arcs : List FlatArc} (h : ∀ a ∈ arcs, ∀ w ∈ a.weights, net.Steady m other w.2)
    (sources : List String) (arrivals : SortedMap String Count) :
    net.addArrivals m sources arrivals arcs = net.addArrivals other sources arrivals arcs := by
  induction arcs generalizing arrivals with
  | nil => rfl
  | cons a rest ih =>
    have hrest := ih fun a' ha' => h a' (List.mem_cons_of_mem _ ha')
    simp only [addArrivals, addWeights_congr (h a (List.mem_cons_self ..)), hrest]

/-! ## The enabling test -/

/-- Does an arc look the same in both markings: its place, and the values of its weights? -/
structure SteadyArc (net : FlatNet) (m other : Marking) (a : FlatArc) : Prop where
  place : m.AgreesIn other a.arc.place
  weights : ∀ w ∈ a.weights, net.Steady m other w.2

theorem holdsWeights_congr {arc : Arc} {weights : List (String × Expr)} (hplace : m.AgreesIn other arc.place)
    (h : ∀ w ∈ weights, net.Steady m other w.2) :
    net.holdsWeights m arc weights = net.holdsWeights other arc weights := by
  induction weights with
  | nil => rfl
  | cons w rest ih =>
    have hrest := ih fun w' hw' => h w' (List.mem_cons_of_mem _ hw')
    rw [holdsWeights, holdsWeights, weigh_congr (h w (List.mem_cons_self ..)), hplace w.1, hrest]

theorem isSatisfied_congr {a : FlatArc} (h : net.SteadyArc m other a) :
    net.isSatisfied m a = net.isSatisfied other a := by
  have hempty : isEmptyFor m a = isEmptyFor other a := by
    simp only [isEmptyFor, h.place.total, h.place _]
  rw [isSatisfied, isSatisfied, hempty, holdsWeights_congr h.place h.weights]

theorem areSatisfied_congr {arcs : List FlatArc} (h : ∀ a ∈ arcs, net.SteadyArc m other a) :
    net.areSatisfied m arcs = net.areSatisfied other arcs := by
  induction arcs with
  | nil => rfl
  | cons a rest ih =>
    have hrest := ih fun a' ha' => h a' (List.mem_cons_of_mem _ ha')
    rw [areSatisfied, areSatisfied, isSatisfied_congr (h a (List.mem_cons_self ..)), hrest]

/-- Sums are kept for places of the arcs only. -/
theorem place_of_addArrivals {sources : List String} {arcs : List FlatArc} {sums : SortedMap String Count}
    (h : net.addArrivals m sources SortedMap.empty arcs = .ok sums) {e : String × Count} (he : e ∈ sums.entries) :
    ∃ a ∈ arcs, a.arc.place = e.1 := by
  obtain ⟨_, _, hsums⟩ := addArrivals_eq_ok h
  have hfound := SortedMap.get?_eq_some_iff.2 (he : (e.1, e.2) ∈ sums.entries)
  rw [hsums] at hfound
  split at hfound
  · rename_i hmem
    obtain ⟨a, ha, hplace⟩ := List.mem_map.1 hmem
    exact ⟨a, (List.mem_filter.1 ha).1, hplace⟩
  · cases hfound

/-- A transition whose arcs all look the same is enabled in both markings, or in neither, or the test fails
alike. -/
theorem isEnabled_congr {transition : String}
    (h : ∀ a ∈ net.arcs.values, a.arc.transition = transition → net.SteadyArc m other a) :
    net.isEnabled m transition = net.isEnabled other transition := by
  have hinbound : ∀ a ∈ net.inbound transition, net.SteadyArc m other a := by
    intro a ha
    obtain ⟨hmem, hends⟩ := List.mem_filter.1 ha
    exact h a hmem (eq_of_beq (Bool.and_eq_true_iff.1 hends).2)
  have houtbound : ∀ a ∈ net.outbound transition, net.SteadyArc m other a := by
    intro a ha
    obtain ⟨hmem, hends⟩ := List.mem_filter.1 ha
    exact h a hmem (eq_of_beq (Bool.and_eq_true_iff.1 hends).2)
  have harrivals := addArrivals_congr (fun a ha => (houtbound a ha).weights)
    ((net.inbound transition).map fun a => a.arc.place) SortedMap.empty
  -- the same sums are compared with the room in the same places
  have hroom : (net.addArrivals m ((net.inbound transition).map fun a => a.arc.place) SortedMap.empty
        (net.outbound transition) >>= fun sums => pure (sums.entries.all fun e => net.hasRoom m e.1 e.2)) =
      net.addArrivals other ((net.inbound transition).map fun a => a.arc.place) SortedMap.empty
        (net.outbound transition) >>= fun sums => pure (sums.entries.all fun e => net.hasRoom other e.1 e.2) := by
    rw [harrivals]
    refine bind_congr_ok fun sums hsums => congrArg pure ?_
    refine Bool.eq_iff_iff.2 ?_
    rw [List.all_eq_true, List.all_eq_true]
    refine forall₂_congr fun e he => ?_
    obtain ⟨a, ha, hplace⟩ := place_of_addArrivals hsums he
    rw [hasRoom_congr (hplace ▸ (houtbound a ha).place)]
  simp only [isEnabled, areSatisfied_congr hinbound, hroom]

end FlatNet

end PetriTree
