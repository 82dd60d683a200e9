import PetriTree.Proofs.Attachment
import PetriTree.Proofs.Integrity
import PetriTree.Proofs.Mirroring
import PetriTree.Proofs.Passage
import PetriTree.Proofs.Session
import PetriTree.Simulation.Handling

/-!
# PetriTree — the places of a marking

A marking should know the places of its net and no others. It starts so, and firing, setting and pulling tokens
write to places of the net only, so what could break this is that the net changes under the marking. When a net
follows its tree the marking is built anew as well, but the history is kept, and its records are about the net as it
was. Undoing one of them writes to every place that the firing changed, also to one that is gone. The place is back
in the marking then, and stays there until the simulation or the net starts anew.

A record can name a lost place only when the net has followed its tree since the record was made. So markings and
nets have the same places as long as no such record is undone.

Main results:
* `foldl_since_iff` — what some step of a run has set, and no later one has cleared;
* `FlatNet.Placed`, `placed_of_ofTree` — what keeps the tokens of a net in its places;
* `Simulation.Covers.handle` — what one operation or edit makes of the places of a marking;
* `Simulation.Covers.exists_renewal` — records that name a lost place are older than the net;
* `Simulation.contains_handleAll_iff` — the places of a marking after any run;
* `Simulation.place_revived` — a place that the net has lost comes back by undoing.
-/

namespace PetriTree

/-! ## Runs -/

/-- What steps of a run set and clear holds in the end exactly when some step has set it and no later one has
cleared it. -/
theorem foldl_since_iff {step : σ → α → σ} {P : σ → Prop} (sets clears : σ → α → Prop) {s : σ} {xs : List α}
    (hstart : ¬ P s)
    (hstep : ∀ i x, xs[i]? = some x → (P (step ((xs.take i).foldl step s) x) ↔
      sets ((xs.take i).foldl step s) x ∨ P ((xs.take i).foldl step s) ∧ ¬ clears ((xs.take i).foldl step s) x)) :
    P (xs.foldl step s) ↔ ∃ i x, xs[i]? = some x ∧ sets ((xs.take i).foldl step s) x ∧
      ∀ j y, i < j → xs[j]? = some y → ¬ clears ((xs.take j).foldl step s) y := by
  -- the same for the first `n` steps, so that every step keeps its number
  have hfirst : ∀ n ≤ xs.length, (P ((xs.take n).foldl step s) ↔
      ∃ i x, i < n ∧ xs[i]? = some x ∧ sets ((xs.take i).foldl step s) x ∧
        ∀ j y, i < j → j < n → xs[j]? = some y → ¬ clears ((xs.take j).foldl step s) y) := by
    intro n hn
    induction n with
    | zero => simp [hstart]
    | succ n ih =>
      have hx : xs[n]? = some xs[n] := List.getElem?_eq_getElem hn
      rw [List.take_add_one, hx, Option.toList_some, List.foldl_append, List.foldl_cons, List.foldl_nil,
        hstep n _ hx, ih (Nat.le_of_succ_le hn)]
      constructor
      · rintro (hset | ⟨⟨i, x, hi, hget, hset, hkept⟩, hclear⟩)
        · exact ⟨n, _, Nat.lt_succ_self n, hx, hset, fun j y hj hlt => by omega⟩
        · refine ⟨i, x, Nat.lt_succ_of_lt hi, hget, hset, fun j y hj hlt hy => ?_⟩
          rcases Nat.lt_succ_iff_lt_or_eq.1 hlt with hlt | rfl
          · exact hkept j y hj hlt hy
          · rw [hx] at hy
            cases hy
            exact hclear
      · rintro ⟨i, x, hi, hget, hset, hkept⟩
        rcases Nat.lt_succ_iff_lt_or_eq.1 hi with hi | rfl
        · exact Or.inr ⟨⟨i, x, hi, hget, hset, fun j y hj hlt => hkept j y hj (Nat.lt_succ_of_lt hlt)⟩,
            hkept n _ hi (Nat.lt_succ_self n) hx⟩
        · rw [hx] at hget
          cases hget
          exact Or.inl hset
  have hall := hfirst xs.length le_rfl
  rw [List.take_length] at hall
  rw [hall]
  constructor
  · rintro ⟨i, x, _, hget, hset, hkept⟩
    exact ⟨i, x, hget, hset, fun j y hj hy => hkept j y hj (List.getElem?_eq_some_iff.1 hy).1 hy⟩
  · rintro ⟨i, x, hget, hset, hkept⟩
    exact ⟨i, x, (List.getElem?_eq_some_iff.1 hget).1, hget, hset, fun j y hj _ hy => hkept j y hj hy⟩

/-! ## Places of nets -/

namespace FlatNet

variable {net : FlatNet}

/-- Do the arcs, the initial marking and the sources of a net keep to its places? -/
structure Placed (net : FlatNet) : Prop where
  ends : net.EndsInPlaces
  initial : ∀ place, net.initial.contains place = net.places.contains place
  bound : ∀ pair ∈ LiveNet.primaryPairs net, net.places.contains pair.1 = true

theorem placed_of_ofTree {tree : IncludeTree} (hreachable : tree.Reachable) (h : FlatNet.ofTree tree = .ok net) :
    net.Placed where
  ends := hreachable.endsInPlaces h
  initial := contains_initial h
  bound pair hpair := by
    obtain ⟨list, hlist, _⟩ := LiveNet.mem_sourcePairs_of_primary (LiveNet.mem_primaryPairs.1 hpair)
    exact (sources_eq h hlist).1

theorem Placed.isEnd (h : net.Placed) {place : String} (hend : net.IsEnd place) :
    net.places.contains place = true := by
  obtain ⟨a, ha, rfl⟩ := hend
  exact h.ends a ha

end FlatNet

namespace Simulation

variable {sim after : Simulation} {handling : Handling} {place : String}

/-- Any operation or edit will do, short of giving the net a marking of one's own. A tree that the net follows is one
that commands lead to. -/
def Handling.IsPlain : Handling → Prop
  | .edit (.setMarking _) => False
  | .edit (.refresh tree) => tree.Reachable
  | _ => True

/-- Does a simulation hold all places of a net whose tokens keep to its places? -/
structure Covers (sim : Simulation) : Prop where
  placed : sim.live.net.Placed
  held : ∀ place, sim.live.net.places.contains place = true → sim.marking.contains place = true

/-- Is a place known to the marking, but not to the net? -/
def Strays (sim : Simulation) (place : String) : Prop :=
  sim.marking.contains place = true ∧ sim.live.net.places.contains place = false

/-- Does the net follow its tree, and is not refused? -/
def Renews (sim : Simulation) (handling : Handling) : Prop :=
  ∃ tree fresh, handling = .edit (.refresh tree) ∧ (sim.live.refresh tree).2 = .ok fresh

/-- Is the marking built anew? -/
def Restarts (sim : Simulation) (handling : Handling) : Prop :=
  handling = .operate .reset ∨ sim.Renews handling

/-- Is a firing undone that changed a place which the net does not have? -/
def Revives (sim : Simulation) (place : String) (handling : Handling) : Prop :=
  handling = .operate .undo ∧ sim.live.net.places.contains place = false ∧
    ∃ last, sim.history.getLast? = some last ∧ ∃ change ∈ last.changes, change.place = place

/-! ## Operations -/

theorem restarts_operate_iff {operation : Operation} : sim.Restarts (.operate operation) ↔ operation = .reset := by
  constructor
  · rintro (heq | ⟨tree, fresh, heq, _⟩)
    · cases heq
      rfl
    · cases heq
  · rintro rfl
    exact Or.inl rfl

theorem strays_congr (hplaces : after.live.net.places = sim.live.net.places)
    (hmarking : after.marking.contains place = sim.marking.contains place) : after.Strays place ↔ sim.Strays place := by
  rw [Strays, Strays, hplaces, hmarking]

theorem Covers.passage {operation : Operation} (h : sim.Covers) (hpassage : sim.Passage operation after)
    (hnet : after.live.net = sim.live.net) : after.Covers ∧ ∀ place, after.Strays place ↔
      sim.Revives place (.operate operation) ∨ sim.Strays place ∧ ¬ sim.Restarts (.operate operation) := by
  rw [restarts_operate_iff]
  cases hpassage with
  | stays hother hidle hmarking _ =>
    refine ⟨⟨hnet ▸ h.placed, hnet ▸ hmarking ▸ h.held⟩, fun place => ?_⟩
    have hrevives : ¬ sim.Revives place (.operate operation) := by
      rintro ⟨hundo, _, last, hlast, _⟩
      cases hundo
      rw [hidle rfl] at hlast
      cases hlast
    rw [strays_congr (congrArg FlatNet.places hnet) (by rw [hmarking])]
    tauto
  | shifted hother hshifts _ =>
    refine ⟨⟨hnet ▸ h.placed, fun p hp => hshifts.kept p (h.held p (hnet ▸ hp))⟩, fun place => ?_⟩
    have hrevives : ¬ sim.Revives place (.operate operation) := by
      rintro ⟨hundo, _⟩
      cases hundo
      exact hother.1 rfl
    -- tokens are moved in places of the net, and the marking holds all of these
    have hsame : after.marking.contains place = sim.marking.contains place :=
      Bool.eq_iff_iff.2 ⟨fun hplace => (hshifts.added place hplace).elim id fun hend => h.held place (h.placed.isEnd hend),
        hshifts.kept place⟩
    rw [strays_congr (congrArg FlatNet.places hnet) hsame]
    tauto
  | @undone last _ hlast hmarking _ =>
    refine ⟨⟨hnet ▸ h.placed, fun p hp => ?_⟩, fun place => ?_⟩
    · rw [hmarking, contains_restore_iff]
      exact Or.inl (h.held p (hnet ▸ hp))
    · simp only [Strays, Revives, hnet, hmarking, contains_restore_iff, hlast, Option.some.injEq, exists_eq_left',
        true_and, reduceCtorEq, not_false_eq_true, and_true]
      exact or_and_right.trans (or_comm.trans (or_congr_left and_comm))
  | restarted hmarking _ =>
    have hsame : ∀ p, after.marking.contains p = sim.live.net.places.contains p := fun p => by
      rw [hmarking, h.placed.initial]
    refine ⟨⟨hnet ▸ h.placed, fun p hp => ?_⟩, fun place => ?_⟩
    · rw [hsame, ← hnet, hp]
    · simp [Strays, Revives, hnet, hsame]

/-! ## Edits -/

/-- Are the places of a net and those of its marking what they were? -/
structure SamePlaces (live after : LiveNet) : Prop where
  placed : after.net.Placed
  places : after.net.places = live.net.places
  marking : ∀ p, after.marking.contains p = live.marking.contains p

/-- No edit for which the net does not follow its tree adds a place or takes one out. -/
theorem Covers.samePlaces (h : sim.Covers) {edit : LiveEdit} (hplain : (Handling.edit edit).IsPlain)
    (hother : ¬ sim.Renews (.edit edit)) : SamePlaces sim.live (sim.live.edited edit) := by
  have hkept : SamePlaces sim.live sim.live := ⟨h.placed, rfl, fun _ => rfl⟩
  cases edit with
  | setTokens place color n =>
    refine LiveNet.orKeep_of (SamePlaces sim.live) hkept fun after hafter => ?_
    simp only [LiveNet.setTokens, FlatNet.place, bind_eq_ok, pure_eq_ok, Net.required_eq_ok] at hafter
    obtain ⟨found, hfound, _, _, rfl⟩ := hafter
    have hthere : sim.marking.contains place = true := h.held place (by rw [Table.contains, hfound]; rfl)
    exact ⟨h.placed, rfl, Marking.contains_put_of_contains hthere color n⟩
  | setMarking m => cases hplain
  | setDelay transition delay =>
    refine LiveNet.orKeep_of (SamePlaces sim.live) hkept fun after hafter => ?_
    simp only [LiveNet.setDelay, FlatNet.setDelay, bind_eq_ok, pure_eq_ok] at hafter
    obtain ⟨net, ⟨_, _, rfl⟩, rfl⟩ := hafter
    exact ⟨⟨h.placed.ends, h.placed.initial, h.placed.bound⟩, rfl, fun _ => rfl⟩
  | requireRefresh => exact ⟨h.placed, rfl, fun _ => rfl⟩
  | pull tree =>
    refine LiveNet.orKeep_of (SamePlaces sim.live) hkept fun after hafter => ?_
    obtain ⟨hpulled, hafter⟩ := LiveNet.pull_eq_ok.1 hafter
    rw [hafter]
    -- what is read is put into places that have sources, and these are places of the net
    exact ⟨h.placed, rfl, LiveNet.contains_pullPairs hpulled fun pair hpair => h.held _ (h.placed.bound pair hpair)⟩
  | refresh tree =>
    exact LiveNet.orKeep_of (SamePlaces sim.live) hkept fun after hafter => absurd ⟨tree, after, rfl, hafter⟩ hother

/-- A net that follows its tree is in its initial marking. -/
theorem covers_of_refresh (sim : Simulation) {tree : IncludeTree} (hreachable : tree.Reachable) {fresh : LiveNet}
    (hfresh : (sim.live.refresh tree).2 = .ok fresh) : ({ sim with live := fresh } : Simulation).Covers ∧
      ∀ p, ¬ ({ sim with live := fresh } : Simulation).Strays p := by
  obtain ⟨made, timed, hmade, rfl⟩ := LiveNet.refresh_eq_ok hfresh
  obtain ⟨hnet, _, hmarking⟩ := LiveNet.made_of_ofTree hmade
  have hplaced := FlatNet.placed_of_ofTree hreachable hnet
  have hsame : ∀ p, made.marking.contains p = made.net.places.contains p := fun p => by
    rw [hmarking, hplaced.initial]
  refine ⟨⟨hplaced, fun p hp => (hsame p).trans hp⟩, fun p => ?_⟩
  rintro ⟨hheld, hgone⟩
  rw [(hsame p).symm.trans hheld] at hgone
  cases hgone

/-- One operation or edit: a place strays when a firing is undone that changed it and the net does not have it, or
when it strayed before and neither the simulation nor the net starts anew. -/
theorem Covers.handle (h : sim.Covers) (hplain : handling.IsPlain) : (sim.handle handling).Covers ∧
    ∀ place, (sim.handle handling).Strays place ↔
      sim.Revives place handling ∨ sim.Strays place ∧ ¬ sim.Restarts handling := by
  cases handling with
  | operate operation => exact h.passage (sim.passage_perform operation) (sim.continues_perform operation).net
  | edit edit =>
    have hrevives : ∀ place, ¬ sim.Revives place (.edit edit) := nofun
    by_cases hrefresh : sim.Renews (.edit edit)
    · obtain ⟨tree, fresh, heq, hfresh⟩ := hrefresh
      cases heq
      obtain ⟨hcovers, hnone⟩ := covers_of_refresh sim hplain hfresh
      have hafter : sim.handle (.edit (.refresh tree)) = { sim with live := fresh } := by
        rw [handle, LiveNet.edited, hfresh, LiveNet.orKeep]
      rw [hafter]
      have hrestarts : sim.Restarts (.edit (.refresh tree)) := Or.inr ⟨tree, fresh, rfl, hfresh⟩
      refine ⟨hcovers, fun place => ?_⟩
      have := hrevives place
      have := hnone place
      tauto
    · have hsame := h.samePlaces hplain hrefresh
      have hrestarts : ¬ sim.Restarts (.edit edit) := by
        rintro (heq | hrenews)
        · cases heq
        · exact hrefresh hrenews
      refine ⟨⟨hsame.placed, fun p hp => (hsame.marking p).trans (h.held p (hsame.places ▸ hp))⟩, fun place => ?_⟩
      have hstrays : (sim.handle (.edit edit)).Strays place ↔ sim.Strays place :=
        strays_congr hsame.places (hsame.marking place)
      have := hrevives place
      tauto

/-! ## Records -/

/-- Does a record name a place that the net does not have? -/
def Outdated (sim : Simulation) (firing : Firing) : Prop :=
  ∃ change ∈ firing.changes, sim.live.net.places.contains change.place = false

/-- A firing is recorded with places of the net only, so a record that names another place was there before. -/
theorem Covers.mem_of_outdated (h : sim.Covers) {operation : Operation} {firing : Firing}
    (hfiring : firing ∈ (sim.perform operation).1.history) (hout : sim.Outdated firing) : firing ∈ sim.history := by
  have hpassage := sim.passage_perform operation
  generalize (sim.perform operation).1 = after at hpassage hfiring
  cases hpassage with
  | stays _ _ _ hhistory => exact hhistory ▸ hfiring
  | shifted _ hshifts hhistory =>
    refine (hhistory firing hfiring).resolve_right fun hchanges => ?_
    obtain ⟨change, hchange, hgone⟩ := hout
    rw [hchanges, TokenChange.mem_diff] at hchange
    rw [h.placed.isEnd (hshifts.changed _ _ (Ne.symm hchange.2.2))] at hgone
    cases hgone
  | undone _ _ hhistory => exact List.dropLast_subset _ (hhistory ▸ hfiring)
  | restarted _ hhistory =>
    rw [hhistory] at hfiring
    cases hfiring

/-- A place is lost by a record only when the net follows its tree. -/
theorem Covers.outdated_handle (h : sim.Covers) (hplain : handling.IsPlain) {firing : Firing}
    (hfiring : firing ∈ (sim.handle handling).history) (hout : (sim.handle handling).Outdated firing) :
    firing ∈ sim.history ∧ (sim.Outdated firing ∨ sim.Renews handling) := by
  cases handling with
  | operate operation =>
    have hnet : (sim.handle (.operate operation)).live.net = sim.live.net := (sim.continues_perform operation).net
    rw [Outdated, hnet] at hout
    exact ⟨h.mem_of_outdated hfiring hout, Or.inl hout⟩
  | edit edit =>
    by_cases hrenews : sim.Renews (.edit edit)
    · exact ⟨hfiring, Or.inr hrenews⟩
    · have hplaces : (sim.handle (.edit edit)).live.net.places = sim.live.net.places :=
        (h.samePlaces hplain hrenews).places
      rw [Outdated, hplaces] at hout
      exact ⟨hfiring, Or.inl hout⟩

/-! ## Runs of operations and edits -/

theorem Covers.handleAll (h : sim.Covers) {handlings : List Handling} (hplain : ∀ handling ∈ handlings, handling.IsPlain) :
    (sim.handleAll handlings).Covers := by
  induction handlings generalizing sim with
  | nil => exact h
  | cons first rest ih =>
    exact ih (h.handle (hplain first (List.mem_cons_self ..))).1
      fun later hlater => hplain later (List.mem_cons_of_mem _ hlater)

/-- A record that names a lost place named one from the start, or was there when the net followed its tree. -/
theorem Covers.exists_renewal (h : sim.Covers) {handlings : List Handling}
    (hplain : ∀ handling ∈ handlings, handling.IsPlain) {firing : Firing}
    (hfiring : firing ∈ (sim.handleAll handlings).history) (hout : (sim.handleAll handlings).Outdated firing) :
    firing ∈ sim.history ∧ sim.Outdated firing ∨ ∃ i handling, handlings[i]? = some handling ∧
      (sim.handleAll (handlings.take i)).Renews handling ∧ firing ∈ (sim.handleAll (handlings.take i)).history := by
  induction handlings generalizing sim with
  | nil => exact Or.inl ⟨hfiring, hout⟩
  | cons first rest ih =>
    have hfirst := hplain first (List.mem_cons_self ..)
    rcases ih (h.handle hfirst).1 (fun later hlater => hplain later (List.mem_cons_of_mem _ hlater))
      hfiring hout with ⟨hbefore, hnamed⟩ | ⟨i, handling, hget, hrenews, hbefore⟩
    · obtain ⟨hstart, hnamed | hrenews⟩ := h.outdated_handle hfirst hbefore hnamed
      · exact Or.inl ⟨hstart, hnamed⟩
      · exact Or.inr ⟨0, first, rfl, hrenews, hstart⟩
    · exact Or.inr ⟨i + 1, handling, hget, hrenews, hbefore⟩

theorem Covers.new {tree : IncludeTree} (hreachable : tree.Reachable) {registry : Registry} {instanceId : Nat}
    {live : LiveNet} (hlive : (LiveNet.ofTree registry instanceId tree).2 = .ok live) {chance : Chance}
    {startTime : UInt64} (hnew : Simulation.new live chance startTime = .ok sim) :
    sim.Covers ∧ sim.history = [] ∧ ∀ place, ¬ sim.Strays place := by
  obtain ⟨timed, _, rfl⟩ := new_eq_ok.1 hnew
  have hplaced := FlatNet.placed_of_ofTree hreachable (LiveNet.net_of_ofTree hlive)
  refine ⟨⟨hplaced, fun p hp => (hplaced.initial p).trans hp⟩, rfl, fun place => ?_⟩
  rintro ⟨hheld, hgone⟩
  rw [(hplaced.initial place).symm.trans hheld] at hgone
  cases hgone

/-- In the run a firing was undone that had been recorded before the net followed its tree; the firing changed the
place, the net did not have it any more, and neither the simulation nor the net has started anew since. -/
def Revived (sim : Simulation) (handlings : List Handling) (place : String) : Prop :=
  ∃ i j followed last, i < j ∧
    handlings[i]? = some followed ∧ (sim.handleAll (handlings.take i)).Renews followed ∧
    last ∈ (sim.handleAll (handlings.take i)).history ∧
    handlings[j]? = some (.operate .undo) ∧ (sim.handleAll (handlings.take j)).history.getLast? = some last ∧
    (∃ change ∈ last.changes, change.place = place) ∧
    (sim.handleAll (handlings.take j)).live.net.places.contains place = false ∧
    ∀ k later, j < k → handlings[k]? = some later → ¬ (sim.handleAll (handlings.take k)).Restarts later

theorem strays_handleAll_iff (h : sim.Covers) (hhistory : sim.history = []) (hnone : ¬ sim.Strays place)
    {handlings : List Handling} (hplain : ∀ handling ∈ handlings, handling.IsPlain) :
    (sim.handleAll handlings).Strays place ↔ sim.Revived handlings place := by
  have hcovers : ∀ n, (sim.handleAll (handlings.take n)).Covers := fun n =>
    h.handleAll fun handling hhandling => hplain handling (List.mem_of_mem_take hhandling)
  have hstep : ∀ i x, handlings[i]? = some x → (((sim.handleAll (handlings.take i)).handle x).Strays place ↔
      (sim.handleAll (handlings.take i)).Revives place x ∨
        (sim.handleAll (handlings.take i)).Strays place ∧ ¬ (sim.handleAll (handlings.take i)).Restarts x) :=
    fun i x hx => ((hcovers i).handle (hplain x (List.mem_of_getElem? hx))).2 place
  rw [handleAll, foldl_since_iff (P := fun s => s.Strays place) (fun s x => s.Revives place x) Restarts hnone hstep]
  constructor
  · rintro ⟨j, undo, hj, ⟨rfl, hgone, last, hlast, change, hchange, rfl⟩, hkept⟩
    have hout : (sim.handleAll (handlings.take j)).Outdated last := ⟨change, hchange, hgone⟩
    -- no record is there at the start
    obtain ⟨hstart, _⟩ | ⟨i, followed, hi, hrenews, hrecord⟩ := h.exists_renewal
      (fun handling hhandling => hplain handling (List.mem_of_mem_take hhandling)) (List.mem_of_getLast? hlast) hout
    · rw [hhistory] at hstart
      cases hstart
    · rw [List.getElem?_take, Option.ite_none_right_eq_some] at hi
      obtain ⟨hlt, hi⟩ := hi
      rw [List.take_take, Nat.min_eq_left (Nat.le_of_lt hlt)] at hrenews hrecord
      exact ⟨i, j, followed, last, hlt, hi, hrenews, hrecord, hj, hlast, ⟨change, hchange, rfl⟩, hgone, hkept⟩
  · rintro ⟨_, j, _, last, _, _, _, _, hj, hlast, hchange, hgone, hkept⟩
    exact ⟨j, _, hj, ⟨rfl, hgone, last, hlast, hchange⟩, hkept⟩

/-- After any operations and edits, the marking knows the places of the net, and besides them exactly those that a
firing from before the net followed its tree has brought back by being undone. -/
theorem contains_handleAll_iff {tree : IncludeTree} (hreachable : tree.Reachable) {registry : Registry}
    {instanceId : Nat} {live : LiveNet} (hlive : (LiveNet.ofTree registry instanceId tree).2 = .ok live)
    {chance : Chance} {startTime : UInt64} (hnew : Simulation.new live chance startTime = .ok sim)
    {handlings : List Handling} (hplain : ∀ handling ∈ handlings, handling.IsPlain) (place : String) :
    (sim.handleAll handlings).marking.contains place = true ↔
      (sim.handleAll handlings).live.net.places.contains place = true ∨ sim.Revived handlings place := by
  obtain ⟨hcovers, hhistory, hnone⟩ := Covers.new hreachable hlive hnew
  rw [← strays_handleAll_iff hcovers hhistory (hnone place) hplain]
  have hheld := (hcovers.handleAll hplain).held place
  cases hthere : (sim.handleAll handlings).live.net.places.contains place with
  | true => simp [hheld hthere]
  | false => simp [Strays, hthere]

/-- The tree in which a token is handed over, without the place to which it goes. -/
def shrunk : IncludeTree :=
  match StateSpace.handover.net? IncludeTree.rootId with
  | some net => StateSpace.handover.setNet IncludeTree.rootId (net.attempt (.removePlace "Q"))
  | none => StateSpace.handover

theorem reachable_shrunk : shrunk.Reachable := by
  have hreachable : StateSpace.handover.Reachable := Sample.reachable_single _
  unfold shrunk
  split
  · rename_i net hnet
    obtain ⟨node, hnode, rfl⟩ := Option.map_eq_some_iff.1 hnet
    exact hreachable.setNet _ ((hreachable.linked.built _ _ hnode).attempt _)
  · exact hreachable

/-- The token is handed over, the net follows a tree without the place where it is now, and that is undone. -/
def returned : List Handling := [.operate (.fire "T"), .edit (.refresh shrunk), .operate .undo]

theorem run_returned : ∃ live sim, (LiveNet.ofTree Registry.empty 0 StateSpace.handover).2 = .ok live ∧
    StateSpace.started live = .ok sim ∧ (sim.handleAll returned).marking.contains "Q" = true ∧
    (sim.handleAll returned).live.net.places.contains "Q" = false := by
  have hrun : (LiveNet.ofTree Registry.empty 0 StateSpace.handover).2.map (fun live =>
      (StateSpace.started live).toOption.map fun sim => ((sim.handleAll returned).marking.contains "Q",
        (sim.handleAll returned).live.net.places.contains "Q")) = .ok (some (true, false)) := by
    decide +kernel
  obtain ⟨live, hlive, houtcome⟩ := map_eq_ok.1 hrun
  obtain ⟨sim, hsim, hplaces⟩ := Option.map_eq_some_iff.1 houtcome
  rw [Prod.mk.injEq] at hplaces
  exact ⟨live, sim, hlive, toOption_eq_some.1 hsim, hplaces⟩

theorem isPlain_returned : ∀ handling ∈ returned, handling.IsPlain := by
  simp [returned, Handling.IsPlain, reachable_shrunk]

/-- The place is not in the net any more, so it has been brought back. -/
theorem contains_handleAll_iff_returned : ∃ live sim, StateSpace.handover.Reachable ∧
    (LiveNet.ofTree Registry.empty 0 StateSpace.handover).2 = .ok live ∧ StateSpace.started live = .ok sim ∧
    (∀ handling ∈ returned, handling.IsPlain) ∧ sim.Revived returned "Q" := by
  obtain ⟨live, sim, hlive, hsim, hheld, hgone⟩ := run_returned
  have hreachable : StateSpace.handover.Reachable := Sample.reachable_single _
  refine ⟨live, sim, hreachable, hlive, hsim, isPlain_returned, ?_⟩
  refine ((contains_handleAll_iff hreachable hlive hsim isPlain_returned "Q").1 hheld).resolve_left ?_
  rw [hgone]
  exact Bool.false_ne_true

/-- A place that the net has lost comes back by undoing, and the marking knows one place more than the net. -/
theorem place_revived : ∃ live sim, (LiveNet.ofTree Registry.empty 0 StateSpace.handover).2 = .ok live ∧
    StateSpace.started live = .ok sim ∧ (∀ handling ∈ returned, handling.IsPlain) ∧
    ¬ ∀ place, (sim.handleAll returned).marking.contains place = (sim.handleAll returned).live.net.places.contains place := by
  obtain ⟨live, sim, hlive, hsim, hheld, hgone⟩ := run_returned
  refine ⟨live, sim, hlive, hsim, isPlain_returned, fun hsame => ?_⟩
  rw [hsame, hgone] at hheld
  cases hheld

end Simulation

end PetriTree
