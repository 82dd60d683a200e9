import Mathlib.Order.Lattice.Nat
import PetriTree.Proofs.StateSpace

/-!
# PetriTree — nodes in the order of their distance

A state space is explored breadth first, and its nodes keep the order in which they were found. How far a node is
from the first one is a matter of the finished graph, in which an edge may lead anywhere, also back. So an order by
distance cannot be read off the way in which a single node was found.

What carries it is a property of the edges: when an edge enters a node, all nodes before that one are entered from
where the edge starts or from earlier nodes. Each link keeps this, as the node that is being visited is the last one
of which links were drawn, and every node that is there has been entered.

Main results:
* `StateSpace.Leads`, `StateSpace.Distance` — the number of edges on a way from the first node;
* `StateSpace.BreadthFirst` — the property of the edges, with a lemma for each step of the exploration;
* `BreadthFirst.distance_le` — an earlier node is no farther away.
-/

namespace PetriTree.StateSpace

/-- Is there a way of so many edges from the first node to a node? -/
inductive Leads (space : StateSpace) : Nat → Nat → Prop
  | start : Leads space 0 0
  | step {n : Nat} {e : StateEdge} : Leads space n e.source → e ∈ space.edges → Leads space (n + 1) e.target

/-- Is this the number of edges on a shortest way from the first node to a node? -/
def Distance (space : StateSpace) (i d : Nat) : Prop := IsLeast {n | space.Leads n i} d

/-- Were the nodes found breadth first, by links that start no later than at `current`? -/
structure BreadthFirst (space : StateSpace) (current : Nat) : Prop where
  source_le : ∀ e ∈ space.edges, e.source ≤ current
  target_lt : ∀ e ∈ space.edges, e.target < space.nodes.length
  /-- Every node but the first was found from an earlier one. -/
  entered : ∀ i, 0 < i → i < space.nodes.length → ∃ e ∈ space.edges, e.target = i ∧ e.source < i
  /-- Where an edge ends, all nodes before were entered no later. -/
  ordered : ∀ e ∈ space.edges, ∀ i, 0 < i → i ≤ e.target →
    ∃ earlier ∈ space.edges, earlier.target = i ∧ earlier.source ≤ e.source

variable {space : StateSpace} {current : Nat}

/-! ## Distances -/

/-- A way to a node is no shorter than some way to each node before. -/
theorem BreadthFirst.exists_leads_le (h : space.BreadthFirst current) {n j : Nat} (hj : space.Leads n j) :
    ∀ i ≤ j, ∃ k ≤ n, space.Leads k i := by
  induction hj with
  | start =>
    intro i hi
    rw [Nat.le_zero.1 hi]
    exact ⟨0, Nat.le_refl 0, .start⟩
  | @step n e _ he ih =>
    intro i hi
    rcases Nat.eq_zero_or_pos i with rfl | hpos
    · exact ⟨0, Nat.zero_le _, .start⟩
    · -- an edge enters it from no later than where the way takes its last edge
      obtain ⟨earlier, hearlier, rfl, hsource⟩ := h.ordered e he i hpos hi
      obtain ⟨k, hk, hleads⟩ := ih earlier.source hsource
      exact ⟨k + 1, Nat.succ_le_succ hk, hleads.step hearlier⟩

/-- There is a way to every node. -/
theorem BreadthFirst.exists_leads (h : space.BreadthFirst current) (i : Nat) (hi : i < space.nodes.length) :
    ∃ n, space.Leads n i := by
  induction i using Nat.strongRecOn with
  | ind i ih =>
    rcases Nat.eq_zero_or_pos i with rfl | hpos
    · exact ⟨0, .start⟩
    · obtain ⟨e, he, rfl, hsource⟩ := h.entered i hpos hi
      obtain ⟨n, hn⟩ := ih e.source hsource (hsource.trans hi)
      exact ⟨n + 1, hn.step he⟩

theorem exists_distance {i n : Nat} (h : space.Leads n i) : ∃ d, space.Distance i d :=
  ⟨sInf {n | space.Leads n i}, Nat.sInf_mem ⟨n, h⟩, fun _ => Nat.sInf_le⟩

/-- Every node has a distance, and an earlier one is no farther away. -/
theorem BreadthFirst.distance_le (h : space.BreadthFirst current) {i j : Nat} (hij : i ≤ j)
    (hj : j < space.nodes.length) : ∃ a b, space.Distance i a ∧ space.Distance j b ∧ a ≤ b := by
  obtain ⟨n, hn⟩ := h.exists_leads j hj
  obtain ⟨b, hb⟩ := exists_distance hn
  obtain ⟨k, hkb, hk⟩ := h.exists_leads_le hb.1 i hij
  obtain ⟨a, ha⟩ := exists_distance hk
  exact ⟨a, b, ha, hb, (ha.2 hk).trans hkb⟩

/-! ## Exploring -/

theorem BreadthFirst.mono (h : space.BreadthFirst current) {later : Nat} (hle : current ≤ later) :
    space.BreadthFirst later :=
  { h with source_le := fun e he => (h.source_le e he).trans hle }

/-- The order rests on the edges and on the number of nodes. -/
theorem BreadthFirst.congr {other : StateSpace} (h : space.BreadthFirst current) (hedges : other.edges = space.edges)
    (hlength : other.nodes.length = space.nodes.length) : other.BreadthFirst current := by
  obtain ⟨hsource, htarget, hentered, hordered⟩ := h
  rw [← hedges] at hsource htarget hentered hordered
  rw [← hlength] at htarget hentered
  exact ⟨hsource, htarget, hentered, hordered⟩

theorem breadthFirst_start (name : String) (m : Marking) : (start name m).BreadthFirst 0 where
  source_le e he := by cases he
  target_lt e he := by cases he
  entered i hpos hi := absurd (Nat.lt_one_iff.1 hi) (Nat.ne_of_gt hpos)
  ordered e he := by cases he

/-- One edge more from the node that is visited, to a node that is there or to a new one. -/
theorem BreadthFirst.draw (h : space.BreadthFirst current) {nodes : List StateNode} {target : Nat}
    (hkept : space.nodes.length ≤ nodes.length) (htarget : target < nodes.length)
    (hnew : ∀ i < nodes.length, i < space.nodes.length ∨ i = target ∧ current < i) (transitions : SortedSet String)
    (changes : List TokenChange) :
    BreadthFirst { space with nodes := nodes, edges := space.edges ++ [⟨current, target, transitions, changes⟩] }
      current := by
  -- every node has been entered now, and from the node that is visited at the latest
  have hentered : ∀ i, 0 < i → i < nodes.length →
      ∃ e ∈ space.edges ++ [⟨current, target, transitions, changes⟩], e.target = i ∧ e.source < i ∧ e.source ≤ current := by
    intro i hpos hi
    rcases hnew i hi with hold | ⟨rfl, hlt⟩
    · obtain ⟨e, he, htarget, hsource⟩ := h.entered i hpos hold
      exact ⟨e, List.mem_append_left _ he, htarget, hsource, h.source_le e he⟩
    · exact ⟨_, List.mem_append_right _ (List.mem_singleton.2 rfl), rfl, hlt, Nat.le_refl _⟩
  refine ⟨fun e he => ?_, fun e he => ?_, fun i hpos hi => ?_, fun e he i hpos hi => ?_⟩
  · rcases List.mem_append.1 he with he | he
    · exact h.source_le e he
    · rw [List.mem_singleton.1 he]
  · rcases List.mem_append.1 he with he | he
    · exact (h.target_lt e he).trans_le hkept
    · rwa [List.mem_singleton.1 he]
  · obtain ⟨e, he, htarget, hsource, _⟩ := hentered i hpos hi
    exact ⟨e, he, htarget, hsource⟩
  · rcases List.mem_append.1 he with he | he
    · obtain ⟨earlier, hearlier, hrest⟩ := h.ordered e he i hpos hi
      exact ⟨earlier, List.mem_append_left _ hearlier, hrest⟩
    · rw [List.mem_singleton.1 he] at hi ⊢
      obtain ⟨earlier, hearlier, htarget', _, hsource⟩ := hentered i hpos (hi.trans_lt htarget)
      exact ⟨earlier, hearlier, htarget', hsource⟩

theorem BreadthFirst.link (h : space.BreadthFirst current) (hcurrent : current < space.nodes.length) (bound : Nat)
    (m : Marking) (next : Marking × SortedSet String) : (link bound current m space next).BreadthFirst current := by
  unfold StateSpace.link
  split
  · rename_i target hfind
    exact h.draw (Nat.le_refl _) (find?_lt hfind) (fun _ => Or.inl) ..
  · split
    · -- the new node comes after the one that is visited, so it was found from an earlier one
      refine h.draw ?_ ?_ (fun i hi => ?_) ..
      all_goals simp only [List.length_append, List.length_singleton] at *
      all_goals omega
    · exact h.congr rfl rfl

theorem length_le_link (bound source : Nat) (m : Marking) (space : StateSpace) (next : Marking × SortedSet String) :
    space.nodes.length ≤ (link bound source m space next).nodes.length := by
  obtain ⟨⟨added, hadded⟩, _⟩ := grown_link bound source m space next
  rw [hadded, List.length_append]
  exact Nat.le_add_right ..

theorem BreadthFirst.foldl_link {entries : List (Marking × SortedSet String)} (h : space.BreadthFirst current)
    (hcurrent : current < space.nodes.length) (bound : Nat) (m : Marking) :
    (entries.foldl (StateSpace.link bound current m) space).BreadthFirst current := by
  induction entries generalizing space with
  | nil => exact h
  | cons next rest ih => exact ih (h.link hcurrent bound m next) (hcurrent.trans_le (length_le_link ..))

theorem length_judge (net : FlatNet) (index : Nat) (m : Marking) (space : StateSpace) :
    (space.judge net index m).nodes.length = space.nodes.length := by
  unfold judge
  split
  · rfl
  · exact List.length_modify ..

/-- A visit keeps the order. -/
theorem BreadthFirst.visited (h : space.BreadthFirst current) (hcurrent : current < space.nodes.length) (net : FlatNet)
    (bound : Nat) (m : Marking) : (space.visited net bound current m).BreadthFirst current := by
  have hjudged : (space.judge net current m).BreadthFirst current :=
    h.congr (judge_rest net current m space).1 (length_judge ..)
  unfold StateSpace.visited
  split
  · exact hjudged.congr rfl rfl
  · exact hjudged.foldl_link ((length_judge ..).symm ▸ hcurrent) bound m

/-- A walk visits the nodes in their order. -/
theorem BreadthFirst.walked (h : space.BreadthFirst current) (net : FlatNet) (bound left : Nat) :
    ∃ last, (space.walked net bound left current).BreadthFirst last := by
  induction left generalizing space current with
  | zero => exact ⟨current, h⟩
  | succ left ih =>
    rw [StateSpace.walked]
    cases hnode : space.nodes[current]? with
    | none => exact ⟨current, h⟩
    | some node =>
      obtain ⟨hcurrent, _⟩ := List.getElem?_eq_some_iff.1 hnode
      exact ih ((h.visited hcurrent net bound node.marking).mono (Nat.le_succ current))

/-- Every state space has its nodes in the order in which they are found breadth first. -/
theorem breadthFirst_of_trusted {live : LiveNet} {cache : EnabledCache} (hcache : cache.Trusted live) (bound : Nat) :
    ∃ last, (explore live bound cache).2.BreadthFirst last := by
  rw [explore_eq hcache]
  exact (breadthFirst_start ..).walked ..

end PetriTree.StateSpace
