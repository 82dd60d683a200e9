import PetriTree.Proofs.Evaluation
import PetriTree.Proofs.Marking

/-!
# PetriTree — shared places of a joined tree

A place that stands for a place of another node is copied like any other and then merged into its home.
When a tree is joined, nothing is left of the copy: it is no place, no arc ends at it and no expression
mentions it. Whoever asks for the place is sent to the home, which lists all the places that share it and
starts with its own tokens only.

Main results:
* `FlatNet.initial_tokens` — every place of a flat net starts with the tokens that were copied;
* `FlatNet.away_resolved` — what becomes of a place that stands for a place of another node.
-/

namespace PetriTree

open Assembly

variable {tree : IncludeTree} {net : FlatNet}

/-- A place of another node's interface has its home there. -/
theorem Local.home?_eq_some {l : Local Place} {home : HomeRef} (huse : l.part.status.merge = .inUse)
    (hhome : l.part.status.home = some home) (hother : home.node ≠ l.node) : l.home? = some home := by
  rw [Local.home?, foreignHome, if_pos huse, hhome]
  simp [Option.filter, hother]

/-- A copy that does not wait for a home differs from its place by the id only. -/
theorem Local.copy_eq {l : Local Place} (h : l.home? = none) :
    l.copy = { l.part with id := l.flat } := by
  simp [Local.copy, h]

namespace Assembly.Merged

variable {ps : List (Local Place)} {rs : List (Local RateParameter)} {ts : List (Local Transition)}
  {as : List (Local Arc)} {a₀ a : Assembly}

/-- Nothing is left at the flat id of a place that was merged: no place, and no transition either. -/
theorem not_hasEnd (h : Merged tree ps a₀ ps a) (hcopied : Copied tree ps rs ts as a₀) {l : Local Place}
    (hl : l ∈ ps) (htarget : (l.target? tree).isSome) : ¬ a.HasEnd l.flat := by
  have hold : l.flat ∈ (redirectsOf tree ps).map Redirect.old := mem_map_old.2 ⟨l, hl, htarget, rfl⟩
  have hplace : a.places.contains l.flat = false := by
    rw [Table.contains, h.get?_place, if_pos hold]
    rfl
  have htransition : a.transitions.contains l.flat = false := by
    rw [h.contains_transition]
    exact hcopied.apart _ (by rw [Table.contains, hcopied.get?_flat hl]; rfl)
  rw [HasEnd, hplace, htransition]
  simp

/-- The place that others are merged into is itself a copy that stays. -/
theorem exists_origin (h : Merged tree ps a₀ ps a) (hcopied : Copied tree ps rs ts as a₀) {l : Local Place}
    (hl : l ∈ ps) (hhome : l.home?.isSome) :
    ∃ origin ∈ ps, origin.home? = none ∧ l.target? tree = some origin.flat ∧
      a.places.get? origin.flat = some origin.copy ∧ origin.copy.status.merge = .home ∧
      origin.flat ∉ (redirectsOf tree ps).map Redirect.old := by
  obtain ⟨flat, place, htarget, hplace, hmerge⟩ := h.homes l hl hhome
  have hmem : (flat, place) ∈ ps.map fun l => (l.flat, l.copy) := by
    rw [← hcopied.places]
    exact Table.get?_eq_some_iff.1 hplace
  obtain ⟨origin, horigin, heq⟩ := List.mem_map.1 hmem
  cases heq
  -- a home that waited for a home itself would have another merge state
  have hstays : origin.home? = none := by
    cases hfound : origin.home? with
    | none => rfl
    | some home =>
      rw [Local.merge_copy (by rw [hfound]; rfl)] at hmerge
      cases hmerge
  have hkept : origin.flat ∉ (redirectsOf tree ps).map Redirect.old := by
    intro hold
    obtain ⟨k, hk, hsome, hflat⟩ := mem_map_old.1 hold
    cases hcopied.eq_of_flat_eq hk horigin hflat
    rw [target?_eq_none hstays] at hsome
    cases hsome
  refine ⟨origin, horigin, hstays, htarget, ?_, hmerge, hkept⟩
  rw [h.get?_place, if_neg hkept, hplace]

end Assembly.Merged

namespace FlatNet

/-- Every place of a flat net starts with the tokens that it was copied with. -/
theorem initial_tokens (h : FlatNet.ofTree tree = .ok net) {id : String} {place : Place}
    (hplace : net.places.get? id = some place) (color : String) :
    net.initial.tokens id color = place.count color := by
  obtain ⟨a, ha, hnet⟩ := compiledFrom_of_ofTree h
  have hids : ∀ e ∈ net.places.entries, e.2.id = e.1 := by
    rw [hnet.places]
    exact place_id_of_joined ha
  have hmem := Table.get?_eq_some_iff.1 hplace
  have hlist : net.places.values.map (fun p => (p.id, p.tokens.entries)) =
      net.places.entries.map fun e => (e.1, e.2.tokens.entries) := by
    rw [Table.values, List.map_map]
    exact List.map_congr_left fun e he => by rw [Function.comp, hids e he]
  rw [initial, hlist, Place.count, Table.get?]
  refine Marking.tokens_ofPlaces ?_ ?_ (List.mem_map.2 ⟨_, hmem, rfl⟩) color
  · rw [List.map_map]
    exact net.places.nodup
  · intro e he
    obtain ⟨d, _, rfl⟩ := List.mem_map.1 he
    exact d.2.tokens.nodup

section Gone

variable {a : Assembly} {id : String}

theorem CompiledFrom.places_of_not_hasEnd (hnet : net.CompiledFrom a) (hend : ¬ a.HasEnd id) :
    net.places.contains id = false := by
  rw [hnet.places, Bool.eq_false_iff]
  exact fun hcontains => hend (Or.inl hcontains)

theorem CompiledFrom.arcs_of_not_hasEnd (hnet : net.CompiledFrom a) (hend : ¬ a.HasEnd id) :
    ∀ arc ∈ net.arcs.values, arc.arc.place ≠ id ∧ arc.arc.transition ≠ id := by
  intro arc harc
  obtain ⟨d, hd, rfl⟩ := List.mem_map.1 harc
  obtain ⟨e, _, _, heq, hplace, htransition, _⟩ := exists_left_of_forall₂ hnet.arcs hd
  rw [heq]
  exact ⟨fun hid => hend (hid ▸ hplace), fun hid => hend (hid ▸ htransition)⟩

/-- Every place that an expression mentions was looked for. -/
theorem notMem_placeMentions (h : FlatNet.ofTree tree = .ok net) (hgone : net.places.contains id = false)
    {e : Expr} (he : net.Holds e) : id ∉ e.placeMentions := by
  intro hmention
  have hknown := ((checked_of_ofTree h).expressions e he).1.places id hmention
  rw [hgone] at hknown
  cases hknown

end Gone

/-- A place of a node that stands for a place of another node leaves nothing at its own flat id: no
place, no end of an arc, no mention. Its home has to be there. It is bound to that home, whose sources
are the place that was copied to its flat id and then the places merged into it, in the order of the walk, and
which starts with the tokens of the first of them alone. -/
theorem away_resolved (h : FlatNet.ofTree tree = .ok net) {id : NodeId} {node : TreeNode} {place : Place}
    {home : HomeRef} (hnode : (id, node) ∈ tree.walk) (hplace : place ∈ node.net.places.values)
    (huse : place.status.merge = .inUse) (hhome : place.status.home = some home) (hother : home.node ≠ id) :
    net.places.contains (qualify node.path place.id) = false ∧
      (∀ arc ∈ net.arcs.values, arc.arc.place ≠ qualify node.path place.id ∧
        arc.arc.transition ≠ qualify node.path place.id) ∧
      (∀ e, net.Holds e → qualify node.path place.id ∉ e.placeMentions) ∧
      ∃ homeNode flat merged, tree.node? home.node = some homeNode ∧
        flat = qualify homeNode.path home.place ∧
        net.places.get? flat = some merged ∧ merged.status.merge = .home ∧
        net.bindings.flatOf ⟨id, place.id⟩ = some flat ∧
        ∃ origin ∈ placesOf tree.walk, origin.flat = flat ∧ merged = { origin.part with id := flat } ∧
          net.bindings.sourcesOf flat = origin.source :: consumersOf tree (placesOf tree.walk) flat ∧
          net.bindings.primary flat = some origin.source ∧
          ∀ color, net.initial.tokens flat color = origin.part.count color := by
  obtain ⟨a, ha, hnet⟩ := compiledFrom_of_ofTree h
  obtain ⟨a₀, hcopied, hmerged⟩ := merged_of_joined ha
  obtain ⟨l, hl, hlocal⟩ : ∃ l ∈ placesOf tree.walk, l = ⟨id, node, place⟩ :=
    ⟨⟨id, node, place⟩, mem_localsOf.2 ⟨hnode, hplace⟩, rfl⟩
  have hflat : l.flat = qualify node.path place.id := by rw [hlocal]; rfl
  have hsource : l.source = ⟨id, place.id⟩ := by rw [hlocal]; rfl
  have hlhome : l.home? = some home := by
    rw [hlocal]
    exact Local.home?_eq_some huse hhome hother
  obtain ⟨origin, horigin, hstays, htarget, hfound, hmerge, hkept⟩ :=
    hmerged.exists_origin hcopied hl (by rw [hlhome]; rfl)
  -- what compiling checks against the tables cannot be at the flat id any more
  have hend : ¬ a.HasEnd l.flat := hmerged.not_hasEnd hcopied hl (by rw [htarget]; rfl)
  have hgone := hnet.places_of_not_hasEnd hend
  rw [← hflat, ← hsource]
  refine ⟨hgone, hnet.arcs_of_not_hasEnd hend, fun e he => notMem_placeMentions h hgone he, ?_⟩
  -- what is expected of the home is found at the copy that stays
  obtain ⟨homeNode, hhomeNode, hqualified⟩ : ∃ homeNode, tree.node? home.node = some homeNode ∧
      qualify homeNode.path home.place = origin.flat := by
    rw [Local.target?, hlhome, Option.bind_some, Option.map_eq_some_iff] at htarget
    exact htarget
  have hplaces : net.places.get? origin.flat = some origin.copy := by rw [hnet.places, hfound]
  have hsources : net.bindings.sourcesOf origin.flat =
      origin.source :: consumersOf tree (placesOf tree.walk) origin.flat := by
    rw [hnet.bindings, Bindings.sourcesOf, hmerged.sources origin horigin hkept]
    rfl
  refine ⟨homeNode, origin.flat, origin.copy, hhomeNode, hqualified.symm, hplaces, hmerge, ?_, origin,
    horigin, rfl, Local.copy_eq hstays, hsources, ?_, fun color => ?_⟩
  · have hold : l.flat ∈ (redirectsOf tree (placesOf tree.walk)).map Redirect.old :=
      mem_map_old.2 ⟨l, hl, by rw [htarget]; rfl, rfl⟩
    rw [hnet.bindings, hmerged.flatOf l hl, if_pos hold, htarget]
  · rw [Bindings.primary, hsources]
    rfl
  · rw [initial_tokens h hplaces color]
    rfl

/-- A place of the root that stands for the place `P` of the node included as `a`. -/
def borrowed : Place :=
  Sample.placeOf { PlaceStatus.plain with merge := .inUse, home := some ⟨⟨1⟩, "P"⟩ } "U" 5

/-- A tree whose root takes tokens from a place of the node below it. -/
def lending : IncludeTree := Sample.pair
  [.place borrowed, Sample.transition "T" Rate.one, Sample.arc "in" "U" "T" .placeToTransition "#(U)"]
  [.place (Sample.placeOf { PlaceStatus.plain with merge := .home } "P" 2)] "a"

theorem away_resolved_lending : ∃ net, FlatNet.ofTree lending = .ok net ∧
    net.places.contains "U" = false ∧ net.bindings.flatOf ⟨IncludeTree.rootId, "U"⟩ = some "a.P" := by
  have hrun : (FlatNet.ofTree lending).map (fun net => net.places.names) = .ok ["a.P"] := by decide +kernel
  obtain ⟨net, hnet, _⟩ := map_eq_ok.1 hrun
  have hwalk : lending.walk.head?.map (fun e => (e.1, e.2.path, e.2.net.places.values)) =
      some (IncludeTree.rootId, "", [borrowed]) := by decide +kernel
  obtain ⟨⟨id, node⟩, hhead, hroot⟩ := Option.map_eq_some_iff.1 hwalk
  simp only [Prod.mk.injEq] at hroot
  obtain ⟨rfl, hpath, hplaces⟩ := hroot
  have hhome : (lending.node? ⟨1⟩).map TreeNode.path = some "a" := by decide +kernel
  obtain ⟨homeNode, hhomeNode, hhomePath⟩ := Option.map_eq_some_iff.1 hhome
  have hplace : borrowed ∈ node.net.places.values := by
    rw [hplaces]
    exact List.mem_singleton.2 rfl
  have howned : borrowed.status.home = some ⟨⟨1⟩, "P"⟩ := rfl
  obtain ⟨hgone, _, _, homeNode', flat, _, hhomeNode', hflat, _, _, hbound, _⟩ :=
    away_resolved hnet (List.mem_of_head? hhead) hplace rfl howned (by decide)
  -- both ids are computed from the paths of the two nodes
  rw [hhomeNode] at hhomeNode'
  cases hhomeNode'
  rw [hhomePath] at hflat
  rw [hpath] at hgone
  refine ⟨net, hnet, hgone, ?_⟩
  have hid : flat = "a.P" := hflat.trans (by decide)
  exact hid ▸ hbound

end FlatNet

end PetriTree
