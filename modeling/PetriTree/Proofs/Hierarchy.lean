import PetriTree.Proofs.Sample
import PetriTree.Proofs.Sharing
import PetriTree.Proofs.TreeCommand
import PetriTree.Proofs.View

/-!
# PetriTree — the meaning of a hierarchy

Joining a tree carries every expression through texts, once for the path of its node and once for every
place that is merged, and renames arcs, places and transitions beside them. All of it together is one
substitution. A word is kept apart from its neighbours by the grammar only, so names have to be words
that a parameter can have, and a literal has to have a text of its own.

Main results:
* `IncludeTree.Lexical` — names are words and literals are finite;
* `FlatNet.Flattens` — a flat arc that comes from an arc of a node;
* `FlatNet.flattens_of_ofTree` — the arcs of a flat net come from the arcs of the nodes, one by one;
* `FlatNet.firing_of_node` — a transition is enabled and fires in the flat net as the arcs of its node say.
-/

namespace PetriTree

/-! ## What the grammar can carry -/

/-- Names of included nodes and places are words of expressions, and the numbers in weights are finite.
The root adds nothing to paths and may be called anything. -/
structure IncludeTree.Lexical (tree : IncludeTree) : Prop where
  names : ∀ id node, (id, node) ∈ tree.walk → node.parent.isSome → Expr.IsParameterName node.name
  places : ∀ id node, (id, node) ∈ tree.walk → ∀ place ∈ node.net.places.values, Expr.IsWord place.id
  literals : ∀ id node, (id, node) ∈ tree.walk →
    ∀ arc ∈ node.net.arcs.values, ∀ w ∈ arc.weights.entries, ∀ e, Expr.ofText w.2 = .ok e →
      e.Formed (fun value => value.isFinite = true) (fun _ => True) fun _ => True

namespace IncludeTree

variable {tree : IncludeTree}

/-- What was read from a text has words that can be written, and its literals are finite besides. -/
theorem Lexical.printable (h : tree.Lexical) {id : NodeId} {node : TreeNode}
    (hnode : (id, node) ∈ tree.walk) {arc : Arc} (harc : arc ∈ node.net.arcs.values)
    {w : String × String} (hw : w ∈ arc.weights.entries) {e : Expr} (he : Expr.ofText w.2 = .ok e) :
    e.Printable :=
  Expr.printable_of_ofText he (h.literals id node hnode arc harc w hw e he)

/-- The paths of a reachable tree can stand before the name of a parameter. -/
theorem Lexical.isPath (h : tree.Lexical) (hreachable : tree.Reachable) {id : NodeId} {node : TreeNode}
    (hnode : (id, node) ∈ tree.walk) : IsPath node.path := by
  refine hreachable.linked.paths_of_walk (Or.inl rfl) ?_ id node hnode
  intro path below found hmem hparent hpath
  exact Or.inr ((keepsWords_qualify hpath).parameters _ (h.names below found hmem hparent))

end IncludeTree

/-! ## Where merged places end -/

namespace Assembly

variable {tree : IncludeTree}

/-- Looking a redirection up is looking the place up that it came from. -/
theorem find?_redirectsOf {ps : List (Local Place)} (hnodup : (ps.map Local.flat).Nodup) (flat : String) :
    ((redirectsOf tree ps).find? fun r => r.old == flat).map Redirect.new =
      (ps.find? fun l => l.flat == flat).bind (Local.target? tree) := by
  induction ps with
  | nil => rfl
  | cons l rest ih =>
    rw [List.map_cons, List.nodup_cons] at hnodup
    have hcons : redirectsOf tree (l :: rest) =
        ((l.target? tree).map fun new => ⟨l.flat, new⟩).toList ++ redirectsOf tree rest := by
      rw [redirectsOf, List.filterMap_cons]
      cases l.target? tree <;> rfl
    rw [hcons, List.find?_append, List.find?_cons]
    cases htarget : l.target? tree with
    | none =>
      by_cases hflat : l.flat = flat
      · -- no other place has the id, so there is no redirection for it
        have hnone : (rest.find? fun k => k.flat == flat) = none := by
          rw [List.find?_eq_none]
          intro k hk heq
          exact hnodup.1 (hflat ▸ eq_of_beq heq ▸ List.mem_map_of_mem hk)
        have hrest := ih hnodup.2
        rw [hnone] at hrest
        simpa [hflat, htarget] using hrest
      · have hbeq : (l.flat == flat) = false := beq_false_of_ne hflat
        simpa [hbeq] using ih hnodup.2
    | some new =>
      by_cases hflat : l.flat = flat
      · simp [hflat, htarget]
      · have hbeq : (l.flat == flat) = false := beq_false_of_ne hflat
        simpa [hbeq] using ih hnodup.2

variable {rs : List (Local RateParameter)} {ts : List (Local Transition)} {as : List (Local Arc)}
  {a₀ a : Assembly}

/-- A redirection leads to a place that stays. -/
theorem Merged.new_notMem_old (h : Merged tree (placesOf tree.walk) a₀ (placesOf tree.walk) a)
    (hcopied : Copied tree (placesOf tree.walk) rs ts as a₀) {r : Redirect}
    (hr : r ∈ redirectsOf tree (placesOf tree.walk)) :
    r.new ∉ (redirectsOf tree (placesOf tree.walk)).map Redirect.old ∧
      ∃ origin ∈ placesOf tree.walk, r.new = origin.flat := by
  obtain ⟨l, hl, hlr⟩ := List.mem_filterMap.1 hr
  obtain ⟨new, htarget, rfl⟩ := Option.map_eq_some_iff.1 hlr
  -- only a place that waits for a home has a target
  have hhome : l.home?.isSome := by
    cases hfound : l.home? with
    | none =>
      rw [target?_eq_none hfound] at htarget
      cases htarget
    | some home => rfl
  obtain ⟨origin, horigin, _, horiginTarget, _, _, hkept⟩ := h.exists_origin hcopied hl hhome
  rw [htarget] at horiginTarget
  cases horiginTarget
  exact ⟨hkept, origin, horigin, rfl⟩

/-- Following all redirections ends where a place is resolved to. -/
theorem Merged.follow_eq_resolve (h : Merged tree (placesOf tree.walk) a₀ (placesOf tree.walk) a)
    (hcopied : Copied tree (placesOf tree.walk) rs ts as a₀) :
    follow (redirectsOf tree (placesOf tree.walk)) = tree.resolve := by
  funext flat
  rw [follow_eq (fun r hr => (h.new_notMem_old hcopied hr).1), find?_redirectsOf hcopied.nodup_flat,
    IncludeTree.resolve]

end Assembly

/-! ## Arcs of nodes in the flat net -/

/-- Every arc of a net leads into a transition or out of it. -/
theorem mem_arcsOf {nodes : List (NodeId × TreeNode)} {l : Local Arc} :
    l ∈ arcsOf nodes ↔ (l.node, l.owner) ∈ nodes ∧ l.part ∈ l.owner.net.arcs.values := by
  refine mem_localsOf.trans (and_congr_right fun _ => ?_)
  simp only [List.mem_append, Net.inboundArcs, Net.outboundArcs, List.mem_filter, ← and_or_left]
  cases l.part.isInbound <;> simp

/-- Does the flat arc come from the arc of a node? It does the same in every marking, seen from the
node. -/
structure FlatNet.Flattens (net : FlatNet) (tree : IncludeTree) (l : Local Arc) (flat : FlatArc) :
    Prop where
  id : flat.arc.id = qualify l.owner.path l.part.id
  transition : flat.arc.transition = qualify l.owner.path l.part.transition
  direction : flat.arc.direction = l.part.direction
  mirrors : ∀ m, View.Mirrors ⟨tree, l.owner, net⟩ m l.part flat

/-- A weight that was renamed as the node sees things has the value that the node gives it. -/
theorem View.weigh_of_renamed (v : View) (m : Marking) {text text' : String} {e e' : Expr}
    (he : Expr.ofText text = .ok e) (hprintable : e.Printable) (he' : Expr.ofText text' = .ok e')
    (hrenamed : RenamesText v.place (qualify v.node.path) text text') :
    (e'.evaluateWeight (v.net.reading m)).toOption = v.weigh m text := by
  have heq := (hrenamed e he hprintable).1
  rw [he'] at heq
  cases heq
  rw [Expr.evaluateWeight_rename, View.weigh, he]
  rfl

namespace FlatNet

variable {tree : IncludeTree} {net : FlatNet}

/-- The copy of an arc, redirected and compiled, does what the arc does. -/
theorem flattens_of_copy {a : Assembly} {rs : List Assembly.Redirect} {l : Local Arc} {e : String × Arc}
    {flat : FlatArc} (hpath : IsPath l.owner.path)
    (hprintable : ∀ w ∈ l.part.weights.entries, ∀ e, Expr.ofText w.2 = .ok e → e.Printable)
    (hwords : ∀ r ∈ rs, Expr.IsWord r.new) (hfollow : Assembly.follow rs = tree.resolve)
    (hcopy : l.CopiesArc e) (hrun : rs.foldlM (fun arc r => r.arc arc) e.2 = .ok flat.arc)
    (hweights : List.Forall₂ a.Weighs flat.arc.weights.entries flat.weights) : net.Flattens tree l flat := by
  obtain ⟨hqualified, hid, htransition⟩ := hcopy.renamed hpath
  obtain ⟨hredirected, hid', htransition'⟩ := Assembly.renamed_of_foldlM hwords hrun
  -- two renamings one after the other are one
  have hrenamed := hqualified.trans hredirected
  rw [hfollow] at hrenamed
  have hown := (List.forall₂_and_left _ _).2 ⟨fun _ hw => hw, hrenamed.weights⟩
  refine ⟨hid'.trans hid, htransition'.trans htransition, hrenamed.direction, fun m => ?_⟩
  refine ⟨hrenamed.kind, hrenamed.place, forall₂_trans (fun w d d' hwd hdd' => ?_) hown hweights⟩
  obtain ⟨hw, hcolor, htext⟩ := hwd
  obtain ⟨hcolor', _, hread, _⟩ := hdd'
  obtain ⟨expr, hexpr⟩ := hcopy.readable w hw
  exact ⟨hcolor'.trans hcolor,
    View.weigh_of_renamed ⟨tree, l.owner, net⟩ m hexpr (hprintable w hw expr hexpr) hread htext⟩

/-- The arcs of a flat net come from the arcs of the nodes, one by one. -/
theorem flattens_of_ofTree (hreachable : tree.Reachable) (hlexical : tree.Lexical)
    (h : FlatNet.ofTree tree = .ok net) :
    List.Forall₂ (net.Flattens tree) (arcsOf tree.walk) net.arcs.values := by
  obtain ⟨a, ha, hnet⟩ := compiledFrom_of_ofTree h
  obtain ⟨a₀, hcopied, hmerged⟩ := Assembly.merged_of_joined ha
  -- a redirection leads to the flat id of a place, which is a word
  have hwords : ∀ r ∈ Assembly.redirectsOf tree (placesOf tree.walk), Expr.IsWord r.new := by
    intro r hr
    obtain ⟨_, origin, horigin, hnew⟩ := hmerged.new_notMem_old hcopied hr
    obtain ⟨hnode, hplace⟩ := mem_localsOf.1 horigin
    rw [hnew]
    exact (keepsWords_qualify (hlexical.isPath hreachable hnode)).places _
      (hlexical.places _ _ hnode _ hplace)
  have hfollow := hmerged.follow_eq_resolve hcopied
  -- copied, merged and compiled: three lists of arcs, one by one
  have hcopies := (List.forall₂_and_left _ _).2 ⟨fun _ hl => hl, hcopied.arcs⟩
  have hjoined := forall₂_trans (T := fun l d => l ∈ arcsOf tree.walk ∧ ∃ e, Local.CopiesArc l e ∧
      (Assembly.redirectsOf tree (placesOf tree.walk)).foldlM (fun arc r => r.arc arc) e.2 = .ok d.2)
    (fun l e d hle hed => ⟨hle.1, e, hle.2, hed.2⟩) hcopies hmerged.arcs
  refine List.forall₂_map_right_iff.2 (forall₂_trans (fun l d flat hld hflat => ?_) hjoined hnet.arcs)
  obtain ⟨hl, e, hcopy, hrun⟩ := hld
  obtain ⟨_, harc, _, _, hweights⟩ := hflat
  obtain ⟨hnode, hpart⟩ := mem_arcsOf.1 hl
  rw [← harc] at hrun hweights
  exact flattens_of_copy (hlexical.isPath hreachable hnode)
    (fun w hw e he => hlexical.printable hnode hpart hw he) hwords hfollow hcopy hrun hweights

/-! ## Arcs at a transition of a node -/

/-- The transitions of a flat net are those of the nodes under their qualified names. -/
theorem names_transitions (h : FlatNet.ofTree tree = .ok net) : net.transitions.names =
    (transitionsOf tree.walk).map fun l => qualify l.owner.path l.part.id := by
  obtain ⟨a, ha, hnet⟩ := compiledFrom_of_ofTree h
  obtain ⟨a₀, hcopied, hmerged⟩ := Assembly.merged_of_joined ha
  rw [Table.names, names_of_forall₂ hnet.transitions, names_of_forall₂ hmerged.transitions]
  exact map_eq_of_forall₂ hcopied.transitions fun _ _ hcopy => hcopy.1

/-- Nodes have different flat transitions, so one of them is found in a single place of the walk. -/
theorem exists_walk_split (h : FlatNet.ofTree tree = .ok net) {id : NodeId} {node : TreeNode}
    (hnode : (id, node) ∈ tree.walk) {t : Transition} (ht : t ∈ node.net.transitions.values) :
    ∃ before after, tree.walk = before ++ (id, node) :: after ∧
      ∀ l ∈ transitionsOf (before ++ after),
        qualify l.owner.path l.part.id ≠ qualify node.path t.id := by
  obtain ⟨before, after, hwalk⟩ := List.append_of_mem hnode
  -- the flat net has each of its transitions once
  have hnodup : ((transitionsOf tree.walk).map fun l => qualify l.owner.path l.part.id).Nodup := by
    rw [← names_transitions h]
    exact net.transitions.nodup
  refine ⟨before, after, hwalk, fun l hl heq => ?_⟩
  have hmem : (⟨id, node, t⟩ : Local Transition) ∈ transitionsOf [(id, node)] :=
    mem_localsOf.2 ⟨List.mem_singleton.2 rfl, ht⟩
  have hsplit : transitionsOf tree.walk =
      transitionsOf before ++ (transitionsOf [(id, node)] ++ transitionsOf after) := by
    rw [hwalk]
    simp [transitionsOf, localsOf]
  rw [hsplit, List.map_append, List.map_append, List.nodup_append, List.nodup_append] at hnodup
  obtain ⟨_, ⟨_, _, hafter⟩, hbefore⟩ := hnodup
  have hflat := List.mem_map_of_mem (f := fun l : Local Transition => qualify l.owner.path l.part.id) hmem
  have hcases : l ∈ transitionsOf before ++ transitionsOf after := by
    simpa [transitionsOf, localsOf] using hl
  rcases List.mem_append.1 hcases with hl | hl
  · exact hbefore _ (List.mem_map_of_mem hl) _ (List.mem_append_left _ hflat) heq
  · exact hafter _ hflat _ (List.mem_map_of_mem hl) heq.symm

/-- An arc of a reachable tree is attached to a transition of its own node. -/
theorem exists_transition (hreachable : tree.Reachable) {l : Local Arc} (hl : l ∈ arcsOf tree.walk) :
    ∃ t ∈ l.owner.net.transitions.values, t.id = l.part.transition := by
  obtain ⟨hnode, hpart⟩ := mem_arcsOf.1 hl
  have hanchored := (hreachable.linked.built _ _ (node?_of_mem_walk hnode)).anchored
  obtain ⟨t, ht⟩ := Option.isSome_iff_exists.1 (hanchored.ends l.part hpart)
  have hmem := Table.get?_eq_some_iff.1 ht
  exact ⟨t, List.mem_map.2 ⟨_, hmem, rfl⟩, hanchored.keys _ hmem⟩

/-- Of all arcs of nodes, those at the flat transition are the node's own at its transition. -/
theorem filter_arcsOf (hreachable : tree.Reachable) (h : FlatNet.ofTree tree = .ok net) {id : NodeId}
    {node : TreeNode} (hnode : (id, node) ∈ tree.walk) {t : Transition}
    (ht : t ∈ node.net.transitions.values) (p : Arc → Bool) :
    ((arcsOf tree.walk).filter fun l =>
      p l.part && qualify l.owner.path l.part.transition == qualify node.path t.id) =
    ((node.net.inboundArcs ++ node.net.outboundArcs).filter fun a => p a && a.transition == t.id).map
      fun a => ⟨id, node, a⟩ := by
  obtain ⟨before, after, hwalk, hothers⟩ := exists_walk_split h hnode ht
  -- an arc of another node at the flat transition would be at a transition of its own node
  have hskip : ∀ nodes : List (NodeId × TreeNode), (∀ e ∈ nodes, e ∈ before ++ after) →
      (arcsOf nodes).filter (fun l =>
        p l.part && qualify l.owner.path l.part.transition == qualify node.path t.id) = [] := by
    intro nodes hnodes
    rw [List.filter_eq_nil_iff]
    intro l hl hmatch
    rw [Bool.and_eq_true] at hmatch
    have hnode' := hnodes _ (mem_arcsOf.1 hl).1
    have hwalked : l ∈ arcsOf tree.walk := by
      obtain ⟨_, hpart⟩ := mem_localsOf.1 hl
      refine mem_localsOf.2 ⟨?_, hpart⟩
      rw [hwalk]
      exact List.mem_append.2 ((List.mem_append.1 hnode').imp_right (List.mem_cons_of_mem _))
    obtain ⟨t', ht', hid⟩ := exists_transition hreachable hwalked
    refine hothers ⟨l.node, l.owner, t'⟩ (mem_localsOf.2 ⟨hnode', ht'⟩) ?_
    rw [hid]
    exact eq_of_beq hmatch.2
  have hsplit : arcsOf tree.walk = arcsOf before ++
      ((node.net.inboundArcs ++ node.net.outboundArcs).map (fun a => ⟨id, node, a⟩) ++ arcsOf after) := by
    rw [hwalk]
    simp [arcsOf, localsOf]
  rw [hsplit, List.filter_append, List.filter_append, hskip before fun e => List.mem_append_left _,
    hskip after fun e => List.mem_append_right _, List.nil_append, List.append_nil, List.filter_map]
  -- within the node, qualifying tells different transitions apart
  refine congrArg _ (List.filter_congr fun a _ => ?_)
  rw [Function.comp, Bool.eq_iff_iff, Bool.and_eq_true, Bool.and_eq_true, beq_iff_eq, beq_iff_eq,
    (qualify_injective node.path).eq_iff]

/-- The arcs of one direction at a flat transition come from those of the node at its transition. -/
theorem flattens_filter (hreachable : tree.Reachable) (hlexical : tree.Lexical)
    (h : FlatNet.ofTree tree = .ok net) {id : NodeId} {node : TreeNode} (hnode : (id, node) ∈ tree.walk)
    {t : Transition} (ht : t ∈ node.net.transitions.values) {p : Arc → Bool}
    (hp : ∀ a b : Arc, a.direction = b.direction → p a = p b) :
    List.Forall₂ (fun arc flat => net.Flattens tree ⟨id, node, arc⟩ flat)
      ((node.net.inboundArcs ++ node.net.outboundArcs).filter fun a => p a && a.transition == t.id)
      (net.arcs.values.filter fun a => p a.arc && a.arc.transition == qualify node.path t.id) := by
  refine List.forall₂_map_left_iff.1 (filter_arcsOf hreachable h hnode ht p ▸
    List.rel_filter (fun l flat hflat => ?_) (flattens_of_ofTree hreachable hlexical h))
  refine iff_of_eq (congrArg (· = true) ?_)
  rw [hp flat.arc l.part hflat.direction, hflat.transition]

variable {v : View}

theorem inbound_eq (transition : String) : v.inbound transition =
    (v.node.net.inboundArcs ++ v.node.net.outboundArcs).filter fun a =>
      a.isInbound && a.transition == transition := by
  have hnone : v.node.net.outboundArcs.filter (fun a => a.isInbound && a.transition == transition) = [] := by
    rw [List.filter_eq_nil_iff]
    intro a ha hmatch
    have houtbound := (List.mem_filter.1 ha).2
    rw [Bool.and_eq_true] at hmatch
    rw [hmatch.1] at houtbound
    cases houtbound
  rw [List.filter_append, hnone, List.append_nil]
  refine List.filter_congr fun a ha => ?_
  rw [(List.mem_filter.1 ha).2, Bool.true_and]

theorem outbound_eq (transition : String) : v.outbound transition =
    (v.node.net.inboundArcs ++ v.node.net.outboundArcs).filter fun a =>
      !a.isInbound && a.transition == transition := by
  have hnone : v.node.net.inboundArcs.filter (fun a => !a.isInbound && a.transition == transition) = [] := by
    rw [List.filter_eq_nil_iff]
    intro a ha hmatch
    rw [(List.mem_filter.1 ha).2, Bool.not_true, Bool.false_and] at hmatch
    cases hmatch
  rw [List.filter_append, hnone, List.nil_append]
  refine List.filter_congr fun a ha => ?_
  rw [(List.mem_filter.1 ha).2, Bool.true_and]

section Node

variable {id : NodeId} {node : TreeNode} {t : Transition}

theorem flattens_inbound (hreachable : tree.Reachable) (hlexical : tree.Lexical)
    (h : FlatNet.ofTree tree = .ok net) (hnode : (id, node) ∈ tree.walk)
    (ht : t ∈ node.net.transitions.values) :
    List.Forall₂ (fun arc a => net.Flattens tree ⟨id, node, arc⟩ a)
      (View.inbound ⟨tree, node, net⟩ t.id) (net.inbound (qualify node.path t.id)) := by
  rw [inbound_eq]
  refine flattens_filter hreachable hlexical h hnode ht fun a b hab => ?_
  rw [Arc.isInbound, Arc.isInbound, hab]

theorem flattens_outbound (hreachable : tree.Reachable) (hlexical : tree.Lexical)
    (h : FlatNet.ofTree tree = .ok net) (hnode : (id, node) ∈ tree.walk)
    (ht : t ∈ node.net.transitions.values) :
    List.Forall₂ (fun arc a => net.Flattens tree ⟨id, node, arc⟩ a)
      (View.outbound ⟨tree, node, net⟩ t.id) (net.outbound (qualify node.path t.id)) := by
  rw [outbound_eq]
  refine flattens_filter hreachable hlexical h hnode ht fun a b hab => ?_
  rw [Arc.isInbound, Arc.isInbound, hab]

theorem ids_of_flattens {arcs : List Arc} {flats : List FlatArc}
    (h : List.Forall₂ (fun arc a => net.Flattens tree ⟨id, node, arc⟩ a) arcs flats) :
    flats.map (fun a => a.arc.id) = arcs.map fun a => qualify node.path a.id :=
  map_eq_of_forall₂ h fun _ _ hd => hd.id

/-- A transition is enabled in the joined net, and fires in it, as the arcs of its own node say: places
of the node stand for the flat places they have ended in, and rate parameters for those with the
qualified names. The arcs at the flat transition are the copies of the node's own, in order, and no
others. -/
theorem firing_of_node (hreachable : tree.Reachable) (hlexical : tree.Lexical)
    (h : FlatNet.ofTree tree = .ok net) {id : NodeId} {node : TreeNode} (hnode : (id, node) ∈ tree.walk)
    {t : Transition} (ht : t ∈ node.net.transitions.values) :
    let v : View := ⟨tree, node, net⟩
    let flat := qualify node.path t.id
    (∀ m, (net.isEnabled m flat).toOption = v.isEnabled m t.id ∧
      (net.fire m flat).toOption = v.fire m t.id) ∧
    (net.inbound flat).map (fun a => a.arc.id) = (v.inbound t.id).map (fun a => qualify node.path a.id) ∧
    (net.outbound flat).map (fun a => a.arc.id) = (v.outbound t.id).map fun a => qualify node.path a.id := by
  intro v flat
  have hinbound := flattens_inbound hreachable hlexical h hnode ht
  have houtbound := flattens_outbound hreachable hlexical h hnode ht
  have hknown : net.transitions.contains flat = true := by
    rw [← Table.mem_names_iff, names_transitions h]
    exact List.mem_map.2 ⟨⟨id, node, t⟩, mem_localsOf.2 ⟨hnode, ht⟩, rfl⟩
  refine ⟨fun m => ?_, ids_of_flattens hinbound, ids_of_flattens houtbound⟩
  have hreflects : v.Reflects m t.id flat :=
    ⟨hknown, hinbound.imp fun _ _ ha => ha.mirrors m, houtbound.imp fun _ _ ha => ha.mirrors m⟩
  exact ⟨View.isEnabled_toOption hreflects, View.fire_toOption hreflects⟩

end Node

/-- A tree in which the node below takes tokens from a place of the root. -/
def borrowing : IncludeTree := Sample.pair
  [.place (Sample.placeOf { PlaceStatus.plain with merge := .home } "P" 2)]
  [.place (Sample.placeOf
      { PlaceStatus.plain with merge := .inUse, home := some ⟨IncludeTree.rootId, "P"⟩ } "U" 5),
    Sample.transition "T" Rate.one, Sample.arc "in" "U" "T" .placeToTransition "#(U)"] "a"

theorem lexical_borrowing : borrowing.Lexical where
  names id node hnode hparent := by
    have hnames : (borrowing.walk.filter fun e => e.2.parent.isSome).map (fun e => e.2.name) = ["a"] := by
      decide +kernel
    have hbelow : (id, node) ∈ borrowing.walk.filter fun e => e.2.parent.isSome :=
      List.mem_filter.2 ⟨hnode, hparent⟩
    have hmem := List.mem_map_of_mem (f := fun e => e.2.name) hbelow
    rw [hnames, List.mem_singleton] at hmem
    rw [show node.name = "a" from hmem]
    decide
  places id node hnode place hplace := by
    have hplaces : (placesOf borrowing.walk).map (fun l => l.part.id) = ["P", "U"] := by decide +kernel
    have hlocal : (⟨id, node, place⟩ : Local Place) ∈ placesOf borrowing.walk :=
      mem_localsOf.2 ⟨hnode, hplace⟩
    have hmem := List.mem_map_of_mem (f := fun l : Local Place => l.part.id) hlocal
    rw [hplaces, List.mem_cons, List.mem_singleton] at hmem
    rcases hmem with hid | hid
    · rw [show place.id = "P" from hid]
      decide
    · rw [show place.id = "U" from hid]
      decide
  literals id node hnode arc harc w hw e he := by
    have hweights : (arcsOf borrowing.walk).flatMap (fun l => l.part.weights.entries.map Prod.snd) =
        ["#(U)"] := by decide +kernel
    have hlocal : (⟨id, node, arc⟩ : Local Arc) ∈ arcsOf borrowing.walk := mem_arcsOf.2 ⟨hnode, harc⟩
    have hmem : w.2 ∈ (arcsOf borrowing.walk).flatMap fun l => l.part.weights.entries.map Prod.snd :=
      List.mem_flatMap.2 ⟨_, hlocal, List.mem_map_of_mem hw⟩
    rw [hweights, List.mem_singleton] at hmem
    have hprintable : (Expr.tokens "U" none).Printable := .tokens (by decide) fun _ h => by cases h
    have hread : Expr.ofText "#(U)" = .ok (.tokens "U" none) := Expr.ofText_text hprintable
    rw [hmem, hread] at he
    cases he
    exact .tokens trivial fun _ h => by cases h

theorem firing_of_node_borrowing : ∃ net node, FlatNet.ofTree borrowing = .ok net ∧
    (⟨1⟩, node) ∈ borrowing.walk ∧
    (net.fire net.initial "a.T").toOption = View.fire ⟨borrowing, node, net⟩ net.initial "T" := by
  have hrun : (FlatNet.ofTree borrowing).map (fun net => net.places.names) = .ok ["P"] := by decide +kernel
  obtain ⟨net, hnet, _⟩ := map_eq_ok.1 hrun
  have hbelow : (borrowing.walk.filter fun e => e.2.parent.isSome).head?.map (fun e =>
      (e.1, e.2.path, e.2.net.transitions.values)) =
        some (⟨1⟩, "a", [⟨"T", 1, .immediate, Rate.one, 0, none⟩]) := by
    decide +kernel
  obtain ⟨⟨id, node⟩, hhead, hfound⟩ := Option.map_eq_some_iff.1 hbelow
  simp only [Prod.mk.injEq] at hfound
  obtain ⟨rfl, hpath, htransitions⟩ := hfound
  -- the node below the root, which has the transition
  have hnode : (⟨1⟩, node) ∈ borrowing.walk := (List.mem_filter.1 (List.mem_of_head? hhead)).1
  have ht : (⟨"T", 1, .immediate, Rate.one, 0, none⟩ : Transition) ∈ node.net.transitions.values := by
    rw [htransitions]
    exact List.mem_singleton.2 rfl
  have hfiring := firing_of_node (Sample.reachable_pair _ _ _) lexical_borrowing hnet hnode ht
  refine ⟨net, node, hnet, hnode, ?_⟩
  have hfire := (hfiring.1 net.initial).2
  rw [hpath] at hfire
  exact hfire

end FlatNet

end PetriTree
