import PetriTree.Proofs.Hanging

/-!
# PetriTree — how long an id lasts

An id is handed out when a net is attached and stands for this node until the node is detached. The slot of a
detached node stays empty, so nothing else is ever found there.

Main results:
* `IncludeTree.handedOut` — the ids that a sequence of commands answers;
* `IncludeTree.Continues` — nodes are new or were there before, below the same parent;
* `continues_perform`, `continues_performAll` — what commands leave of the nodes, and what they add;
* `IdsLast`, `idsLast_new` — an id stands for its node, then for nothing.
-/

namespace PetriTree

/-- The node an answer is about, where it is one that was just attached. -/
def TreeAnswer.node? : TreeAnswer → Option NodeId
  | .node id => some id
  | _ => none

namespace IncludeTree

variable {tree mid after : IncludeTree} {id : NodeId} {made made' : List NodeId}

/-- The id that a command hands out. -/
def handed (tree : IncludeTree) (command : TreeCommand) : Option NodeId :=
  (tree.perform command).2.toOption.bind TreeAnswer.node?

/-- The ids that commands hand out, one after the other. -/
def handedOut (tree : IncludeTree) : List TreeCommand → List NodeId
  | [] => []
  | command :: rest => (tree.handed command).toList ++ (tree.perform command).1.handedOut rest

/-! ## Nodes that stay and nodes that are new -/

/-- From `tree` to `after` the nodes `made` are new, each in a slot of its own, and every other node was there
before, below the same parent. -/
structure Continues (made : List NodeId) (tree after : IncludeTree) : Prop where
  root : after.root = tree.root
  length : tree.nodes.slots.length ≤ after.nodes.slots.length
  distinct : made.Nodup
  fresh : ∀ id ∈ made, tree.nodes.slots.length ≤ id.index ∧ id.index < after.nodes.slots.length
  kept : ∀ id, (after.node? id).isSome →
    id ∈ made ∨ ((tree.node? id).isSome ∧ after.parent? id = tree.parent? id)

namespace Continues

/-- No node is new. -/
theorem of_kept (hroot : after.root = tree.root)
    (hlength : after.nodes.slots.length = tree.nodes.slots.length)
    (hkept : ∀ id, (after.node? id).isSome → (tree.node? id).isSome ∧ after.parent? id = tree.parent? id) :
    Continues [] tree after where
  root := hroot
  length := Nat.le_of_eq hlength.symm
  distinct := List.nodup_nil
  fresh _ hid := (by cases hid)
  kept id hlive := Or.inr (hkept id hlive)

theorem refl (tree : IncludeTree) : Continues [] tree tree := of_kept rfl rfl fun _ hlive => ⟨hlive, rfl⟩

theorem trans (h : Continues made tree mid) (h' : Continues made' mid after) :
    Continues (made ++ made') tree after where
  root := h'.root.trans h.root
  length := Nat.le_trans h.length h'.length
  distinct := by
    refine List.nodup_append.2 ⟨h.distinct, h'.distinct, fun a ha b hb heq => ?_⟩
    -- the later ones are in slots that did not exist
    have hold := (h.fresh a ha).2
    have hnew := (h'.fresh b hb).1
    rw [heq] at hold
    omega
  fresh id hid := by
    rcases List.mem_append.1 hid with hid | hid
    · exact ⟨(h.fresh id hid).1, Nat.lt_of_lt_of_le (h.fresh id hid).2 h'.length⟩
    · exact ⟨Nat.le_trans h.length (h'.fresh id hid).1, (h'.fresh id hid).2⟩
  kept id hlive := by
    rcases h'.kept id hlive with hid | ⟨hmid, hparent⟩
    · exact Or.inl (List.mem_append_right _ hid)
    · rcases h.kept id hmid with hid | ⟨hbefore, hparent'⟩
      · exact Or.inl (List.mem_append_left _ hid)
      · exact Or.inr ⟨hbefore, hparent.trans hparent'⟩

/-- What was there is not new. -/
theorem notMem_of_isSome (h : Continues made tree after) (hlive : (tree.node? id).isSome) : id ∉ made := by
  intro hid
  obtain ⟨node, hnode⟩ := Option.isSome_iff_exists.1 hlive
  exact absurd (Arena.lt_of_get? _ hnode) (Nat.not_lt.2 (h.fresh id hid).1)

/-- A node that is found in a slot of before was there, below the same parent. -/
theorem kept_of_lt (h : Continues made tree after) (hslot : id.index < tree.nodes.slots.length)
    (hlive : (after.node? id).isSome) : (tree.node? id).isSome ∧ after.parent? id = tree.parent? id := by
  refine (h.kept id hlive).resolve_left fun hid => ?_
  have hfresh := (h.fresh id hid).1
  omega

end Continues

theorem SameView.continues (h : tree.SameView TreeNode.seat after) : Continues [] tree after :=
  .of_kept h.root h.length fun id hlive => ⟨h.isSome id ▸ hlive, h.parent?_eq id⟩

/-! ## One command -/

section Commands

variable {parent : NodeId} {owner node : TreeNode} {name : String}

theorem continues_grow (howner : tree.node? parent = some owner) :
    Continues [tree.nodes.nextId] tree (tree.grow parent name node) where
  root := rfl
  length := by
    rw [length_grow]
    omega
  distinct := List.nodup_singleton _
  fresh id hid := by
    rw [List.mem_singleton.1 hid, length_grow]
    exact ⟨Nat.le_refl _, Nat.lt_succ_self _⟩
  kept id hlive := by
    by_cases hnew : id = tree.nodes.nextId
    · exact Or.inl (List.mem_singleton.2 hnew)
    · rw [parent?_grow howner, if_neg hnew]
      exact Or.inr ⟨isSome_of_grow howner hnew hlive, rfl⟩

theorem continues_attach {net : Net} (h : tree.attach parent net name = .ok (id, after)) :
    Continues [id] tree after := by
  obtain ⟨owner, howner, _, _, rfl, rfl⟩ := attach_eq_ok h
  exact (continues_grow howner).trans (seat_equipped _ tree.nodes.nextId).continues

theorem continues_prune (tree : IncludeTree) (parent : NodeId) (name : String) (doomed : List NodeId) :
    Continues [] tree (tree.prune parent name doomed) := by
  refine .of_kept rfl ?_ fun id hlive => ?_
  · rw [prune]
    simp only [Arena.length_foldl_remove, Arena.length_map]
    exact length_modifyNode ..
  · rw [parent?_prune]
    rw [node?_prune] at hlive
    split
    · rename_i hdoomed
      rw [if_pos hdoomed] at hlive
      cases hlive
    · rename_i hstays
      rw [if_neg hstays, Option.isSome_map] at hlive
      exact ⟨hlive, rfl⟩

theorem continues_detach (tree : IncludeTree) (parent : NodeId) (name : String) :
    Continues [] tree (tree.detach parent name).1 := by
  rcases detach_cases tree parent name with ⟨_, heq⟩ | ⟨node, id, _, heq⟩ <;> rw [heq]
  · exact .refl tree
  · exact (continues_prune tree parent name _).trans (sameView_touch TreeNode.seat _).continues

theorem continues_realiased (tree : IncludeTree) (id : NodeId) (parent : Option NodeId) (old new : String) :
    Continues [] tree (tree.realiased id parent old new) := by
  have hshape := sameShape_realiased tree id parent old new
  refine .of_kept hshape.root hshape.length fun other hlive => ⟨hshape.isSome other ▸ hlive, ?_⟩
  exact parent?_realiased ..

theorem continues_rename (h : tree.rename id name = .ok after) : Continues [] tree after := by
  obtain ⟨node, _, _, _, rfl⟩ := rename_eq_realiased h
  exact (continues_realiased tree id node.parent node.localName name).trans
    ((seat_resolveSubtree ..).trans (sameView_touch ..)).continues

end Commands

/-- Only a net that is attached gets an id. -/
theorem handed_eq_none {command : TreeCommand} (h : ∀ parent net name, command ≠ .attach parent net name) :
    tree.handed command = none := by
  have hanswered : ∀ {α : Type} (wrap : α → TreeAnswer) (result : Except ConflictReport α),
      (∀ answer, (wrap answer).node? = none) → (result.map wrap).toOption.bind TreeAnswer.node? = none := by
    rintro α wrap (_ | answer) hwrap
    · rfl
    · exact hwrap answer
  have hsettled : ∀ {α : Type} (wrap : α → TreeAnswer) (result : Except ConflictReport (α × IncludeTree)),
      (∀ answer, (wrap answer).node? = none) →
        (tree.settled wrap result).2.toOption.bind TreeAnswer.node? = none := by
    rintro α wrap (_ | ⟨answer, after⟩) hwrap
    · rfl
    · exact hwrap answer
  cases command with
  | attach parent net name => exact absurd rfl (h parent net name)
  | detach | publish | withdraw | execute => exact hanswered _ _ fun _ => rfl
  | rename | useInterface | dropInterface => exact hsettled _ _ fun _ => rfl

theorem continues_perform (tree : IncludeTree) (command : TreeCommand) :
    Continues (tree.handed command).toList tree (tree.perform command).1 := by
  by_cases hreshapes : command.Reshapes
  · cases command with
    | attach parent net name =>
      rw [handed, perform]
      cases hcommand : tree.attach parent net name with
      | error report => exact .refl tree
      | ok outcome => exact continues_attach hcommand
    | detach parent name =>
      rw [handed_eq_none fun _ _ _ heq => by cases heq]
      exact continues_detach tree parent name
    | rename id name =>
      rw [handed_eq_none fun _ _ _ heq => by cases heq]
      exact settledDone_keeps (.refl tree) fun _ hcommand => continues_rename hcommand
    | _ => exact hreshapes.elim
  · rw [handed_eq_none]
    · exact (frame_perform hreshapes).seat.continues
    · rintro _ _ _ rfl
      exact hreshapes trivial

/-- Over a run the ids that are handed out are those of the new nodes. -/
theorem continues_performAll (tree : IncludeTree) (commands : List TreeCommand) :
    Continues (tree.handedOut commands) tree (tree.performAll commands) := by
  induction commands generalizing tree with
  | nil => exact .refl tree
  | cons command rest ih => exact (continues_perform tree command).trans (ih _)

/-! ## Ids that last -/

/-- The id of an attached net stands for a node that holds this net, under the alias and below the node that
it was attached to. -/
theorem attach_denotes {parent : NodeId} {net : Net} {name : String}
    (h : tree.attach parent net name = .ok (id, after)) : ∃ node, after.node? id = some node ∧
      node.parent = some parent ∧ node.localName = name ∧ node.net = net := by
  obtain ⟨owner, howner, _, _, rfl, rfl⟩ := attach_eq_ok h
  have hnode : (tree.grow parent name ⟨name, "", "", "", some parent, Table.empty, net, Table.empty⟩).node?
      tree.nodes.nextId = some ⟨name, "", "", "", some parent, Table.empty, net, Table.empty⟩ := by
    rw [node?_grow_eq howner, if_pos rfl]
  obtain ⟨node, hafter, heq⟩ := (sameView_equipped _ tree.nodes.nextId).exists_after hnode
  have hseat := congrArg Prod.fst heq
  exact ⟨node, hafter, congrArg (fun seat => seat.2.1) hseat, congrArg Prod.fst hseat, congrArg Prod.snd heq⟩

theorem handed_denotes {parent : NodeId} {net : Net} {name : String}
    (h : tree.handed (.attach parent net name) = some id) :
    ∃ node, (tree.perform (.attach parent net name)).1.node? id = some node ∧
      node.parent = some parent ∧ node.localName = name ∧ node.net = net := by
  rw [handed, perform] at h
  rw [perform]
  cases hcommand : tree.attach parent net name with
  | error report =>
    rw [hcommand] at h
    cases h
  | ok outcome =>
    rw [hcommand] at h
    cases h
    exact attach_denotes hcommand

theorem performAll_append (tree : IncludeTree) (commands later : List TreeCommand) :
    tree.performAll (commands ++ later) = (tree.performAll commands).performAll later := List.foldl_append ..

/-- Over a run an id stands for the node it was handed out for, and then for nothing. -/
structure IdsLast (tree : IncludeTree) (commands : List TreeCommand) : Prop where
  denotes : ∀ before parent net name later id, commands = before ++ .attach parent net name :: later →
    (tree.performAll before).handed (.attach parent net name) = some id →
      ∃ node, (tree.performAll (before ++ [.attach parent net name])).node? id = some node ∧
        node.parent = some parent ∧ node.localName = name ∧ node.net = net
  distinct : (tree.root :: tree.handedOut commands).Nodup
  known : ∀ id, ((tree.performAll commands).node? id).isSome → id ∈ tree.root :: tree.handedOut commands
  kept : ∀ before later, commands = before ++ later → ∀ id ∈ tree.root :: tree.handedOut before,
    ((tree.performAll commands).node? id).isSome → ((tree.performAll before).node? id).isSome ∧
      (tree.performAll commands).parent? id = (tree.performAll before).parent? id

theorem length_new (net : Net) (name : String) : (IncludeTree.new net name).nodes.slots.length = 1 :=
  (remaps_registerHomes (sprout net name) rootId).length

theorem root_new (net : Net) (name : String) : (IncludeTree.new net name).root = rootId :=
  (remaps_registerHomes (sprout net name) rootId).root

theorem eq_root_of_new {net : Net} {name : String} (h : ((IncludeTree.new net name).node? id).isSome) :
    id = rootId := by
  have hsprout : ((sprout net name).node? id).isSome :=
    (remaps_registerHomes (sprout net name) rootId).shape.isSome id ▸ h
  rw [node?_sprout] at hsprout
  split at hsprout
  · assumption
  · cases hsprout

/-- The tree of a single net has handed out the id of its root, and commands do the rest. -/
theorem idsLast_new (net : Net) (name : String) (scope : Scope) (commands : List TreeCommand) :
    ((IncludeTree.new net name).withAccessScope scope).IdsLast commands := by
  generalize hstart : (IncludeTree.new net name).withAccessScope scope = start
  have hlength : start.nodes.slots.length = 1 := hstart ▸ length_new net name
  have hroot : start.root = rootId := hstart ▸ root_new net name
  have honly : ∀ id, (start.node? id).isSome → id = rootId := fun id hlive => by
    rw [← hstart] at hlive
    exact eq_root_of_new hlive
  have hslot : ∀ before, ∀ id ∈ start.root :: start.handedOut before,
      id.index < (start.performAll before).nodes.slots.length := by
    intro before id hid
    have hbefore := continues_performAll start before
    rcases List.mem_cons.1 hid with rfl | hid
    · rw [hroot]
      exact Nat.lt_of_lt_of_le (by rw [hlength]; decide) hbefore.length
    · exact (hbefore.fresh id hid).2
  have hall := continues_performAll start commands
  constructor
  case denotes =>
    intro before parent net name later id _ hid
    rw [performAll_append]
    exact handed_denotes hid
  case distinct =>
    refine List.nodup_cons.2 ⟨fun hmem => ?_, hall.distinct⟩
    have hfresh := (hall.fresh _ hmem).1
    rw [hlength, hroot] at hfresh
    exact absurd hfresh (by decide)
  case known =>
    intro id hlive
    rcases hall.kept id hlive with hid | ⟨hbefore, _⟩
    · exact List.mem_cons_of_mem _ hid
    · rw [honly id hbefore, hroot]
      exact List.mem_cons_self ..
  case kept =>
    rintro before later rfl id hid hlive
    have hlater := continues_performAll (start.performAll before) later
    rw [performAll_append] at hlive ⊢
    exact hlater.kept_of_lt (hslot before id hid) hlive

end IncludeTree

end PetriTree
