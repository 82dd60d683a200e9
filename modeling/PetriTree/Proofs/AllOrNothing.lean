import PetriTree.Proofs.Knit

/-!
# PetriTree — commands that are refused

A command answers with a report of what stands against it, and the tree is then as it was: its nodes and
their names, nets and maps, down to the revisions. Most commands make their last check before their first
change. Four do not, and each could be refused when it has changed something already:

* `publish` and `withdraw` change maps before they change a net, but the place they change is there;
* `execute` edits one map after the other, but every node was checked before the first of them;
* `detach` takes the subtree out before it looks for its net, but an alias always stands for a node.

The last holds of trees only whose nodes hang together as commands leave them.

Main results:
* `Knit.detach_eq` — a subtree that may go is handed back;
* `Arises.refused_unchanged` — a command that is refused leaves the tree as it was.
-/

namespace PetriTree

namespace IncludeTree

variable {tree : IncludeTree}

/-- A subtree that may go is handed back: its alias stands for a node. -/
theorem Knit.detach_eq (h : tree.Knit) {parent id : NodeId} {name : String} {node : TreeNode}
    (hdetaches : tree.Detaches parent name node id) :
    ∃ net, tree.net? id = some net ∧
      tree.detach parent name = ((tree.prune parent name (tree.subtree id)).touch, .ok net) := by
  have hlisted : ((tree.node? parent).bind fun node => node.children.get? name) = some id := by
    rw [hdetaches.live, Option.bind_some, hdetaches.child]
  have hdetachable : tree.detachable parent name = .ok id := by
    unfold IncludeTree.detachable
    rw [hlisted]
    exact ConflictReport.orElse_eq_ok.2 ⟨hdetaches.unused, rfl⟩
  have hincludes : tree.Includes parent id :=
    ⟨node, hdetaches.live, Table.mem_values_iff.2 ⟨name, hdetaches.child⟩⟩
  obtain ⟨found, hfound⟩ := Option.isSome_iff_exists.1 (h.live parent id hincludes)
  have hnet : tree.net? id = some found.net := by rw [net?, hfound]; rfl
  refine ⟨found.net, hnet, ?_⟩
  unfold IncludeTree.detach
  rw [hdetachable]
  dsimp only
  rw [hnet]

/-- What is answered does not matter for whether a command is refused. -/
theorem answered_refused {wrap : α → TreeAnswer} {outcome : IncludeTree × Except ConflictReport α}
    {report : ConflictReport} (h : (answered wrap outcome).2 = .error report) :
    outcome.2 = .error report := map_eq_error.1 h

theorem settled_refused {wrap : α → TreeAnswer} {result : Except ConflictReport (α × IncludeTree)}
    {report : ConflictReport} (h : (tree.settled wrap result).2 = .error report) :
    (tree.settled wrap result).1 = tree := by
  cases result with
  | error _ => rfl
  | ok _ => cases h

/-- A command that is refused leaves the tree as it was. -/
theorem Arises.refused_unchanged (h : tree.Arises) (command : TreeCommand) {report : ConflictReport}
    (hrefused : (tree.perform command).2 = .error report) : (tree.perform command).1 = tree := by
  cases command with
  -- the last check comes before the first change
  | attach parent net name => exact settled_refused hrefused
  | rename id name => exact settled_refused hrefused
  | useInterface id away => exact settled_refused hrefused
  | dropInterface id away => exact settled_refused hrefused
  -- the first change comes before the last check
  | publish id place =>
    have hanswer := answered_refused hrefused
    show (tree.publish id place).1 = tree
    rcases publish_cases tree id place with ⟨_, heq⟩ | ⟨_, _, _, _, heq⟩
    · rw [heq]
    · rw [heq] at hanswer
      cases hanswer
  | withdraw id away =>
    have hanswer := answered_refused hrefused
    show (tree.withdraw id away).1 = tree
    rcases withdraw_cases tree id away with ⟨_, heq⟩ | ⟨_, _, _, _, _, heq⟩
    · rw [heq]
    · rw [heq] at hanswer
      cases hanswer
  | execute id scope command =>
    have hanswer := answered_refused hrefused
    show (tree.execute id scope command).1 = tree
    rcases execute_cases tree id scope command with ⟨_, heq⟩ | ⟨_, _, _, heq⟩
    · rw [heq]
    · rw [heq] at hanswer
      cases hanswer
  | detach parent name =>
    have hanswer := answered_refused hrefused
    show (tree.detach parent name).1 = tree
    rcases detach_cases tree parent name with ⟨_, heq⟩ | ⟨node, id, hdetaches, _⟩
    · rw [heq]
    · obtain ⟨_, _, heq⟩ := h.knit.detach_eq hdetaches
      rw [heq] at hanswer
      cases hanswer

/-- Nets made by edits are nets. -/
theorem Reachable.arises (h : tree.Reachable) : tree.Arises := by
  induction h with
  | new name _ => exact .new _ name
  | withAccessScope scope _ ih => exact ih.withAccessScope scope
  | setNet id _ _ ih => exact ih.setNet id _
  | perform command _ _ ih => exact ih.perform command

/-- A place in use is not withdrawn, and the node that defines it stays; a name that one of the maps has
already is not given to an entry. -/
theorem refused_unchanged_lent :
    ((lent.perform (.withdraw ⟨1⟩ "root.a.P")).2 = .error ⟨[.stillUsed "root" "root.a.P"]⟩ ∧
      (lent.perform (.withdraw ⟨1⟩ "root.a.P")).1 = lent) ∧
    ((lent.perform (.detach rootId "a")).2 = .error ⟨[.usedOutside "root" "root.a.P"]⟩ ∧
      (lent.perform (.detach rootId "a")).1 = lent) ∧
    ((lent.perform (.execute ⟨1⟩ .all (.rename "root.a.P" "root.a.P"))).2 =
        .error ⟨[.entryCollides "root.a" "root.a.P", .entryCollides "root" "root.a.P"]⟩ ∧
      (lent.perform (.execute ⟨1⟩ .all (.rename "root.a.P" "root.a.P"))).1 = lent) := by
  have harises := lifecycle_lent.2.arises
  have hwithdraw : (lent.perform (.withdraw ⟨1⟩ "root.a.P")).2.map (fun _ => ()) =
      .error ⟨[.stillUsed "root" "root.a.P"]⟩ := by decide +kernel
  have hdetach : (lent.perform (.detach rootId "a")).2.map (fun _ => ()) =
      .error ⟨[.usedOutside "root" "root.a.P"]⟩ := by decide +kernel
  have hexecute : (lent.perform (.execute ⟨1⟩ .all (.rename "root.a.P" "root.a.P"))).2.map (fun _ => ()) =
      .error ⟨[.entryCollides "root.a" "root.a.P", .entryCollides "root" "root.a.P"]⟩ := by decide +kernel
  rw [map_eq_error] at hwithdraw hdetach hexecute
  exact ⟨⟨hwithdraw, harises.refused_unchanged _ hwithdraw⟩, ⟨hdetach, harises.refused_unchanged _ hdetach⟩,
    hexecute, harises.refused_unchanged _ hexecute⟩

end IncludeTree

end PetriTree
