import PetriTree.Flat.Compile
import PetriTree.Proofs.NetEdit
import PetriTree.Proofs.TreeCommand

/-!
# PetriTree — joining without tokens

Joining copies the tokens of a place along with the place and looks at none of them on the way. Nor does it
look at the revisions of a net or at the map of a node. The outline of a net, a node or a tree is what is left
without these, and joining commutes with taking outlines: step by step, refusals included.

What joining does look at is small enough to be listed: the nodes of the walk, the paths of the nodes that
homes are in, and the name of the root's net. Trees that agree in this are joined into the same net.

Main results:
* `FlatNet.ofTree_outline` — the outline of a tree is joined into the outline of its flat net;
* `IncludeTree.Agrees.ofTree` — trees that agree in what joining looks at are joined alike;
* `FlatNet.outline_of_agrees` — if their outlines agree, so do those of their flat nets.
-/

namespace PetriTree

/-! ## Outlines -/

/-- The place without its tokens. -/
def Place.outline (place : Place) : Place := { place with tokens := Table.empty }

/-- The net without tokens and revisions. -/
def Net.outline (net : Net) : Net :=
  { net with places := net.places.map fun _ => Place.outline, revision := 0, markingRevision := 0 }

/-- The node with the outline of its net, and without what it knows of the interface. -/
def TreeNode.outline (node : TreeNode) : TreeNode := { node.bare with net := node.net.outline }

/-- The tree with the outlines of its nodes. -/
def IncludeTree.outline (tree : IncludeTree) : IncludeTree :=
  { tree with nodes := tree.nodes.map fun _ => TreeNode.outline }

/-- The components without tokens. -/
def Assembly.outline (a : Assembly) : Assembly := { a with places := a.places.map fun _ => Place.outline }

/-- The flat net without tokens. -/
def FlatNet.outline (net : FlatNet) : FlatNet := { net with places := net.places.map fun _ => Place.outline }

/-! ## Tables -/

namespace Table

theorem map_insertEntry (f : α → β) (name : String) (value : α) : ∀ entries : List (String × α),
    (insertEntry name value entries).map (fun e => (e.1, f e.2)) =
      insertEntry name (f value) (entries.map fun e => (e.1, f e.2))
  | [] => rfl
  | (key, old) :: rest => by
    by_cases hkey : key = name
    · simp [insertEntry, hkey]
    · simp [insertEntry, hkey, map_insertEntry f name value rest]

theorem map_insert (t : Table α) (f : α → β) (name : String) (value : α) :
    (t.insert name value).map (fun _ => f) = (t.map fun _ => f).insert name (f value) := by
  simp only [map, insert, map_insertEntry]

theorem map_erase (t : Table α) (f : α → β) (name : String) :
    (t.erase name).map (fun _ => f) = (t.map fun _ => f).erase name := by
  simp only [map, erase, filter, List.filter_map, Function.comp_def]

theorem values_map (t : Table α) (f : α → β) : (t.map fun _ => f).values = t.values.map f := by
  simp only [values, map, List.map_map, Function.comp_def]

theorem map_modify (t : Table α) (name : String) {f : α → α} {g : α → β} (h : ∀ value, g (f value) = g value) :
    (t.modify name f).map (fun _ => g) = t.map fun _ => g := by
  simp only [map, modify, List.map_map, Function.comp_def, apply_ite g, h, ite_self]

end Table

/-! ## Copying -/

namespace Assembly

variable (a : Assembly)

theorem insertNew_map (t : Table α) (f : α → β) (id : String) (value : α) (kind : ComponentKind) :
    (insertNew t id value kind).map (fun t => t.map fun _ => f) =
      insertNew (t.map fun _ => f) id (f value) kind := by
  unfold insertNew
  rw [Table.contains_map]
  split
  · rfl
  · exact congrArg Except.ok (Table.map_insert t f id value)

theorem addColor_outline (color : TokenColor) : (a.addColor color).outline = a.outline.addColor color := by
  unfold addColor
  show _ = if a.colors.contains color.id then _ else _
  split <;> rfl

theorem addColors_outline (colors : List TokenColor) :
    (colors.foldl addColor a).outline = colors.foldl addColor a.outline := by
  induction colors generalizing a with
  | nil => rfl
  | cons color rest ih => rw [List.foldl_cons, List.foldl_cons, ih, addColor_outline]

theorem addNote_outline (path : String) (note : Note) :
    (a.addNote path note).map outline = a.outline.addNote path note :=
  map_bind_eq_left fun _ => rfl

/-- A place is copied, bound and noted by its id and its status. -/
theorem addPlace_outline (id : NodeId) (node : TreeNode) (place : Place) :
    (a.addPlace id node place).map outline = a.outline.addPlace id node.outline place.outline := by
  refine map_guard_eq Iff.rfl ?_
  -- the status says whether the copy waits for its home, and is that of the outline
  rw [show foreignHome id place.outline.status = foreignHome id place.status from rfl]
  cases foreignHome id place.status with
  | none => exact map_bind_eq (insertNew_map ..) fun _ => rfl
  | some home => exact map_bind_eq (insertNew_map ..) fun _ => rfl

theorem addParameter_outline (path : String) (parameter : RateParameter) :
    (a.addParameter path parameter).map outline = a.outline.addParameter path parameter :=
  map_bind_eq_left fun _ => map_bind_eq_left fun _ => rfl

theorem addTransition_outline (path : String) (transition : Transition) :
    (a.addTransition path transition).map outline = a.outline.addTransition path transition := by
  refine map_guard_eq (by rw [outline, Table.contains_map]) ?_
  exact map_bind_eq_left fun _ => map_bind_eq_left fun _ => rfl

theorem addArc_outline (path : String) (arc : Arc) :
    (a.addArc path arc).map outline = a.outline.addArc path arc :=
  map_bind_eq_left fun _ => map_bind_eq_left fun _ => rfl

/-- Of a node its path, its name and the components of its net are looked at. -/
theorem addNode_outline (id : NodeId) (node : TreeNode) :
    (a.addNode id node).map outline = a.outline.addNode id node.outline := by
  have hplaces : node.outline.net.places.values = node.net.places.values.map Place.outline := Table.values_map ..
  -- the colours come first and are never refused
  have hcolors := addColors_outline a node.net.colors.values
  simp only [addNode, hplaces]
  refine map_bind_eq (hcolors ▸ map_foldlM_eq_left (fun a => addNote_outline a node.path) ..) fun a => ?_
  refine map_bind_eq (map_foldlM_eq (fun a => addPlace_outline a id node) ..) fun a => ?_
  refine map_bind_eq (map_foldlM_eq_left (fun a => addParameter_outline a node.path) ..) fun a => ?_
  refine map_bind_eq (map_foldlM_eq_left (fun a => addTransition_outline a node.path) ..) fun a => ?_
  exact map_foldlM_eq_left (fun a => addArc_outline a node.path) ..

end Assembly

namespace IncludeTree

theorem node?_outline (tree : IncludeTree) (id : NodeId) :
    tree.outline.node? id = (tree.node? id).map TreeNode.outline := Arena.get?_map ..

theorem sameShape_outline (tree : IncludeTree) : tree.SameShape tree.outline := by
  refine ⟨rfl, Arena.length_map .., fun id => ?_⟩
  rw [children?, node?_outline, Option.map_map]
  rfl

theorem walk_outline (tree : IncludeTree) :
    tree.outline.walk = tree.walk.map fun e => (e.1, e.2.outline) := by
  rw [walk, (sameShape_outline tree).subtree, (sameShape_outline tree).root, walk, List.map_filterMap]
  simp only [node?_outline, Option.map_map, Function.comp_def]

end IncludeTree

namespace Assembly

theorem ofTree_outline (tree : IncludeTree) : (ofTree tree).map outline = ofTree tree.outline := by
  unfold ofTree
  rw [IncludeTree.walk_outline]
  exact map_foldlM_eq (fun a e => addNode_outline a e.1 e.2) ..

/-! ## Merging -/

variable (a : Assembly)

/-- A home is looked up by the path of its node, and recognised by its status. -/
theorem homeOf_outline (tree : IncludeTree) (home : HomeRef) :
    a.outline.homeOf tree.outline home = a.homeOf tree home := by
  unfold homeOf
  rw [IncludeTree.node?_outline]
  cases tree.node? home.node with
  | none => rfl
  | some node =>
    show ((a.places.map _).get? (qualify node.path home.place) >>= _) = (a.places.get? _ >>= _)
    rw [Table.get?_map]
    cases a.places.get? (qualify node.path home.place) with
    | none => rfl
    | some place => rfl

theorem merge_outline (tree : IncludeTree) (away : AwayPlace) :
    (merge tree a away).map outline = merge tree.outline a.outline away := by
  unfold merge
  rw [homeOf_outline]
  cases a.homeOf tree away.home with
  | none => rfl
  | some home =>
    refine map_bind_eq_left fun arcs => map_bind_eq_left fun parameters => map_bind_eq_left fun transitions => ?_
    -- the tokens of the merged place go with it
    show Except.ok _ = Except.ok _
    simp only [outline, Table.map_erase]

theorem joined_outline (tree : IncludeTree) : (joined tree).map outline = joined tree.outline :=
  map_bind_eq (ofTree_outline tree) fun a => map_foldlM_eq_left (fun a => merge_outline a tree) a.aways a

/-! ## Compiling -/

theorem firstMissing_map (mentions : SortedSet String) (t : Table α) (f : String → α → β) :
    firstMissing mentions (t.map f) = firstMissing mentions t := by
  simp only [firstMissing, Table.contains_map]

/-- What an expression mentions is looked up by id, and an outline keeps the ids. -/
theorem checkMentions_outline (component : String) (e : Expr) :
    a.outline.checkMentions component e = a.checkMentions component e := by
  unfold checkMentions
  rw [show a.outline.places = a.places.map fun _ => Place.outline from rfl, firstMissing_map]
  rfl

theorem compileText_outline : a.outline.compileText = a.compileText := by
  funext component text
  simp only [compileText, checkMentions_outline]

theorem compileParameters_outline (parameters : List RateParameter) :
    a.outline.compileParameters parameters = a.compileParameters parameters := by
  induction parameters with
  | nil => rfl
  | cons p rest ih => rw [compileParameters, ih, compileText_outline, compileParameters]

theorem compileTransition_outline : a.outline.compileTransition = a.compileTransition := by
  funext t
  simp only [compileTransition, checkMentions_outline]

theorem compileWeights_outline (arc : String) (weights : List (String × String)) :
    a.outline.compileWeights arc weights = a.compileWeights arc weights := by
  induction weights with
  | nil => rfl
  | cons w rest ih =>
    rw [compileWeights, ih, compileText_outline, compileWeights]
    rfl

theorem checkEndpoint_outline : a.outline.checkEndpoint = a.checkEndpoint := by
  funext arc endpoint
  unfold checkEndpoint
  rw [show a.outline.places = a.places.map fun _ => Place.outline from rfl, Table.contains_map]
  rfl

theorem compileArc_outline : a.outline.compileArc = a.compileArc := by
  funext arc
  simp only [compileArc, checkEndpoint_outline, compileWeights_outline]

theorem compile_outline (name : String) :
    (a.compile name).map FlatNet.outline = a.outline.compile name := by
  unfold compile
  rw [compileParameters_outline, compileTransition_outline, compileArc_outline]
  refine map_bind_eq_left fun definitions => ?_
  dsimp only
  -- definitions hold expressions only, so their order is the same
  cases definitionOrder definitions with
  | error parameter => rfl
  | ok order =>
    exact map_bind_eq_left fun definitions => map_bind_eq_left fun transitions => map_bind_eq_left fun arcs => rfl

end Assembly

/-- The outline of a tree is joined into the outline of its flat net. -/
theorem FlatNet.ofTree_outline (tree : IncludeTree) :
    (FlatNet.ofTree tree).map FlatNet.outline = FlatNet.ofTree tree.outline := by
  have hname : (tree.outline.net? tree.outline.root).map Net.name = (tree.net? tree.root).map Net.name := by
    rw [IncludeTree.net?, IncludeTree.node?_outline, IncludeTree.net?, Option.map_map, Option.map_map,
      Option.map_map]
    rfl
  unfold FlatNet.ofTree
  rw [hname]
  exact map_bind_eq (Assembly.joined_outline tree) fun a => a.compile_outline _

/-! ## What joining looks at -/

section

variable {tree other : IncludeTree}

/-- The trees agree in what joining looks at. -/
structure IncludeTree.Agrees (tree other : IncludeTree) : Prop where
  walk : other.walk = tree.walk
  paths : ∀ id, (other.node? id).map TreeNode.path = (tree.node? id).map TreeNode.path
  name : (other.net? other.root).map Net.name = (tree.net? tree.root).map Net.name

namespace IncludeTree.Agrees

theorem homeOf (h : tree.Agrees other) (a : Assembly) (home : HomeRef) :
    a.homeOf other home = a.homeOf tree home := by
  have hpath := h.paths home.node
  unfold Assembly.homeOf
  cases hnode : tree.node? home.node with
  | none =>
    rw [hnode] at hpath
    rw [Option.map_eq_none_iff.1 hpath]
  | some node =>
    rw [hnode] at hpath
    obtain ⟨node', hnode', hsame⟩ := Option.map_eq_some_iff.1 hpath
    rw [hnode']
    simp only [Option.bind_eq_bind, Option.bind_some, hsame]

/-- Trees that agree are joined alike. -/
theorem ofTree (h : tree.Agrees other) : FlatNet.ofTree other = FlatNet.ofTree tree := by
  have hmerge : Assembly.merge other = Assembly.merge tree := by
    funext a away
    unfold Assembly.merge
    rw [h.homeOf]
  rw [FlatNet.ofTree, Assembly.joined, Assembly.ofTree, h.walk, hmerge, h.name]
  rfl

end IncludeTree.Agrees

/-- Trees whose outlines agree have flat nets of one outline. -/
theorem FlatNet.outline_of_agrees {net net' : FlatNet} (h : tree.outline.Agrees other.outline)
    (hnet : FlatNet.ofTree tree = .ok net) (hnet' : FlatNet.ofTree other = .ok net') :
    net'.outline = net.outline := by
  have hsame := h.ofTree
  rw [← FlatNet.ofTree_outline, ← FlatNet.ofTree_outline, hnet, hnet'] at hsame
  exact Except.ok.inj hsame

end

end PetriTree
