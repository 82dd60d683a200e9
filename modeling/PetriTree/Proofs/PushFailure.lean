import PetriTree.Proofs.Mirroring

/-!
# PetriTree — tokens that are written before a source is missed

Tokens go to the sources one after the other. A tree may have lost a node or a place since it was joined, and
then there is a source that cannot be written. It is found out when its turn comes, and the sources in front of
it have got their tokens by then: nothing takes them back. Reading the sources is different, as the marking that
is read is kept aside until all of them were found.

Main results:
* `IncludeTree.accepts` — a source that can be written, or has nothing to be written;
* `LiveNet.writes` — the edits of a net that pushing makes for some of the sources;
* `pushPairs_outcome` — where pushing stops, and what is written by then;
* `LiveNet.push_stops` — what a push that fails leaves, and when this is what was there;
* `LiveNet.half_pushed` — a place that is written before another one is missed.
-/

namespace PetriTree

/-! ## Nets that differ in tokens -/

namespace Net

variable {net after third : Net}

/-- The nets have the same colours, and places of the same names. -/
structure Alike (net after : Net) : Prop where
  colors : after.colors = net.colors
  places : ∀ id, after.places.contains id = net.places.contains id

theorem alike_refl (net : Net) : net.Alike net := ⟨rfl, fun _ => rfl⟩

theorem Alike.trans (h : net.Alike after) (h' : after.Alike third) : net.Alike third :=
  ⟨h'.colors.trans h.colors, fun id => (h'.places id).trans (h.places id)⟩

theorem alike_setTokens {place color : String} {n : Count} (h : net.setTokens place color n = .ok after) :
    net.Alike after := by
  obtain ⟨_, _, rfl⟩ := setTokens_eq_ok h
  exact ⟨rfl, fun id => Table.contains_map ..⟩

/-- Tokens are set where the place and the colour are there. -/
theorem exists_setTokens {place color : String} (hplace : net.places.contains place = true)
    (hcolor : net.colors.contains color = true) (n : Count) : ∃ after, net.setTokens place color n = .ok after := by
  obtain ⟨found, hfound⟩ := Option.isSome_iff_exists.1 hplace
  simp only [setTokens, refuseIf, hcolor, Net.place, hfound, NetError.required]
  exact ⟨_, rfl⟩

theorem setTokens_of_missing {place color : String} (hplace : net.places.contains place = false)
    (hcolor : net.colors.contains color = true) (n : Count) :
    net.setTokens place color n = .error (.notFound place .place) := by
  have hnone : net.places.get? place = none := Option.not_isSome_iff_eq_none.1 (by simpa [Table.contains] using hplace)
  simp only [setTokens, refuseIf, hcolor, Net.place, hnone, NetError.required]
  rfl

/-- The edit sets tokens, and nothing stands against it. -/
def Fills (net : Net) (edit : NetEdit) : Prop :=
  ∃ place color n, edit = .setTokens place color n ∧ net.places.contains place = true ∧
    net.colors.contains color = true

theorem Fills.alike {edit : NetEdit} (h : net.Alike after) (hfills : net.Fills edit) : after.Fills edit := by
  obtain ⟨place, color, n, rfl, hplace, hcolor⟩ := hfills
  exact ⟨place, color, n, rfl, (h.places place).trans hplace, h.colors ▸ hcolor⟩

theorem Fills.attempt {edit : NetEdit} (h : net.Fills edit) : net.Alike (net.attempt edit) ∧
    (net.attempt edit).markingRevision = net.markingRevision + 1 := by
  obtain ⟨place, color, n, rfl, hplace, hcolor⟩ := h
  obtain ⟨after, hset⟩ := exists_setTokens hplace hcolor n
  have hattempt : net.attempt (.setTokens place color n) = after := by rw [Net.attempt, perform, hset]; rfl
  rw [hattempt]
  refine ⟨alike_setTokens hset, ?_⟩
  obtain ⟨_, _, rfl⟩ := setTokens_eq_ok hset
  rfl

/-- The marking counter counts the edits. -/
theorem performAll_of_fills {edits : List NetEdit} (h : ∀ edit ∈ edits, net.Fills edit) :
    net.Alike (net.performAll edits) ∧
      (net.performAll edits).markingRevision = net.markingRevision + edits.length := by
  induction edits generalizing net with
  | nil => exact ⟨net.alike_refl, rfl⟩
  | cons edit rest ih =>
    rw [List.forall_mem_cons] at h
    obtain ⟨halike, hcounter⟩ := h.1.attempt
    obtain ⟨halike', hcounter'⟩ := ih fun edit hedit => (h.2 edit hedit).alike halike
    refine ⟨halike.trans halike', hcounter'.trans ?_⟩
    rw [hcounter, List.length_cons]
    omega

end Net

namespace IncludeTree

/-- The node of the source is there, and its place as well unless its net has none of the colours. -/
def accepts (tree : IncludeTree) (colors : List String) (source : SourcePlace) : Bool :=
  (tree.net? source.node).any fun net =>
    net.places.contains source.place || colors.all fun color => !net.colors.contains color

/-- No count and no marking counter of a net is different. -/
structure Undisturbed (tree after : IncludeTree) : Prop where
  counts : ∀ source color, after.count? source color = tree.count? source color
  counters : ∀ id, (after.net? id).map Net.markingRevision = (tree.net? id).map Net.markingRevision

/-- What a source asks for does not depend on tokens. -/
theorem accepts_setNet {tree : IncludeTree} {id : NodeId} {net after : Net} (hnet : tree.net? id = some net)
    (halike : net.Alike after) (colors : List String) (source : SourcePlace) :
    (tree.setNet id after).accepts colors source = tree.accepts colors source := by
  rw [accepts, net?_setNet, accepts]
  split
  · rename_i hid
    rw [hid, hnet, Option.map_some, Option.any_some, Option.any_some, halike.colors, halike.places]
  · rfl

end IncludeTree

namespace LiveNet

variable {tree after : IncludeTree} {m : Marking} {colors : List String} {flat : String} {net : Net}

/-! ## One source -/

/-- The edits that fill a place with the tokens of a flat place. -/
def colorWrites (m : Marking) (flat place : String) (colors : List String) (net : Net) : List NetEdit :=
  (colors.filter net.colors.contains).map fun color => .setTokens place color (m.tokens flat color)

theorem colorWrites_congr {net' : Net} (h : net'.colors = net.colors) (flat place : String) :
    colorWrites m flat place colors net' = colorWrites m flat place colors net := by
  rw [colorWrites, h, colorWrites]

theorem colorWrites_eq_nil_iff {place : String} :
    colorWrites m flat place colors net = [] ↔ ∀ color ∈ colors, net.colors.contains color = false := by
  rw [colorWrites, List.map_eq_nil_iff, List.filter_eq_nil_iff]
  simp only [Bool.not_eq_true]

/-- A place that is there is filled, colour by colour. -/
theorem pushColors_of_contains {place : String} (hplace : net.places.contains place = true) :
    pushColors m flat place colors net = (net.performAll (colorWrites m flat place colors net), .ok ()) := by
  induction colors generalizing net with
  | nil => rfl
  | cons color rest ih =>
    cases hcolor : net.colors.contains color with
    | false =>
      have hwrites : colorWrites m flat place (color :: rest) net = colorWrites m flat place rest net := by
        rw [colorWrites, List.filter_cons_of_neg (by rw [hcolor]; decide), colorWrites]
      rw [pushColors, hcolor, ih hplace, hwrites]
      rfl
    | true =>
      obtain ⟨after, hset⟩ := Net.exists_setTokens hplace hcolor (m.tokens flat color)
      have halike := Net.alike_setTokens hset
      have hwrites : colorWrites m flat place (color :: rest) net =
          .setTokens place color (m.tokens flat color) :: colorWrites m flat place rest after := by
        rw [colorWrites_congr halike.colors, colorWrites, List.filter_cons_of_pos hcolor, List.map_cons, colorWrites]
      have hattempt : net.attempt (.setTokens place color (m.tokens flat color)) = after := by
        rw [Net.attempt, Net.perform, hset]
        rfl
      rw [pushColors, hcolor, hset, hwrites, Net.performAll, List.foldl_cons, hattempt]
      exact ih ((halike.places place).trans hplace)

/-- A place that is not there is missed by the first colour that its net defines. -/
theorem pushColors_of_missing {place : String} (hplace : net.places.contains place = false) :
    pushColors m flat place colors net = (net,
      if colors.all fun color => !net.colors.contains color then .ok () else .error (.notFound place .place)) := by
  induction colors with
  | nil => rfl
  | cons color rest ih =>
    cases hcolor : net.colors.contains color with
    | false =>
      rw [pushColors, hcolor, List.all_cons, hcolor]
      exact ih
    | true =>
      rw [pushColors, hcolor, Net.setTokens_of_missing hplace hcolor, List.all_cons, hcolor]
      rfl

/-! ## Several sources -/

/-- The edits of one net that fill its places among the sources. -/
def pairWrites (m : Marking) (colors : List String) (id : NodeId) (net : Net) (pairs : List (String × SourcePlace)) :
    List NetEdit :=
  pairs.flatMap fun pair => if pair.2.node = id then colorWrites m pair.1 pair.2.place colors net else []

theorem pairWrites_congr {net' : Net} (h : net'.colors = net.colors) (id : NodeId)
    (pairs : List (String × SourcePlace)) : pairWrites m colors id net' pairs = pairWrites m colors id net pairs := by
  simp only [pairWrites, colorWrites_congr h]

theorem pairWrites_cons {id : NodeId} {source : SourcePlace} (rest : List (String × SourcePlace)) :
    pairWrites m colors id net ((flat, source) :: rest) =
      (if source.node = id then colorWrites m flat source.place colors net else []) ++
        pairWrites m colors id net rest := rfl

theorem fills_colorWrites (m : Marking) (flat : String) {source : SourcePlace}
    (h : tree.accepts colors source = true) (hnet : tree.net? source.node = some net) :
    ∀ edit ∈ colorWrites m flat source.place colors net, net.Fills edit := by
  intro edit hedit
  obtain ⟨color, hcolor, rfl⟩ := List.mem_map.1 hedit
  obtain ⟨hlisted, hdefined⟩ := List.mem_filter.1 hcolor
  rw [IncludeTree.accepts, hnet, Option.any_some, Bool.or_eq_true] at h
  refine ⟨_, _, _, rfl, h.resolve_right fun hnone => ?_, hdefined⟩
  have hundefined := List.all_eq_true.1 hnone color hlisted
  rw [hdefined] at hundefined
  cases hundefined

theorem fills_pairWrites {id : NodeId} {pairs : List (String × SourcePlace)}
    (h : ∀ pair ∈ pairs, tree.accepts colors pair.2 = true) (hnet : tree.net? id = some net) :
    ∀ edit ∈ pairWrites m colors id net pairs, net.Fills edit := by
  intro edit hedit
  obtain ⟨pair, hpair, hedit⟩ := List.mem_flatMap.1 hedit
  split at hedit
  · rename_i hnode
    exact fills_colorWrites m pair.1 (h pair hpair) (hnode ▸ hnet) edit hedit
  · cases hedit

/-- A source that can be written is written, and the rest come after it. -/
theorem pushPairs_of_accepts (m : Marking) (flat : String) {source : SourcePlace}
    (h : tree.accepts colors source = true) (rest : List (String × SourcePlace)) :
    ∃ net, tree.net? source.node = some net ∧ pushPairs m colors ((flat, source) :: rest) tree =
      pushPairs m colors rest
        (tree.setNet source.node (net.performAll (colorWrites m flat source.place colors net))) := by
  obtain ⟨net, hnet, haccepts⟩ := (Option.any_eq_true _ _).1 h
  refine ⟨net, hnet, ?_⟩
  rw [pushPairs, hnet]
  dsimp only
  cases hplace : net.places.contains source.place with
  | true => rw [pushColors_of_contains hplace]
  | false =>
    rw [hplace, Bool.false_or] at haccepts
    have hnone : colorWrites m flat source.place colors net = [] := by
      refine colorWrites_eq_nil_iff.2 fun color hcolor => ?_
      simpa using List.all_eq_true.1 haccepts color hcolor
    rw [pushColors_of_missing hplace, if_pos haccepts, hnone]
    rfl

/-- A source that cannot be written ends it all. -/
theorem pushPairs_of_misses (m : Marking) (flat : String) {source : SourcePlace}
    (h : tree.accepts colors source = false) (rest : List (String × SourcePlace)) :
    (pushPairs m colors ((flat, source) :: rest) tree).2 = .error (.notFound source.place .place) ∧
      ∀ id, (pushPairs m colors ((flat, source) :: rest) tree).1.net? id = tree.net? id := by
  rw [pushPairs]
  cases hnet : tree.net? source.node with
  | none => exact ⟨rfl, fun _ => rfl⟩
  | some net =>
    rw [IncludeTree.accepts, hnet, Option.any_some, Bool.or_eq_false_iff] at h
    dsimp only
    rw [pushColors_of_missing h.1, if_neg (by rw [h.2]; decide)]
    refine ⟨rfl, fun id => ?_⟩
    rw [IncludeTree.net?_setNet]
    split
    · rename_i hid
      rw [hid, hnet]
      rfl
    · rfl

/-- The sources in front of the first one that cannot be written are written, and no others. -/
theorem pushPairs_outcome (m : Marking) (colors : List String) (pairs : List (String × SourcePlace))
    (tree : IncludeTree) :
    (pushPairs m colors pairs tree).2 =
        (match pairs.find? fun pair => !tree.accepts colors pair.2 with
        | none => .ok ()
        | some pair => .error (.notFound pair.2.place .place)) ∧
      ∀ id, (pushPairs m colors pairs tree).1.net? id = (tree.net? id).map fun net =>
        net.performAll (pairWrites m colors id net (pairs.takeWhile fun pair => tree.accepts colors pair.2)) := by
  induction pairs generalizing tree with
  | nil => exact ⟨rfl, fun id => Option.map_id'.symm⟩
  | cons pair rest ih =>
    obtain ⟨flat, source⟩ := pair
    cases haccepts : tree.accepts colors source with
    | false =>
      obtain ⟨hend, hnets⟩ := pushPairs_of_misses m flat haccepts rest
      rw [List.find?_cons_of_pos (by rw [haccepts]; rfl), List.takeWhile_cons_of_neg (by rw [haccepts]; decide)]
      exact ⟨hend, fun id => (hnets id).trans Option.map_id'.symm⟩
    | true =>
      obtain ⟨net, hnet, hpush⟩ := pushPairs_of_accepts m flat haccepts rest
      have halike := (Net.performAll_of_fills (fills_colorWrites m flat haccepts hnet)).1
      obtain ⟨hend, hnets⟩ := ih (tree.setNet source.node (net.performAll (colorWrites m flat source.place colors net)))
      -- tokens do not decide which sources can be written, so the rest stops where it would have stopped before
      simp only [IncludeTree.accepts_setNet hnet halike] at hend hnets
      rw [hpush, List.find?_cons_of_neg (by rw [haccepts]; decide),
        List.takeWhile_cons_of_pos (p := fun pair : String × SourcePlace => tree.accepts colors pair.2) haccepts]
      refine ⟨hend, fun id => (hnets id).trans ?_⟩
      rw [IncludeTree.net?_setNet]
      by_cases hid : id = source.node
      -- the net of the source has these edits first
      · subst hid
        rw [if_pos rfl, hnet, Option.map_some, Option.map_some, Option.map_some, pairWrites_cons, if_pos rfl,
          pairWrites_congr halike.colors, Net.performAll, Net.performAll, Net.performAll, List.foldl_append]
      · rw [if_neg hid]
        simp only [pairWrites_cons, if_neg (Ne.symm hid), List.nil_append]

/-! ## What is left of a push -/

/-- The sources that pushing gets to. -/
def reached (live : LiveNet) (tree : IncludeTree) : List (String × SourcePlace) :=
  (sourcePairs live.net).takeWhile fun pair => tree.accepts live.net.colors.names pair.2

/-- The source at which pushing stops, if there is one. -/
def missed (live : LiveNet) (tree : IncludeTree) : Option SourcePlace :=
  ((sourcePairs live.net).find? fun pair => !tree.accepts live.net.colors.names pair.2).map Prod.snd

/-- The edits of the net of a node that pushing makes. -/
def writes (live : LiveNet) (tree : IncludeTree) (id : NodeId) (net : Net) : List NetEdit :=
  pairWrites live.marking live.net.colors.names id net (live.reached tree)

theorem accepts_of_mem_reached {live : LiveNet} {pair : String × SourcePlace} (h : pair ∈ live.reached tree) :
    tree.accepts live.net.colors.names pair.2 = true :=
  List.mem_takeWhile_imp (p := fun pair : String × SourcePlace => tree.accepts live.net.colors.names pair.2) h

/-- Nothing is edited exactly if the nets of the sources have none of the colours. -/
theorem writes_eq_nil_iff {live : LiveNet} {id : NodeId} (hnet : tree.net? id = some net) :
    live.writes tree id net = [] ↔ ∀ pair ∈ live.reached tree, pair.2.node = id →
      ∀ color ∈ live.net.colors.names, tree.defines id color = false := by
  rw [writes, pairWrites, List.flatMap_eq_nil_iff]
  refine forall₂_congr fun pair _ => ?_
  split
  · rename_i hnode
    simp only [colorWrites_eq_nil_iff, hnode, forall_const, IncludeTree.defines, hnet, Option.any_some]
  · rename_i hnode
    simp only [hnode, false_implies]

/-- A tree is as it was before exactly if no edit was made. -/
theorem undisturbed_iff {live : LiveNet} (h : ∀ id, after.net? id = (tree.net? id).map fun net =>
    net.performAll (live.writes tree id net)) : tree.Undisturbed after ↔
      ∀ pair ∈ live.reached tree, ∀ color ∈ live.net.colors.names, tree.defines pair.2.node color = false := by
  constructor
  · intro hsame pair hpair
    obtain ⟨net, hnet, _⟩ := (Option.any_eq_true _ _).1 (accepts_of_mem_reached hpair)
    -- the marking counter of the net tells how many edits were made
    have hcounter := hsame.counters pair.2.node
    have hfills : ∀ edit ∈ live.writes tree pair.2.node net, net.Fills edit :=
      fills_pairWrites (fun _ => accepts_of_mem_reached) hnet
    rw [h, hnet, Option.map_some, Option.map_some, Option.map_some, (Net.performAll_of_fills hfills).2,
      Option.some.injEq, Nat.add_eq_left, List.length_eq_zero_iff] at hcounter
    exact (writes_eq_nil_iff hnet).1 hcounter pair hpair rfl
  · intro hnone
    have hsame : ∀ id, after.net? id = tree.net? id := by
      intro id
      rw [h]
      cases hnet : tree.net? id with
      | none => rfl
      | some net =>
        have hnil := (writes_eq_nil_iff hnet).2 fun pair hpair hnode => hnode ▸ hnone pair hpair
        rw [Option.map_some, hnil]
        rfl
    refine ⟨fun source color => ?_, fun id => by rw [hsame]⟩
    rw [IncludeTree.count?, hsame, IncludeTree.count?]

/-- Pushing stops at the first source whose node or place is missed, and succeeds if there is none. Every net is
left with the edits for the sources in front of it. So nothing was touched exactly if the nets of these
sources have none of the colours; where they have one, the push is refused and the tokens are there all the same. -/
theorem push_stops (live : LiveNet) (tree : IncludeTree) :
    (live.push tree).2 = (match live.missed tree with
      | none => .ok ()
      | some source => .error (.notFound source.place .place)) ∧
    (∀ id, (live.push tree).1.net? id = (tree.net? id).map fun net => net.performAll (live.writes tree id net)) ∧
    (tree.Undisturbed (live.push tree).1 ↔
      ∀ pair ∈ live.reached tree, ∀ color ∈ live.net.colors.names, tree.defines pair.2.node color = false) := by
  obtain ⟨hend, hnets⟩ := pushPairs_outcome live.marking live.net.colors.names (sourcePairs live.net) tree
  refine ⟨?_, hnets, undisturbed_iff hnets⟩
  rw [push, hend, missed]
  cases (sourcePairs live.net).find? fun pair => !tree.accepts live.net.colors.names pair.2 <;> rfl

/-- A place with a token, which a transition takes, and an empty place. -/
def spending : IncludeTree :=
  Sample.single [Sample.place "P" 1, Sample.place "Q" 0, Sample.transition "T" Rate.one,
    Sample.arc "a" "P" "T" .placeToTransition "1"]

/-- The tree without the empty place. -/
def shrunk : IncludeTree :=
  match (spending.net? IncludeTree.rootId).bind fun net => (net.removePlace "Q").toOption with
  | some (_, net) => spending.setNet IncludeTree.rootId net
  | none => spending

/-- The transition fires, and the empty place is removed from the tree. Then a push is refused, as it misses this
place, but the other one has lost its token by then, and the marking counter has moved. -/
theorem half_pushed : spending.Reachable ∧ ∃ (live fired : LiveNet) (after : IncludeTree),
    (LiveNet.ofTree Registry.empty 0 spending).2 = .ok live ∧ live.marking = live.net.initial ∧
    fired = { live with marking := fired.marking } ∧ live.net.Fires live.marking "T" fired.marking ∧
    fired.push shrunk = (after, .error (.notFound "Q" .place)) ∧ ¬shrunk.Undisturbed after ∧
    shrunk.count? ⟨IncludeTree.rootId, "P"⟩ defaultColor = some (Count.ofNat 1) ∧
    after.count? ⟨IncludeTree.rootId, "P"⟩ defaultColor = some Count.zero ∧
    (shrunk.net? IncludeTree.rootId).map Net.markingRevision = some 0 ∧
    (after.net? IncludeTree.rootId).map Net.markingRevision = some 1 := by
  have hrun : (LiveNet.ofTree Registry.empty 0 spending).2.map (fun live =>
      decide (live.marking = live.net.initial) &&
        ((live.net.candidates live.marking).toOption.any fun found => decide ("T" ∈ found)) &&
        (live.net.fire live.marking "T").toOption.any fun m =>
          let outcome := { live with marking := m }.push shrunk
          decide (outcome.2 = .error (.notFound "Q" .place)) &&
            decide (outcome.1.count? ⟨IncludeTree.rootId, "P"⟩ defaultColor = some Count.zero) &&
            decide ((outcome.1.net? IncludeTree.rootId).map Net.markingRevision = some 1)) = .ok true := by
    decide +kernel
  have hcount : shrunk.count? ⟨IncludeTree.rootId, "P"⟩ defaultColor = some (Count.ofNat 1) := by decide +kernel
  have hcounter : (shrunk.net? IncludeTree.rootId).map Net.markingRevision = some 0 := by decide +kernel
  obtain ⟨live, hlive, houtcome⟩ := map_eq_ok.1 hrun
  simp only [Bool.and_eq_true, decide_eq_true_eq, Option.any_eq_true, toOption_eq_some] at houtcome
  obtain ⟨⟨hstart, found, hfound, hmay⟩, m, hfire, ⟨hpush, hspent⟩, hmoved⟩ := houtcome
  refine ⟨Sample.reachable_single _, live, { live with marking := m }, _, hlive, hstart, rfl,
    ⟨⟨found, hfound, hmay⟩, hfire⟩, Prod.ext rfl hpush, fun hsame => ?_, hcount, hspent, hcounter, hmoved⟩
  have hkept := hsame.counters IncludeTree.rootId
  rw [hmoved, hcounter] at hkept
  cases hkept

end LiveNet

end PetriTree
