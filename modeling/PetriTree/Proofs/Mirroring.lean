import PetriTree.Proofs.Bindings
import PetriTree.Proofs.Registry
import PetriTree.Proofs.Simulation

/-!
# PetriTree — tokens to the sources and back

Pushing writes a count into every source whose net defines the colour; pulling reads every colour of the
flat net from the first source of each place. So what was pushed is found again where the net of the first
source defines the colour. In any other colour pulling reads what that source held all along, and as a
rule this is nothing.

Main results:
* `LiveNet.count?_pushPairs` — what pushing leaves in a source;
* `LiveNet.tokens_pullPairs` — what pulling reads;
* `LiveNet.pull_of_push` — what of the marking survives going to the sources and back.
-/

namespace PetriTree

/-! ## Places of a tree -/

/-- The tokens of a colour in a place of the net, if there is such a place. -/
def Net.count? (net : Net) (place color : String) : Option Count :=
  (net.places.get? place).map fun p => p.count color

/-- Setting tokens changes one count of a place that is there. -/
theorem Net.count?_setTokens {net after : Net} {place color : String} {n : Count}
    (h : net.setTokens place color n = .ok after) (p c : String) :
    after.count? p c = if p = place ∧ c = color then (net.count? p c).map fun _ => n else net.count? p c := by
  obtain ⟨_, _, rfl⟩ := Net.setTokens_eq_ok h
  simp only [count?, Table.get?_modify]
  by_cases hp : p = place
  · subst hp
    cases net.places.get? p with
    | none => simp
    | some found =>
      by_cases hc : c = color
      · simp [Place.count, Table.get?_insert, hc]
      · simp [Place.count, Table.get?_insert, hc, Ne.symm hc]
  · rw [if_neg (Ne.symm hp), if_neg fun h => hp h.1]

namespace IncludeTree

variable {tree now after : IncludeTree}

/-- The place that a source names, if it is there. -/
def placeAt? (tree : IncludeTree) (source : SourcePlace) : Option Place :=
  (tree.net? source.node).bind fun net => net.places.get? source.place

/-- The tokens of a colour in the place that a source names, if it is there. -/
def count? (tree : IncludeTree) (source : SourcePlace) (color : String) : Option Count :=
  (tree.net? source.node).bind fun net => net.count? source.place color

/-- Does the net of a node define a colour? -/
def defines (tree : IncludeTree) (id : NodeId) (color : String) : Bool :=
  (tree.net? id).any fun net => net.colors.contains color

theorem count?_eq (tree : IncludeTree) (source : SourcePlace) (color : String) :
    tree.count? source color = (tree.placeAt? source).map fun p => p.count color := by
  rw [count?, placeAt?, Option.map_bind]
  rfl

theorem net?_setNet (tree : IncludeTree) (id : NodeId) (net : Net) (other : NodeId) :
    (tree.setNet id net).net? other =
      if other = id then (tree.net? other).map fun _ => net else tree.net? other := by
  simp only [net?, setNet, node?_modifyNode]
  split
  · simp only [Option.map_map, Function.comp_def]
  · rfl

/-- The trees that a tree becomes while nothing but tokens is changed in it. -/
inductive Refilled (tree : IncludeTree) : IncludeTree → Prop
  | refl : tree.Refilled tree
  | set {now : IncludeTree} {id : NodeId} {net after : Net} {place color : String} {n : Count} :
    tree.Refilled now → now.net? id = some net → net.setTokens place color n = .ok after →
      tree.Refilled (now.setNet id after)

/-- No place comes or goes with tokens. -/
theorem Refilled.isSome_placeAt? (h : tree.Refilled now) (source : SourcePlace) :
    (now.placeAt? source).isSome = (tree.placeAt? source).isSome := by
  induction h with
  | refl => rfl
  | @set now id net after place color n _ hnet hset ih =>
    rw [← ih]
    obtain ⟨_, _, rfl⟩ := Net.setTokens_eq_ok hset
    simp only [placeAt?, net?_setNet]
    split
    · rename_i hid
      rw [hid, hnet, Option.map_some, Option.bind_some, Option.bind_some, Table.get?_modify]
      split
      · rw [Option.isSome_map]
      · rfl
    · rfl

end IncludeTree

/-! ## Firings -/

/-- The markings that firing leads to, whichever transitions are fired. -/
def FlatNet.Fired (net : FlatNet) : Marking → Marking → Prop :=
  Relation.ReflTransGen fun m after => ∃ transition, net.fire m transition = .ok after

/-- No place is lost by firing. -/
theorem FlatNet.Fired.contains {net : FlatNet} {m after : Marking} (h : net.Fired m after) {place : String}
    (hplace : m.contains place = true) : after.contains place = true := by
  induction h with
  | refl => exact hplace
  | tail _ hstep ih =>
    obtain ⟨transition, hfire⟩ := hstep
    exact (FlatNet.shifts_of_fire hfire).kept place ih

namespace LiveNet

variable {tree now after : IncludeTree} {m : Marking} {colors : List String}

/-! ## To the sources -/

/-- The colours that the net defines are written, one after the other. -/
theorem count?_pushColors {flat place : String} {net left : Net}
    (h : pushColors m flat place colors net = (left, .ok ())) :
    left.colors = net.colors ∧ ∀ p c, left.count? p c =
      if p = place ∧ c ∈ colors ∧ net.colors.contains c = true then (net.count? p c).map fun _ => m.tokens flat c
      else net.count? p c := by
  induction colors generalizing net with
  | nil =>
    cases h
    exact ⟨rfl, fun p c => by simp⟩
  | cons color rest ih =>
    rw [pushColors] at h
    split at h
    -- a colour that the net does not define is passed over
    · rename_i hunknown
      obtain ⟨hcolors, hcount⟩ := ih h
      refine ⟨hcolors, fun p c => (hcount p c).trans ?_⟩
      by_cases hc : c = color
      · have hmissing : net.colors.contains color = false := by simpa using hunknown
        simp [hc, hmissing]
      · simp [hc]
    -- any other is written, and the rest of them into the net that has it
    · split at h
      · cases h
      · rename_i hknown _ net' hset
        have hwritten := Net.count?_setTokens hset
        obtain ⟨hdefined, _, heq⟩ := Net.setTokens_eq_ok hset
        have hsame : net'.colors = net.colors := by rw [heq]
        obtain ⟨hcolors, hcount⟩ := ih h
        refine ⟨hcolors.trans hsame, fun p c => ?_⟩
        rw [hcount, hwritten, hsame]
        by_cases hp : p = place
        · by_cases hc : c = color
          · subst hc
            by_cases hlater : c ∈ rest <;> simp [hp, hdefined, hlater, Function.comp_def]
          · simp [hp, hc]
        · simp [hp]

section Step

variable {net left : Net} {flat : String} {source : SourcePlace}

theorem defines_push (hnet : tree.net? source.node = some net)
    (h : pushColors m flat source.place colors net = (left, .ok ())) (id : NodeId) (color : String) :
    (tree.setNet source.node left).defines id color = tree.defines id color := by
  rw [IncludeTree.defines, IncludeTree.net?_setNet, IncludeTree.defines]
  split
  · rename_i hid
    rw [hid, hnet, Option.map_some, Option.any_some, Option.any_some, (count?_pushColors h).1]
  · rfl

/-- Writing the tokens of one flat place into one of its sources. -/
theorem count?_push (hnet : tree.net? source.node = some net)
    (h : pushColors m flat source.place colors net = (left, .ok ())) (s : SourcePlace) (c : String) :
    (tree.setNet source.node left).count? s c =
      if s = source ∧ c ∈ colors ∧ tree.defines s.node c = true then
        (tree.count? s c).map fun _ => m.tokens flat c
      else tree.count? s c := by
  rw [IncludeTree.count?, IncludeTree.net?_setNet]
  by_cases hnode : s.node = source.node
  · have hdefines : tree.defines s.node c = net.colors.contains c := by
      rw [IncludeTree.defines, hnode, hnet, Option.any_some]
    have hcount : tree.count? s c = net.count? s.place c := by
      rw [IncludeTree.count?, hnode, hnet, Option.bind_some]
    have hsame : s.place = source.place ↔ s = source := by
      constructor
      · intro hplace
        cases s
        cases source
        cases hnode
        cases hplace
        rfl
      · rintro rfl
        rfl
    rw [if_pos hnode, hnode, hnet, Option.map_some, Option.bind_some, (count?_pushColors h).2]
    simp only [hsame, ← hnode, hdefines, hcount]
  · rw [if_neg hnode, if_neg]
    · rfl
    · rintro ⟨rfl, -⟩
      exact hnode rfl

end Step

theorem pushPairs_cons {flat : String} {source : SourcePlace} {rest : List (String × SourcePlace)}
    (h : pushPairs m colors ((flat, source) :: rest) tree = (after, .ok ())) :
    ∃ net left, tree.net? source.node = some net ∧
      pushColors m flat source.place colors net = (left, .ok ()) ∧
      pushPairs m colors rest (tree.setNet source.node left) = (after, .ok ()) := by
  rw [pushPairs] at h
  split at h
  · cases h
  · rename_i net hnet
    split at h
    · cases h
    · rename_i left hleft
      exact ⟨net, left, hnet, hleft, h⟩

/-- A source that is not listed keeps what it holds. -/
theorem count?_pushPairs_of_notMem {pairs : List (String × SourcePlace)}
    (h : pushPairs m colors pairs tree = (after, .ok ())) {source : SourcePlace}
    (hsource : source ∉ pairs.map Prod.snd) (color : String) :
    after.count? source color = tree.count? source color := by
  induction pairs generalizing tree with
  | nil =>
    cases h
    rfl
  | cons pair rest ih =>
    rw [List.map_cons, List.mem_cons, not_or] at hsource
    obtain ⟨net, left, hnet, hleft, hrest⟩ := pushPairs_cons h
    rw [ih hrest hsource.2, count?_push hnet hleft, if_neg fun hhere => hsource.1 hhere.1]

/-- A source that is listed once gets the tokens of its flat place, in the colours that its net defines. -/
theorem count?_pushPairs {pairs : List (String × SourcePlace)} (hnodup : (pairs.map Prod.snd).Nodup)
    (h : pushPairs m colors pairs tree = (after, .ok ())) {flat : String} {source : SourcePlace}
    (hpair : (flat, source) ∈ pairs) (color : String) :
    after.count? source color =
      if color ∈ colors ∧ tree.defines source.node color = true then
        (tree.count? source color).map fun _ => m.tokens flat color
      else tree.count? source color := by
  induction pairs generalizing tree with
  | nil => cases hpair
  | cons pair rest ih =>
    rw [List.map_cons, List.nodup_cons] at hnodup
    obtain ⟨net, left, hnet, hleft, hrest⟩ := pushPairs_cons h
    rcases List.mem_cons.1 hpair with rfl | hpair
    -- what is written for other sources leaves this one alone
    · rw [count?_pushPairs_of_notMem hrest hnodup.1, count?_push hnet hleft]
      simp only [true_and]
    · have hne : source ≠ pair.2 := by
        rintro rfl
        exact hnodup.1 (List.mem_map.2 ⟨_, hpair, rfl⟩)
      have hkept : (tree.setNet pair.2.node left).count? source color = tree.count? source color := by
        rw [count?_push hnet hleft, if_neg fun hhere => hne hhere.1]
      rw [ih hnodup.2 hrest hpair, defines_push hnet hleft, hkept]

/-! ## Back from the sources -/

/-- The marking with the tokens of one flat place read from a place. -/
def recount (colors : List String) (flat : String) (place : Place) (m : Marking) : Marking :=
  colors.foldl (fun m color => m.put flat color (place.count color)) m

theorem tokens_recount (colors : List String) (flat : String) (place : Place) (m : Marking) (p c : String) :
    (recount colors flat place m).tokens p c =
      if p = flat ∧ c ∈ colors then place.count c else m.tokens p c := by
  induction colors generalizing m with
  | nil => simp [recount]
  | cons color rest ih =>
    refine (ih (m.put flat color (place.count color))).trans ?_
    rw [Marking.tokens_put]
    by_cases hp : p = flat
    · by_cases hlater : c ∈ rest
      · simp [hp, hlater]
      · by_cases hc : c = color <;> simp [hp, hlater, hc]
    · simp [hp]

theorem contains_recount (colors : List String) {flat : String} (h : m.contains flat = true) (place : Place)
    (p : String) : (recount colors flat place m).contains p = m.contains p := by
  induction colors generalizing m with
  | nil => rfl
  | cons color rest ih =>
    have hput := Marking.contains_put_of_contains h color (place.count color)
    exact (ih ((hput flat).trans h)).trans (hput p)

theorem pullPairs_cons {flat : String} {source : SourcePlace} {rest : List (String × SourcePlace)}
    {pulled : Marking} : pullPairs tree colors ((flat, source) :: rest) m = .ok pulled ↔
      ∃ place, tree.placeAt? source = some place ∧
        pullPairs tree colors rest (recount colors flat place m) = .ok pulled := by
  simp only [pullPairs, bind_eq_ok, Net.required_eq_ok, Net.place, IncludeTree.placeAt?,
    Option.bind_eq_some_iff, recount]
  constructor
  · rintro ⟨net, hnet, place, hplace, hrest⟩
    exact ⟨place, ⟨net, hnet, hplace⟩, hrest⟩
  · rintro ⟨place, ⟨net, hnet, hplace⟩, hrest⟩
    exact ⟨net, hnet, place, hplace, hrest⟩

/-- Pulling asks for the places only. -/
theorem exists_pullPairs_iff {pairs : List (String × SourcePlace)} :
    (∃ pulled, pullPairs tree colors pairs m = .ok pulled) ↔
      ∀ pair ∈ pairs, (tree.placeAt? pair.2).isSome := by
  induction pairs generalizing m with
  | nil => simp [pullPairs]
  | cons pair rest ih =>
    obtain ⟨flat, source⟩ := pair
    rw [List.forall_mem_cons]
    constructor
    · rintro ⟨pulled, hpulled⟩
      obtain ⟨place, hplace, hrest⟩ := pullPairs_cons.1 hpulled
      exact ⟨by rw [hplace]; rfl, ih.1 ⟨pulled, hrest⟩⟩
    · rintro ⟨hsource, hrest⟩
      obtain ⟨place, hplace⟩ := Option.isSome_iff_exists.1 hsource
      obtain ⟨pulled, hpulled⟩ := ih.2 hrest
      exact ⟨pulled, pullPairs_cons.2 ⟨place, hplace, hpulled⟩⟩

theorem tokens_pullPairs_of_notMem {pairs : List (String × SourcePlace)} {pulled : Marking}
    (h : pullPairs tree colors pairs m = .ok pulled) {p c : String}
    (hnone : p ∉ pairs.map Prod.fst ∨ c ∉ colors) : pulled.tokens p c = m.tokens p c := by
  induction pairs generalizing m with
  | nil =>
    cases h
    rfl
  | cons pair rest ih =>
    obtain ⟨place, _, hrest⟩ := pullPairs_cons.1 h
    rw [List.map_cons, List.mem_cons, not_or] at hnone
    rw [ih hrest (hnone.imp_left And.right), tokens_recount, if_neg]
    rintro ⟨hp, hc⟩
    exact hnone.elim (fun hother => hother.1 hp) fun hunknown => hunknown hc

/-- A flat place that is listed once gets the tokens of its source, in the colours asked for. -/
theorem tokens_pullPairs {pairs : List (String × SourcePlace)} (hnodup : (pairs.map Prod.fst).Nodup)
    {pulled : Marking} (h : pullPairs tree colors pairs m = .ok pulled) {flat : String}
    {source : SourcePlace} (hpair : (flat, source) ∈ pairs) {color : String} (hcolor : color ∈ colors) :
    tree.count? source color = some (pulled.tokens flat color) := by
  induction pairs generalizing m with
  | nil => cases hpair
  | cons pair rest ih =>
    rw [List.map_cons, List.nodup_cons] at hnodup
    obtain ⟨place, hplace, hrest⟩ := pullPairs_cons.1 h
    rcases List.mem_cons.1 hpair with rfl | hpair
    -- what is read for other flat places does not touch this one
    · rw [tokens_pullPairs_of_notMem hrest (Or.inl hnodup.1), tokens_recount, if_pos ⟨rfl, hcolor⟩,
        IncludeTree.count?_eq, hplace]
      rfl
    · exact ih hnodup.2 hrest hpair

theorem contains_pullPairs {pairs : List (String × SourcePlace)} {pulled : Marking}
    (h : pullPairs tree colors pairs m = .ok pulled) (hflats : ∀ pair ∈ pairs, m.contains pair.1 = true)
    (p : String) : pulled.contains p = m.contains p := by
  induction pairs generalizing m with
  | nil =>
    cases h
    rfl
  | cons pair rest ih =>
    obtain ⟨place, _, hrest⟩ := pullPairs_cons.1 h
    have hsame := contains_recount colors (hflats _ (List.mem_cons_self ..)) place
    refine (ih hrest fun later hlater => ?_).trans (hsame p)
    rw [hsame]
    exact hflats later (List.mem_cons_of_mem _ hlater)

/-! ## First sources -/

theorem mem_primaryPairs {net : FlatNet} {flat : String} {source : SourcePlace} :
    (flat, source) ∈ primaryPairs net ↔ net.bindings.primary flat = some source := by
  rw [primaryPairs, List.mem_filterMap, Bindings.primary, Bindings.sourcesOf]
  constructor
  · rintro ⟨⟨_, list⟩, hlist, hfirst⟩
    obtain ⟨first, hhead, heq⟩ := Option.map_eq_some_iff.1 hfirst
    cases heq
    rw [Table.get?_eq_some_iff.2 hlist]
    exact hhead
  · intro hfirst
    cases hfound : net.bindings.sources.get? flat with
    | none =>
      rw [hfound] at hfirst
      cases hfirst
    | some list =>
      rw [hfound, Option.getD_some] at hfirst
      exact ⟨(flat, list), Table.get?_eq_some_iff.1 hfound, by rw [hfirst]; rfl⟩

theorem nodup_primaryPairs (net : FlatNet) : ((primaryPairs net).map Prod.fst).Nodup := by
  refine net.bindings.sources.nodup.sublist ?_
  rw [primaryPairs]
  induction net.bindings.sources.entries with
  | nil => exact List.Sublist.refl _
  | cons e rest ih =>
    cases hfirst : e.2.head? with
    | none =>
      simp only [List.filterMap_cons, hfirst, Option.map_none, List.map_cons]
      exact ih.cons _
    | some source =>
      simp only [List.filterMap_cons, hfirst, Option.map_some, List.map_cons]
      exact ih.cons_cons _

/-- The first source of a flat place is one of its sources. -/
theorem mem_sourcePairs_of_primary {net : FlatNet} {flat : String} {source : SourcePlace}
    (h : net.bindings.primary flat = some source) :
    ∃ list, (flat, list) ∈ net.bindings.sources.entries ∧ source ∈ list ∧ (flat, source) ∈ sourcePairs net := by
  obtain ⟨⟨_, list⟩, hlist, hfirst⟩ := List.mem_filterMap.1 (mem_primaryPairs.2 h)
  obtain ⟨first, hhead, heq⟩ := Option.map_eq_some_iff.1 hfirst
  cases heq
  have hmem := List.mem_of_head? hhead
  exact ⟨list, hlist, hmem, List.mem_flatMap.2 ⟨_, hlist, List.mem_map.2 ⟨_, hmem, rfl⟩⟩⟩

/-! ## There and back -/

section RoundTrip

variable {live pulled : LiveNet} {flat : String} {source : SourcePlace}

/-- Is the first source of every flat place there, and does it hold the same as the marking in each colour
that its own net does not define? -/
def Reflected (live : LiveNet) (now : IncludeTree) : Prop :=
  ∀ flat source, live.net.bindings.primary flat = some source →
    ∃ owner place, now.net? source.node = some owner ∧ owner.places.get? source.place = some place ∧
      ∀ color, live.net.colors.contains color = true → owner.colors.contains color = false →
        live.marking.tokens flat color = place.count color

/-- What pushing leaves in the first source of a flat place. -/
theorem count?_primary (hnet : FlatNet.ofTree tree = .ok live.net) (hpush : live.push now = (after, .ok ()))
    (hprimary : live.net.bindings.primary flat = some source) (color : String) :
    after.count? source color =
      if live.net.colors.contains color = true ∧ now.defines source.node color = true then
        (now.count? source color).map fun _ => live.marking.tokens flat color
      else now.count? source color := by
  obtain ⟨_, _, _, hpair⟩ := mem_sourcePairs_of_primary hprimary
  have hcount := count?_pushPairs (FlatNet.nodup_sources hnet) hpush hpair color
  simp only [Table.mem_names_iff] at hcount
  exact hcount

/-- Pushing adds no place and takes none away. -/
theorem isSome_primary (hnet : FlatNet.ofTree tree = .ok live.net) (hpush : live.push now = (after, .ok ()))
    (hprimary : live.net.bindings.primary flat = some source) :
    (after.placeAt? source).isSome = (now.placeAt? source).isSome := by
  have hthere : ∀ t : IncludeTree, (t.placeAt? source).isSome = (t.count? source defaultColor).isSome := by
    intro t
    rw [IncludeTree.count?_eq, Option.isSome_map]
  rw [hthere, hthere, count?_primary hnet hpush hprimary]
  split
  · rw [Option.isSome_map]
  · rfl

theorem pull_eq_ok : live.pull after = .ok pulled ↔
    pullPairs after live.net.colors.names (primaryPairs live.net) live.marking = .ok pulled.marking ∧
      pulled = { live with marking := pulled.marking } := by
  rw [pull, bind_eq_ok]
  constructor
  · rintro ⟨m, hm, h⟩
    cases h
    exact ⟨hm, rfl⟩
  · rintro ⟨hm, heq⟩
    exact ⟨_, hm, pure_eq_ok.2 heq.symm⟩

/-- Pulling succeeds when the first sources are there. -/
theorem exists_pull_iff (hnet : FlatNet.ofTree tree = .ok live.net) (hpush : live.push now = (after, .ok ())) :
    (∃ pulled, live.pull after = .ok pulled) ↔
      ∀ flat source, live.net.bindings.primary flat = some source → (now.placeAt? source).isSome := by
  have hpairs : (∃ pulled, live.pull after = .ok pulled) ↔
      ∃ m, pullPairs after live.net.colors.names (primaryPairs live.net) live.marking = .ok m := by
    constructor
    · rintro ⟨pulled, hpulled⟩
      exact ⟨_, (pull_eq_ok.1 hpulled).1⟩
    · rintro ⟨m, hm⟩
      exact ⟨{ live with marking := m }, pull_eq_ok.2 ⟨hm, rfl⟩⟩
  rw [hpairs, exists_pullPairs_iff, Prod.forall]
  refine forall₂_congr fun flat source => ?_
  rw [mem_primaryPairs]
  exact forall_congr' fun hprimary => by rw [isSome_primary hnet hpush hprimary]

/-- A pulled count is the one that was pushed, unless the net of the first source does not define the
colour: then it is the one that this source held before. -/
theorem tokens_pull (hnet : FlatNet.ofTree tree = .ok live.net) (hpush : live.push now = (after, .ok ()))
    (hpull : live.pull after = .ok pulled) (flat color : String) :
    pulled.marking.tokens flat color = live.marking.tokens flat color ∨
      ∃ source, live.net.bindings.primary flat = some source ∧ live.net.colors.contains color = true ∧
        now.defines source.node color = false ∧
        now.count? source color = some (pulled.marking.tokens flat color) := by
  obtain ⟨hm, _⟩ := pull_eq_ok.1 hpull
  -- what is not read is not changed
  by_cases hread : flat ∈ (primaryPairs live.net).map Prod.fst ∧ color ∈ live.net.colors.names
  · obtain ⟨⟨_, source⟩, hpair, rfl⟩ := List.mem_map.1 hread.1
    have hprimary := mem_primaryPairs.1 hpair
    have hcolor := Table.mem_names_iff.1 hread.2
    have hcount := tokens_pullPairs (nodup_primaryPairs live.net) hm hpair hread.2
    rw [count?_primary hnet hpush hprimary] at hcount
    by_cases hdefines : now.defines source.node color = true
    · rw [if_pos ⟨hcolor, hdefines⟩] at hcount
      obtain ⟨_, _, htokens⟩ := Option.map_eq_some_iff.1 hcount
      exact Or.inl htokens.symm
    · rw [if_neg fun h => hdefines h.2] at hcount
      exact Or.inr ⟨source, hprimary, hcolor, Bool.eq_false_iff.2 hdefines, hcount⟩
  · refine Or.inl (tokens_pullPairs_of_notMem hm ?_)
    by_contra hboth
    rw [not_or, not_not, not_not] at hboth
    exact hread hboth

/-- A first source is a place of a node; where places are filed under their ids, it is found. -/
theorem isSome_placeAt?_of_primary (hnet : FlatNet.ofTree tree = .ok live.net)
    (hfiled : ∀ e ∈ tree.walk, e.2.net.Filed) (hprimary : live.net.bindings.primary flat = some source) :
    (tree.placeAt? source).isSome := by
  obtain ⟨list, hlist, hmem, _⟩ := mem_sourcePairs_of_primary hprimary
  obtain ⟨⟨l, hl, rfl⟩, _⟩ := FlatNet.exists_of_mem_sources hnet hlist hmem
  obtain ⟨hwalk, hpart⟩ := mem_localsOf.1 hl
  obtain ⟨⟨key, place⟩, hentry, hplace⟩ := List.mem_map.1 hpart
  have hfound := Table.get?_eq_some_iff.2 hentry
  have hid := hfiled _ hwalk key place hfound
  subst hplace
  rw [IncludeTree.placeAt?, IncludeTree.net?, Local.source, node?_of_mem_walk hwalk, Option.map_some,
    Option.bind_some, hid, hfound]
  rfl

/-- Where a marking is the same after it went to the sources and back, the first sources reflect it. -/
theorem reflected_of_pull (hnet : FlatNet.ofTree tree = .ok live.net)
    (hpush : live.push now = (after, .ok ())) (hpull : live.pull after = .ok live) : live.Reflected now := by
  intro flat source hprimary
  have hthere := (exists_pull_iff hnet hpush).1 ⟨live, hpull⟩ flat source hprimary
  obtain ⟨place, hplace⟩ := Option.isSome_iff_exists.1 hthere
  obtain ⟨owner, howner, hfound⟩ := Option.bind_eq_some_iff.1 hplace
  refine ⟨owner, place, howner, hfound, fun color hcolor hmissing => ?_⟩
  -- what was read is what the source held before, as nothing was written there
  have hcount := tokens_pullPairs (nodup_primaryPairs live.net) (pull_eq_ok.1 hpull).1
    (mem_primaryPairs.2 hprimary) (Table.mem_names_iff.2 hcolor)
  have hdefines : now.defines source.node color = false := by
    rw [IncludeTree.defines, howner, Option.any_some, hmissing]
  rw [count?_primary hnet hpush hprimary, hdefines, if_neg (by simp), IncludeTree.count?_eq, hplace] at hcount
  exact (Option.some.inj hcount).symm

/-- Where the first sources reflect a marking that firing leads to, it comes back as it was. -/
theorem Reflected.pull (h : live.Reflected now) (hnet : FlatNet.ofTree tree = .ok live.net)
    (hmarking : live.net.Fired live.net.initial live.marking) (hpush : live.push now = (after, .ok ())) :
    live.pull after = .ok live := by
  have hthere : ∀ flat source, live.net.bindings.primary flat = some source →
      (now.placeAt? source).isSome := by
    intro flat source hprimary
    obtain ⟨owner, place, howner, hplace, _⟩ := h flat source hprimary
    rw [IncludeTree.placeAt?, howner, Option.bind_some, hplace]
    rfl
  obtain ⟨pulled, hpulled⟩ := (exists_pull_iff hnet hpush).2 hthere
  obtain ⟨hpairs, heq⟩ := pull_eq_ok.1 hpulled
  have hsame : pulled.marking = live.marking := by
    refine Marking.ext (contains_pullPairs hpairs fun pair hpair => ?_) fun flat color => ?_
    -- firing keeps the places that the net starts with
    · obtain ⟨list, hlist, _, _⟩ := mem_sourcePairs_of_primary (mem_primaryPairs.1 hpair)
      refine hmarking.contains ?_
      rw [FlatNet.contains_initial hnet, (FlatNet.sources_eq hnet hlist).1]
    · rcases tokens_pull hnet hpush hpulled flat color with hkept | ⟨source, hprimary, hcolor, hunknown, hcount⟩
      · exact hkept
      · obtain ⟨owner, place, howner, hplace, hheld⟩ := h flat source hprimary
        rw [IncludeTree.defines, howner, Option.any_some] at hunknown
        rw [IncludeTree.count?, howner, Option.bind_some, Net.count?, hplace] at hcount
        rw [hheld color hcolor hunknown]
        exact (Option.some.inj hcount).symm
  rw [hpulled, heq, hsame]

/-- A marking that firing leads to is the same after it went to the sources and back exactly when each first
source reflects the colours that its own net does not define. Where places are filed under their ids nothing
is refused on the way, and a count that is not the same is the one that the first source held before. -/
theorem pull_of_push (live : LiveNet) (hnet : FlatNet.ofTree tree = .ok live.net) (hnow : tree.Refilled now)
    (hmarking : live.net.Fired live.net.initial live.marking) (hpush : live.push now = (after, .ok ())) :
    ((∀ e ∈ tree.walk, e.2.net.Filed) → ∃ pulled, live.pull after = .ok pulled) ∧
      (∀ pulled, live.pull after = .ok pulled → pulled = { live with marking := pulled.marking } ∧
        ∀ flat color, pulled.marking.tokens flat color = live.marking.tokens flat color ∨
          ∃ source, live.net.bindings.primary flat = some source ∧ live.net.colors.contains color = true ∧
            now.defines source.node color = false ∧
            now.count? source color = some (pulled.marking.tokens flat color)) ∧
      (live.pull after = .ok live ↔ live.Reflected now) := by
  refine ⟨fun hfiled => (exists_pull_iff hnet hpush).2 fun flat source hprimary => ?_,
    fun pulled hpulled => ⟨(pull_eq_ok.1 hpulled).2, tokens_pull hnet hpush hpulled⟩,
    reflected_of_pull hnet hpush, fun hreflected => hreflected.pull hnet hmarking hpush⟩
  rw [hnow.isSome_placeAt?]
  exact isSome_placeAt?_of_primary hnet hfiled hprimary

/-- The root puts tokens of a colour of its own into a place of the node below it. -/
def dyed : IncludeTree :=
  let tree := (Sample.pair [.color ⟨"Red", 255, 0, 0⟩, Sample.transition "T" Rate.one] [Sample.place "P" 0]
    "a").performAll [.publish ⟨1⟩ "P", .useInterface IncludeTree.rootId "root.a.P"]
  let arc : Arc :=
    ⟨"out", "root.a.P", "T", .transitionToPlace, .normal, Table.empty.insert "Red" "1", []⟩
  match (tree.net? IncludeTree.rootId).bind fun net => (net.addArc arc).toOption with
  | some net => tree.setNet IncludeTree.rootId net
  | none => tree

/-- A token in a colour that only the root defines does not come back from the place below it. -/
theorem red_lost : ∃ (live fired pulled : LiveNet) (after : IncludeTree),
    (LiveNet.ofTree Registry.empty 0 dyed).2 = .ok live ∧ live.marking = live.net.initial ∧
    fired = { live with marking := fired.marking } ∧ live.net.Fires live.marking "T" fired.marking ∧
    fired.push dyed = (after, .ok ()) ∧ fired.pull after = .ok pulled ∧
    fired.marking.tokens "a.P" "Red" = Count.ofNat 1 ∧ pulled.marking.tokens "a.P" "Red" = Count.zero := by
  have hrun : (LiveNet.ofTree Registry.empty 0 dyed).2.map (fun live =>
      decide (live.marking = live.net.initial) &&
        ((live.net.candidates live.marking).toOption.any fun found => decide ("T" ∈ found)) &&
        (live.net.fire live.marking "T").toOption.any fun m =>
          let fired := { live with marking := m }
          (fired.push dyed).2.toOption.isSome && decide (m.tokens "a.P" "Red" = Count.ofNat 1) &&
            (fired.pull (fired.push dyed).1).toOption.any fun pulled =>
              decide (pulled.marking.tokens "a.P" "Red" = Count.zero)) = .ok true := by
    decide +kernel
  obtain ⟨live, hlive, houtcome⟩ := map_eq_ok.1 hrun
  simp only [Bool.and_eq_true, decide_eq_true_eq, Option.any_eq_true, toOption_eq_some,
    Option.isSome_iff_exists] at houtcome
  obtain ⟨⟨hstart, found, hfound, hmay⟩, m, hfire, ⟨⟨_, hpush⟩, hred⟩, pulled, hpull, hgone⟩ := houtcome
  exact ⟨live, { live with marking := m }, pulled, _, hlive, hstart, rfl, ⟨⟨found, hfound, hmay⟩, hfire⟩,
    Prod.ext rfl hpush, hpull, hred, hgone⟩

/-- Nothing is refused, but the place below does not reflect the red token, so that something is lost. -/
theorem pull_of_push_dyed : ∃ (live : LiveNet) (after : IncludeTree), FlatNet.ofTree dyed = .ok live.net ∧
    live.net.Fired live.net.initial live.marking ∧ live.push dyed = (after, .ok ()) ∧
    (∃ pulled, live.pull after = .ok pulled) ∧ live.pull after ≠ .ok live := by
  have hrun : (LiveNet.ofTree Registry.empty 0 dyed).2.map (fun live =>
      decide (live.net.bindings.primary "a.P" = some ⟨⟨1⟩, "P"⟩) && live.net.colors.contains "Red" &&
        (live.net.fire live.net.initial "T").toOption.any fun m =>
          ({ live with marking := m }.push dyed).2.toOption.isSome &&
            decide (m.tokens "a.P" "Red" = Count.ofNat 1)) = .ok true := by
    decide +kernel
  have hkeys : (dyed.walk.all fun e => e.2.net.places.entries.all fun d => d.2.id == d.1) = true := by
    decide +kernel
  have hbelow : ((dyed.net? ⟨1⟩).map fun net => (net.colors.contains "Red", net.count? "P" "Red")) =
      some (false, some Count.zero) := by decide +kernel
  obtain ⟨live, hlive, houtcome⟩ := map_eq_ok.1 hrun
  simp only [Bool.and_eq_true, decide_eq_true_eq, Option.any_eq_true, toOption_eq_some,
    Option.isSome_iff_exists] at houtcome
  obtain ⟨⟨hprimary, hcolor⟩, m, hfire, ⟨_, hpush⟩, hred⟩ := houtcome
  have hnet : FlatNet.ofTree dyed = .ok live.net := LiveNet.net_of_ofTree hlive
  have hfired : live.net.Fired live.net.initial m := .single ⟨"T", hfire⟩
  have hfiled : ∀ e ∈ dyed.walk, e.2.net.Filed := by
    intro e he key place hplace
    have hall := List.all_eq_true.1 (List.all_eq_true.1 hkeys e he) _ (Table.get?_eq_some_iff.1 hplace)
    exact eq_of_beq hall
  obtain ⟨hpulls, _, hexact⟩ :=
    pull_of_push { live with marking := m } hnet .refl hfired (Prod.ext rfl hpush)
  refine ⟨{ live with marking := m }, _, hnet, hfired, Prod.ext rfl hpush, hpulls hfiled, fun hpull => ?_⟩
  -- the place below held no red token before
  obtain ⟨owner, place, howner, hplace, hheld⟩ := hexact.1 hpull "a.P" ⟨⟨1⟩, "P"⟩ hprimary
  rw [howner, Option.map_some, Net.count?, hplace, Option.map_some, Option.some.injEq, Prod.mk.injEq,
    Option.some.injEq] at hbelow
  have hsame := hheld "Red" hcolor hbelow.1
  rw [hbelow.2, hred] at hsame
  exact absurd hsame (by decide)

end RoundTrip

end LiveNet

end PetriTree
