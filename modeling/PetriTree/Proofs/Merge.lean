import PetriTree.Proofs.Assembly

/-!
# PetriTree — merging interface places

After all components are copied, every copy that stands for a place of another node is merged into its
home, one after the other. A home is never merged itself, so what was redirected stays where it is and
the order of the merges does not matter for where anything ends.

Main results:
* `Assembly.Redirect` — one merge as a renaming of a flat id, and what it does to a component;
* `Assembly.Merged` — the places, components and bindings after some of the merges;
* `Assembly.merged_of_joined` — joining a tree merges every place that waits for its home.
-/

namespace PetriTree

/-! ## Where a place ends -/

/-- The flat id that the home of a place is expected at; nothing for a place that stands for itself. -/
def Local.target? (tree : IncludeTree) (l : Local Place) : Option String :=
  l.home?.bind fun home => (tree.node? home.node).map fun node => qualify node.path home.place

/-- Redirecting a place that has a single source. -/
theorem Bindings.redirect_eq {b : Bindings} {old new : String} {source : SourcePlace}
    (h : b.sources.get? old = some [source]) :
    b.redirect old new = ⟨b.flats.insert source new,
      (b.sources.erase old).insert new ((((b.sources.erase old).get? new).getD []) ++ [source])⟩ := by
  simp only [Bindings.redirect, h, List.foldl_cons, List.foldl_nil]

namespace Assembly

/-- A flat place that is merged into another one. -/
structure Redirect where
  old : String
  new : String

namespace Redirect

/-- The id under which a place is found after the merge. -/
def rename (r : Redirect) : String → String := Table.renamed r.old r.new

/-- The text of an expression after the merge. -/
def text (r : Redirect) (component : String) : String → Except FlattenError String :=
  renameText component r.rename id

/-- An arc after the merge. -/
def arc (r : Redirect) (arc : Arc) : Except FlattenError Arc :=
  mapWeights (r.text arc.id) { arc with place := r.rename arc.place }

/-- A rate parameter after the merge. -/
def parameter (r : Redirect) (p : RateParameter) : Except FlattenError RateParameter := do
  return { p with expression := ← r.text p.id p.expression }

/-- A transition after the merge. -/
def transition (r : Redirect) (t : Transition) : Except FlattenError Transition := do
  return { t with rate := ← mapRate (r.text t.id) t.rate }

/-- A merge changes the place of an arc and the texts of its weights. -/
theorem arc_eq_ok {r : Redirect} {a a' : Arc} (h : r.arc a = .ok a') :
    ∃ weights, a.weights.mapExcept (fun _ => r.text a.id) = .ok weights ∧
      a' = { a with place := r.rename a.place, weights := weights } := by
  rw [arc, mapWeights, bind_eq_ok] at h
  obtain ⟨weights, hweights, h⟩ := h
  cases h
  exact ⟨weights, hweights, rfl⟩

end Redirect

/-- The redirections of the places that are merged, in order. -/
def redirectsOf (tree : IncludeTree) (ps : List (Local Place)) : List Redirect :=
  ps.filterMap fun l => (l.target? tree).map fun new => ⟨l.flat, new⟩

/-- The sources that are redirected to a flat place, in order. -/
def consumersOf (tree : IncludeTree) (ps : List (Local Place)) (flat : String) : List SourcePlace :=
  (ps.filter fun l => l.target? tree == some flat).map Local.source

theorem merge_eq_ok {tree : IncludeTree} {a a' : Assembly} {away : AwayPlace}
    (h : merge tree a away = .ok a') :
    ∃ home arcs parameters transitions, a.homeOf tree away.home = some home ∧
      a.arcs.mapExcept (fun _ => Redirect.arc ⟨away.flatId, home⟩) = .ok arcs ∧
      a.parameters.mapExcept (fun _ => Redirect.parameter ⟨away.flatId, home⟩) = .ok parameters ∧
      a.transitions.mapExcept (fun _ => Redirect.transition ⟨away.flatId, home⟩) = .ok transitions ∧
      a' = { a with
        arcs := arcs
        parameters := parameters
        transitions := transitions
        places := a.places.erase away.flatId
        bindings := a.bindings.redirect away.flatId home } := by
  unfold merge at h
  split at h
  · cases h
  · rename_i home hhome
    simp only [bind_eq_ok] at h
    obtain ⟨arcs, harcs, parameters, hparameters, transitions, htransitions, h⟩ := h
    cases h
    exact ⟨home, arcs, parameters, transitions, hhome, harcs, hparameters, htransitions, rfl⟩

theorem homeOf_eq_some {tree : IncludeTree} {a : Assembly} {home : HomeRef} {flat : String}
    (h : a.homeOf tree home = some flat) :
    ∃ node place, tree.node? home.node = some node ∧ flat = qualify node.path home.place ∧
      a.places.get? flat = some place ∧ place.status.merge = .home := by
  simp only [homeOf, Option.bind_eq_bind, Option.bind_eq_some_iff] at h
  obtain ⟨node, hnode, place, hplace, h⟩ := h
  split at h
  · rename_i hmerge
    cases h
    exact ⟨node, place, hnode, rfl, hplace, hmerge⟩
  · cases h

/-! ## After some of the merges -/

/-- What is left of the copies `a₀` of all components once the places of `done` that wait for a home
are merged into it. `ps` are all places. -/
structure Merged (tree : IncludeTree) (ps : List (Local Place)) (a₀ : Assembly) (done : List (Local Place))
    (a : Assembly) : Prop where
  homes : ∀ l ∈ done, l.home?.isSome → ∃ flat place, l.target? tree = some flat ∧
    a₀.places.get? flat = some place ∧ place.status.merge = .home
  places : a.places.entries = a₀.places.entries.filter fun e =>
    !((redirectsOf tree done).map Redirect.old).contains e.1
  parameters : List.Forall₂ (fun e d => d.1 = e.1 ∧
    (redirectsOf tree done).foldlM (fun p r => r.parameter p) e.2 = .ok d.2)
    a₀.parameters.entries a.parameters.entries
  transitions : List.Forall₂ (fun e d => d.1 = e.1 ∧
    (redirectsOf tree done).foldlM (fun t r => r.transition t) e.2 = .ok d.2)
    a₀.transitions.entries a.transitions.entries
  arcs : List.Forall₂ (fun e d => d.1 = e.1 ∧
    (redirectsOf tree done).foldlM (fun arc r => r.arc arc) e.2 = .ok d.2)
    a₀.arcs.entries a.arcs.entries
  /-- A place that is left has its own source first and then those redirected to it. -/
  sources : ∀ l ∈ ps, l.flat ∉ (redirectsOf tree done).map Redirect.old →
    a.bindings.sources.get? l.flat = some (l.source :: consumersOf tree done l.flat)
  flatOf : ∀ l ∈ ps, a.bindings.flatOf l.source =
    if l.flat ∈ (redirectsOf tree done).map Redirect.old then l.target? tree else some l.flat

variable {tree : IncludeTree} {ps : List (Local Place)} {rs : List (Local RateParameter)}
  {ts : List (Local Transition)} {as : List (Local Arc)} {a₀ : Assembly}

theorem redirectsOf_snoc (tree : IncludeTree) (done : List (Local Place)) (l : Local Place) :
    redirectsOf tree (done ++ [l]) = redirectsOf tree done ++
      ((l.target? tree).map fun new => ⟨l.flat, new⟩).toList := by
  rw [redirectsOf, List.filterMap_append]
  cases h : l.target? tree <;> simp [redirectsOf, h]

theorem redirectsOf_snoc_none {done : List (Local Place)} {l : Local Place} (h : l.target? tree = none) :
    redirectsOf tree (done ++ [l]) = redirectsOf tree done := by
  rw [redirectsOf_snoc, h]
  exact List.append_nil _

theorem redirectsOf_snoc_some {done : List (Local Place)} {l : Local Place} {new : String}
    (h : l.target? tree = some new) :
    redirectsOf tree (done ++ [l]) = redirectsOf tree done ++ [⟨l.flat, new⟩] := by
  rw [redirectsOf_snoc, h]
  rfl

/-- One more id is merged. -/
theorem mem_old_snoc {done : List (Local Place)} {l : Local Place} {new flat : String}
    (h : l.target? tree = some new) :
    flat ∈ (redirectsOf tree (done ++ [l])).map Redirect.old ↔
      flat ∈ (redirectsOf tree done).map Redirect.old ∨ flat = l.flat := by
  rw [redirectsOf_snoc_some h, List.map_append, List.mem_append]
  exact or_congr_right List.mem_singleton

theorem consumersOf_snoc (tree : IncludeTree) (done : List (Local Place)) (l : Local Place) (flat : String) :
    consumersOf tree (done ++ [l]) flat =
      consumersOf tree done flat ++ if l.target? tree = some flat then [l.source] else [] := by
  rw [consumersOf, List.filter_append, List.map_append]
  by_cases h : l.target? tree = some flat <;> simp [consumersOf, h]

theorem target?_eq_none {l : Local Place} (h : l.home? = none) : l.target? tree = none := by
  rw [Local.target?, h]
  rfl

/-- The ids that are merged are those of places that wait for a home. -/
theorem mem_map_old {done : List (Local Place)} {flat : String} :
    flat ∈ (redirectsOf tree done).map Redirect.old ↔
      ∃ l ∈ done, (l.target? tree).isSome ∧ l.flat = flat := by
  simp only [redirectsOf, List.mem_map, List.mem_filterMap, Option.map_eq_some_iff]
  constructor
  · rintro ⟨r, ⟨l, hl, new, hnew, rfl⟩, rfl⟩
    exact ⟨l, hl, by rw [hnew]; rfl, rfl⟩
  · rintro ⟨l, hl, hsome, rfl⟩
    obtain ⟨new, hnew⟩ := Option.isSome_iff_exists.1 hsome
    exact ⟨_, ⟨l, hl, new, hnew, rfl⟩, rfl⟩

/-- Every flat id is merged once at most: the places to come are not merged yet. -/
theorem flat_notMem_old (h : Copied tree ps rs ts as a₀) {done after : List (Local Place)}
    {l : Local Place} (hps : ps = done ++ l :: after) :
    l.flat ∉ (redirectsOf tree done).map Redirect.old := by
  intro hmem
  obtain ⟨k, hk, _, hflat⟩ := mem_map_old.1 hmem
  -- the flat id would stand in the list twice
  have hnodup := h.nodup_flat
  rw [hps, List.map_append, List.nodup_append] at hnodup
  exact hnodup.2.2 _ (List.mem_map_of_mem hk) _ (by simp) hflat

theorem Merged.nil (h : Copied tree ps rs ts as a₀) : Merged tree ps a₀ [] a₀ where
  homes := by simp
  places := by simp [redirectsOf]
  parameters := List.forall₂_same.2 fun _ _ => ⟨rfl, rfl⟩
  transitions := List.forall₂_same.2 fun _ _ => ⟨rfl, rfl⟩
  arcs := List.forall₂_same.2 fun _ _ => ⟨rfl, rfl⟩
  sources l hl _ := by
    rw [Table.get?_eq_some_iff, h.bindings.sources]
    exact List.mem_map.2 ⟨l, hl, rfl⟩
  flatOf l hl := by
    rw [h.bindings.flatOf l hl]
    simp [redirectsOf]

namespace Merged

variable {done : List (Local Place)} {a a' : Assembly}

/-- A place that stands for itself is passed over. -/
theorem keep (h : Merged tree ps a₀ done a) {l : Local Place} (hl : l.home? = none) :
    Merged tree ps a₀ (done ++ [l]) a := by
  have htarget : l.target? tree = none := target?_eq_none hl
  have hredirects : redirectsOf tree (done ++ [l]) = redirectsOf tree done :=
    redirectsOf_snoc_none htarget
  have hconsumers : ∀ flat, consumersOf tree (done ++ [l]) flat = consumersOf tree done flat := by
    intro flat
    rw [consumersOf_snoc, htarget]
    simp
  refine ⟨fun k hk hhome => ?_, ?_, ?_, ?_, ?_, ?_, ?_⟩
  · rcases List.mem_append.1 hk with hk | hk
    · exact h.homes k hk hhome
    · cases List.mem_singleton.1 hk
      rw [hl] at hhome
      cases hhome
  · rw [hredirects]
    exact h.places
  · rw [hredirects]
    exact h.parameters
  · rw [hredirects]
    exact h.transitions
  · rw [hredirects]
    exact h.arcs
  · intro k hk hold
    rw [hconsumers]
    exact h.sources k hk (hredirects ▸ hold)
  · rw [hredirects]
    exact h.flatOf

/-- A home does not wait for a home itself. -/
theorem home_ne (hcopied : Copied tree ps rs ts as a₀) {l : Local Place} (hl : l ∈ ps)
    (hhome : l.home?.isSome) {new : String} {place : Place} (hplace : a₀.places.get? new = some place)
    (hmerge : place.status.merge = .home) : new ≠ l.flat := by
  rintro rfl
  rw [hcopied.get?_flat hl] at hplace
  cases hplace
  rw [Local.merge_copy hhome] at hmerge
  cases hmerge

/-- No place was redirected to one that waits for a home itself. -/
theorem target?_ne (h : Merged tree ps a₀ done a) (hcopied : Copied tree ps rs ts as a₀)
    {k l : Local Place} (hk : k ∈ done) (hl : l ∈ ps) (hhome : l.home?.isSome) :
    k.target? tree ≠ some l.flat := by
  intro htarget
  have hk' : k.home?.isSome := by
    cases hkhome : k.home? with
    | none => rw [target?_eq_none hkhome] at htarget; cases htarget
    | some home => rfl
  obtain ⟨flat, place, hflat, hplace, hmerge⟩ := h.homes k hk hk'
  rw [htarget] at hflat
  cases hflat
  exact home_ne hcopied hl hhome hplace hmerge rfl

/-- The home is looked up among the copies, whatever was merged before. -/
theorem homeOf_target (h : Merged tree ps a₀ done a) {l : Local Place} {home : HomeRef} {flat : String}
    (hhome : l.home? = some home) (hfound : a.homeOf tree home = some flat) :
    l.target? tree = some flat ∧ ∃ place, a₀.places.get? flat = some place ∧ place.status.merge = .home := by
  obtain ⟨node, place, hnode, rfl, hplace, hmerge⟩ := homeOf_eq_some hfound
  refine ⟨?_, place, ?_, hmerge⟩
  · rw [Local.target?, hhome, Option.bind_some, hnode]
    rfl
  · rw [Table.get?_eq_some_iff, h.places] at hplace
    exact Table.get?_eq_some_iff.2 (List.mem_filter.1 hplace).1

/-- Nothing was redirected to a place that waits for a home, so it has its own source only. -/
theorem own_source (h : Merged tree ps a₀ done a) (hcopied : Copied tree ps rs ts as a₀)
    {l : Local Place} {after : List (Local Place)} (hps : ps = done ++ l :: after)
    (hhome : l.home?.isSome) : a.bindings.sources.get? l.flat = some [l.source] := by
  have hl : l ∈ ps := by
    rw [hps]
    exact List.mem_append_right _ (List.mem_cons_self ..)
  have hnone : consumersOf tree done l.flat = [] := by
    simp only [consumersOf, List.map_eq_nil_iff, List.filter_eq_nil_iff]
    intro k hk
    have hne := h.target?_ne hcopied hk hl hhome
    simpa using hne
  rw [h.sources l hl (flat_notMem_old hcopied hps), hnone]

section Step

variable {l : Local Place} {new : String}

/-- The source of the merged place comes last among those of its home; all others keep theirs. -/
theorem sources_redirect (h : Merged tree ps a₀ done a) (htarget : l.target? tree = some new)
    (hne : new ≠ l.flat) (hown : a.bindings.sources.get? l.flat = some [l.source]) {k : Local Place}
    (hk : k ∈ ps) (hold : k.flat ∉ (redirectsOf tree (done ++ [l])).map Redirect.old) :
    (a.bindings.redirect l.flat new).sources.get? k.flat =
      some (k.source :: consumersOf tree (done ++ [l]) k.flat) := by
  rw [mem_old_snoc htarget, not_or] at hold
  have hsources := h.sources k hk hold.1
  simp only [Bindings.redirect_eq hown, Table.get?_insert, Table.get?_erase, consumersOf_snoc,
    htarget, Option.some.injEq]
  rw [if_neg (Ne.symm hne), hsources]
  by_cases hnew : new = k.flat
  -- the home gets one more source
  · rw [if_pos hnew, if_pos hnew, hnew, hsources]
    rfl
  · rw [if_neg hnew, if_neg (Ne.symm hold.2), if_neg hnew, List.append_nil]

/-- The source of the merged place leads to its home, all others lead where they did. -/
theorem flatOf_redirect (h : Merged tree ps a₀ done a) (hcopied : Copied tree ps rs ts as a₀)
    (hl : l ∈ ps) (htarget : l.target? tree = some new)
    (hown : a.bindings.sources.get? l.flat = some [l.source]) {k : Local Place} (hk : k ∈ ps) :
    (a.bindings.redirect l.flat new).flatOf k.source =
      if k.flat ∈ (redirectsOf tree (done ++ [l])).map Redirect.old then k.target? tree
      else some k.flat := by
  rw [Bindings.redirect_eq hown]
  simp only [Bindings.flatOf, SortedMap.get?_insert, Std.LawfulEqCmp.compare_eq_iff_eq]
  by_cases hsource : k.source = l.source
  · cases hcopied.eq_of_source_eq hk hl hsource
    rw [if_pos rfl, if_pos ((mem_old_snoc htarget).2 (Or.inr rfl)), htarget]
  · have hflat : k.flat ≠ l.flat := fun heq => hsource (hcopied.eq_of_flat_eq hk hl heq ▸ rfl)
    have hiff : k.flat ∈ (redirectsOf tree (done ++ [l])).map Redirect.old ↔
        k.flat ∈ (redirectsOf tree done).map Redirect.old := by
      rw [mem_old_snoc htarget]
      exact or_iff_left hflat
    rw [if_neg hsource]
    simp only [hiff]
    exact h.flatOf k hk

end Step

/-- A place that waits is merged into its home. -/
theorem merge (h : Merged tree ps a₀ done a) (hcopied : Copied tree ps rs ts as a₀) {l : Local Place}
    {after : List (Local Place)} {home : HomeRef} (hps : ps = done ++ l :: after)
    (hhome : l.home? = some home)
    (hstep : Assembly.merge tree a ⟨l.flat, l.owner.qualifiedName, home⟩ = .ok a') :
    Merged tree ps a₀ (done ++ [l]) a' := by
  obtain ⟨new, arcs, parameters, transitions, hnew, harcs, hparameters, htransitions, rfl⟩ :=
    merge_eq_ok hstep
  obtain ⟨htarget, place, hplace, hmerge⟩ := h.homeOf_target hhome hnew
  have hsome : l.home?.isSome := by rw [hhome]; rfl
  have hl : l ∈ ps := by rw [hps]; simp
  have hne := home_ne hcopied hl hsome hplace hmerge
  have hown := h.own_source hcopied hps hsome
  have hredirects : redirectsOf tree (done ++ [l]) = redirectsOf tree done ++ [⟨l.flat, new⟩] :=
    redirectsOf_snoc_some htarget
  refine ⟨?_, ?_, ?_, ?_, ?_, fun k hk => h.sources_redirect htarget hne hown hk,
    fun k hk => h.flatOf_redirect hcopied hl htarget hown hk⟩
  · intro k hk hkhome
    rcases List.mem_append.1 hk with hk | hk
    · exact h.homes k hk hkhome
    · cases List.mem_singleton.1 hk
      exact ⟨new, place, htarget, hplace, hmerge⟩
  -- erasing after erasing is erasing both
  · simp only [Table.erase, Table.filter, h.places, List.filter_filter]
    refine List.filter_congr fun e _ => ?_
    rw [hredirects, List.map_append, Bool.eq_iff_iff]
    simp [not_or, and_comm]
  · rw [hredirects]
    exact forall₂_foldlM_snoc h.parameters (Table.mapExcept_eq_ok.1 hparameters)
  · rw [hredirects]
    exact forall₂_foldlM_snoc h.transitions (Table.mapExcept_eq_ok.1 htransitions)
  · rw [hredirects]
    exact forall₂_foldlM_snoc h.arcs (Table.mapExcept_eq_ok.1 harcs)

/-- Of the copies those are left that were not merged. -/
theorem get?_place (h : Merged tree ps a₀ done a) (flat : String) :
    a.places.get? flat =
      if flat ∈ (redirectsOf tree done).map Redirect.old then none else a₀.places.get? flat := by
  have hfilter := Table.lookup_filter flat
    (fun key _ => !((redirectsOf tree done).map Redirect.old).contains key) a₀.places.nodup
  rw [Table.get?, h.places, hfilter, Table.get?]
  split
  · rename_i hold
    simp [hold]
  · rename_i hold
    cases Table.lookup flat a₀.places.entries <;> simp [hold]

theorem contains_of_contains (h : Merged tree ps a₀ done a) {flat : String} (hplace : a.places.contains flat = true) :
    a₀.places.contains flat = true := by
  rw [Table.contains, h.get?_place] at hplace
  split at hplace
  · cases hplace
  · exact hplace

/-- Merging keeps the transitions. -/
theorem contains_transition (h : Merged tree ps a₀ done a) (id : String) :
    a.transitions.contains id = a₀.transitions.contains id := by
  rw [Bool.eq_iff_iff, ← Table.mem_names_iff, ← Table.mem_names_iff, Table.names, Table.names,
    names_of_forall₂ h.transitions]

end Merged

/-- Joining a tree merges every place that waits for its home, and nothing else. -/
theorem merged_of_joined {a : Assembly} (h : joined tree = .ok a) :
    ∃ a₀, Copied tree (placesOf tree.walk) (parametersOf tree.walk) (transitionsOf tree.walk)
        (arcsOf tree.walk) a₀ ∧
      Merged tree (placesOf tree.walk) a₀ (placesOf tree.walk) a := by
  rw [joined, bind_eq_ok] at h
  obtain ⟨a₀, ha₀, hrun⟩ := h
  have hcopied := copied_of_ofTree ha₀
  refine ⟨a₀, hcopied, ?_⟩
  -- the places without a home were not noted, but the invariant runs over all places
  rw [hcopied.aways, List.foldlM_filterMap] at hrun
  refine foldlM_invariant (P := fun done a => Merged tree (placesOf tree.walk) a₀ done a) ?_
    (Merged.nil hcopied) hrun
  intro done l after a a' hps hmerged hstep
  cases hhome : l.home? with
  | none =>
    simp only [Local.away?, hhome, Option.map_none] at hstep
    cases hstep
    exact hmerged.keep hhome
  | some home =>
    simp only [Local.away?, hhome, Option.map_some] at hstep
    exact hmerged.merge hcopied hps hhome hstep

/-! ## Ids of components -/

theorem Redirect.parameter_id {r : Redirect} {p p' : RateParameter} (h : r.parameter p = .ok p') :
    p'.id = p.id := by
  rw [Redirect.parameter, bind_eq_ok] at h
  obtain ⟨expression, _, h⟩ := h
  cases h
  rfl

theorem Redirect.transition_id {r : Redirect} {t t' : Transition} (h : r.transition t = .ok t') :
    t'.id = t.id := by
  rw [Redirect.transition, bind_eq_ok] at h
  obtain ⟨rate, _, h⟩ := h
  cases h
  rfl

/-- A transition of the joined tree is filed under its id. -/
theorem transition_id_of_joined {a : Assembly} (h : joined tree = .ok a) :
    ∀ e ∈ a.transitions.entries, e.2.id = e.1 := by
  intro e he
  obtain ⟨a₀, hcopied, hmerged⟩ := merged_of_joined h
  obtain ⟨e₀, he₀, hkey, hrun⟩ := exists_left_of_forall₂ hmerged.transitions he
  obtain ⟨l, _, _, rate, _, hcopy⟩ := exists_left_of_forall₂ hcopied.transitions he₀
  -- the copy was filed under its id, and merging changes no id
  have hid : e₀.2.id = e₀.1 := by rw [hcopy]
  rw [hkey, ← hid]
  exact foldlM_invariant (P := fun _ t => t.id = e₀.2.id)
    (fun _ _ _ _ _ _ ht hstep => (Redirect.transition_id hstep).trans ht) rfl hrun

/-- A rate parameter of the joined tree is filed under its id. -/
theorem parameter_id_of_joined {a : Assembly} (h : joined tree = .ok a) :
    ∀ e ∈ a.parameters.entries, e.2.id = e.1 := by
  intro e he
  obtain ⟨a₀, hcopied, hmerged⟩ := merged_of_joined h
  obtain ⟨e₀, he₀, hkey, hrun⟩ := exists_left_of_forall₂ hmerged.parameters he
  obtain ⟨l, _, _, hid, _⟩ := exists_left_of_forall₂ hcopied.parameters he₀
  rw [hkey, ← hid]
  exact foldlM_invariant (P := fun _ p => p.id = e₀.2.id)
    (fun _ _ _ _ _ _ hp hstep => (Redirect.parameter_id hstep).trans hp) rfl hrun

/-- A place of the joined tree is filed under its id. -/
theorem place_id_of_joined {a : Assembly} (h : joined tree = .ok a) :
    ∀ e ∈ a.places.entries, e.2.id = e.1 := by
  intro e he
  obtain ⟨a₀, hcopied, hmerged⟩ := merged_of_joined h
  rw [hmerged.places, List.mem_filter, hcopied.places] at he
  obtain ⟨l, _, rfl⟩ := List.mem_map.1 he.1
  rfl

end Assembly

end PetriTree
