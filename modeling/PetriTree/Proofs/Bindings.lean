import PetriTree.Live.Sync
import PetriTree.Proofs.Sharing

/-!
# PetriTree — the sources of flat places

A flat net lists sources for its own places only. The first of a list is the place that was copied, those
merged into it follow, and no source is listed a second time, here or elsewhere. So whoever goes through
all lists meets every source once.

Main results:
* `Assembly.listed_of_joined` — a list of sources belongs to a place that is left;
* `FlatNet.sources_eq` — what the sources of a flat place are;
* `FlatNet.nodup_sources` — no source is listed twice.
-/

namespace PetriTree

open Assembly

/-- Redirecting leaves nothing listed for the old place and may start a list for the new one. -/
theorem Bindings.contains_redirect {b : Bindings} {old new flat : String}
    (h : (b.redirect old new).sources.contains flat = true) :
    flat = new ∨ flat ≠ old ∧ b.sources.contains flat = true := by
  unfold redirect at h
  split at h
  · rename_i hnone
    refine Or.inr ⟨?_, h⟩
    rintro rfl
    rw [Table.contains, hnone] at h
    cases h
  · rw [Table.contains_insert, Table.contains_erase, Bool.or_eq_true, Bool.and_eq_true, decide_eq_true_iff,
      decide_eq_true_iff] at h
    exact h.imp Eq.symm (And.imp_left Ne.symm)

/-- Of the flat ids, those that sources are listed for are places of the joined tree. -/
theorem Assembly.listed_of_joined {tree : IncludeTree} {a : Assembly} (h : joined tree = .ok a) :
    ∀ flat, a.bindings.sources.contains flat = true → a.places.contains flat = true := by
  rw [joined, bind_eq_ok] at h
  obtain ⟨a₀, ha₀, hrun⟩ := h
  have hcopied := copied_of_ofTree ha₀
  rw [hcopied.aways, List.foldlM_filterMap] at hrun
  -- that a home is not merged itself is known from what is left of the copies
  refine (foldlM_invariant (P := fun done a => Merged tree (placesOf tree.walk) a₀ done a ∧
    ∀ flat, a.bindings.sources.contains flat = true → a.places.contains flat = true) ?_
    ⟨Merged.nil hcopied, fun flat hflat => ?_⟩ hrun).2
  · rintro done l after a a' hps ⟨hmerged, hlisted⟩ hstep
    cases hhome : l.home? with
    | none =>
      simp only [Local.away?, hhome, Option.map_none] at hstep
      cases hstep
      exact ⟨hmerged.keep hhome, hlisted⟩
    | some home =>
      simp only [Local.away?, hhome, Option.map_some] at hstep
      refine ⟨hmerged.merge hcopied hps hhome hstep, fun flat hflat => ?_⟩
      obtain ⟨new, _, _, _, hnew, _, _, _, rfl⟩ := merge_eq_ok hstep
      obtain ⟨_, _, hcopy, hstays⟩ := hmerged.homeOf_target hhome hnew
      obtain ⟨_, place, _, _, hplace, _⟩ := homeOf_eq_some hnew
      have hl : l ∈ placesOf tree.walk := by rw [hps]; simp
      have hne := Merged.home_ne hcopied hl (by rw [hhome]; rfl) hcopy hstays
      rw [Table.contains_erase, Bool.and_eq_true, decide_eq_true_iff]
      rcases Bindings.contains_redirect hflat with rfl | ⟨hold, hbefore⟩
      · exact ⟨Ne.symm hne, by rw [Table.contains, hplace]; rfl⟩
      · exact ⟨Ne.symm hold, hlisted flat hbefore⟩
  -- the copies are listed one by one
  · rw [← Table.mem_names_iff, Table.names, hcopied.bindings.sources, List.map_map] at hflat
    obtain ⟨l, hl, rfl⟩ := List.mem_map.1 hflat
    rw [Table.contains, Function.comp, hcopied.get?_flat hl]
    rfl

namespace FlatNet

variable {tree : IncludeTree} {net : FlatNet}

/-- The sources of a flat place are the place it was copied from and those merged into it. -/
theorem sources_eq (h : FlatNet.ofTree tree = .ok net) {flat : String} {list : List SourcePlace}
    (hlist : (flat, list) ∈ net.bindings.sources.entries) :
    net.places.contains flat = true ∧ ∃ l ∈ placesOf tree.walk, l.flat = flat ∧ l.target? tree = none ∧
      list = l.source :: consumersOf tree (placesOf tree.walk) flat := by
  obtain ⟨a, ha, hnet⟩ := compiledFrom_of_ofTree h
  obtain ⟨a₀, hcopied, hmerged⟩ := merged_of_joined ha
  rw [hnet.bindings] at hlist
  have hfound := Table.get?_eq_some_iff.2 hlist
  have hplace := listed_of_joined ha flat (by rw [Table.contains, hfound]; rfl)
  refine ⟨by rw [hnet.places, hplace], ?_⟩
  -- a place that is left is a copy that was not merged
  rw [Table.contains, hmerged.get?_place] at hplace
  split at hplace
  · cases hplace
  · rename_i hkept
    obtain ⟨copy, hcopy⟩ := Option.isSome_iff_exists.1 hplace
    have hmem := Table.get?_eq_some_iff.1 hcopy
    rw [hcopied.places] at hmem
    obtain ⟨l, hl, heq⟩ := List.mem_map.1 hmem
    cases heq
    refine ⟨l, hl, rfl, ?_, ?_⟩
    · by_contra hne
      exact hkept (mem_map_old.2 ⟨l, hl, Option.isSome_iff_ne_none.2 hne, rfl⟩)
    · rw [hmerged.sources l hl hkept] at hfound
      exact (Option.some.inj hfound).symm

/-- A source that is listed is a place of a node, and it is bound to the place that it is listed for. -/
theorem exists_of_mem_sources (h : FlatNet.ofTree tree = .ok net) {flat : String} {list : List SourcePlace}
    (hlist : (flat, list) ∈ net.bindings.sources.entries) {source : SourcePlace} (hsource : source ∈ list) :
    (∃ l ∈ placesOf tree.walk, l.source = source) ∧ net.bindings.flatOf source = some flat := by
  obtain ⟨a, ha, hnet⟩ := compiledFrom_of_ofTree h
  obtain ⟨a₀, hcopied, hmerged⟩ := merged_of_joined ha
  obtain ⟨_, l, hl, rfl, htarget, rfl⟩ := sources_eq h hlist
  rw [hnet.bindings]
  rcases List.mem_cons.1 hsource with rfl | hconsumer
  · refine ⟨⟨l, hl, rfl⟩, ?_⟩
    rw [hmerged.flatOf l hl, if_neg]
    intro hold
    obtain ⟨k, hk, hsome, hflat⟩ := mem_map_old.1 hold
    cases hcopied.eq_of_flat_eq hk hl hflat
    rw [htarget] at hsome
    cases hsome
  · obtain ⟨k, hk, rfl⟩ := List.mem_map.1 hconsumer
    obtain ⟨hk, hto⟩ := List.mem_filter.1 hk
    have hto : k.target? tree = some l.flat := by simpa using hto
    refine ⟨⟨k, hk, rfl⟩, ?_⟩
    rw [hmerged.flatOf k hk, if_pos (mem_map_old.2 ⟨k, hk, by rw [hto]; rfl, rfl⟩), hto]

/-- No source is listed twice, neither for one flat place nor for two. -/
theorem nodup_sources (h : FlatNet.ofTree tree = .ok net) :
    ((LiveNet.sourcePairs net).map Prod.snd).Nodup := by
  obtain ⟨a, ha, hnet⟩ := compiledFrom_of_ofTree h
  obtain ⟨a₀, hcopied, _⟩ := merged_of_joined ha
  have hlists : (LiveNet.sourcePairs net).map Prod.snd =
      net.bindings.sources.entries.flatMap fun e => e.2 := by
    simp [LiveNet.sourcePairs, List.map_flatMap, Function.comp_def]
  rw [hlists, List.nodup_flatMap]
  constructor
  · rintro ⟨flat, list⟩ hlist
    obtain ⟨_, l, hl, rfl, htarget, rfl⟩ := sources_eq h hlist
    have hinj : ∀ k ∈ placesOf tree.walk, ∀ k' ∈ placesOf tree.walk, k.source = k'.source → k = k' :=
      fun k hk k' hk' => hcopied.eq_of_source_eq hk hk'
    refine List.nodup_cons.2 ⟨fun hmem => ?_, ?_⟩
    -- the home was not merged into itself
    · obtain ⟨k, hk, hsource⟩ := List.mem_map.1 hmem
      obtain ⟨hk, hto⟩ := List.mem_filter.1 hk
      rw [hinj k hk l hl hsource, htarget] at hto
      cases hto
    · refine List.Nodup.map_on (fun k hk k' hk' => ?_) (hcopied.nodup_flat.of_map _ |>.filter _)
      exact hinj k (List.mem_filter.1 hk).1 k' (List.mem_filter.1 hk').1
  -- a source is bound to one flat place
  · have hnames : net.bindings.sources.entries.Pairwise fun e d => e.1 ≠ d.1 :=
      List.pairwise_map.1 net.bindings.sources.nodup
    refine hnames.imp_of_mem fun {e d} he hd hne => ?_
    intro source hsource hother
    have hboth := (exists_of_mem_sources h he hsource).2.symm.trans (exists_of_mem_sources h hd hother).2
    exact hne (Option.some.inj hboth)

end FlatNet

end PetriTree
