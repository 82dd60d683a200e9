import PetriTree.Flat.Bindings
import PetriTree.Proofs.Keys

/-!
# PetriTree — bindings go both ways

A source is asked for its flat place, and a flat place for its sources. Both answers are kept, and every command changes
both by hand: a source that is bound anew leaves the list it was in, and a list that is redirected takes the answers of
all its sources along. Were one of the two forgotten, tokens would be written to one place and read from another.

The lists have an order as well, for the first source of a flat place is the one it starts from. A list that is joined to
another goes to its end, so whoever was first stays first.

Main results:
* `Bindings.sourcesOf_bind`, `Bindings.sourcesOf_redirect`, `Bindings.flatOf_redirect` — what a command does to either answer;
* `Bindings.TwoWay` — the answers fit together, and no source is listed twice;
* `TwoWay.perform`, `TwoWay.performAll` — every command keeps them so;
* `Bindings.consistent_performAll` — how often a source is listed, how many there are, and what redirecting does.
-/

namespace PetriTree.Bindings

variable {b : Bindings}

/-! ## What a command does to either answer -/

theorem flatOf_bind (b : Bindings) (source : SourcePlace) (flat : String) (other : SourcePlace) :
    (b.bind source flat).flatOf other = if other = source then some flat else b.flatOf other := by
  simp only [bind, flatOf, SortedMap.get?_insert, Std.LawfulEqCmp.compare_eq_iff_eq]

/-- The source leaves the list it was in and goes to the end of the new one, which may be the same. -/
theorem sourcesOf_bind (b : Bindings) (source : SourcePlace) (flat key : String) :
    (b.bind source flat).sourcesOf key =
      (if b.flatOf source = some key then (b.sourcesOf key).filter (· != source) else b.sourcesOf key) ++
        if key = flat then [source] else [] := by
  -- what is left of each list once the source is gone
  have hleft : ∀ previous, ((b.sources.modify previous fun list => list.filter (· != source)).get? key).getD [] =
      if previous = key then (b.sourcesOf key).filter (· != source) else b.sourcesOf key := by
    intro previous
    rw [Table.get?_modify, sourcesOf]
    by_cases hkey : previous = key
    · cases b.sources.get? key <;> simp [hkey]
    · simp [hkey]
  have hjoined : ∀ sources : Table (List SourcePlace),
      ((sources.insert flat (((sources.get? flat).getD []) ++ [source])).get? key).getD [] =
        (sources.get? key).getD [] ++ if key = flat then [source] else [] := by
    intro sources
    rw [Table.get?_insert]
    by_cases hkey : key = flat
    · simp [hkey]
    · simp [hkey, Ne.symm hkey]
  unfold bind sourcesOf
  cases b.flatOf source with
  | none => exact hjoined b.sources
  | some previous =>
    refine (hjoined _).trans ?_
    rw [hleft]
    simp only [Option.some.injEq, sourcesOf]

/-- A list that is redirected leaves its place and goes to the end of the list that is there, if the two differ. -/
theorem sourcesOf_redirect (b : Bindings) (old new key : String) :
    (b.redirect old new).sourcesOf key =
      (if key = old then [] else b.sourcesOf key) ++ if key = new then b.sourcesOf old else [] := by
  unfold redirect
  split
  · -- nothing is listed for the old place, so nothing leaves it
    rename_i hnone
    have hempty : b.sourcesOf old = [] := by rw [sourcesOf, hnone]; rfl
    by_cases hkey : key = old
    · simp [hkey, hempty]
    · simp [hkey, hempty]
  · rename_i moved hmoved
    simp only [sourcesOf, Table.get?_insert, Table.get?_erase, hmoved, Option.getD_some]
    by_cases hnew : key = new
    · subst hnew
      by_cases hold : old = key
      · simp [hold]
      · simp [hold, Ne.symm hold]
    · by_cases hold : old = key
      · simp [hold, hnew, Ne.symm hnew]
      · simp [hnew, Ne.symm hnew, hold, Ne.symm hold]

/-- Several sources bound to one flat place, one after the other. -/
theorem get?_foldl_insert (new : String) (source : SourcePlace) (moved : List SourcePlace)
    (flats : SortedMap SourcePlace String) :
    (moved.foldl (fun flats source => flats.insert source new) flats).get? source =
      if source ∈ moved then some new else flats.get? source := by
  induction moved generalizing flats with
  | nil => simp
  | cons first rest ih =>
    rw [List.foldl_cons, ih, SortedMap.get?_insert]
    by_cases hfirst : source = first <;> by_cases hrest : source ∈ rest <;> simp [hfirst, hrest]

/-- The sources that are listed for the old place are bound to the new one. -/
theorem flatOf_redirect (b : Bindings) (old new : String) (source : SourcePlace) :
    (b.redirect old new).flatOf source = if source ∈ b.sourcesOf old then some new else b.flatOf source := by
  unfold redirect
  split
  · rename_i hnone
    rw [sourcesOf, hnone]
    simp
  · rename_i moved hmoved
    rw [sourcesOf, hmoved]
    exact get?_foldl_insert new source moved b.flats

/-! ## Both answers -/

/-- Is a source listed for just the flat place that it is bound to, and in no list twice? -/
structure TwoWay (b : Bindings) : Prop where
  mem_sources : ∀ {source flat}, source ∈ b.sourcesOf flat ↔ b.flatOf source = some flat
  nodup : ∀ flat, (b.sourcesOf flat).Nodup

theorem twoWay_empty : empty.TwoWay where
  mem_sources := by
    intro source flat
    refine iff_of_false List.not_mem_nil ?_
    intro h
    cases h
  nodup _ := List.nodup_nil

theorem TwoWay.bind (h : b.TwoWay) (source : SourcePlace) (flat : String) : (b.bind source flat).TwoWay := by
  -- once the source has left its old list, it is in none
  have hleft : ∀ key other, (other ∈ if b.flatOf source = some key then (b.sourcesOf key).filter (· != source)
      else b.sourcesOf key) ↔ other ≠ source ∧ b.flatOf other = some key := by
    intro key other
    split
    · rw [List.mem_filter, bne_iff_ne, and_comm, h.mem_sources]
    · rename_i helsewhere
      rw [h.mem_sources]
      refine ⟨fun hflat => ⟨?_, hflat⟩, And.right⟩
      rintro rfl
      exact helsewhere hflat
  refine ⟨fun {other key} => ?_, fun key => ?_⟩
  · rw [sourcesOf_bind, flatOf_bind, List.mem_append, hleft]
    by_cases hother : other = source
    · by_cases hkey : key = flat
      · simp [hother, hkey]
      · simp [hother, hkey, Ne.symm hkey]
    · by_cases hkey : key = flat <;> simp [hother, hkey]
  · rw [sourcesOf_bind, List.nodup_append']
    refine ⟨?_, ?_, ?_⟩
    · split
      · exact (h.nodup key).filter _
      · exact h.nodup key
    · split
      · exact List.nodup_singleton source
      · exact List.nodup_nil
    · intro other hbefore hnew
      have hother : other = source := by
        split at hnew
        · exact List.mem_singleton.1 hnew
        · cases hnew
      exact ((hleft key other).1 hbefore).1 hother

theorem TwoWay.redirect (h : b.TwoWay) (old new : String) : (b.redirect old new).TwoWay := by
  refine ⟨fun {source key} => ?_, fun key => ?_⟩
  · rw [sourcesOf_redirect, flatOf_redirect, List.mem_append]
    simp only [h.mem_sources]
    by_cases hmoved : b.flatOf source = some old
    · -- it is listed for the old place and for no other one
      have hold : ∀ key, source ∈ (if key = old then [] else b.sourcesOf key) ↔ False := by
        intro key
        split
        · simp
        · rename_i hkey
          rw [h.mem_sources, hmoved]
          simp [Ne.symm hkey]
      rw [if_pos hmoved, hold]
      by_cases hkey : key = new
      · simp [hkey, h.mem_sources, hmoved]
      · simp [hkey, Ne.symm hkey]
    · have hnew : ∀ key, source ∈ (if key = new then b.sourcesOf old else []) ↔ False := by
        intro key
        split
        · simp [h.mem_sources, hmoved]
        · simp
      rw [if_neg hmoved, hnew]
      by_cases hkey : key = old
      · simp [hkey, hmoved]
      · simp [hkey, h.mem_sources]
  · rw [sourcesOf_redirect, List.nodup_append']
    refine ⟨?_, ?_, ?_⟩
    · split
      · exact List.nodup_nil
      · exact h.nodup key
    · split
      · exact h.nodup old
      · exact List.nodup_nil
    · intro source hbefore hmoved
      split at hbefore
      · cases hbefore
      · rename_i hkey
        split at hmoved
        · -- no source is bound to two flat places
          rw [h.mem_sources] at hbefore hmoved
          exact hkey (Option.some.inj (hbefore.symm.trans hmoved))
        · cases hmoved

theorem TwoWay.perform (h : b.TwoWay) : ∀ command, (b.perform command).TwoWay
  | .bind source flat => h.bind source flat
  | .redirect old new => h.redirect old new

theorem TwoWay.performAll (h : b.TwoWay) (commands : List BindingCommand) : (b.performAll commands).TwoWay := by
  induction commands generalizing b with
  | nil => exact h
  | cons command rest ih => exact ih (h.perform command)

/-- A source is listed once for the flat place that it is bound to, and for no other one. -/
theorem TwoWay.count_sourcesOf (h : b.TwoWay) (source : SourcePlace) (flat : String) :
    (b.sourcesOf flat).count source = if b.flatOf source = some flat then 1 else 0 := by
  rw [(h.nodup flat).count]
  exact if_congr h.mem_sources rfl rfl

/-- As many sources are bound as the size says. -/
theorem encard_bound (b : Bindings) : {source | ∃ flat, b.flatOf source = some flat}.encard = b.size := by
  rw [size, ← SortedMap.encard_keys]
  congr 1
  ext source
  exact Option.isSome_iff_exists.symm

/-- Whatever was bound and redirected, the two answers fit together: a source is listed once for the flat place that it
is bound to and nowhere else, and the size is the number of sources that are bound. Redirecting leaves the list that is
there as it is, with the same source first, and the list that comes goes to its end in its order; nothing else changes.
Nothing at all changes in either answer if a list is redirected to its own place, or is empty. -/
theorem consistent_performAll (commands : List BindingCommand) :
    let b := empty.performAll commands
    (∀ source flat, (b.sourcesOf flat).count source = if b.flatOf source = some flat then 1 else 0) ∧
    {source | ∃ flat, b.flatOf source = some flat}.encard = b.size ∧
    ∀ old new, let after := b.perform (.redirect old new)
      after.sourcesOf new = b.sourcesOf new ++ (if old = new then [] else b.sourcesOf old) ∧
      (b.sourcesOf new ≠ [] → after.primary new = b.primary new) ∧
      (∀ flat, flat ≠ new → after.sourcesOf flat = if flat = old then [] else b.sourcesOf flat) ∧
      ∀ source, after.flatOf source = if b.flatOf source = some old then some new else b.flatOf source := by
  intro b
  have htwoWay : b.TwoWay := twoWay_empty.performAll commands
  refine ⟨htwoWay.count_sourcesOf, b.encard_bound, fun old new => ?_⟩
  intro after
  have hnew : after.sourcesOf new = b.sourcesOf new ++ (if old = new then [] else b.sourcesOf old) := by
    refine (sourcesOf_redirect b old new new).trans ?_
    by_cases hold : old = new
    · simp [hold]
    · simp [hold, Ne.symm hold]
  refine ⟨hnew, fun hbound => ?_, fun flat hflat => ?_, fun source => ?_⟩
  · rw [primary, primary, hnew, List.head?_append_of_ne_nil _ hbound]
  · refine (sourcesOf_redirect b old new flat).trans ?_
    rw [if_neg hflat, List.append_nil]
  · refine (flatOf_redirect b old new source).trans ?_
    simp only [htwoWay.mem_sources]

/-- A home with a consumer that came with a list of its own, after a list nobody knows and one that was sent to itself.
The home is bound anew then, and the consumer follows it with the list that it is left in. -/
theorem consistent_performAll_rebound :
    let home : SourcePlace := ⟨⟨1⟩, "P"⟩
    let consumer : SourcePlace := ⟨⟨2⟩, "root.a.P"⟩
    let b := empty.performAll [.bind home "a.P", .bind consumer "b.P", .redirect "c.P" "a.P", .redirect "b.P" "b.P",
      .redirect "b.P" "a.P", .bind home "d.P"]
    (b.sourcesOf "a.P").count home = 0 ∧ (b.sourcesOf "a.P").count consumer = 1 ∧
      {source | ∃ flat, b.flatOf source = some flat}.encard = (2 : Nat) ∧
      (b.redirect "a.P" "d.P").sourcesOf "d.P" = [home, consumer] ∧ (b.redirect "a.P" "d.P").primary "d.P" = some home := by
  intro home consumer b
  obtain ⟨hcount, hsize, hredirect⟩ := consistent_performAll [.bind home "a.P", .bind consumer "b.P",
    .redirect "c.P" "a.P", .redirect "b.P" "b.P", .redirect "b.P" "a.P", .bind home "d.P"]
  obtain ⟨hjoined, hfirst, _, _⟩ := hredirect "a.P" "d.P"
  exact ⟨(hcount home "a.P").trans (by decide), (hcount consumer "a.P").trans (by decide), hsize.trans (by decide),
    hjoined.trans (by decide), (hfirst (by decide)).trans (by decide)⟩

end PetriTree.Bindings
