import Mathlib.Data.List.Perm.Subperm
import PetriTree.Proofs.Renaming
import PetriTree.Tree.Include

/-!
# PetriTree — names that are free

A name is an alias, or an alias with a number after it. Different numbers give different names, so among one
more candidate than there are taken names one is free. Neither aliases nor digits contain a point, which is
why a path can be taken apart again.

Main results:
* `IncludeTree.freeName_notMem` — a name that is looked for is found;
* `IncludeTree.exists_freeName_first` — it is the first candidate that is not taken;
* `IncludeTree.isAlias_freeName` — it can stand in a path;
* `qualify_inj` — a path tells its last name and what comes before it.
-/

namespace PetriTree

namespace IncludeTree

variable {base : String}

theorem isAlias_iff {text : String} : isAlias text = true ↔ text ≠ "" ∧ '.' ∉ text.toList := by
  simp [isAlias]

/-! ## Numbers after aliases -/

theorem toList_numbered (base : String) (n : Nat) : (numbered base n).toList =
    base.toList ++ if n = 0 then [] else Nat.toDigits 10 n := by
  unfold numbered
  split
  · rw [List.append_nil]
  · rw [String.toList_append]
    exact congrArg (base.toList ++ ·) Nat.toList_repr

theorem numbered_injective (base : String) : Function.Injective (numbered base) := by
  intro m n h
  have hdigits := congrArg String.toList h
  rw [toList_numbered, toList_numbered, List.append_cancel_left_eq] at hdigits
  -- the bare alias has no digits, and every number has some
  have hvalue : ∀ n, Nat.ofDigitChars 10 (if n = 0 then [] else Nat.toDigits 10 n) 0 = n := fun n => by
    split
    · rename_i hzero
      rw [hzero]
      rfl
    · exact Nat.ofDigitChars_ten_toDigits
  rw [← hvalue m, ← hvalue n, hdigits]

theorem isAlias_numbered (h : isAlias base = true) (n : Nat) : isAlias (numbered base n) = true := by
  rw [isAlias_iff] at h ⊢
  refine ⟨fun hempty => h.1 ?_, fun hmem => ?_⟩
  · have hlist := congrArg String.toList hempty
    rw [toList_numbered, String.toList_empty, List.append_eq_nil_iff] at hlist
    exact String.toList_eq_nil_iff.1 hlist.1
  · rw [toList_numbered, List.mem_append] at hmem
    rcases hmem with hmem | hmem
    · exact h.2 hmem
    · split at hmem
      · cases hmem
      · have hdigit := Nat.isDigit_of_mem_toDigits (by decide) (by decide) hmem
        revert hdigit
        decide

/-! ## Free names -/

/-- Whatever comes before the name in the row of candidates is taken. -/
theorem exists_freeName_first (base : String) (taken : List String) :
    ∃ n, freeName base taken = numbered base n ∧ ∀ j < n, numbered base j ∈ taken := by
  unfold freeName
  rw [List.find?_map]
  cases hfind : (List.range (taken.length + 1)).find? ((fun name => !taken.contains name) ∘ numbered base) with
  | none => exact ⟨0, rfl, fun j hj => absurd hj (Nat.not_lt_zero j)⟩
  | some n =>
    obtain ⟨_, _, hbefore⟩ := List.find?_range_eq_some.1 hfind
    exact ⟨n, rfl, fun j hj => by simpa using hbefore j hj⟩

/-- The candidates cannot all be taken, as there are more of them than of taken names. -/
theorem freeName_notMem (base : String) (taken : List String) : freeName base taken ∉ taken := by
  unfold freeName
  cases hfind : ((List.range (taken.length + 1)).map (numbered base)).find? fun name => !taken.contains name with
  | none =>
    exfalso
    have hall : (List.range (taken.length + 1)).map (numbered base) ⊆ taken := fun name hname => by
      simpa using List.find?_eq_none.1 hfind name hname
    have hnodup := (List.nodup_range (n := taken.length + 1)).map (numbered_injective base)
    have hlength := (List.subperm_of_subset hnodup hall).length_le
    rw [List.length_map, List.length_range] at hlength
    exact Nat.not_succ_le_self _ hlength
  | some name => simpa using List.find?_some hfind

/-- An alias that is free is the name. -/
theorem freeName_eq_self {taken : List String} (h : base ∉ taken) : freeName base taken = base := by
  rw [freeName, List.range_succ_eq_map, List.map_cons, List.find?_cons_of_pos]
  · rfl
  · simpa [numbered] using h

theorem isAlias_freeName (h : isAlias base = true) (taken : List String) :
    isAlias (freeName base taken) = true := by
  obtain ⟨n, hn, _⟩ := exists_freeName_first base taken
  rw [hn]
  exact isAlias_numbered h n

end IncludeTree

/-! ## Names in paths -/

/-- The last point is where the last name begins. -/
theorem append_point_inj {p p' n n' : List Char} (hn : '.' ∉ n) (hn' : '.' ∉ n')
    (h : p ++ '.' :: n = p' ++ '.' :: n') : p = p' ∧ n = n' := by
  induction p generalizing p' with
  | nil =>
    cases p' with
    | nil => exact ⟨rfl, (List.cons.inj h).2⟩
    | cons c rest =>
      refine (hn ?_).elim
      rw [(List.cons.inj h).2]
      simp
  | cons c rest ih =>
    cases p' with
    | nil =>
      refine (hn' ?_).elim
      rw [← (List.cons.inj h).2]
      simp
    | cons c' rest' =>
      obtain ⟨hhead, htail⟩ := List.cons.inj h
      obtain ⟨hrest, hname⟩ := ih htail
      exact ⟨by rw [hhead, hrest], hname⟩

/-- A path tells its last name and what comes before it. -/
theorem qualify_inj {path path' name name' : String} (hname : '.' ∉ name.toList) (hname' : '.' ∉ name'.toList)
    (h : qualify path name = qualify path' name') : path = path' ∧ name = name' := by
  by_cases hpath : path = "" <;> by_cases hpath' : path' = ""
  · subst hpath hpath'
    exact ⟨rfl, h⟩
  -- a name without a path before it has no point
  · have hlist := congrArg String.toList h
    rw [toList_qualify hpath', hpath] at hlist
    exact (hname (by rw [show name.toList = _ from hlist]; simp)).elim
  · have hlist := congrArg String.toList h
    rw [toList_qualify hpath, hpath'] at hlist
    exact (hname' (by rw [show name'.toList = _ from hlist.symm]; simp)).elim
  · have hlist := congrArg String.toList h
    rw [toList_qualify hpath, toList_qualify hpath'] at hlist
    obtain ⟨hbefore, hlast⟩ := append_point_inj hname hname' hlist
    exact ⟨String.toList_inj.1 hbefore, String.toList_inj.1 hlast⟩

theorem qualify_ne_empty {path name : String} (hname : name ≠ "") : qualify path name ≠ "" := by
  by_cases hpath : path = ""
  · rw [hpath]
    exact hname
  · intro hempty
    have hlist := congrArg String.toList hempty
    rw [toList_qualify hpath] at hlist
    simp at hlist

end PetriTree
