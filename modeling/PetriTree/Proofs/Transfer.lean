import PetriTree.Firing.Fire
import PetriTree.Proofs.Marking
import PetriTree.Proofs.Outcome

/-!
# PetriTree — firing as withdrawing and depositing

Firing evaluates a weight, moves tokens, evaluates the next weight, moves tokens again. Every weight is
evaluated in the marking before the firing, so evaluating and moving can be told apart: the arcs come to
a list of transfers, which are withdrawn from a marking or deposited into it.

Main results:
* `Marking.withdraw_eq_none_iff` — withdrawing fails when some place has less than all transfers
  together ask of it;
* `FlatNet.takeAll_eq`, `FlatNet.giveAll_eq` — taking and giving tokens in terms of transfers;
* `FlatNet.takeAll_toOption` — the same for the outcome alone, whatever the error.
-/

namespace PetriTree

/-- Tokens of one colour that an arc moves into or out of its place. -/
structure Transfer where
  place : String
  color : String
  count : Count

/-- How many tokens of a colour the transfers ask of a place, infinitely many counted by their rank. -/
def demandOf (place color : String) : List Transfer → Nat
  | [] => 0
  | t :: rest => (if t.place = place ∧ t.color = color then t.count.rank else 0) + demandOf place color rest

theorem demandOf_eq_zero {place color : String} {ts : List Transfer}
    (h : (place, color) ∉ ts.map fun t => (t.place, t.color)) : demandOf place color ts = 0 := by
  induction ts with
  | nil => rfl
  | cons t rest ih =>
    rw [List.map_cons, List.mem_cons, not_or] at h
    have hne : ¬ (t.place = place ∧ t.color = color) := fun heq => h.1 (by rw [heq.1, heq.2])
    rw [demandOf, if_neg hne, ih h.2]

theorem demandOf_le {place color : String} {n : Nat} {ts : List Transfer}
    (hnodup : (ts.map fun t => (t.place, t.color)).Nodup)
    (h : ∀ t ∈ ts, t.place = place → t.color = color → t.count.rank ≤ n) :
    demandOf place color ts ≤ n := by
  induction ts with
  | nil => exact Nat.zero_le _
  | cons t rest ih =>
    rw [List.map_cons, List.nodup_cons] at hnodup
    have hrest := ih hnodup.2 fun t' ht' => h t' (List.mem_cons_of_mem _ ht')
    rw [demandOf]
    split
    · -- the others ask nothing of this place in this colour
      rename_i heq
      obtain ⟨rfl, rfl⟩ := heq
      rw [demandOf_eq_zero hnodup.1]
      exact h t (List.mem_cons_self ..) rfl rfl
    · omega

namespace Marking

/-- Takes the transfers out of a marking, one after the other. -/
def withdraw (m : Marking) : List Transfer → Option Marking
  | [] => some m
  | t :: rest =>
    match (m.tokens t.place t.color).sub? t.count with
    | none => none
    | some after => (m.put t.place t.color after).withdraw rest

/-- Puts the transfers into a marking, one after the other. -/
def deposit (m : Marking) : List Transfer → Marking
  | [] => m
  | t :: rest => (m.put t.place t.color ((m.tokens t.place t.color).add t.count)).deposit rest

theorem withdraw_append (m : Marking) (ts us : List Transfer) :
    m.withdraw (ts ++ us) = (m.withdraw ts).bind fun left => left.withdraw us := by
  induction ts generalizing m with
  | nil => rfl
  | cons t rest ih =>
    rw [List.cons_append, withdraw, withdraw]
    cases (m.tokens t.place t.color).sub? t.count with
    | none => rfl
    | some after => exact ih _

theorem deposit_append (m : Marking) (ts us : List Transfer) :
    m.deposit (ts ++ us) = (m.deposit ts).deposit us := by
  induction ts generalizing m with
  | nil => rfl
  | cons t rest ih => exact ih _

/-- Does the place hold less of the colour than the transfers ask of it together? -/
def ShortOf (m : Marking) (ts : List Transfer) (place color : String) : Prop :=
  ∃ n, m.tokens place color = .finite n ∧ n.val < demandOf place color ts

/-- A finite count, after some of it was taken. -/
theorem sub?_finite {a : Fin 0xffffffffffffffff} {taken after : Count}
    (h : (Count.finite a).sub? taken = some after) :
    ∃ b : Fin 0xffffffffffffffff, taken = .finite b ∧ b.val ≤ a.val ∧
      ∃ c : Fin 0xffffffffffffffff, after = .finite c ∧ c.val = a.val - b.val := by
  cases taken with
  | infinite => cases h
  | finite b =>
    rw [Count.sub?] at h
    split at h
    · rename_i hle
      cases h
      -- what is left of a finite count is below the limit, so nothing is clamped
      have hlimit : min (a.val - b.val) Count.limit = a.val - b.val := by
        unfold Count.limit
        omega
      exact ⟨b, rfl, hle, _, rfl, hlimit⟩
    · cases h

/-- A finite count from which nothing can be taken. -/
theorem lt_rank_of_sub? {a : Fin 0xffffffffffffffff} {taken : Count}
    (h : (Count.finite a).sub? taken = none) : a.val < taken.rank := by
  cases taken with
  | infinite => exact a.isLt
  | finite b =>
    rw [Count.sub?] at h
    split at h
    · cases h
    · rename_i hlt
      simp only [Count.rank]
      omega

/-- Once a transfer was taken, the others ask of what is left. -/
theorem shortOf_put {m : Marking} {t : Transfer} {rest : List Transfer} {after : Count}
    (h : (m.tokens t.place t.color).sub? t.count = some after) (place color : String) :
    (m.put t.place t.color after).ShortOf rest place color ↔ m.ShortOf (t :: rest) place color := by
  unfold ShortOf
  by_cases heq : place = t.place ∧ color = t.color
  · obtain ⟨rfl, rfl⟩ := heq
    rw [tokens_put, if_pos ⟨rfl, rfl⟩, demandOf, if_pos ⟨rfl, rfl⟩]
    cases htokens : m.tokens t.place t.color with
    | infinite =>
      -- an infinite place stays infinite and is never short of tokens
      rw [htokens] at h
      cases h
      simp
    | finite a =>
      -- both sides of the comparison drop by what was taken
      rw [htokens] at h
      obtain ⟨b, hcount, hle, c, rfl, hc⟩ := sub?_finite h
      have hrank : t.count.rank = b.val := by rw [hcount]; rfl
      rw [hrank]
      constructor
      · rintro ⟨n, hn, hlt⟩
        cases hn
        exact ⟨a, rfl, by omega⟩
      · rintro ⟨n, hn, hlt⟩
        cases hn
        exact ⟨c, rfl, by omega⟩
  · have hne : ¬ (t.place = place ∧ t.color = color) := fun h => heq ⟨h.1.symm, h.2.symm⟩
    rw [tokens_put, if_neg heq, demandOf, if_neg hne, Nat.zero_add]

/-- Withdrawing fails when some place has less than all transfers together ask of it. -/
theorem withdraw_eq_none_iff {m : Marking} {ts : List Transfer} :
    m.withdraw ts = none ↔ ∃ place color, m.ShortOf ts place color := by
  induction ts generalizing m with
  | nil => simp [withdraw, ShortOf, demandOf]
  | cons t rest ih =>
    rw [withdraw]
    cases hsub : (m.tokens t.place t.color).sub? t.count with
    -- taking one transfer moves the question to the others
    | some after =>
      refine ih.trans ?_
      simp only [shortOf_put hsub]
    -- and the first that cannot be taken is asked in vain by itself
    | none =>
      refine ⟨fun _ => ⟨t.place, t.color, ?_⟩, fun _ => rfl⟩
      unfold ShortOf
      rw [demandOf, if_pos ⟨rfl, rfl⟩]
      cases htokens : m.tokens t.place t.color with
      | infinite =>
        rw [htokens] at hsub
        cases hsub
      | finite a =>
        rw [htokens] at hsub
        have hlt := lt_rank_of_sub? hsub
        exact ⟨a, rfl, by omega⟩

end Marking

/-! ## Arcs as transfers -/

namespace FlatNet

/-- What the weights of an arc come to. -/
def transfersOf (net : FlatNet) (m : Marking) (arc : Arc) :
    List (String × Expr) → Except FiringError (List Transfer)
  | [] => .ok []
  | (color, e) :: rest => do
    let n ← net.weigh m arc.id e
    let others ← net.transfersOf m arc rest
    return ⟨arc.place, color, n⟩ :: others

/-- What several arcs come to. -/
def transfers (net : FlatNet) (m : Marking) : List FlatArc → Except FiringError (List Transfer)
  | [] => .ok []
  | a :: rest => do
    let first ← net.transfersOf m a.arc a.weights
    let others ← net.transfers m rest
    return first ++ others

/-- The places and colours that arcs move, one for every weight. -/
def endsOf (arcs : List FlatArc) : List (String × String) :=
  arcs.flatMap fun a => a.weights.map fun w => (a.arc.place, w.1)

theorem ends_of_transfersOf {net : FlatNet} {m : Marking} {arc : Arc}
    {weights : List (String × Expr)} {ts : List Transfer} (h : net.transfersOf m arc weights = .ok ts) :
    ts.map (fun t => (t.place, t.color)) = weights.map fun w => (arc.place, w.1) := by
  induction weights generalizing ts with
  | nil =>
    cases h
    rfl
  | cons w rest ih =>
    simp only [transfersOf, bind_eq_ok] at h
    obtain ⟨n, _, others, hothers, h⟩ := h
    cases h
    rw [List.map_cons, List.map_cons, ih hothers]

theorem ends_of_transfers {net : FlatNet} {m : Marking} {arcs : List FlatArc} {ts : List Transfer}
    (h : net.transfers m arcs = .ok ts) :
    ts.map (fun t => (t.place, t.color)) = endsOf arcs := by
  induction arcs generalizing ts with
  | nil =>
    cases h
    rfl
  | cons a rest ih =>
    simp only [transfers, bind_eq_ok] at h
    obtain ⟨first, hfirst, others, hothers, h⟩ := h
    cases h
    rw [List.map_append, ends_of_transfersOf hfirst, ih hothers, endsOf, endsOf, List.flatMap_cons]

/-- Giving tokens is depositing the transfers; the first weight without a value decides the error. -/
theorem giveWeights_eq (net : FlatNet) (m left : Marking) (arc : Arc) (weights : List (String × Expr)) :
    net.giveWeights m arc left weights = (net.transfersOf m arc weights).map left.deposit := by
  induction weights generalizing left with
  | nil => rfl
  | cons w rest ih =>
    rw [giveWeights, transfersOf]
    cases hn : net.weigh m arc.id w.2 with
    | error e => rfl
    | ok n =>
      show net.giveWeights m arc _ rest = _
      rw [ih]
      cases net.transfersOf m arc rest <;> rfl

theorem giveAll_eq (net : FlatNet) (m left : Marking) (arcs : List FlatArc) :
    net.giveAll m left arcs = (net.transfers m arcs).map left.deposit := by
  induction arcs generalizing left with
  | nil => rfl
  | cons a rest ih =>
    rw [giveAll, transfers, giveWeights_eq]
    cases hfirst : net.transfersOf m a.arc a.weights with
    | error e => rfl
    | ok first =>
      show net.giveAll m (left.deposit first) rest = _
      rw [ih]
      cases hothers : net.transfers m rest with
      | error e => rfl
      | ok others => exact congrArg Except.ok (Marking.deposit_append left first others).symm

/-- Taking tokens ends where withdrawing the transfers does, if it ends well. -/
theorem takeWeights_toOption (net : FlatNet) (m left : Marking) (arc : Arc) (short : FiringError)
    (weights : List (String × Expr)) :
    (net.takeWeights m arc short left weights).toOption =
      (net.transfersOf m arc weights).toOption.bind left.withdraw := by
  induction weights generalizing left with
  | nil => rfl
  | cons w rest ih =>
    rw [takeWeights, transfersOf]
    cases hn : net.weigh m arc.id w.2 with
    | error e => rfl
    | ok n =>
      show (match (left.tokens arc.place w.1).sub? n with
        | none => Except.error short
        | some after => net.takeWeights m arc short (left.put arc.place w.1 after) rest).toOption = _
      cases hsub : (left.tokens arc.place w.1).sub? n with
      | none =>
        -- whether the other weights have values does not matter any more
        cases net.transfersOf m arc rest with
        | error e => rfl
        | ok others =>
          show none = left.withdraw (⟨arc.place, w.1, n⟩ :: others)
          rw [Marking.withdraw, hsub]
      | some after =>
        show (net.takeWeights m arc short (left.put arc.place w.1 after) rest).toOption = _
        rw [ih]
        cases net.transfersOf m arc rest with
        | error e => rfl
        | ok others =>
          show (left.put arc.place w.1 after).withdraw others = left.withdraw (⟨arc.place, w.1, n⟩ :: others)
          rw [Marking.withdraw, hsub]

theorem transfers_cons_toOption (net : FlatNet) (m : Marking) (a : FlatArc) (rest : List FlatArc) :
    (net.transfers m (a :: rest)).toOption =
      (net.transfersOf m a.arc a.weights).toOption.bind fun first =>
        (net.transfers m rest).toOption.map fun others => first ++ others := by
  rw [transfers, toOption_bind]
  cases net.transfersOf m a.arc a.weights with
  | error e => rfl
  | ok first => cases net.transfers m rest <;> rfl

theorem takeAll_toOption (net : FlatNet) (m left : Marking) (short : Arc → FiringError)
    (arcs : List FlatArc) :
    (net.takeAll m short left arcs).toOption = (net.transfers m arcs).toOption.bind left.withdraw := by
  induction arcs generalizing left with
  | nil => rfl
  | cons a rest ih =>
    rw [takeAll, toOption_bind, takeWeights_toOption, transfers_cons_toOption]
    cases (net.transfersOf m a.arc a.weights).toOption with
    | none => rfl
    | some first =>
      simp only [Option.bind_some, ih]
      cases (net.transfers m rest).toOption with
      -- a weight without a value counts as much as too few tokens before it
      | none => cases left.withdraw first <;> rfl
      | some others => exact (left.withdraw_append first others).symm

/-- Taking tokens when every weight has a value: all that can fail is that too little is there. -/
theorem takeWeights_eq {net : FlatNet} {m left : Marking} {arc : Arc} {short : FiringError}
    {weights : List (String × Expr)} {ts : List Transfer} (h : net.transfersOf m arc weights = .ok ts) :
    net.takeWeights m arc short left weights = (left.withdraw ts).elim (.error short) .ok := by
  induction weights generalizing left ts with
  | nil =>
    cases h
    rfl
  | cons w rest ih =>
    simp only [transfersOf, bind_eq_ok] at h
    obtain ⟨n, hn, others, hothers, h⟩ := h
    cases h
    rw [takeWeights, hn, Marking.withdraw]
    show (match (left.tokens arc.place w.1).sub? n with
      | none => Except.error short
      | some after => net.takeWeights m arc short (left.put arc.place w.1 after) rest) = _
    cases (left.tokens arc.place w.1).sub? n with
    | none => rfl
    | some after => exact ih hothers

theorem takeAll_eq {net : FlatNet} {m left : Marking} {short : FiringError} {arcs : List FlatArc}
    {ts : List Transfer} (h : net.transfers m arcs = .ok ts) :
    net.takeAll m (fun _ => short) left arcs = (left.withdraw ts).elim (.error short) .ok := by
  induction arcs generalizing left ts with
  | nil =>
    cases h
    rfl
  | cons a rest ih =>
    simp only [transfers, bind_eq_ok] at h
    obtain ⟨first, hfirst, others, hothers, h⟩ := h
    cases h
    rw [takeAll, takeWeights_eq hfirst, Marking.withdraw_append]
    cases left.withdraw first with
    | none => rfl
    | some taken => exact ih hothers

end FlatNet

end PetriTree
