import Liveness.Proofs.Graph.Built
import Liveness.Proofs.Graph.Contraction
import Liveness.Proofs.Schedule.Coherent

/-! # Parts of a schedule

Some of the Ops are put in the order of the schedule by marking each at its place. The marks collect
the Ops of the schedule that were asked for. Marking fails at the first Op that does not exist or
was asked for before, as a check of the list does that knows nothing of places.
-/

namespace Liveness

open Success

theorem exists_cons_eq_append {b : Nat} {as : List Nat} {P : List Nat → Nat → Prop} :
    (∃ l a r, b :: as = l ++ a :: r ∧ P l a) ↔
      P [] b ∨ ∃ l a r, as = l ++ a :: r ∧ P (b :: l) a := by
  constructor
  · rintro ⟨l, a, r, he, hP⟩
    cases l with
    | nil =>
      obtain ⟨rfl, rfl⟩ := List.cons.inj he
      exact .inl hP
    | cons c l =>
      obtain ⟨rfl, rfl⟩ := List.cons.inj he
      exact .inr ⟨l, a, r, rfl, hP⟩
  · rintro (hP | ⟨l, a, r, rfl, hP⟩)
    · exact ⟨[], b, as, rfl, hP⟩
    · exact ⟨b :: l, a, r, rfl, hP⟩

namespace Graph

variable {W : Type} {g : Graph W} {seen as : List Nat}

theorem checkDistinct_cons (g : Graph W) (seen : List Nat) (a : Nat) (as : List Nat) :
    g.checkDistinct seen (a :: as) = if g.opCount ≤ a then .error (.opOutOfRange a g.opCount)
      else if a ∈ seen then .error (.duplicateOp a) else g.checkDistinct (a :: seen) as := by
  rw [checkDistinct, checkOp]
  rcases Nat.lt_or_ge a g.opCount with ha | ha
  · rw [if_pos ha, if_neg (Nat.not_le_of_lt ha)]
    by_cases hs : a ∈ seen
    · simp only [List.contains_iff_mem.mpr hs, hs]
      rfl
    · simp only [hs, List.contains_eq_mem]
      rfl
  · rw [if_neg (Nat.not_lt_of_le ha), if_pos ha]
    rfl

theorem checkDistinct_eq_error {e : Error} : g.checkDistinct seen as = .error e ↔
    ∃ l a r, as = l ++ a :: r ∧ g.checkDistinct seen l = .ok () ∧
      (g.opCount ≤ a ∧ e = .opOutOfRange a g.opCount ∨
        a < g.opCount ∧ (a ∈ l ∨ a ∈ seen) ∧ e = .duplicateOp a) := by
  induction as generalizing seen with
  | nil => exact iff_of_false nofun (by simp)
  | cons b as ih =>
    rw [exists_cons_eq_append (P := fun l a => g.checkDistinct seen l = .ok () ∧ _)]
    simp only [checkDistinct_cons]
    split
    · next hle => simp [checkDistinct, hle, Nat.not_lt_of_le hle, eq_comm]
    split
    · next hlt hs => simp [checkDistinct, hlt, Nat.lt_of_not_le hlt, hs, eq_comm]
    · next hlt hs =>
      have hmem : ∀ l a, (a ∈ l ∨ a ∈ b :: seen) ↔ (a ∈ b :: l ∨ a ∈ seen) := fun l a => by
        rw [List.mem_cons, List.mem_cons, or_left_comm, or_assoc]
      simp only [ih, hmem]
      exact (or_iff_right (by simp [hlt, hs])).symm

end Graph

namespace Schedule

variable {W : Type} [Weight W] {s : Schedule W} {seen as l : List Nat} {a i : Nat}

def marked (s : Schedule W) (seen : List Nat) : Array (Option Nat) :=
  s.ops.map (Option.guard fun a => a ∈ seen)

omit [Weight W] in
theorem filterMap_marked (s : Schedule W) (seen : List Nat) :
    (s.marked seen).toList.filterMap id = s.ops.toList.filter fun a => a ∈ seen := by
  rw [marked, Array.toList_map, List.filterMap_map, ← List.filterMap_eq_filter]
  rfl

namespace Coherent

theorem getElem?_ops (h : s.Coherent) : s.ops[i]? = some a ↔ a < s.opCount ∧ s.placeOf a = i := by
  constructor
  · intro hop
    obtain ⟨hi, rfl⟩ := Array.getElem?_eq_some_iff.mp hop
    have hi' : i < s.opCount := h.size_ops ▸ hi
    have hat : s.opAt i = s.ops[i] := dif_pos hi
    exact hat ▸ ⟨h.opAt_lt hi', h.placeOf_opAt hi'⟩
  · rintro ⟨ha, rfl⟩
    have hi : s.placeOf a < s.ops.size := h.size_ops ▸ h.placeOf_lt ha
    have hat : s.opAt (s.placeOf a) = s.ops[s.placeOf a] := dif_pos hi
    rw [Array.getElem?_eq_getElem hi, ← hat, h.opAt_placeOf ha]

theorem setIfInBounds_marked (h : s.Coherent) (ha : a < s.opCount) :
    (s.marked seen).setIfInBounds (s.placeOf a) (some a) = s.marked (a :: seen) := by
  refine Array.ext_getElem? fun i => ?_
  simp only [marked, Array.getElem?_setIfInBounds, Array.getElem?_map, Array.size_map]
  by_cases hi : s.placeOf a = i
  · rw [if_pos hi, if_pos (h.size_ops ▸ h.placeOf_lt ha), h.getElem?_ops.mpr ⟨ha, hi⟩]
    simp [Option.guard]
  · rw [if_neg hi]
    cases hop : s.ops[i]? with
    | none => rfl
    | some b =>
      have hne : b ≠ a := fun hba => hi (hba ▸ (h.getElem?_ops.mp hop).2)
      simp [Option.guard, hne]

theorem mark_marked (h : s.Coherent) (seen : List Nat) (a : Nat) : s.mark (s.marked seen) a =
    if s.graph.opCount ≤ a then .error (.opOutOfRange a s.graph.opCount)
    else if a ∈ seen then .error (.duplicateOp a) else .ok (s.marked (a :: seen)) := by
  unfold mark Graph.checkOp
  rcases Nat.lt_or_ge a s.graph.opCount with ha | ha
  · have hmark : (s.marked seen).getD (s.placeOf a) none = if a ∈ seen then some a else none := by
      rw [marked, Array.getD_eq_getD_getElem?, Array.getElem?_map, h.getElem?_ops.mpr ⟨ha, rfl⟩]
      simp [Option.guard]
    rw [if_pos ha, if_neg (Nat.not_le_of_lt ha), hmark]
    by_cases hs : a ∈ seen
    · rw [if_pos hs, if_pos hs]
      rfl
    · rw [if_neg hs, if_neg hs, h.setIfInBounds_marked ha]
      rfl
  · rw [if_neg (Nat.not_lt_of_le ha), if_pos ha]
    rfl

/-- Marking the Ops of a list comes out as the check that they are distinct. -/
theorem foldlM_mark (h : s.Coherent) (seen as : List Nat) : as.foldlM s.mark (s.marked seen) =
    (s.graph.checkDistinct seen as).map fun _ => s.marked (as.reverse ++ seen) := by
  induction as generalizing seen with
  | nil => rfl
  | cons a as ih =>
    rw [List.foldlM_cons, h.mark_marked, Graph.checkDistinct_cons]
    split
    · rfl
    split
    · rfl
    · rw [List.reverse_cons, List.append_assoc]
      exact ih (a :: seen)

theorem restrict_eq (h : s.Coherent) (as : List Nat) : s.restrict as =
    (s.graph.checkDistinct [] as).map fun _ => s.ops.toList.filter fun a => a ∈ as := by
  have hnone : s.marked [] = Array.replicate s.opCount none := by
    have hno : Option.guard (fun a : Nat => decide (a ∈ [])) = fun _ => none := by
      funext a
      simp [Option.guard]
    rw [marked, hno, Array.map_const', h.size_ops]
  unfold restrict
  rw [← hnone, h.foldlM_mark, List.append_nil]
  cases s.graph.checkDistinct [] as with
  | error e => rfl
  | ok u =>
    have hfilter := s.filterMap_marked as.reverse
    simp only [List.mem_reverse] at hfilter
    exact congrArg Except.ok hfilter

theorem restrict_eq_ok (h : s.Coherent) : s.restrict as = .ok l ↔
    ((∀ a ∈ as, a < s.opCount) ∧ as.Nodup) ∧ l = s.ops.toList.filter fun a => a ∈ as := by
  have hcheck : s.graph.checkDistinct [] as = .ok () ↔ (∀ a ∈ as, a < s.opCount) ∧ as.Nodup := by
    rw [Graph.checkDistinct_eq_ok]
    simp only [List.not_mem_nil, not_false_eq_true, and_true]
    rfl
  rw [h.restrict_eq, map_eq_ok]
  constructor
  · rintro ⟨⟨⟩, hd, rfl⟩
    exact ⟨hcheck.mp hd, rfl⟩
  · rintro ⟨hd, rfl⟩
    exact ⟨(), hcheck.mpr hd, rfl⟩

theorem restrict_eq_error (h : s.Coherent) {e : Error} : s.restrict as = .error e ↔
    ∃ l a r, as = l ++ a :: r ∧ ((∀ b ∈ l, b < s.opCount) ∧ l.Nodup) ∧
      (s.opCount ≤ a ∧ e = .opOutOfRange a s.opCount ∨
        a < s.opCount ∧ a ∈ l ∧ e = .duplicateOp a) := by
  have herror : s.restrict as = .error e ↔ s.graph.checkDistinct [] as = .error e := by
    rw [h.restrict_eq]
    cases s.graph.checkDistinct [] as with
    | error e' => simp only [Except.map, Except.error.injEq]
    | ok u => exact iff_of_false nofun nofun
  rw [herror, Graph.checkDistinct_eq_error]
  simp only [Graph.checkDistinct_eq_ok, List.not_mem_nil, not_false_eq_true, and_true, or_false]
  rfl

/-- A list of Ops that exist and are distinct is put in the order of the schedule: the result are
the Ops of the schedule that are in the list, however the list is ordered. Every other list fails
at the first Op that does not exist or has come before. -/
theorem restrict_exact (h : s.Coherent) (as : List Nat) :
    (∀ l, s.restrict as = .ok l ↔ ((∀ a ∈ as, a < s.opCount) ∧ as.Nodup) ∧
        l = s.ops.toList.filter fun a => a ∈ as) ∧
      ((∃ e, s.restrict as = .error e) ↔ (∃ a ∈ as, s.opCount ≤ a) ∨ ¬ as.Nodup) ∧
      (∀ e, s.restrict as = .error e ↔
        ∃ l a r, as = l ++ a :: r ∧ ((∀ b ∈ l, b < s.opCount) ∧ l.Nodup) ∧
          (s.opCount ≤ a ∧ e = .opOutOfRange a s.opCount ∨
            a < s.opCount ∧ a ∈ l ∧ e = .duplicateOp a)) ∧
      ∀ bs, as.Perm bs → ∀ l, s.restrict as = .ok l ↔ s.restrict bs = .ok l := by
  refine ⟨fun l => h.restrict_eq_ok, ?_, fun e => h.restrict_eq_error, fun bs hp l => ?_⟩
  · have hok : (∃ l, s.restrict as = .ok l) ↔ (∀ a ∈ as, a < s.opCount) ∧ as.Nodup := by
      simp only [h.restrict_eq_ok, exists_and_left, exists_eq, and_true]
    have hfails : (∃ e, s.restrict as = .error e) ↔ ¬ ∃ l, s.restrict as = .ok l := by
      cases s.restrict as with
      | ok l => exact iff_of_false nofun fun hno => hno ⟨l, rfl⟩
      | error e => exact iff_of_true ⟨e, rfl⟩ nofun
    rw [hfails, hok, not_and_or]
    simp only [not_forall, Nat.not_lt, exists_prop]
  · simp only [h.restrict_eq_ok, hp.mem_iff, hp.nodup_iff]

end Coherent

section Chains

open Numbers Liveness.Graph

/-- Two Ops of the interleaved chains, once as they stand and once the other way round. -/
theorem twoChains_restrict :
    (ofOrder twoChains [2, 0, 3, 1]).restrict [1, 2] = .ok [2, 1] ∧
      (ofOrder twoChains [2, 0, 3, 1]).restrict [2, 1] = .ok [2, 1] := by
  have hs : (ofOrder twoChains [2, 0, 3, 1]).Coherent :=
    ofOrder_coherent twoChains_built.wellFormed (by decide)
  obtain ⟨hok, -, -, hperm⟩ := hs.restrict_exact [1, 2]
  have h : (ofOrder twoChains [2, 0, 3, 1]).restrict [1, 2] = .ok [2, 1] :=
    (hok [2, 1]).mpr ⟨⟨by decide, by decide⟩, by decide⟩
  exact ⟨h, (hperm [2, 1] (by decide) _).mp h⟩

end Chains

end Schedule

end Liveness
