import Liveness.Proofs.Weight.Order
import Liveness.Proofs.Readiness
import Liveness.Proofs.Schedule.FirstOrder
import Liveness.Proofs.Schedule.Ranks

/-! # The unit that is taken next

The candidates are the available units that no other one is ahead of. The rule takes the newest of
them, or one that costs least and the newest of those, or any. The ready units stand in the order
in which they got ready, so that the newest one is the last.
-/

namespace Liveness.Kahn

variable {W P σ : Type} [Weight W] [Priority P] {g : Graph W} {edges : Edges}
  {pick : σ → Nat → Nat × σ} {rule : TieBreak} {cost cost' : Nat → W} {priority : Nat → P}
  {ready taken options : List Nat} {d : Demand} {s s' : σ} {i j u v : Nat}

structure Foremost (edges : Edges) (priority : Nat → P) (taken : List Nat) (u : Nat) : Prop where
  available : edges.Available taken u
  atLeast : ∀ v, edges.Available taken v → Priority.atLeast (priority u) (priority v) = true

/-- The unit is one that the rule asks for next, if units cost as much as given: a foremost one,
and of these the newest, or the newest of the cheapest, or any. -/
structure Follows [ExactWeight W] (edges : Edges) (rule : TieBreak) (priority : Nat → P)
    (cost : Nat → W) (taken : List Nat) (u : Nat) : Prop where
  foremost : Foremost edges priority taken u
  newest : rule = .fifo → ∀ v, Foremost edges priority taken v → v ≠ u →
    edges.ReadyBefore taken v u
  cheapest : rule = .greedy → ∀ v, Foremost edges priority taken v → v ≠ u →
    cost u < cost v ∨ cost u = cost v ∧ edges.ReadyBefore taken v u

/-- The rule only depends on the differences of costs. -/
theorem Follows.add [ExactWeight W] (h : Follows edges rule priority cost taken u) (w : W)
    (hc : ∀ v, edges.Available taken v → cost' v = w + cost v) :
    Follows edges rule priority cost' taken u where
  foremost := h.foremost
  newest := h.newest
  cheapest hr v hv hne := by
    rw [hc u h.foremost.available, hc v hv.available, add_lt_add_iff_left, add_left_cancel_iff]
    exact h.cheapest hr v hv hne

theorem getD_eq_of_getElem? {xs : List Nat} (h : xs[i]? = some u) : xs.getD i 0 = u := by
  rw [List.getD_eq_getElem?_getD, h, Option.getD_some]

omit [Weight W] in
/-- Where the ready units are the available ones and priorities are numbers, the candidates are
the foremost units. -/
theorem mem_candidates_iff [RankedPriority P]
    (hp : ∀ u, Priority.atLeast (priority u) (priority u) = true)
    (hready : ∀ v, v ∈ ready ↔ edges.Available taken v) :
    i ∈ candidates priority ready ↔ ∃ u, ready[i]? = some u ∧ Foremost edges priority taken u := by
  have hhigh : i < ready.length →
      Priority.IsHighest (ready.map priority) (Priority.top (ready.map priority)) := by
    intro hi
    refine Priority.top_isHighest ?_ (by simpa using fun u _ => hp u)
    rw [ne_eq, List.map_eq_nil_iff]
    exact List.ne_nil_of_length_pos (Nat.zero_lt_of_lt hi)
  simp only [candidates, List.mem_filter, List.mem_range]
  constructor
  · rintro ⟨hi, htop⟩
    have hu := List.getElem?_eq_getElem hi
    rw [getD_eq_of_getElem? hu] at htop
    refine ⟨ready[i], hu, (hready _).mp (List.getElem_mem hi), fun v hv => ?_⟩
    exact RankedPriority.trans htop
      ((hhigh hi).atLeast _ (List.mem_map_of_mem ((hready v).mpr hv)))
  · rintro ⟨u, hu, hf⟩
    obtain ⟨hi, -⟩ := List.getElem?_eq_some_iff.mp hu
    obtain ⟨_, hq, htop⟩ := (hhigh hi).reached
    obtain ⟨v, hv, rfl⟩ := List.mem_map.mp hq
    rw [getD_eq_of_getElem? hu]
    exact ⟨hi, RankedPriority.trans (hf.atLeast v ((hready v).mp hv)) htop⟩

omit [Weight W] in
theorem candidates_pairwise (priority : Nat → P) (ready : List Nat) :
    (candidates priority ready).Pairwise (· < ·) := List.pairwise_lt_range.filter _

section Costs

variable [ExactWeight W]

theorem cheapest_last (cost : Nat → W) (hs : (i :: options).Pairwise (· < ·)) :
    cheapest cost (i, cost i) options ∈ i :: options ∧ ∀ j ∈ i :: options,
      cost (cheapest cost (i, cost i) options) < cost j ∨
        cost (cheapest cost (i, cost i) options) = cost j ∧
          j ≤ cheapest cost (i, cost i) options := by
  induction options generalizing i with
  | nil => simp [cheapest]
  | cons k options ih =>
    obtain ⟨hi, hk⟩ := List.pairwise_cons.mp hs
    have hik := hi k List.mem_cons_self
    unfold cheapest
    dsimp only
    split
    · next hle =>
      rw [ExactWeight.le_iff] at hle
      obtain ⟨hmem, hall⟩ := ih hk
      refine ⟨List.mem_cons_of_mem i hmem, fun j hj => ?_⟩
      rcases List.mem_cons.mp hj with rfl | hj
      · -- the later option may cost as much, and then it is the larger one
        have hlast := hi _ hmem
        rcases hall k List.mem_cons_self with hlt | ⟨heq, -⟩
        · exact .inl (hlt.trans_le hle)
        · rcases hle.lt_or_eq with hlt | he
          · exact .inl (heq.trans_lt hlt)
          · exact .inr ⟨heq.trans he, hlast.le⟩
      · exact hall j hj
    · next hle =>
      rw [ExactWeight.le_iff, not_le] at hle
      obtain ⟨hmem, hall⟩ := ih (hs.sublist (List.cons_sublist_cons.mpr (List.sublist_cons_self k _)))
      refine ⟨?_, fun j hj => ?_⟩
      · exact List.mem_cons.mpr ((List.mem_cons.mp hmem).imp_right (List.mem_cons_of_mem k))
      · by_cases he : j = k
        · subst he
          rcases hall i List.mem_cons_self with hlt | ⟨heq, -⟩
          · exact .inl (hlt.trans hle)
          · exact .inl (heq.trans_lt hle)
        · exact hall j (by simp_all)

theorem choose?_last (hs : options.Pairwise (· < ·))
    (h : choose? pick rule cost s options = some (i, s')) : i ∈ options ∧
      (rule = .fifo → ∀ j ∈ options, j ≤ i) ∧
      (rule = .greedy → ∀ j ∈ options, cost i < cost j ∨ cost i = cost j ∧ j ≤ i) := by
  cases rule with
  | random =>
    simp only [choose?, Option.map_eq_some_iff, Prod.mk.injEq] at h
    obtain ⟨k, hk, rfl, -⟩ := h
    refine ⟨List.mem_of_getElem? hk, fun h => ?_, fun h => ?_⟩ <;> cases h
  | fifo =>
    simp only [choose?, Option.map_eq_some_iff, Prod.mk.injEq] at h
    obtain ⟨k, hk, rfl, -⟩ := h
    obtain ⟨first, rfl⟩ := List.getLast?_eq_some_iff.mp hk
    refine ⟨by simp, fun _ j hj => ?_, fun h => by cases h⟩
    rcases List.mem_append.mp hj with hj | hj
    · exact ((List.pairwise_append.mp hs).2.2 j hj k (List.mem_singleton_self k)).le
    · exact (List.mem_singleton.mp hj).le
  | greedy =>
    cases options with
    | nil => cases h
    | cons k rest =>
      simp only [choose?, Option.some.injEq, Prod.mk.injEq] at h
      obtain ⟨rfl, -⟩ := h
      obtain ⟨hmem, hall⟩ := cheapest_last cost hs
      exact ⟨hmem, (fun h => by cases h), fun _ => hall⟩

omit [ExactWeight W] in
/-- A ready unit is only picked as the candidate of the rule, and then it is counted as taken. -/
theorem choice_eq (hu : ready[(choice g pick rule priority (d, s) ready).1]? = some u) :
    ∃ i s', choose? pick rule (fun i => d.change g (ready.getD i 0)) s
        (candidates priority ready) = some (i, s') ∧ ready[i]? = some u ∧
      choice g pick rule priority (d, s) ready = (i, (d.take g u, s')) := by
  unfold choice at hu ⊢
  dsimp only at hu ⊢
  cases hc : choose? pick rule (fun i => d.change g (ready.getD i 0)) s
      (candidates priority ready) with
  | none =>
    rw [hc] at hu
    simp at hu
  | some p =>
    rw [hc] at hu
    have hi : ready[p.1]? = some u := hu
    refine ⟨p.1, p.2, rfl, hi, ?_⟩
    rw [← getD_eq_of_getElem? hi]

/-- The unit that is picked follows the rule, if the ready units are those that are available, in
the order in which they got ready. -/
theorem choice_follows [RankedPriority P]
    (hp : ∀ u, Priority.atLeast (priority u) (priority u) = true)
    (hready : ∀ v, v ∈ ready ↔ edges.Available taken v)
    (haged : ready.Pairwise (edges.ReadyBefore taken))
    (hu : ready[(choice g pick rule priority (d, s) ready).1]? = some u) :
    Follows edges rule priority (d.change g) taken u := by
  obtain ⟨i, s', hc, hi, -⟩ := choice_eq hu
  obtain ⟨hmem, hfifo, hgreedy⟩ := choose?_last (candidates_pairwise priority ready) hc
  obtain ⟨v, hv, hfirst⟩ := (mem_candidates_iff hp hready).mp hmem
  rw [hi, Option.some.injEq] at hv
  subst hv
  -- another foremost unit stands at another index, so it is older where that index is lower
  have hother : ∀ {v}, Foremost edges priority taken v → v ≠ u → ∃ j ∈ candidates priority ready,
      ready[j]? = some v ∧ (j ≤ i → edges.ReadyBefore taken v u) := by
    intro v hv hne
    obtain ⟨j, hj, rfl⟩ := List.getElem_of_mem ((hready v).mpr hv.available)
    have hj' := List.getElem?_eq_getElem hj
    refine ⟨j, (mem_candidates_iff hp hready).mpr ⟨_, hj', hv⟩, hj', fun hle => ?_⟩
    obtain ⟨hlt, rfl⟩ := List.getElem?_eq_some_iff.mp hi
    refine List.pairwise_iff_getElem.mp haged j i hj hlt (hle.lt_of_ne fun he => ?_)
    subst he
    exact hne rfl
  refine ⟨hfirst, fun hr v hv hne => ?_, fun hr v hv hne => ?_⟩
  · obtain ⟨j, hj, -, hbefore⟩ := hother hv hne
    exact hbefore (hfifo hr j hj)
  · obtain ⟨j, hj, hv', hbefore⟩ := hother hv hne
    have hcost := hgreedy hr j hj
    rw [getD_eq_of_getElem? hi, getD_eq_of_getElem? hv'] at hcost
    exact hcost.imp_right fun h => ⟨h.1, hbefore h.2⟩

end Costs

end Liveness.Kahn
