import Liveness.Proofs.Schedule.Again

/-! # Moves as rotations, and moves undone

A move takes its block to the target with the Ops in the order they had, and pushes what it
jumps over to the other side. The move with start and target exchanged brings everything back.
-/

namespace Liveness

namespace Move

variable {α : Type} {m : Move} {a b c a' b' c' i n : Nat}

theorem canonical_start_le (m : Move) : m.canonical.start ≤ m.canonical.target := by
  unfold canonical
  split
  · exact Nat.le_add_right ..
  · next h => exact Nat.not_lt.mp h

theorem canonical_of_le (h : m.start ≤ m.target) : m.canonical = m := if_neg (Nat.not_lt.mpr h)

theorem canonical_canonical (m : Move) : m.canonical.canonical = m.canonical :=
  canonical_of_le m.canonical_start_le

theorem bounds_canonical (m : Move) : m.canonical.bounds = m.bounds := by
  unfold bounds
  rw [canonical_canonical]

def reversed (m : Move) : Move := ⟨m.target, m.start, m.size⟩

theorem InRange.reversed (h : m.InRange n) : m.reversed.InRange n := h.symm

theorem source_reversed (hb : m.bounds = (a, b, c)) (hb' : m.reversed.bounds = (a', b', c')) :
    source a' b' c' i = landing a b c i := by
  have hm := bounds_cases hb
  have hr := bounds_cases hb'
  simp only [Move.reversed] at hr
  unfold source landing
  grind

theorem apply_reversed {xs : Array α} (h : m.InRange xs.size) :
    m.reversed.apply (m.apply xs) = xs := by
  obtain ⟨a, b, c, hb, hab, hbc, hc⟩ := bounds_inRange h
  obtain ⟨a', b', c', hb', hab', hbc', hc'⟩ := bounds_inRange h.reversed
  have hsize : (exchange xs a b c).size = xs.size := size_exchange hab hbc hc
  rw [← hsize] at hc'
  simp only [apply, hb, hb']
  refine Array.ext ((size_exchange hab' hbc' hc').trans hsize) fun i hi hi' => ?_
  have hd := getD_exchange hab' hbc' hc' xs[i] i
  rw [getD_exchange hab hbc hc, source_reversed hb hb', source_landing hab hbc] at hd
  simpa [Array.getD, hi, hi'] using hd

end Move

namespace Schedule

variable {W : Type} [Weight W] {s t : Schedule W} {m : Move} {a b c : Nat}

/-- `t` is `s` with the block of a move taken to its target. The other Ops keep their order,
what lies outside the bounds of the move keeps its place, and the places still belong to the
Ops. -/
structure Rotated (s t : Schedule W) (m : Move) : Prop where
  block : ∀ j < m.size, t.opAt (m.target + j) = s.opAt (m.start + j)
  others : ∀ {x y}, x < s.opCount → y < s.opCount →
    (s.placeOf x < m.start ∨ m.start + m.size ≤ s.placeOf x) →
      (s.placeOf y < m.start ∨ m.start + m.size ≤ s.placeOf y) →
        (t.placeOf x < t.placeOf y ↔ s.placeOf x < s.placeOf y)
  outside : ∀ {i}, i < m.bounds.1 ∨ m.bounds.2.2 ≤ i → t.opAt i = s.opAt i
  placeOf_opAt : ∀ i < s.opCount, t.placeOf (t.opAt i) = i
  opAt_placeOf : ∀ x < s.opCount, t.opAt (t.placeOf x) = x

namespace Exchanged

omit [Weight W]

theorem opAt_target (e : Exchanged s t a b c) (hb : m.bounds = (a, b, c)) {j : Nat}
    (hj : j < m.size) : t.opAt (m.target + j) = s.opAt (m.start + j) := by
  rw [e.opAt]
  congr 1
  have hcases := Move.bounds_cases hb
  grind [Move.source]

theorem placeOf_lt_iff (e : Exchanged s t a b c) (hb : m.bounds = (a, b, c)) {x y : Nat}
    (hx : x < s.opCount) (hy : y < s.opCount)
    (hx' : s.placeOf x < m.start ∨ m.start + m.size ≤ s.placeOf x)
    (hy' : s.placeOf y < m.start ∨ m.start + m.size ≤ s.placeOf y) :
    t.placeOf x < t.placeOf y ↔ s.placeOf x < s.placeOf y := by
  rw [e.placeOf hx, e.placeOf hy]
  have hcases := Move.bounds_cases hb
  generalize s.placeOf x = p at *
  generalize s.placeOf y = q at *
  unfold Move.landing
  grind

end Exchanged

theorem Coherent.rotated_apply (h : s.Coherent) (ht : (s.apply m).Coherent)
    (hm : m.InRange s.opCount) : s.Rotated (s.apply m) m := by
  obtain ⟨a, b, c, hb, hab, hbc, hc⟩ := Move.bounds_inRange hm
  have e := h.exchanged_apply hb hab hbc hc
  constructor
  · exact fun j hj => e.opAt_target hb hj
  · exact fun hx hy hx' hy' => e.placeOf_lt_iff hb hx hy hx' hy'
  · intro i hi
    rw [hb] at hi
    exact e.opAt_of_outside hi
  · exact fun i hi => ht.placeOf_opAt (e.opCount.symm ▸ hi)
  · exact fun x hx => ht.opAt_placeOf (e.opCount.symm ▸ hx)

/-- A move and its reverse leave nothing behind but marks. -/
theorem UpToDate.apply_reversed (h : s.UpToDate m.size) (hm : m.InRange s.opCount) :
    ∃ marks, (s.apply m).apply m.reversed = { s with susceptible := marks } := by
  have hu : (s.apply m).UpToDate m.size := h.apply hm
  have hm' : m.reversed.InRange (s.apply m).opCount := by
    rw [opCount_apply]
    exact hm.reversed
  have ht : ((s.apply m).apply m.reversed).UpToDate m.size :=
    UpToDate.apply (m := m.reversed) hu hm'
  have hg : ((s.apply m).apply m.reversed).graph = s.graph := by
    rw [graph_apply, graph_apply]
  have ho : ((s.apply m).apply m.reversed).ops = s.ops := by
    rw [ops_apply, ops_apply]
    exact Move.apply_reversed (h.size_ops.symm ▸ hm)
  obtain ⟨hahead, hback⟩ := h.setRoom_eq ht hg ho
  have hother := h.toCoherent.eq_of_ops ht.toCoherent hg ho
  rw [hahead, hback, liveness_apply, liveness_apply, ending_apply, ending_apply, stats_apply,
    stats_apply] at hother
  exact ⟨_, hother⟩

/-- A move of a window whose rooms are recorded takes the block of the window to its target and
keeps the order of all other Ops, and the reversed move brings all that is recorded back. The
canonical form of the move exchanges the same two blocks, and its block goes forward. -/
theorem UpToDate.apply_rotates (h : s.UpToDate m.size) (hm : m.InRange s.opCount) :
    s.Rotated (s.apply m) m ∧
      (∃ marks, (s.apply m).apply m.reversed = { s with susceptible := marks }) ∧
        m.canonical.bounds = m.bounds ∧ m.canonical.start ≤ m.canonical.target ∧
          m.canonical.canonical = m.canonical := by
  refine ⟨?_, ?_, ?_, ?_, ?_⟩
  · exact h.toCoherent.rotated_apply (h.apply hm).toCoherent hm
  · exact h.apply_reversed hm
  · exact m.bounds_canonical
  · exact m.canonical_start_le
  · exact m.canonical_canonical

open Numbers in
/-- The first chain moves as a whole in front of the second one, and back. -/
theorem twoChains_rotated :
    let s := (ofOrder Graph.twoChains [2, 3, 0, 1]).setRoom 2
    let m : Move := ⟨2, 0, 2⟩
    s.Rotated (s.apply m) m ∧ (s.apply m).ops = #[0, 1, 2, 3] ∧
      ∃ marks, (s.apply m).apply ⟨0, 2, 2⟩ = { s with susceptible := marks } := by
  intro s m
  have hp : [2, 3, 0, 1].Perm (List.range Graph.twoChains.opCount) := by decide
  have hs : s.UpToDate 2 :=
    setRoom_upToDate (ofOrder_coherent Graph.twoChains_built.wellFormed hp) 2
  have hm : m.InRange s.opCount := by decide
  obtain ⟨hrotated, hreversed, -⟩ := UpToDate.apply_rotates (m := m) hs hm
  exact ⟨hrotated, by decide +kernel, hreversed⟩

end Schedule

end Liveness
