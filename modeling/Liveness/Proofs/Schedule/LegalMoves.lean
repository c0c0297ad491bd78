import Liveness.Proofs.Schedule.Checked

/-! # Legal moves

The rooms of a window tell how far it can move with all constraints kept, and the links at the
edges of the two blocks tell whether it can move with all links kept. Both tests are exact: what
they refuse would break a constraint or a link.
-/

namespace Liveness.Schedule

variable {W : Type} [Weight W] {g : Graph W} {s : Schedule W} {order : List Nat}
  {a b c k n start : Nat} {m : Move}

/-- A move keeps all constraints when none goes from its first block to the second, and all links
when none crosses an edge of the blocks. -/
theorem UpToDate.kept_apply (hs : s.UpToDate m.size) (hl : s.Legal) (hm : m.InRange s.opCount)
    (hb : m.bounds = (a, b, c)) :
    (s.graph.KeepsConstraints (s.apply m).ops.toList ↔ s.Independent a b c) ∧
      (a < b → b < c → (s.graph.KeepsLinks (s.apply m).ops.toList ↔ s.Unlinked a b c)) := by
  obtain ⟨a', b', c', hb', hab, hbc, hc⟩ := Move.bounds_inRange hm
  obtain ⟨rfl, rfl, rfl⟩ : a = a' ∧ b = b' ∧ c = c' := by simpa using hb.symm.trans hb'
  have e := hs.exchanged_apply hb hab hbc hc
  have ht := (hs.apply hm).toCoherent
  rw [← graph_apply s m, ht.constraints_kept_iff, ht.links_kept_iff]
  exact ⟨e.before_iff hs.toCoherent hl.before,
    fun hab hbc => e.linked_iff hs.toCoherent hab hbc hl.linked⟩

theorem UpToDate.legal_ahead_iff (hs : s.UpToDate n) (hl : s.Legal)
    (hr : start + n + k ≤ s.opCount) (hk : 0 < k) :
    (s.graph.KeepsConstraints (s.apply ⟨start, start + k, n⟩).ops.toList ↔ k ≤ s.ahead start) ∧
      (0 < n → (s.graph.KeepsLinks (s.apply ⟨start, start + k, n⟩).ops.toList ↔
        s.keepsLinks start (start + k) n = true)) := by
  have hw : start < s.windowCount n := by
    unfold windowCount
    omega
  have hend : start + k + n = start + n + k := by omega
  have hb : (⟨start, start + k, n⟩ : Move).bounds = (start, start + n, start + n + k) := by
    rw [Move.bounds_forward (Nat.le_add_right start k), hend]
  have hm : (⟨start, start + k, n⟩ : Move).InRange s.opCount :=
    ⟨by dsimp only; omega, by dsimp only; omega⟩
  obtain ⟨hconstraints, hlinks⟩ := UpToDate.kept_apply hs hl hm hb
  rw [hs.ahead_eq hw, hs.le_roomAheadAt_iff_independent (by omega), and_iff_right hr,
    keepsLinks_iff, hend]
  exact ⟨hconstraints, fun hn => hlinks (by omega) (by omega)⟩

theorem UpToDate.legal_back_iff (hs : s.UpToDate n) (hl : s.Legal) (hw : start + n ≤ s.opCount)
    (hk : 0 < k) (hr : k ≤ start) :
    (s.graph.KeepsConstraints (s.apply ⟨start, start - k, n⟩).ops.toList ↔ k ≤ s.back start) ∧
      (0 < n → (s.graph.KeepsLinks (s.apply ⟨start, start - k, n⟩).ops.toList ↔
        s.keepsLinks (start - k) (start - k + n) k = true)) := by
  have hw' : start < s.windowCount n := by
    unfold windowCount
    omega
  have hmid : start - k + k = start := by omega
  have hend : start - k + n + k = start + n := by omega
  have hb : (⟨start, start - k, n⟩ : Move).bounds = (start - k, start, start + n) :=
    Move.bounds_backward (by dsimp only; omega)
  have hm : (⟨start, start - k, n⟩ : Move).InRange s.opCount := ⟨hw, by dsimp only; omega⟩
  obtain ⟨hconstraints, hlinks⟩ := UpToDate.kept_apply hs hl hm hb
  rw [hs.back_eq hw', hs.le_roomBackAt_iff_independent hw, and_iff_right hr, keepsLinks_iff, hmid,
    hend]
  exact ⟨hconstraints, fun hn => hlinks (by omega) (by omega)⟩

/-- In the schedule of a valid order, moving a window ahead keeps all constraints exactly when its
room ahead allows the shift, and moving it back when its room behind does. Either move keeps all
links exactly when no link crosses an edge of the window or of what it jumps over; an empty window
has no edges. -/
theorem ofOrder_legal_moves (hg : g.Built) (ho : g.ValidOrder order)
    (hw : start + n ≤ g.opCount) (hk : 0 < k) :
    let s := (ofOrder g order).setRoom n
    (start + n + k ≤ g.opCount →
      let moved := (s.apply ⟨start, start + k, n⟩).ops.toList
      (g.KeepsConstraints moved ↔ k ≤ s.ahead start) ∧
        (0 < n → (g.KeepsLinks moved ↔ s.keepsLinks start (start + k) n = true))) ∧
    (k ≤ start →
      let moved := (s.apply ⟨start, start - k, n⟩).ops.toList
      (g.KeepsConstraints moved ↔ k ≤ s.back start) ∧
        (0 < n → (g.KeepsLinks moved ↔ s.keepsLinks (start - k) (start - k + n) k = true))) := by
  intro s
  have hs : s.Intact g n := (ofOrder_intact_of_validOrder hg.wellFormed ho).setRoom n
  constructor
  · exact fun hr => hs.toUpToDate.legal_ahead_iff hs.toLegal hr hk
  · exact fun hr => hs.toUpToDate.legal_back_iff hs.toLegal hw hk hr

open Numbers in
/-- The linked chain can move as a whole behind the other one. That one could move in between the
linked Ops as far as the constraints go, but not with the link kept. -/
theorem ofOrder_linkedChains_legal_moves :
    let s := (ofOrder Graph.linkedChains [0, 1, 2, 3]).setRoom 2
    (Graph.linkedChains.KeepsConstraints (s.apply ⟨0, 2, 2⟩).ops.toList ∧
      Graph.linkedChains.KeepsLinks (s.apply ⟨0, 2, 2⟩).ops.toList) ∧
    (Graph.linkedChains.KeepsConstraints (s.apply ⟨2, 1, 2⟩).ops.toList ∧
      ¬ Graph.linkedChains.KeepsLinks (s.apply ⟨2, 1, 2⟩).ops.toList) := by
  intro s
  have ho : Graph.linkedChains.ValidOrder [0, 1, 2, 3] := by decide
  have hfirst := (ofOrder_legal_moves (k := 2) Graph.linkedChains_built ho
    (show 0 + 2 ≤ Graph.linkedChains.opCount by decide) (by decide)).1 (by decide)
  have hsecond := (ofOrder_legal_moves (k := 1) Graph.linkedChains_built ho
    (show 2 + 2 ≤ Graph.linkedChains.opCount by decide) (by decide)).2 (by decide)
  refine ⟨⟨hfirst.1.mpr (by decide +kernel), (hfirst.2 (by decide)).mpr (by decide +kernel)⟩,
    hsecond.1.mpr (by decide +kernel), fun h => ?_⟩
  have := (hsecond.2 (by decide)).mp h
  revert this
  decide +kernel

end Liveness.Schedule
