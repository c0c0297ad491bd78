import Liveness.Proofs.Schedule.Apply

/-! # Legal schedules

A schedule is legal when it keeps every constraint and every link. An exchange of two
blocks keeps a schedule legal exactly when no constraint goes from the first block to
the second and no link crosses an edge of the blocks.
-/

namespace Liveness.Schedule

variable {W : Type} {s t : Schedule W} {a b c p x y start target n k : Nat}

structure Legal (s : Schedule W) : Prop where
  before : ∀ {x y}, y ∈ (s.graph.op x).outs → s.placeOf x < s.placeOf y
  linked : ∀ {x y}, (s.graph.op x).fwdLink = some y → s.placeOf y = s.placeOf x + 1

theorem legal_iff_forall_lt : s.Legal ↔ ∀ x < s.opCount,
    (∀ y ∈ (s.graph.op x).outs, s.placeOf x < s.placeOf y) ∧
      ∀ y, (s.graph.op x).fwdLink = some y → s.placeOf y = s.placeOf x + 1 := by
  constructor
  · exact fun h x _ => ⟨fun y hy => h.before hy, fun y hy => h.linked hy⟩
  · exact fun h => ⟨fun {x y} hy => (h x (Graph.lt_of_mem_outs hy)).1 y hy,
      fun {x y} hy => (h x (Graph.lt_of_fwdLink hy)).2 y hy⟩

instance (s : Schedule W) : Decidable s.Legal := decidable_of_iff _ legal_iff_forall_lt.symm

def Independent (s : Schedule W) (a b c : Nat) : Prop :=
  ∀ ⦃x y⦄, y ∈ (s.graph.op x).outs → a ≤ s.placeOf x → s.placeOf x < b → b ≤ s.placeOf y →
    c ≤ s.placeOf y

structure Unlinked (s : Schedule W) (a b c : Nat) : Prop where
  first : (s.graph.op (s.opAt a)).bwdLink = none
  before_mid : (s.graph.op (s.opAt (b - 1))).fwdLink = none
  mid : (s.graph.op (s.opAt b)).bwdLink = none
  last : (s.graph.op (s.opAt (c - 1))).fwdLink = none

theorem keepsLinks_iff : s.keepsLinks start target n = true ↔
    s.Unlinked start (start + n) (target + n) := by
  simp only [keepsLinks, Op.hasBwdLink, Op.hasFwdLink, Bool.not_eq_true', Bool.or_eq_false_iff,
    Option.isSome_eq_false_iff, Option.isNone_iff_eq_none]
  constructor
  · rintro ⟨⟨⟨h₁, h₂⟩, h₃⟩, h₄⟩
    exact ⟨h₁, h₂, h₃, h₄⟩
  · rintro ⟨h₁, h₂, h₃, h₄⟩
    exact ⟨⟨⟨h₁, h₂⟩, h₃⟩, h₄⟩

theorem keepsLinksEitherWay_iff {m : Move} (hb : m.bounds = (a, b, c)) (hne : m.start ≠ m.target) :
    s.keepsLinksEitherWay m.start m.target m.size = true ↔ s.Unlinked a b c := by
  unfold keepsLinksEitherWay
  rcases Move.bounds_cases hb with ⟨hle, rfl, rfl, rfl⟩ | ⟨hlt, rfl, rfl, rfl⟩
  · rw [if_pos (by omega), keepsLinks_iff]
  · rw [if_neg (by omega), keepsLinks_iff]
    rw [show m.target + (m.start - m.target) = m.start by omega,
      show m.target + m.size + (m.start - m.target) = m.start + m.size by omega]

variable [Weight W]

/-- An exchange keeps the constraints exactly when none goes from the first block to the second. -/
theorem Exchanged.before_iff (e : Exchanged s t a b c) (hs : s.Coherent)
    (h : ∀ {x y}, y ∈ (s.graph.op x).outs → s.placeOf x < s.placeOf y) :
    (∀ {x y}, y ∈ (t.graph.op x).outs → t.placeOf x < t.placeOf y) ↔ s.Independent a b c := by
  have hab := e.le_mid
  have hbc := e.mid_le
  constructor
  · intro ht x y hxy ha hb hb'
    have hlt := ht (e.graph ▸ hxy)
    rw [e.placeOf (Graph.lt_of_mem_outs hxy), e.placeOf (hs.wellFormed.outs_lt hxy)] at hlt
    unfold Move.landing at hlt
    grind
  · intro hi x y hxy
    rw [e.graph] at hxy
    have hlt := h hxy
    have hi' := hi hxy
    rw [e.placeOf (Graph.lt_of_mem_outs hxy), e.placeOf (hs.wellFormed.outs_lt hxy)]
    unfold Move.landing
    grind

theorem Exchanged.fwdLink_eq_none (e : Exchanged s t a b c) (hs : s.Coherent)
    (h : ∀ {x y}, (s.graph.op x).fwdLink = some y → s.placeOf y = s.placeOf x + 1)
    (ht : ∀ {x y}, (t.graph.op x).fwdLink = some y → t.placeOf y = t.placeOf x + 1)
    (hp : p < s.opCount) (hne : Move.landing a b c (p + 1) ≠ Move.landing a b c p + 1) :
    (s.graph.op (s.opAt p)).fwdLink = none := by
  refine Option.eq_none_iff_forall_ne_some.mpr fun y hy => hne ?_
  have ht' := ht (e.graph ▸ hy)
  rw [e.placeOf (hs.opAt_lt hp), e.placeOf (hs.wellFormed.link_lt hy), h hy,
    hs.placeOf_opAt hp] at ht'
  exact ht'

theorem Exchanged.bwdLink_eq_none (e : Exchanged s t a b c) (hs : s.Coherent)
    (h : ∀ {x y}, (s.graph.op x).fwdLink = some y → s.placeOf y = s.placeOf x + 1)
    (ht : ∀ {x y}, (t.graph.op x).fwdLink = some y → t.placeOf y = t.placeOf x + 1)
    (hp : p < s.opCount) (hne : p = 0 ∨ Move.landing a b c p ≠ Move.landing a b c (p - 1) + 1) :
    (s.graph.op (s.opAt p)).bwdLink = none := by
  refine Option.eq_none_iff_forall_ne_some.mpr fun x hx => ?_
  have hxy := hs.wellFormed.bwdLink.mp hx
  have hplace := h hxy
  rw [hs.placeOf_opAt hp] at hplace
  have ht' := ht (e.graph ▸ hxy)
  rw [e.placeOf (hs.opAt_lt hp), e.placeOf (Graph.lt_of_fwdLink hxy), hs.placeOf_opAt hp,
    show s.placeOf x = p - 1 by omega] at ht'
  omega

theorem Coherent.placeOf_ne_of_fwdLink (hs : s.Coherent) (hxy : (s.graph.op x).fwdLink = some y)
    (hn : (s.graph.op (s.opAt p)).fwdLink = none) : s.placeOf x ≠ p := by
  rintro rfl
  rw [hs.opAt_placeOf (Graph.lt_of_fwdLink hxy), hxy] at hn
  cases hn

theorem Coherent.placeOf_ne_of_bwdLink (hs : s.Coherent) (hxy : (s.graph.op x).fwdLink = some y)
    (hn : (s.graph.op (s.opAt p)).bwdLink = none) : s.placeOf y ≠ p := by
  rintro rfl
  rw [hs.opAt_placeOf (hs.wellFormed.link_lt hxy), hs.wellFormed.bwdLink.mpr hxy] at hn
  cases hn

theorem Exchanged.linked_iff (e : Exchanged s t a b c) (hs : s.Coherent) (hab : a < b) (hbc : b < c)
    (h : ∀ {x y}, (s.graph.op x).fwdLink = some y → s.placeOf y = s.placeOf x + 1) :
    (∀ {x y}, (t.graph.op x).fwdLink = some y → t.placeOf y = t.placeOf x + 1) ↔
      s.Unlinked a b c := by
  have hl := e.le_count
  constructor
  · intro ht
    constructor
    case first => exact e.bwdLink_eq_none hs h ht (by omega) (by unfold Move.landing; grind)
    case before_mid => exact e.fwdLink_eq_none hs h ht (by omega) (by unfold Move.landing; grind)
    case mid => exact e.bwdLink_eq_none hs h ht (by omega) (by unfold Move.landing; grind)
    case last => exact e.fwdLink_eq_none hs h ht (by omega) (by unfold Move.landing; grind)
  · intro hu x y hxy
    rw [e.graph] at hxy
    have heq := h hxy
    have h₁ := hs.placeOf_ne_of_bwdLink hxy hu.first
    have h₂ := hs.placeOf_ne_of_fwdLink hxy hu.before_mid
    have h₃ := hs.placeOf_ne_of_bwdLink hxy hu.mid
    have h₄ := hs.placeOf_ne_of_fwdLink hxy hu.last
    rw [e.placeOf (Graph.lt_of_fwdLink hxy), e.placeOf (hs.wellFormed.link_lt hxy)]
    unfold Move.landing
    grind

theorem Exchanged.legal (e : Exchanged s t a b c) (hs : s.Coherent) (h : s.Legal) (hab : a < b)
    (hbc : b < c) (hi : s.Independent a b c) (hu : s.Unlinked a b c) : t.Legal :=
  ⟨(e.before_iff hs h.before).mpr hi, (e.linked_iff hs hab hbc h.linked).mpr hu⟩

theorem Exchanged.of_legal (e : Exchanged s t a b c) (hs : s.Coherent) (h : s.Legal)
    (ht : t.Legal) (hab : a < b) (hbc : b < c) : s.Independent a b c ∧ s.Unlinked a b c :=
  ⟨(e.before_iff hs h.before).mp ht.before, (e.linked_iff hs hab hbc h.linked).mp ht.linked⟩

section Room

variable (hs : s.Coherent)

include hs

/-- The room ahead of a window tells which blocks behind it are independent of it. -/
theorem Coherent.le_roomAheadAt_iff_independent (hw : start + n ≤ s.opCount) :
    k ≤ s.roomAheadAt n start ↔
      start + n + k ≤ s.opCount ∧ s.Independent start (start + n) (start + n + k) := by
  rw [hs.le_roomAheadAt_iff hw]
  refine and_congr_right fun _ => ?_
  constructor
  · intro h x y hxy hx hx' hy
    have hlt := Graph.lt_of_mem_outs hxy
    refine h _ hx hx' _ (hs.mem_placesAfter.mpr ⟨y, ?_, rfl⟩) hy
    rwa [hs.opAt_placeOf hlt]
  · intro h i hi hi' p hp hle
    obtain ⟨y, hy, rfl⟩ := hs.mem_placesAfter.mp hp
    have hpl := hs.placeOf_opAt (i := i) (by omega)
    exact h hy (by omega) (by omega) hle

theorem Coherent.le_roomBackAt_iff_independent (hw : start + n ≤ s.opCount) :
    k ≤ s.roomBackAt n start ↔ k ≤ start ∧ s.Independent (start - k) start (start + n) := by
  rw [hs.le_roomBackAt_iff]
  refine and_congr_right fun hk => ?_
  constructor
  · intro h x y hxy hx hx' hy
    refine Nat.le_of_not_lt fun hy' => ?_
    have hlt := hs.wellFormed.outs_lt hxy
    have := h _ hy hy' _ (hs.mem_placesBefore.mpr ⟨x, ?_, rfl⟩) hx'
    · omega
    · rw [hs.opAt_placeOf hlt]
      exact hs.wellFormed.mem_ins.mpr hxy
  · intro h i hi hi' p hp hlt
    obtain ⟨x, hx, rfl⟩ := hs.mem_placesBefore.mp hp
    have hpl := hs.placeOf_opAt (i := i) (by omega)
    refine Nat.lt_of_not_le fun hle => ?_
    have := h (hs.wellFormed.mem_ins.mp hx) (by omega) hlt (by omega)
    omega

end Room

end Liveness.Schedule
