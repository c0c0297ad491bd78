import Liveness.Proofs.Schedule.Cramped
import Liveness.Proofs.Schedule.Run

/-! # What was idle stays idle

What an exchange of two neighbours costs depends on which Allocs they need and which of
these are needed before and behind them. So it costs the same in two schedules with the
same Ops around the neighbours. With little room, Ops that were undisturbed since a search
for them found nothing therefore settle windows of size one.
-/

namespace Liveness.Schedule

variable {W : Type} {s t v : Schedule W} {g : Graph W} {q u x z : Nat} {ps qs : List Nat}

/-- What an exchange of neighbours adds to a span: one if it takes an outermost place away
from the others, and less one if it brings one closer. -/
theorem spanGrowth_swap (q : Nat) (ps : List Nat) : spanGrowth q (q + 1) (q + 2) ps =
    (oneIfAny (fun p => p == q) ps - oneIfAny (fun p => p == q + 1) ps) *
      (oneIfAny (fun p => p < q) ps - oneIfAny (fun p => q + 1 < p) ps) := by
  have hid : ps.map (fun p => p) = ps := List.map_id' ps
  by_cases hsecond : q + 1 ∈ ps
  · rw [oneIfAny_pos (P := fun p => p == q + 1) ⟨_, hsecond, by simp⟩]
    by_cases hfirst : q ∈ ps
    · have hsame : ∀ p, p ∈ ps.map (Move.landing q (q + 1) (q + 2)) ↔ p ∈ ps := by
        intro p
        rw [List.mem_map]
        constructor
        · rintro ⟨r, hr, rfl⟩
          grind [Move.landing]
        · intro hp
          refine ⟨Move.landing q (q + 1) (q + 2) p, ?_, ?_⟩ <;> grind [Move.landing]
      rw [oneIfAny_pos (P := fun p => p == q) ⟨_, hfirst, by simp⟩, spanGrowth, spanOf_congr hsame]
      simp
    · have hback := spanOf_map_nudge (f := Move.landing q (q + 1) (q + 2))
        (g := fun p => p) (P := fun p => p == q + 1) (Q := fun p => p < q)
        (R := fun p => q + 1 < p) q (q + 1) fun p (hp : p ∈ ps) => by
          have hne : p ≠ q := fun he => hfirst (he ▸ hp)
          grind [Move.landing, nudge]
      have hnone : oneIfAny (fun p => p == q) ps = 0 :=
        oneIfAny_neg fun p hp => by simpa using fun he : p = q => hfirst (he ▸ hp)
      rw [hid, oneIfAny_pos (P := fun p => p == q + 1) ⟨_, hsecond, by simp⟩] at hback
      rw [hnone, spanGrowth]
      omega
  · have hahead := spanOf_map_nudge (f := fun p => p)
      (g := Move.landing q (q + 1) (q + 2)) (P := fun p => p == q) (Q := fun p => p < q)
      (R := fun p => q + 1 < p) q (q + 1) fun p (hp : p ∈ ps) => by
        have hne : p ≠ q + 1 := fun he => hsecond (he ▸ hp)
        grind [Move.landing, nudge]
    have hnone : oneIfAny (fun p => p == q + 1) ps = 0 :=
      oneIfAny_neg fun p hp => by simpa using fun he : p = q + 1 => hsecond (he ▸ hp)
    rw [hid] at hahead
    rw [hnone, sub_zero, spanGrowth, hahead]

theorem oneIfAny_eq {P Q : Nat → Bool} (h : (∃ p ∈ ps, P p = true) ↔ ∃ p ∈ qs, Q p = true) :
    oneIfAny P ps = oneIfAny Q qs := by
  have he : ps.any P = qs.any Q := by
    rw [Bool.eq_iff_iff, List.any_eq_true, List.any_eq_true]
    exact h
  rw [oneIfAny, oneIfAny, he]

variable [Weight W] [ExactWeight W]

theorem SameAround.exchangePrice_eq (h : SameAround s t q) (hs : s.Coherent) (ht : t.Coherent)
    (hg : s.graph = t.graph) :
    s.exchangePrice q (q + 1) (q + 2) = t.exchangePrice q (q + 1) (q + 2) := by
  have htest : ∀ r (P : Nat → Bool), (∀ x < t.opCount, P (s.placeOf x) = P (t.placeOf x)) →
      oneIfAny P (s.placesOfAlloc r) = oneIfAny P (t.placesOfAlloc r) := by
    intro r P hP
    apply oneIfAny_eq
    simp only [hs.mem_placesOfAlloc, ht.mem_placesOfAlloc, hg]
    constructor
    · rintro ⟨_, ⟨x, hx, rfl⟩, hp⟩
      exact ⟨_, ⟨x, hx, rfl⟩, hP x (ht.wellFormed.ops_lt hx) ▸ hp⟩
    · rintro ⟨_, ⟨x, hx, rfl⟩, hp⟩
      exact ⟨_, ⟨x, hx, rfl⟩, (hP x (ht.wellFormed.ops_lt hx)).symm ▸ hp⟩
  have hc : s.allocCount = t.allocCount := congrArg Graph.allocCount hg
  unfold exchangePrice
  rw [hc]
  refine Finset.sum_congr rfl fun r _ => ?_
  rw [spanGrowth_swap, spanGrowth_swap, htest r _ fun x hx => ?_, htest r _ fun x hx => ?_,
    htest r _ fun x hx => ?_, htest r _ fun x hx => ?_, hg]
  · simpa using h.above hx
  · simpa using h.below hx
  · simpa using h.second hx
  · simpa using h.first hx

theorem Coherent.exchangePrice_of_two (hs : s.Coherent) (hc : s.opCount = 2) :
    s.exchangePrice 0 1 2 = 0 := by
  refine Finset.sum_eq_zero fun r _ => ?_
  have hlt : ∀ p ∈ s.placesOfAlloc r, p < 2 := by
    intro p hp
    obtain ⟨x, hx, rfl⟩ := hs.mem_placesOfAlloc.mp hp
    exact hc ▸ hs.placeOf_lt (hs.wellFormed.ops_lt hx)
  have hbefore : oneIfAny (fun p => p < 0) (s.placesOfAlloc r) = 0 :=
    oneIfAny_neg fun p _ => by simp
  have hbehind : oneIfAny (fun p => 0 + 1 < p) (s.placesOfAlloc r) = 0 :=
    oneIfAny_neg fun p hp => by have := hlt p hp; simp; omega
  rw [spanGrowth_swap 0, hbefore, hbehind, sub_zero, mul_zero, zero_smul]

section SameAround

variable (h : SameAround s t q) (hs : s.Coherent) (ht : t.Coherent) (hg : s.graph = t.graph)

include h hs ht hg

omit [ExactWeight W] in
theorem SameAround.opAt_eq (hq : q + 1 < t.opCount) :
    s.opAt q = t.opAt q ∧ s.opAt (q + 1) = t.opAt (q + 1) := by
  have hc : s.opCount = t.opCount := congrArg Graph.opCount hg
  have hfirst := ht.opAt_lt (i := q) (by omega)
  have hsecond := ht.opAt_lt hq
  have hp := (h.first hfirst).mpr (ht.placeOf_opAt (by omega))
  have hp' := (h.second hsecond).mpr (ht.placeOf_opAt hq)
  have ho := hs.opAt_placeOf (hc ▸ hfirst)
  have ho' := hs.opAt_placeOf (hc ▸ hsecond)
  rw [hp] at ho
  rw [hp'] at ho'
  exact ⟨ho, ho'⟩

omit [ExactWeight W] in
theorem SameAround.exchangeable (hq : q + 1 < t.opCount) (hi : t.Independent q (q + 1) (q + 2))
    (hu : t.Unlinked q (q + 1) (q + 2)) :
    s.Independent q (q + 1) (q + 2) ∧ s.Unlinked q (q + 1) (q + 2) := by
  obtain ⟨ho, ho'⟩ := h.opAt_eq hs ht hg hq
  constructor
  · intro x y hxy hx hx' hy
    rw [hg] at hxy
    have hxl := Graph.lt_of_mem_outs hxy
    have hyl := ht.wellFormed.outs_lt hxy
    have := hi hxy
    have := h.first hxl
    have := h.above hyl
    have := h.second hyl
    omega
  · obtain ⟨h₁, h₂, h₃, h₄⟩ := hu
    rw [Nat.add_sub_cancel] at h₂
    rw [show q + 2 - 1 = q + 1 by omega] at h₄
    constructor
    · rwa [hg, ho]
    · rwa [hg, Nat.add_sub_cancel, ho]
    · rwa [hg, ho']
    · rwa [hg, show q + 2 - 1 = q + 1 by omega, ho']

end SameAround

/-- The search for the window that starts at an Op found nothing in some schedule, and the
Op was undisturbed since. -/
def IdleSince (g : Graph W) (u : Nat) (t : Schedule W) : Prop :=
  ∃ s : Schedule W, s.Intact g 1 ∧ Weight.lt (s.bestOf (s.placeOf u) 1).cost 0 = false ∧
    Undisturbed g s t u

structure Movable (g : Graph W) (u : Nat) : Prop where
  lt : u < g.opCount
  bwdLink : (g.op u).bwdLink = none
  fwdLink : (g.op u).fwdLink = none
  near : ∃ y, g.Near u y ∧ y ≠ u

section Neighbours

variable (ht : t.Intact g 1) (hcr : t.Cramped 1) (hidle : ∀ u, Movable g u → IdleSince g u t)
  (hi : t.Independent q (q + 1) (q + 2)) (hu : t.Unlinked q (q + 1) (q + 2))

include ht hcr hidle hi hu

/-- Of neighbours with an Op behind them, the first one has to come before an Op, and so was
searched for. -/
theorem Intact.not_lt_of_first (hend : q + 2 < t.opCount) :
    Weight.lt (t.exchangePrice q (q + 1) (q + 2)) 0 = false := by
  have hco := ht.toCoherent
  obtain rfl := ht.graph_eq
  have hlt := hco.opAt_lt (i := q) (by omega)
  have hplace := hco.placeOf_opAt (i := q) (by omega)
  obtain ⟨x, w, hxw, hx, hw, -⟩ := hcr.exists_after hco hend
  obtain rfl := hco.placeOf_inj (Graph.lt_of_mem_outs hxw) hlt (hx.trans hplace.symm)
  have hfwd := hu.before_mid
  rw [Nat.add_sub_cancel] at hfwd
  have hne : w ≠ t.opAt q := fun he => (hplace ▸ hw).ne (he ▸ rfl)
  obtain ⟨s, hs, hbest, hun⟩ := hidle _ ⟨hlt, hu.first, hfwd, w, .inr (.inr hxw), hne⟩
  have hsame := hcr.sameAround_of_first hs.toCoherent hco hs.graph_eq hs.toLegal hlt
    (hco.opAt_lt (by omega)) hplace (hco.placeOf_opAt (by omega)) hi hend hun
  obtain ⟨hsi, hsu⟩ := hsame.exchangeable hs.toCoherent hco hs.graph_eq (by omega) hi hu
  rw [(hsame.first hlt).mpr hplace] at hbest
  rw [← hsame.exchangePrice_eq hs.toCoherent hco hs.graph_eq]
  have hcs : q + 2 ≤ s.opCount := by
    rw [Schedule.opCount, hs.graph_eq]
    exact hend.le
  exact hs.toUpToDate.not_lt_of_idle_ahead (by omega) (by omega) hcs hsi hsu (by omega) (by omega)
    hbest

theorem Intact.not_lt_of_second (hend : q + 2 = t.opCount) (hq : 0 < q) :
    Weight.lt (t.exchangePrice q (q + 1) (q + 2)) 0 = false := by
  have hco := ht.toCoherent
  obtain rfl := ht.graph_eq
  have hlt := hco.opAt_lt (i := q + 1) (by omega)
  have hplace := hco.placeOf_opAt (i := q + 1) (by omega)
  obtain ⟨w, x, hwx, -, hw, hx⟩ := hcr.exists_before hco (p := q - 1) (by omega)
  obtain rfl := hco.placeOf_inj (hco.wellFormed.outs_lt hwx) hlt (by omega)
  have hfwd := hu.last
  rw [show q + 2 - 1 = q + 1 by omega] at hfwd
  have hne : w ≠ t.opAt (q + 1) := by
    rintro rfl
    omega
  obtain ⟨s, hs, hbest, hun⟩ := hidle _ ⟨hlt, hu.mid, hfwd, w,
    .inr (.inl (hco.wellFormed.mem_ins.mpr hwx)), hne⟩
  have hsame := hcr.sameAround_of_second hs.toCoherent hco hs.graph_eq hs.toLegal
    (hco.opAt_lt (by omega)) hlt (hco.placeOf_opAt (by omega)) hplace hi hend hq hun
  obtain ⟨hsi, hsu⟩ := hsame.exchangeable hs.toCoherent hco hs.graph_eq (by omega) hi hu
  rw [(hsame.second hlt).mpr hplace] at hbest
  rw [← hsame.exchangePrice_eq hs.toCoherent hco hs.graph_eq]
  have hcs : q + 2 ≤ s.opCount := by
    rw [Schedule.opCount, hs.graph_eq]
    exact hend.le
  exact hs.toUpToDate.not_lt_of_idle_back (by omega) (by omega) hcs hsi hsu (by omega) (by omega)
    hbest

end Neighbours

/-- With little room, size one is settled when all movable Ops are idle since some schedule. -/
theorem Intact.settled_one (ht : t.Intact g 1) (hcr : t.Cramped 1)
    (hidle : ∀ u, Movable g u → IdleSince g u t) : t.Settled 1 := by
  rintro a b c hab hbc hc hi hu -
  obtain ⟨hb, hc'⟩ := hcr.blocks ht.toCoherent hab hbc hc hi
  obtain rfl : b = a + 1 := by omega
  obtain rfl : c = a + 2 := by omega
  rcases Nat.lt_or_eq_of_le hc with hend | hend
  · exact ht.not_lt_of_first hcr hidle hi hu hend
  · rcases Nat.eq_zero_or_pos a with rfl | ha
    · rw [ht.toCoherent.exchangePrice_of_two hend.symm]
      exact Weight.lt_self 0
    · exact ht.not_lt_of_second hcr hidle hi hu hend ha

end Liveness.Schedule
