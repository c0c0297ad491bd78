import Liveness.Proofs.Schedule.Legal

/-! # Moves that pass an Op by

A move marks the Ops of all constraints that cross an edge of one of its blocks. Around an
Op that it leaves unmarked little happens: every other Op stays on its side of the Op and
of all Ops it has a constraint with, or jumps over all of them at once.
-/

namespace Liveness

/-- An Op itself and the Ops it has a constraint with. -/
def Graph.Near {W : Type} (g : Graph W) (u y : Nat) : Prop :=
  y = u ∨ y ∈ (g.op u).ins ∨ y ∈ (g.op u).outs

namespace Schedule

variable {W : Type} {s t v : Schedule W} {g : Graph W} {a b c i u x y z : Nat}

section Sides

def Outside (g : Graph W) (s : Schedule W) (u z : Nat) : Prop :=
  (∀ y, g.Near u y → s.placeOf z < s.placeOf y) ∨ ∀ y, g.Near u y → s.placeOf y < s.placeOf z

def SameSides (g : Graph W) (s t : Schedule W) (u z : Nat) : Prop :=
  ∀ y, g.Near u y → (s.placeOf z < s.placeOf y ↔ t.placeOf z < t.placeOf y) ∧
    (s.placeOf y < s.placeOf z ↔ t.placeOf y < t.placeOf z)

/-- Between two schedules every Op stayed on its sides of the Ops near `u`, or is on one
side of them all before and after. -/
def Undisturbed (g : Graph W) (s t : Schedule W) (u : Nat) : Prop :=
  ∀ z < g.opCount, SameSides g s t u z ∨ Outside g s u z ∧ Outside g t u z

theorem SameSides.outside_iff (h : SameSides g s t u z) : Outside g s u z ↔ Outside g t u z :=
  or_congr (forall_congr' fun y => forall_congr' fun hy => (h y hy).1)
    (forall_congr' fun y => forall_congr' fun hy => (h y hy).2)

theorem SameSides.trans (h : SameSides g s t u z) (h' : SameSides g t v u z) :
    SameSides g s v u z := fun y hy =>
  ⟨(h y hy).1.trans (h' y hy).1, (h y hy).2.trans (h' y hy).2⟩

theorem Undisturbed.refl (g : Graph W) (s : Schedule W) (u : Nat) : Undisturbed g s s u :=
  fun _ _ => .inl fun _ _ => ⟨Iff.rfl, Iff.rfl⟩

theorem Undisturbed.trans (h : Undisturbed g s t u) (h' : Undisturbed g t v u) :
    Undisturbed g s v u := by
  intro z hz
  rcases h z hz with h | ⟨hs, ht⟩ <;> rcases h' z hz with h' | ⟨ht', hv⟩
  · exact .inl (h.trans h')
  · exact .inr ⟨h.outside_iff.mpr ht', hv⟩
  · exact .inr ⟨hs, h'.outside_iff.mp ht⟩
  · exact .inr ⟨hs, hv⟩

theorem Undisturbed.congr (h : Undisturbed g s t u) (hv : v.places = t.places) :
    Undisturbed g s v u := by
  intro z hz
  have hp : ∀ x, v.placeOf x = t.placeOf x := fun x => congrArg (·.getD x 0) hv
  simpa only [SameSides, Outside, hp] using h z hz

end Sides

section Marks

def Marked (s : Schedule W) (u : Nat) : Prop := s.susceptible.getD u false = true

/-- `t` is `s` with more marks, at least those of the Ops in `P`. -/
structure Marks (s t : Schedule W) (P : Nat → Prop) : Prop where
  eq : t = { s with susceptible := t.susceptible }
  size : t.susceptible.size = s.susceptible.size
  keeps : ∀ {u}, s.Marked u → t.Marked u
  marks : ∀ {u}, u < s.susceptible.size → P u → t.Marked u

theorem Marks.none (s : Schedule W) : Marks s s fun _ => False :=
  ⟨rfl, rfl, id, fun _ h => h.elim⟩

theorem Marks.trans {P Q : Nat → Prop} (h : Marks s t P) (h' : Marks t v Q) :
    Marks s v fun u => P u ∨ Q u := by
  refine ⟨?_, h'.size.trans h.size, fun hu => h'.keeps (h.keeps hu), fun hu hp => ?_⟩
  · rw [h'.eq, h.eq]
  · rcases hp with hp | hq
    · exact h'.keeps (h.marks hu hp)
    · exact h'.marks (h.size ▸ hu) hq

theorem Marks.foldl {α : Type} {f : Schedule W → α → Schedule W} {P : α → Nat → Prop}
    (hf : ∀ t x, t = { s with susceptible := t.susceptible } → Marks t (f t x) (P x))
    (xs : List α) : Marks s (xs.foldl f s) fun u => ∃ x ∈ xs, P x u := by
  have hall : ∀ t Q, Marks s t Q →
      Marks s (xs.foldl f t) fun u => Q u ∨ ∃ x ∈ xs, P x u := by
    induction xs with
    | nil => intro t Q h; simpa using h
    | cons x xs ih =>
      intro t Q h
      have := ih (f t x) _ (h.trans (hf t x h.eq))
      simpa [or_assoc] using this
  simpa using hall s _ (.none s)

theorem marks_touch (s : Schedule W) (x y : Nat) :
    Marks s (s.touch y x) fun u => u = y ∨ u = x := by
  refine ⟨rfl, by simp [touch], fun {u} hu => ?_, fun {u} hu hp => ?_⟩
  · unfold Marked at hu ⊢
    simp only [touch, Array.getD_eq_getD_getElem?, Array.getElem?_setIfInBounds] at hu ⊢
    grind
  · unfold Marked
    simp only [touch, Array.getD_eq_getD_getElem?, Array.getElem?_setIfInBounds]
    grind

def Leaves (s : Schedule W) (a b i y : Nat) : Prop :=
  y ∈ (s.graph.op (s.opAt i)).ins ∧ s.placeOf y < a ∨
    y ∈ (s.graph.op (s.opAt i)).outs ∧ b ≤ s.placeOf y

/-- A constraint that crosses an edge of the block `[a, b)` has the end `u`. -/
def Crosses (s : Schedule W) (a b u : Nat) : Prop :=
  ∃ i, (a ≤ i ∧ i < b) ∧ ∃ y, s.Leaves a b i y ∧ (u = y ∨ u = s.opAt i)

theorem marks_touchAround (s : Schedule W) (a b i : Nat) :
    Marks s (touchAround a b s i) fun u => ∃ y, s.Leaves a b i y ∧ (u = y ∨ u = s.opAt i) := by
  have h := Marks.foldl (s := s) (f := fun t y => t.touch y (s.opAt i))
    (P := fun y u => u = y ∨ u = s.opAt i) (fun t y _ => marks_touch t (s.opAt i) y)
    (((s.graph.op (s.opAt i)).ins.filter fun y => s.placeOf y < a) ++
      (s.graph.op (s.opAt i)).outs.filter fun y => b ≤ s.placeOf y)
  refine ⟨h.eq, h.size, h.keeps, fun hu => ?_⟩
  rintro ⟨y, hy, hp⟩
  refine h.marks hu ⟨y, ?_, hp⟩
  simpa [Leaves] using hy

theorem marks_touchBlock (s : Schedule W) (a b : Nat) :
    Marks s (s.touchBlock a b) (s.Crosses a b) := by
  have h := Marks.foldl (s := s) (f := touchAround a b)
    (P := fun i u => ∃ y, s.Leaves a b i y ∧ (u = y ∨ u = s.opAt i)) (fun t i ht => ?_)
    (List.range' a (b - a))
  · refine ⟨h.eq, h.size, h.keeps, fun hu => ?_⟩
    rintro ⟨i, hi, hp⟩
    exact h.marks hu ⟨i, List.mem_range'_1.mpr (by omega), hp⟩
  · have hm := marks_touchAround t a b i
    rwa [show (fun u => ∃ y, t.Leaves a b i y ∧ (u = y ∨ u = t.opAt i)) =
      fun u => ∃ y, s.Leaves a b i y ∧ (u = y ∨ u = s.opAt i) by rw [ht]; rfl] at hm

theorem marks_touchBlocks (s : Schedule W) (a b c : Nat) :
    Marks s ((s.touchBlock a b).touchBlock b c) fun u => s.Crosses a b u ∨ s.Crosses b c u := by
  have h := marks_touchBlock s a b
  have h' := marks_touchBlock (s.touchBlock a b) b c
  have hc : (s.touchBlock a b).Crosses b c = s.Crosses b c := by
    rw [h.eq]
    rfl
  exact h.trans (hc ▸ h')

end Marks

variable [Weight W]

theorem susceptible_apply {m : Move} (hb : m.bounds = (a, b, c)) :
    (s.apply m).susceptible = ((s.touchBlock a b).touchBlock b c).susceptible := by
  rw [apply_eq hb]
  rfl

/-- A move keeps all marks, and leaves no Op with a crossing constraint unmarked. -/
theorem marked_apply {m : Move} (hb : m.bounds = (a, b, c)) :
    (s.apply m).susceptible.size = s.susceptible.size ∧
      (s.Marked u → (s.apply m).Marked u) ∧
      (u < s.susceptible.size → s.Crosses a b u ∨ s.Crosses b c u → (s.apply m).Marked u) := by
  have h := marks_touchBlocks s a b c
  unfold Marked
  rw [susceptible_apply hb]
  exact ⟨h.size, h.keeps, h.marks⟩

theorem Coherent.near_lt (hs : s.Coherent) (hu : u < s.opCount) (hy : s.graph.Near u y) :
    y < s.opCount := by
  rcases hy with rfl | hy | hy
  · exact hu
  · exact hs.wellFormed.lt_of_mem_ins hy
  · exact hs.wellFormed.outs_lt hy

section Step

variable (hs : s.Coherent) (hl : s.Legal) (hu : u < s.opCount)

include hs hl hu

/-- A block that no constraint of an Op crosses has all Ops near it or none of them. -/
theorem Legal.near_block (hn : ¬ s.Crosses a b u) :
    (∀ y, s.graph.Near u y → a ≤ s.placeOf y ∧ s.placeOf y < b) ∨
      ∀ y, s.graph.Near u y → s.placeOf y < a ∨ b ≤ s.placeOf y := by
  have hcross : ∀ {x y}, y ∈ (s.graph.op x).outs → u = x ∨ u = y →
      (a ≤ s.placeOf x ∧ s.placeOf x < b ↔ a ≤ s.placeOf y ∧ s.placeOf y < b) := by
    intro x y hxy hux
    have hx := Graph.lt_of_mem_outs hxy
    have hy := hs.wellFormed.outs_lt hxy
    have hlt := hl.before hxy
    constructor
    · intro hin
      refine ⟨by omega, Nat.lt_of_not_le fun hle => hn ?_⟩
      refine ⟨s.placeOf x, hin, y, .inr ⟨?_, hle⟩, ?_⟩ <;> rw [hs.opAt_placeOf hx]
      · exact hxy
      · exact hux.symm
    · intro hin
      refine ⟨Nat.le_of_not_lt fun hlt' => hn ?_, by omega⟩
      refine ⟨s.placeOf y, hin, x, .inl ⟨?_, hlt'⟩, ?_⟩ <;> rw [hs.opAt_placeOf hy]
      · exact hs.wellFormed.mem_ins.mpr hxy
      · exact hux
  have hnear : ∀ y, s.graph.Near u y →
      (a ≤ s.placeOf u ∧ s.placeOf u < b ↔ a ≤ s.placeOf y ∧ s.placeOf y < b) := by
    rintro y (rfl | hy | hy)
    · rfl
    · exact (hcross (hs.wellFormed.mem_ins.mp hy) (.inr rfl)).symm
    · exact hcross hy (.inl rfl)
  by_cases hin : a ≤ s.placeOf u ∧ s.placeOf u < b
  · exact .inl fun y hy => (hnear y hy).mp hin
  · refine .inr fun y hy => ?_
    have := mt (hnear y hy).mpr hin
    omega

theorem Legal.crosses_single (ha : s.placeOf u = a) (hy : s.graph.Near u y) (hne : y ≠ u) :
    s.Crosses a (a + 1) u := by
  refine Classical.byContradiction fun hn => ?_
  rcases hl.near_block hs hu hn with h | h
  · have := h y hy
    have hplace : s.placeOf y = s.placeOf u := by omega
    rw [← hs.opAt_placeOf (hs.near_lt hu hy), hplace, hs.opAt_placeOf hu] at hne
    exact hne rfl
  · have := h u (.inl rfl)
    omega

theorem Exchanged.undisturbed (e : Exchanged s t a b c) (hn : ¬ s.Crosses a b u)
    (hn' : ¬ s.Crosses b c u) : Undisturbed s.graph s t u := by
  intro z hz
  have hab := e.le_mid
  have hbc := e.mid_le
  have hplace : ∀ y, s.graph.Near u y → t.placeOf y = Move.landing a b c (s.placeOf y) :=
    fun y hy => e.placeOf (hs.near_lt hu hy)
  have hz' : t.placeOf z = Move.landing a b c (s.placeOf z) := e.placeOf hz
  rcases hl.near_block hs hu hn with h₁ | h₁
  · -- all that is near is in the first block, and only the second one comes past it, as a whole
    by_cases hzb : b ≤ s.placeOf z ∧ s.placeOf z < c
    · refine .inr ⟨.inr fun y hy => ?_, .inl fun y hy => ?_⟩
      · have := h₁ y hy
        omega
      · have := h₁ y hy
        rw [hplace y hy, hz']
        grind [Move.landing]
    · refine .inl fun y hy => ?_
      have := h₁ y hy
      rw [hplace y hy, hz']
      grind [Move.landing]
  · rcases hl.near_block hs hu hn' with h₂ | h₂
    · by_cases hza : a ≤ s.placeOf z ∧ s.placeOf z < b
      · refine .inr ⟨.inl fun y hy => ?_, .inr fun y hy => ?_⟩
        · have := h₂ y hy
          omega
        · have := h₂ y hy
          rw [hplace y hy, hz']
          grind [Move.landing]
      · refine .inl fun y hy => ?_
        have := h₂ y hy
        rw [hplace y hy, hz']
        grind [Move.landing]
    · refine .inl fun y hy => ?_
      have := h₁ y hy
      have := h₂ y hy
      rw [hplace y hy, hz']
      grind [Move.landing]

end Step

end Schedule

end Liveness
