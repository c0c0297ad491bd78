import Mathlib.Logic.Relation

/-! # Pairs that others imply

In a relation that goes up in some rank, a pair is implied when other pairs lead from its first
element to its second. All such pairs can be taken out at once: what implies a pair has smaller
steps in rank, so it is implied by what is left.
-/

namespace Liveness

open Relation

variable {r s : Nat → Nat → Prop} {f : Nat → Nat} {a b : Nat}

theorem rank_lt_of_transGen (hf : ∀ {a b}, r a b → f a < f b) (h : TransGen r a b) :
    f a < f b := by
  induction h with
  | single hb => exact hf hb
  | tail _ hb ih => exact Nat.lt_trans ih (hf hb)

theorem transGen_lift_below {n : Nat} (hf : ∀ {a b}, r a b → f a < f b)
    (hn : ∀ {a b}, r a b → f b - f a < n → TransGen s a b) (h : TransGen r a b)
    (hlt : f b - f a < n) : TransGen s a b := by
  induction h with
  | single hb => exact hn hb hlt
  | @tail y z hy hb ih =>
    have h₁ := rank_lt_of_transGen (r := r) hf hy
    have h₂ := hf hb
    exact (ih (by omega)).trans (hn hb (by omega))

/-- Pairs that are left or implied are implied by those that are left. -/
theorem transGen_of_implied (hf : ∀ {a b}, r a b → f a < f b)
    (hi : ∀ {a b}, r a b → s a b ∨ ∃ x, TransGen r a x ∧ r x b) (h : r a b) :
    TransGen s a b := by
  obtain ⟨n, hn⟩ : ∃ n, f b - f a = n := ⟨_, rfl⟩
  induction n using Nat.strongRecOn generalizing a b with
  | ind n ih =>
    rcases hi h with hs | ⟨x, hx, hxb⟩
    · exact .single hs
    · have h₁ := rank_lt_of_transGen (r := r) hf hx
      have h₂ := hf hxb
      have hbelow : ∀ {a b}, r a b → f b - f a < n → TransGen s a b := fun h hlt =>
        ih _ hlt h rfl
      exact (transGen_lift_below (r := r) hf hbelow hx (by omega)).trans (hbelow hxb (by omega))

/-- The pairs of a relation that other pairs do not imply. -/
def Needed (r : Nat → Nat → Prop) : Nat → Nat → Prop :=
  fun a b => r a b ∧ ¬ ∃ x, TransGen r a x ∧ r x b

theorem transGen_of_needed (h : TransGen (Needed r) a b) : TransGen r a b :=
  TransGen.mono (fun _ _ h => h.1) a b h

theorem transGen_needed (hf : ∀ {a b}, r a b → f a < f b) :
    TransGen (Needed r) a b ↔ TransGen r a b := by
  have hneeded : ∀ {a b}, r a b → TransGen (Needed r) a b := by
    refine fun hab => transGen_of_implied (r := r) hf (fun {a b} hab => ?_) hab
    by_cases hx : ∃ x, TransGen r a x ∧ r x b
    · exact .inr hx
    · exact .inl ⟨hab, hx⟩
  constructor
  · exact transGen_of_needed
  · intro h
    induction h with
    | single hab => exact hneeded hab
    | tail _ hab ih => exact ih.trans (hneeded hab)

theorem Needed.of_transGen (h : Needed r a b) (hs : ∀ a b, TransGen s a b ↔ TransGen r a b) :
    s a b := by
  obtain ⟨x, hx, hxb⟩ := TransGen.tail'_iff.mp ((hs a b).mpr (.single h.1))
  rcases reflTransGen_iff_eq_or_transGen.mp hx with rfl | hx
  · exact hxb
  · -- otherwise the last step and what leads to it would imply the pair in the relation
    obtain ⟨y, hy, hyb⟩ := TransGen.tail'_iff.mp ((hs x b).mp (.single hxb))
    exact absurd ⟨y, ((hs a x).mp hx).trans_left hy, hyb⟩ h.2

theorem Needed.not_transGen_rest (h : Needed r a b) :
    ¬ TransGen (fun x y => Needed r x y ∧ ¬ (x = a ∧ y = b)) a b := by
  intro hp
  obtain ⟨x, hx, ⟨hxb, -⟩, hne⟩ := TransGen.tail'_iff.mp hp
  rcases reflTransGen_iff_eq_or_transGen.mp hx with rfl | hx
  · exact hne ⟨rfl, rfl⟩
  · exact h.2 ⟨x, TransGen.mono (fun _ _ h => h.1.1) a x hx, hxb⟩

end Liveness
