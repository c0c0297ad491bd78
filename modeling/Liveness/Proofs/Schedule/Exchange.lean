import Liveness.Proofs.Writes
import Liveness.Schedule.State

/-! # Exchanging two blocks

Where each entry of an array comes from and goes to when two neighbouring blocks change
places, and how the record of places follows.
-/

namespace Liveness

namespace Move

/-- The place that an entry has before the blocks `[a, b)` and `[b, c)` change places and
that is `i` afterwards. -/
def source (a b c i : Nat) : Nat :=
  if i < a then i else if i < a + (c - b) then i + (b - a)
  else if i < c then i - (c - b) else i

/-- The place to which the entry at `p` goes when the blocks change places. -/
def landing (a b c p : Nat) : Nat :=
  if p < a then p else if p < b then p + (c - b) else if p < c then p - (b - a) else p

variable {a b c : Nat}

theorem landing_source (hab : a ≤ b) (hbc : b ≤ c) (i : Nat) :
    landing a b c (source a b c i) = i := by
  grind [landing, source]

theorem source_landing (hab : a ≤ b) (hbc : b ≤ c) (p : Nat) :
    source a b c (landing a b c p) = p := by
  grind [landing, source]

theorem source_lt_iff (hab : a ≤ b) (hbc : b ≤ c) {n i : Nat} (hc : c ≤ n) :
    source a b c i < n ↔ i < n := by
  grind [source]

theorem source_of_lt {i : Nat} (h : i < a) : source a b c i = i := if_pos h

theorem source_of_ge (hab : a ≤ b) (hbc : b ≤ c) {i : Nat} (h : c ≤ i) :
    source a b c i = i := by
  grind [source]

theorem source_mem (hab : a ≤ b) (hbc : b ≤ c) {i : Nat} (hi : a ≤ i) (hi' : i < c) :
    a ≤ source a b c i ∧ source a b c i < c := by
  grind [source]

variable {α : Type} {xs : Array α}

theorem size_exchange (hab : a ≤ b) (hbc : b ≤ c) (hc : c ≤ xs.size) :
    (exchange xs a b c).size = xs.size := by
  simp only [exchange, Array.size_append, Array.size_extract]
  omega

theorem getD_exchange (hab : a ≤ b) (hbc : b ≤ c) (hc : c ≤ xs.size) (d : α) (i : Nat) :
    (exchange xs a b c).getD i d = xs.getD (source a b c i) d := by
  by_cases hi : i < xs.size
  · have hs : source a b c i < xs.size := (source_lt_iff hab hbc hc).mpr hi
    have he : i < (exchange xs a b c).size := (size_exchange hab hbc hc).symm ▸ hi
    rw [Array.getD_eq_getD_getElem?, Array.getD_eq_getD_getElem?, Array.getElem?_eq_getElem he,
      Array.getElem?_eq_getElem hs, Option.getD_some, Option.getD_some]
    simp only [exchange, Array.getElem_append, Array.getElem_extract, Array.size_append,
      Array.size_extract]
    repeat' split
    all_goals
      congr 1
      unfold source
      repeat' split
      all_goals omega
  · have hs : ¬ source a b c i < xs.size := fun h => hi ((source_lt_iff hab hbc hc).mp h)
    have he : ¬ i < (exchange xs a b c).size := (size_exchange hab hbc hc).symm ▸ hi
    simp [Array.getD, hs, he]

end Move

namespace Schedule

variable {ops places : Array Nat} {a c x i : Nat}

@[simp]
theorem size_place (ops : Array Nat) (a c : Nat) (places : Array Nat) :
    (place ops a c places).size = places.size :=
  Writes.size_writeAll places (List.range' a (c - a))

theorem getD_place_of_ne (h : ∀ i, a ≤ i → i < c → ops.getD i 0 ≠ x) :
    (place ops a c places).getD x 0 = places.getD x 0 := by
  rw [Array.getD_eq_getD_getElem?, Array.getD_eq_getD_getElem?]
  refine congrArg (Option.getD · 0) (Writes.getElem?_writeAll_of_ne fun i hi => ?_)
  have hm := List.mem_range'_1.mp hi
  exact h i hm.1 (by omega)

theorem getD_place_of_mem (hx : x < places.size) (hi : a ≤ i) (hi' : i < c)
    (hix : ops.getD i 0 = x) (h : ∀ j, a ≤ j → j < c → ops.getD j 0 = x → j = i) :
    (place ops a c places).getD x 0 = i := by
  rw [Array.getD_eq_getD_getElem?]
  refine (congrArg (Option.getD · 0) (Writes.getElem?_writeAll_of_mem (v := i) hx ?_ ?_)).trans
    (Option.getD_some ..)
  · exact ⟨i, List.mem_range'_1.mpr ⟨hi, by omega⟩, hix⟩
  · intro j hj he
    have hm := List.mem_range'_1.mp hj
    exact h j hm.1 (by omega) he

end Schedule

end Liveness
