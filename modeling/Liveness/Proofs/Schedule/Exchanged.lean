import Liveness.Proofs.Schedule.Room
import Liveness.Schedule.Shift

/-! # Schedules with two blocks exchanged

A move brings up to date only what depends on the Ops of its two blocks. Nothing else
changes, so the schedule is coherent again.
-/

namespace Liveness

namespace Move

variable {a b c : Nat} {α β : Type}

theorem exchange_perm (hab : a ≤ b) (hbc : b ≤ c) {xs : Array α} (hc : c ≤ xs.size) :
    (exchange xs a b c).toList.Perm xs.toList := by
  have hx : xs = xs.extract 0 a ++ (xs.extract a b ++ xs.extract b c) ++ xs.extract c xs.size := by
    simp only [Array.extract_append_extract, Nat.zero_min, Nat.min_eq_left, Nat.max_eq_right,
      hab, hbc, hc, Nat.le_trans hab hbc, Array.extract_size]
  have hl := congrArg Array.toList hx
  simp only [Array.toList_append] at hl
  rw [hl]
  simp only [exchange, Array.toList_append, List.append_assoc]
  refine List.Perm.append_left _ ?_
  rw [← List.append_assoc, ← List.append_assoc]
  exact List.perm_append_comm.append_right _

theorem exchange_map (f : α → β) (xs : Array α) :
    exchange (xs.map f) a b c = (exchange xs a b c).map f := by
  simp [exchange, Array.map_append]

theorem landing_of_outside (hab : a ≤ b) (hbc : b ≤ c) {p : Nat} (h : p < a ∨ c ≤ p) :
    landing a b c p = p := by
  grind [landing]

theorem landing_mem_iff (hab : a ≤ b) (hbc : b ≤ c) {p : Nat} :
    (a ≤ landing a b c p ∧ landing a b c p < c) ↔ (a ≤ p ∧ p < c) := by
  grind [landing]

end Move

namespace Schedule

variable {W : Type} {s t : Schedule W} {a b c i n x : Nat}

/-- `t` is the schedule `s` after the blocks `[a, b)` and `[b, c)` changed places. -/
structure Exchanged (s t : Schedule W) (a b c : Nat) : Prop where
  graph : t.graph = s.graph
  le_mid : a ≤ b
  mid_le : b ≤ c
  le_count : c ≤ s.opCount
  opAt : ∀ i, t.opAt i = s.opAt (Move.source a b c i)
  placeOf : ∀ {x}, x < s.opCount → t.placeOf x = Move.landing a b c (s.placeOf x)

namespace Exchanged

theorem opCount (e : Exchanged s t a b c) : t.opCount = s.opCount := by
  unfold Schedule.opCount
  rw [e.graph]

theorem placeOf_of_outside (e : Exchanged s t a b c) (hx : x < s.opCount)
    (h : s.placeOf x < a ∨ c ≤ s.placeOf x) : t.placeOf x = s.placeOf x := by
  rw [e.placeOf hx, Move.landing_of_outside e.le_mid e.mid_le h]

theorem opAt_of_outside (e : Exchanged s t a b c) (h : i < a ∨ c ≤ i) : t.opAt i = s.opAt i := by
  rw [e.opAt]
  rcases h with h | h
  · rw [Move.source_of_lt h]
  · rw [Move.source_of_ge e.le_mid e.mid_le h]

theorem exists_opAt_iff (e : Exchanged s t a b c) :
    (∃ i, (a ≤ i ∧ i < c) ∧ t.opAt i = x) ↔ ∃ i, (a ≤ i ∧ i < c) ∧ s.opAt i = x := by
  constructor
  · rintro ⟨i, hi, rfl⟩
    exact ⟨_, Move.source_mem e.le_mid e.mid_le hi.1 hi.2, (e.opAt i).symm⟩
  · rintro ⟨i, hi, rfl⟩
    refine ⟨_, (Move.landing_mem_iff e.le_mid e.mid_le).mpr hi, ?_⟩
    rw [e.opAt, Move.source_landing e.le_mid e.mid_le]

end Exchanged

section Between

variable {r y : Nat}

theorem mem_allocsBetween : r ∈ s.allocsBetween a c ↔ ∃ i, (a ≤ i ∧ i < c) ∧ r ∈ s.allocsAt i := by
  simp only [allocsBetween, Ascending.mem_ofList, List.mem_flatMap, List.mem_range'_1]
  exact exists_congr fun i => and_congr_left fun _ => by omega

theorem mem_producersBetween :
    y ∈ s.producersBetween a c ↔ ∃ i, (a ≤ i ∧ i < c) ∧ y ∈ (s.graph.op (s.opAt i)).ins := by
  simp only [producersBetween, Ascending.mem_ofList, List.mem_flatMap, List.mem_range'_1]
  exact exists_congr fun i => and_congr_left fun _ => by omega

theorem mem_consumersBetween :
    y ∈ s.consumersBetween a c ↔ ∃ i, (a ≤ i ∧ i < c) ∧ y ∈ (s.graph.op (s.opAt i)).outs := by
  simp only [consumersBetween, Ascending.mem_ofList, List.mem_flatMap, List.mem_range'_1]
  exact exists_congr fun i => and_congr_left fun _ => by omega

end Between

/-- Bringing the listed entries up to date is enough if no place changed in the others. -/
theorem writeAll_placesOf {ι : Type} {xs : Array ι} {members : ι → List Nat} {f : Nat → ι}
    {places places' : Array Nat} {items : List Nat} (hf : ∀ i (hi : i < xs.size), xs[i] = f i)
    (h : ∀ i < xs.size, i ∉ items → ∀ a ∈ members (f i), places.getD a 0 = places'.getD a 0) :
    Writes.writeAll id (fun i => placesOf places' (members (f i)))
        (xs.map fun x => placesOf places (members x)) items =
      xs.map fun x => placesOf places' (members x) := by
  refine Writes.writeAll_eq_of_forall (by simp) (fun i hi => ?_) fun i hi hn => ?_
  · rw [Array.getElem_map, hf]
  · rw [Array.getElem_map, hf]
    exact placesOf_congr (h i (by simpa using hi) hn)

variable [Weight W]

theorem Exchanged.placeOf_of_absent (e : Exchanged s t a b c) (h : s.Coherent) (hx : x < s.opCount)
    (ha : ¬ ∃ i, (a ≤ i ∧ i < c) ∧ t.opAt i = x) : t.placeOf x = s.placeOf x := by
  refine e.placeOf_of_outside hx (Classical.byContradiction fun hn => ha ?_)
  exact e.exists_opAt_iff.mpr ⟨s.placeOf x, by omega, h.opAt_placeOf hx⟩

theorem exchanged_exchangeBlocks (h : s.Coherent) (hab : a ≤ b) (hbc : b ≤ c)
    (hc : c ≤ s.opCount) : Exchanged s (s.exchangeBlocks a b c) a b c := by
  have ho : ∀ i, (s.exchangeBlocks a b c).opAt i = s.opAt (Move.source a b c i) :=
    fun i => Move.getD_exchange hab hbc (h.size_ops.symm ▸ hc) 0 i
  refine ⟨rfl, hab, hbc, hc, ho, fun {x} hx => ?_⟩
  by_cases hm : a ≤ s.placeOf x ∧ s.placeOf x < c
  · obtain ⟨hl, hl'⟩ := (Move.landing_mem_iff hab hbc).mpr hm
    refine getD_place_of_mem (h.size_places.symm ▸ hx) hl hl' ?_ fun j hj hj' he => ?_
    · exact (ho _).trans (by rw [Move.source_landing hab hbc, h.opAt_placeOf hx])
    · have hs := (Move.source_lt_iff hab hbc hc (i := j)).mpr (by omega)
      have hp : Move.source a b c j = s.placeOf x := by
        rw [← h.placeOf_opAt hs]
        exact congrArg s.placeOf ((ho j).symm.trans he)
      rw [← hp, Move.landing_source hab hbc]
  · rw [Move.landing_of_outside hab hbc (by omega)]
    refine getD_place_of_ne fun j hj hj' he => hm ?_
    have hs := Move.source_mem hab hbc hj hj'
    have he' : s.opAt (Move.source a b c j) = x := (ho j).symm.trans he
    rwa [← he', h.placeOf_opAt (by omega)]

def exchangeFully (s : Schedule W) (a b c : Nat) : Schedule W :=
  let t := (s.exchangeBlocks a b c).refreshAllocs (s.allocsBetween a c)
  (t.refreshInputs (t.consumersBetween a c)).refreshOutputs (t.producersBetween a c)

theorem exchanged_exchangeFully (h : s.Coherent) (hab : a ≤ b) (hbc : b ≤ c)
    (hc : c ≤ s.opCount) : Exchanged s (s.exchangeFully a b c) a b c := by
  have e := exchanged_exchangeBlocks h hab hbc hc
  exact ⟨e.graph, e.le_mid, e.mid_le, e.le_count, e.opAt, e.placeOf⟩

theorem exchangeFully_coherent (h : s.Coherent) (hab : a ≤ b) (hbc : b ≤ c)
    (hc : c ≤ s.opCount) : (s.exchangeFully a b c).Coherent := by
  have e := exchanged_exchangeFully h hab hbc hc
  have hs : c ≤ s.ops.size := h.size_ops.symm ▸ hc
  constructor
  · exact h.wellFormed
  · exact (Move.exchange_perm hab hbc hs).trans h.perm
  · exact (size_place ..).trans h.size_places
  · intro i hi
    have hi' := (Move.source_lt_iff hab hbc hc).mpr hi
    rw [e.opAt, e.placeOf (h.opAt_lt hi'), h.placeOf_opAt hi', Move.landing_source hab hbc]
  · show Move.exchange s.placeAllocs a b c = _
    rw [h.placeAllocs, Move.exchange_map]
    rfl
  -- what is not refreshed has no Op between the two ends, and keeps all its places
  · show Writes.writeAll id _ s.allocPlaces _ = _
    rw [h.allocPlaces]
    refine writeAll_placesOf (f := s.graph.alloc) (fun r hr => ?_) fun r _ hn x hx => ?_
    · simp [Graph.alloc, Array.getD, hr]
    · refine (e.placeOf_of_absent h (h.wellFormed.ops_lt hx) ?_).symm
      rw [e.exists_opAt_iff]
      rintro ⟨i, hi, rfl⟩
      refine hn (mem_allocsBetween.mpr ⟨i, hi, ?_⟩)
      rw [h.allocsAt_eq (by omega)]
      exact h.wellFormed.mem_allocs.mpr hx
  · show Writes.writeAll id _ s.inPlaces _ = _
    rw [h.inPlaces]
    refine writeAll_placesOf (f := s.graph.op) (fun y hy => ?_) fun y _ hn x hx => ?_
    · simp [Graph.op, Array.getD, hy]
    · refine (e.placeOf_of_absent h (h.wellFormed.lt_of_mem_ins hx) ?_).symm
      rintro ⟨i, hi, rfl⟩
      exact hn (mem_consumersBetween.mpr ⟨i, hi, h.wellFormed.mem_ins.mp hx⟩)
  · show Writes.writeAll id _ s.outPlaces _ = _
    rw [h.outPlaces]
    refine writeAll_placesOf (f := s.graph.op) (fun y hy => ?_) fun y _ hn x hx => ?_
    · simp [Graph.op, Array.getD, hy]
    · refine (e.placeOf_of_absent h (h.wellFormed.outs_lt hx) ?_).symm
      rintro ⟨i, hi, rfl⟩
      exact hn (mem_producersBetween.mpr ⟨i, hi, h.wellFormed.mem_ins.mpr hx⟩)

end Schedule

end Liveness
