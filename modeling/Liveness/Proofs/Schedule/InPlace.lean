import Liveness.Proofs.Schedule.Resize
import Liveness.Proofs.Success
import Liveness.Proofs.Writes
import Liveness.Schedule.InPlace

/-! # Rooms carried over in place

In a schedule that lists every Op once, every index that the rooms are computed with is in
range and no difference is below zero. Going up, each room is overwritten after it was read
for the window behind it, so that carrying over gives what computing anew does.
-/

namespace Liveness.Schedule

open Success

section Lookup

variable {place m n : Nat} {places : List Nat}

theorem minus?_eq (h : n ≤ m) : minus? m n = some (m - n) := if_pos h

theorem overwrite?_eq {xs : Array Nat} {i : Nat} (v : Nat) (h : i < xs.size) :
    overwrite? xs i v = some (xs.setIfInBounds i v) := if_pos h

theorem firstFrom_eq (place : Nat) (places : List Nat) :
    firstFrom place places = places.find? fun p => place ≤ p :=
  List.find?_eq_getElem?_findIdx.symm

theorem take_countBefore (h : places.Pairwise (· ≤ ·)) :
    places.take (countBefore place places) = places.filter fun p => p < place := by
  induction places with
  | nil => rfl
  | cons p places ih =>
    obtain ⟨hp, hs⟩ := List.pairwise_cons.mp h
    by_cases hlt : p < place
    · have hn : ¬ place ≤ p := by omega
      have hc : countBefore place (p :: places) = countBefore place places + 1 := by
        simp [countBefore, List.findIdx_cons, hn]
      rw [hc, List.take_succ_cons, ih hs, List.filter_cons_of_pos (by simpa using hlt)]
    · have hc : countBefore place (p :: places) = 0 := by
        simp [countBefore, List.findIdx_cons, Nat.le_of_not_lt hlt]
      have hnone : ∀ q ∈ p :: places, ¬ q < place := by
        intro q hq
        rcases List.mem_cons.mp hq with rfl | hq
        · exact hlt
        · have := hp q hq
          omega
      rw [hc, List.take_zero, eq_comm, List.filter_eq_nil_iff]
      simpa using hnone

theorem lastBefore?_eq (h : places.Pairwise (· ≤ ·)) :
    lastBefore? place places = some (places.filter fun p => p < place).getLast? := by
  have hle : countBefore place places ≤ places.length := List.findIdx_le_length
  rw [← take_countBefore h, List.getLast?_take]
  unfold lastBefore?
  split
  · next hc => rw [if_pos hc]
  · next count hc =>
    have hlt : count < places.length := by omega
    rw [hc, if_neg (Nat.succ_ne_zero count), Nat.succ_sub_one,
      List.getElem?_eq_getElem hlt]
    rfl

theorem getElem?_eq_some_getD {α : Type} {xs : Array α} {i : Nat} (d : α) (h : i < xs.size) :
    xs[i]? = some (xs.getD i d) := by
  simp [Array.getD, h]

theorem setIfInBounds_eq_self {α : Type} {xs : Array α} {i : Nat} {x : α}
    (h : xs[i]? = some x) : xs.setIfInBounds i x = xs := by
  refine Array.ext_getElem? fun j => ?_
  rw [Array.getElem?_setIfInBounds]
  split
  · next he =>
    subst he
    rw [if_pos (Array.getElem?_eq_some_iff.mp h).choose, h]
  · rfl

end Lookup

variable {W : Type} [Weight W] {s : Schedule W} {a i n start : Nat}

namespace Coherent

theorem ops_getElem? (h : s.Coherent) (hi : i < s.opCount) : s.ops[i]? = some (s.opAt i) :=
  getElem?_eq_some_getD 0 (h.size_ops ▸ hi)

theorem inPlaces_getElem? (h : s.Coherent) (ha : a < s.opCount) :
    s.inPlaces[a]? = some (s.placesBefore a) :=
  getElem?_eq_some_getD [] (by rw [h.inPlaces, Array.size_map]; exact ha)

theorem outPlaces_getElem? (h : s.Coherent) (ha : a < s.opCount) :
    s.outPlaces[a]? = some (s.placesAfter a) :=
  getElem?_eq_some_getD [] (by rw [h.outPlaces, Array.size_map]; exact ha)

theorem lastBefore?_eq (h : s.Coherent) (ha : a < s.opCount) :
    (do lastBefore? start (← s.inPlaces[a]?)) =
      some ((s.placesBefore a).filter fun p => p < start).getLast? := by
  rw [h.inPlaces_getElem? ha]
  exact Schedule.lastBefore?_eq (h.placesBefore_sorted a)

theorem window?_eq (h : s.Coherent) (hw : start + n ≤ s.opCount) :
    s.window? start n = some ((List.range' start n).map s.opAt) :=
  mapM_eq_some fun i hi => h.ops_getElem? (by have := List.mem_range'_1.mp hi; omega)

theorem lt_of_mem_window (h : s.Coherent) (hw : start + n ≤ s.opCount)
    (ha : a ∈ (List.range' start n).map s.opAt) : a < s.opCount := by
  obtain ⟨i, hi, rfl⟩ := List.mem_map.mp ha
  have := List.mem_range'_1.mp hi
  exact h.opAt_lt (by omega)

theorem roomBackAt?_eq (h : s.Coherent) (hw : start + n ≤ s.opCount) :
    s.roomBackAt? n start = some (s.roomBackAt n start) := by
  have hf : ((List.range' start n).map s.opAt).mapM
      (fun a => do lastBefore? start (← s.inPlaces[a]?)) =
        some (((List.range' start n).map s.opAt).map fun a =>
          ((s.placesBefore a).filter fun p => p < start).getLast?) :=
    mapM_eq_some fun a ha => h.lastBefore?_eq (h.lt_of_mem_window hw ha)
  unfold roomBackAt?
  rw [h.window?_eq hw, Option.bind_eq_bind, Option.bind_some, hf, Option.bind_eq_bind,
    Option.bind_some, List.filterMap_map, Function.id_comp]
  rw [show List.max? _ = s.lastProducer? start n from rfl]
  unfold roomBackAt
  cases hp : s.lastProducer? start n with
  | none => rfl
  | some p =>
    have hlt : p < start := by
      obtain ⟨a, -, hl⟩ := List.mem_filterMap.mp (List.max?_mem hp)
      simpa using (List.mem_filter.mp (List.mem_of_getLast? hl)).2
    dsimp only
    rw [minus?_eq (by omega)]
    exact minus?_eq (by omega)

theorem roomAheadAt?_eq (h : s.Coherent) (hw : start + n ≤ s.opCount) :
    s.roomAheadAt? n start = some (s.roomAheadAt n start) := by
  have hf : ((List.range' start n).map s.opAt).mapM
      (fun a => do return firstFrom (start + n) (← s.outPlaces[a]?)) =
        some (((List.range' start n).map s.opAt).map fun a =>
          (s.placesAfter a).find? fun p => start + n ≤ p) :=
    mapM_eq_some fun a ha => by
      rw [h.outPlaces_getElem? (h.lt_of_mem_window hw ha), ← firstFrom_eq]
      rfl
  have hle : start + n ≤ s.firstConsumer start n :=
    h.le_firstConsumer_iff.mpr ⟨hw, fun _ _ _ _ _ hp => hp⟩
  unfold roomAheadAt?
  rw [h.window?_eq hw, Option.bind_eq_bind, Option.bind_some, hf, Option.bind_eq_bind,
    Option.bind_some, List.filterMap_map, Function.id_comp]
  change (do minus? (← minus? (s.firstConsumer start n) start) n) = _
  rw [minus?_eq (by omega)]
  exact minus?_eq (by omega)

theorem rooms?_eq (h : s.Coherent) : s.rooms? n = some (s.setRoom n).rooms := by
  have hin : ∀ i ∈ List.range (s.windowCount n), i + n ≤ s.opCount := by
    intro i hi
    have := List.mem_range.mp hi
    unfold windowCount at this
    omega
  have hb : (List.range (s.windowCount n)).mapM (s.roomBackAt? n) = _ :=
    mapM_eq_some fun i hi => h.roomBackAt?_eq (hin i hi)
  have ha : (List.range (s.windowCount n)).mapM (s.roomAheadAt? n) = _ :=
    mapM_eq_some fun i hi => h.roomAheadAt?_eq (hin i hi)
  unfold rooms?
  dsimp only
  rw [hb, ha]
  rfl

end Coherent

namespace UpToDate

theorem growBack?_eq (h : s.UpToDate n) (hi : i < s.windowCount (n + 1)) {back : Array Nat}
    (hb : back[i]? = some (s.back i)) :
    s.growBack? (n + 1) back i = some (back.setIfInBounds i (s.roomBackAt (n + 1) i)) := by
  have hw : i + (n + 1) ≤ s.opCount := by
    unfold windowCount at hi
    omega
  have hl : i + (n + 1) - 1 = i + n := by omega
  obtain ⟨hlt, -⟩ := Array.getElem?_eq_some_iff.mp hb
  have hin : i + n < s.opCount := by omega
  have hop : s.opAt (i + n) < s.opCount := h.opAt_lt hin
  have hlast : lastBefore? i (s.placesBefore (s.opAt (i + n))) = _ :=
    Schedule.lastBefore?_eq (h.placesBefore_sorted _)
  rw [← h.grownBack_eq hi]
  unfold growBack? grownBack
  simp only [minus?_eq (show 1 ≤ i + (n + 1) by omega), hl, h.ops_getElem? (i := i + n) hin,
    h.inPlaces_getElem? hop, hlast, Option.bind_eq_bind, Option.bind_some]
  cases hp : ((s.placesBefore (s.opAt (i + n))).filter fun p => p < i).getLast? with
  | none => rw [setIfInBounds_eq_self hb]
  | some p =>
    have hpi : p < i := by simpa using (List.mem_filter.mp (List.mem_of_getLast? hp)).2
    dsimp only
    rw [hb, minus?_eq (show 1 ≤ i by omega), Option.bind_some, Option.bind_some,
      minus?_eq (by omega), Option.bind_some]
    exact overwrite?_eq _ hlt

theorem growAhead?_eq (h : s.UpToDate n) (hi : i < s.windowCount (n + 1)) {ahead : Array Nat}
    (hs : ahead.size = s.windowCount (n + 1))
    (ha : i + 1 < s.windowCount (n + 1) → ahead[i + 1]? = some (s.ahead (i + 1))) :
    s.growAhead? (n + 1) ahead i = some (ahead.setIfInBounds i (s.roomAheadAt (n + 1) i)) := by
  rw [← h.grownAhead_eq hi]
  unfold growAhead? grownAhead
  split
  · exact overwrite?_eq _ (hs ▸ hi)
  · next hc =>
    have hw : i < s.opCount := by
      unfold windowCount at hi
      omega
    simp only [ha (by omega), h.ops_getElem? hw, h.outPlaces_getElem? (h.opAt_lt hw),
      Option.bind_eq_bind, Option.bind_some, firstFrom_eq]
    cases hp : (s.placesAfter (s.opAt i)).find? fun p => i + (n + 1) ≤ p with
    | none => exact overwrite?_eq _ (hs ▸ hi)
    | some p =>
      have hle : i + (n + 1) ≤ p := by simpa using List.find?_some hp
      dsimp only
      rw [minus?_eq hle, Option.bind_some]
      exact overwrite?_eq _ (hs ▸ hi)

theorem getElem?_writeAll_pop {f : Nat → Nat} {xs : Array Nat} {k : Nat} (hk : k ≤ i)
    (hi : i + 1 < xs.size) :
    (Writes.writeAll id f xs.pop (List.range k))[i]? = some (xs.getD i 0) := by
  have hne : ∀ j ∈ List.range k, id j ≠ i := fun j hj =>
    Nat.ne_of_lt (Nat.lt_of_lt_of_le (List.mem_range.mp hj) hk)
  rw [Writes.getElem?_writeAll_of_ne hne]
  simp [Array.getD, show i < xs.size - 1 by omega, show i < xs.size by omega]

/-- After some windows, their rooms are new, and those of the windows behind still old. -/
theorem foldlM_growAt?_eq (h : s.UpToDate n) {k : Nat} (hk : k ≤ s.windowCount (n + 1)) :
    (List.range k).foldlM (s.growAt? (n + 1)) ⟨s.roomBack.pop, s.roomAhead.pop⟩ = some
      ⟨Writes.writeAll id (s.roomBackAt (n + 1)) s.roomBack.pop (List.range k),
        Writes.writeAll id (s.roomAheadAt (n + 1)) s.roomAhead.pop (List.range k)⟩ := by
  have hp : s.windowCount n - 1 = s.windowCount (n + 1) := windowCount_sub_one s n
  have hsb : s.roomBack.size = s.windowCount n := by rw [h.roomBack, size_setRoom_back]
  have hsa : s.roomAhead.size = s.windowCount n := by rw [h.roomAhead, size_setRoom_ahead]
  induction k with
  | zero => rfl
  | succ k ih =>
    have hback : s.growBack? (n + 1) _ k = _ :=
      h.growBack?_eq hk (getElem?_writeAll_pop (f := s.roomBackAt (n + 1)) (Nat.le_refl k)
        (by omega))
    have hahead : s.growAhead? (n + 1) _ k = _ :=
      h.growAhead?_eq hk (by rw [Writes.size_writeAll, Array.size_pop, hsa, hp]) fun hlt =>
        getElem?_writeAll_pop (f := s.roomAheadAt (n + 1)) (Nat.le_succ k) (by omega)
    rw [List.range_succ, List.foldlM_append, ih (by omega), Option.bind_eq_bind,
      Option.bind_some, List.foldlM_cons]
    unfold growAt?
    rw [hback, hahead]
    simp only [Writes.writeAll, List.foldl_append]
    rfl

theorem grownRooms?_eq (h : s.UpToDate n) :
    s.grownRooms? (n + 1) = some (s.setRoom (n + 1)).rooms := by
  have hp : s.windowCount n - 1 = s.windowCount (n + 1) := windowCount_sub_one s n
  have hall : ∀ {f : Nat → Nat} {xs : Array Nat}, xs.size = s.windowCount n →
      Writes.writeAll id f xs.pop (List.range (s.windowCount (n + 1))) =
        ((List.range (s.windowCount (n + 1))).map f).toArray := by
    intro f xs hs
    refine Writes.writeAll_eq_of_forall (f := f) (by simp [hs, hp]) (fun i hi => by simp) ?_
    intro i hi hn
    rw [Array.size_pop, hs, hp] at hi
    exact absurd (List.mem_range.mpr hi) hn
  unfold grownRooms?
  rw [h.foldlM_growAt?_eq (Nat.le_refl _), hall (by rw [h.roomBack, size_setRoom_back]),
    hall (by rw [h.roomAhead, size_setRoom_ahead])]
  rfl

theorem growRoom_eq (h : s.UpToDate n) : s.growRoom (n + 1) = s.setRoom (n + 1) := by
  have hr := h.growRoom
  have hrooms : s.growRoom (n + 1) = { s with
      roomBack := (s.growRoom (n + 1)).roomBack
      roomAhead := (s.growRoom (n + 1)).roomAhead } := rfl
  rw [hrooms, hr.roomBack, hr.roomAhead]
  rfl

theorem resize_eq (h : s.UpToDate n) (new : Nat) : s.resize n new = s.setRoom new := by
  unfold Schedule.resize
  split
  · next he => rw [he, h.growRoom_eq]
  · rfl

end UpToDate

/-- When windows grow by one, whatever their size and the order of the Ops, carrying the rooms
over in place reads and writes nothing out of range, takes no difference below zero, and gives
what computing them anew gives. -/
theorem grownRooms?_ofOrder {g : Graph W} {order : List Nat} (hg : g.Built)
    (hp : order.Perm (List.range g.opCount)) (n : Nat) :
    let s := (ofOrder g order).setRoom n
    s.grownRooms? (n + 1) = some (s.setRoom (n + 1)).rooms ∧
      (∀ m, s.rooms? m = some (s.setRoom m).rooms) ∧
      s.resize n (n + 1) = s.setRoom (n + 1) := by
  intro s
  have hs : s.UpToDate n := setRoom_upToDate (ofOrder_coherent hg.wellFormed hp) n
  exact ⟨hs.grownRooms?_eq, fun m => hs.rooms?_eq, hs.resize_eq (n + 1)⟩

section LinkedChains

open Numbers Liveness.Graph

/-- In an order against a constraint, windows of two grow to three. -/
theorem linkedChains_grownRooms? :
    ((ofOrder linkedChains [3, 0, 1, 2]).setRoom 2).grownRooms? 3 = some ⟨#[0, 1], #[1, 0]⟩ :=
  (grownRooms?_ofOrder linkedChains_built (by decide) 2).1.trans (by decide +kernel)

end LinkedChains

end Liveness.Schedule
