import Liveness.Proofs.Graph.Built
import Liveness.Proofs.Schedule.Exchanged

/-! # Moves keep schedules up to date

The windows whose room is computed again after a move are all those whose room can have
changed. So a schedule on which moves were carried out records the same as one that is
made from its order.
-/

namespace Liveness

namespace Move

variable {m : Move} {n : Nat}

def InRange (m : Move) (n : Nat) : Prop := m.start + m.size ≤ n ∧ m.target + m.size ≤ n

instance (m : Move) (n : Nat) : Decidable (m.InRange n) := inferInstanceAs (Decidable (_ ∧ _))

theorem bounds_forward (h : m.start ≤ m.target) :
    m.bounds = (m.start, m.start + m.size, m.target + m.size) := by
  simp [bounds, canonical, Nat.not_lt.mpr h]

theorem bounds_backward (h : m.target < m.start) :
    m.bounds = (m.target, m.start, m.start + m.size) := by
  have ht : m.target + (m.start - m.target) = m.start := by omega
  have hs : m.target + m.size + (m.start - m.target) = m.start + m.size := by omega
  simp [bounds, canonical, h, ht, hs]

/-- The moved block is the first one when it moves ahead, and the second one otherwise. -/
theorem bounds_cases {a b c : Nat} (hb : m.bounds = (a, b, c)) :
    m.start ≤ m.target ∧ a = m.start ∧ b = m.start + m.size ∧ c = m.target + m.size ∨
      m.target < m.start ∧ a = m.target ∧ b = m.start ∧ c = m.start + m.size := by
  rcases Nat.lt_or_ge m.target m.start with hlt | hle
  · rw [bounds_backward hlt] at hb
    cases hb
    exact .inr ⟨hlt, rfl, rfl, rfl⟩
  · rw [bounds_forward hle] at hb
    cases hb
    exact .inl ⟨hle, rfl, rfl, rfl⟩

theorem bounds_inRange (h : m.InRange n) :
    ∃ a b c, m.bounds = (a, b, c) ∧ a ≤ b ∧ b ≤ c ∧ c ≤ n := by
  have := h.1
  have := h.2
  by_cases hlt : m.target < m.start
  · exact ⟨_, _, _, bounds_backward hlt, by omega, by omega, by omega⟩
  · exact ⟨_, _, _, bounds_forward (by omega), by omega, by omega, by omega⟩

end Move

namespace Schedule

variable {W : Type} [Weight W] {s t : Schedule W} {a b c i k n x : Nat}

/-- A coherent schedule that records the rooms of all windows of size `n`. -/
structure UpToDate (s : Schedule W) (n : Nat) : Prop extends s.Coherent where
  roomAhead : s.roomAhead = (s.setRoom n).roomAhead
  roomBack : s.roomBack = (s.setRoom n).roomBack

omit [Weight W] in
@[simp]
theorem size_setRoom_ahead (s : Schedule W) (n : Nat) :
    (s.setRoom n).roomAhead.size = s.windowCount n := by
  simp [setRoom]

omit [Weight W] in
@[simp]
theorem size_setRoom_back (s : Schedule W) (n : Nat) :
    (s.setRoom n).roomBack.size = s.windowCount n := by
  simp [setRoom]

namespace UpToDate

theorem ahead_eq (h : s.UpToDate n) (hi : i < s.windowCount n) :
    s.ahead i = s.roomAheadAt n i := by
  simp [ahead, h.roomAhead, setRoom, Array.getD, hi]

theorem back_eq (h : s.UpToDate n) (hi : i < s.windowCount n) : s.back i = s.roomBackAt n i := by
  simp [back, h.roomBack, setRoom, Array.getD, hi]

end UpToDate

section Unchanged

variable (hs : s.Coherent) (ht : t.Coherent) (hg : t.graph = s.graph)
  (ho : ∀ j, i ≤ j → j < i + n → t.opAt j = s.opAt j)

include hs ht hg ho

theorem roomAheadAt_congr (hw : i + n ≤ s.opCount)
    (hp : ∀ j, i ≤ j → j < i + n → ∀ x ∈ (s.graph.op (s.opAt j)).outs,
      t.placeOf x = s.placeOf x ∨ t.placeOf x < i + n ∧ s.placeOf x < i + n) :
    t.roomAheadAt n i = s.roomAheadAt n i := by
  have hc : t.opCount = s.opCount := congrArg Graph.opCount hg
  refine eq_of_forall_le_iff fun k => ?_
  rw [hs.le_roomAheadAt_iff hw, ht.le_roomAheadAt_iff (hc ▸ hw), hc]
  refine and_congr_right fun _ => ?_
  unfold ClearAhead
  refine forall_congr' fun j => forall_congr' fun hj => forall_congr' fun hj' => ?_
  simp only [ht.mem_placesAfter, hs.mem_placesAfter, hg, ho j hj hj', forall_exists_index,
    and_imp, forall_apply_eq_imp_iff₂]
  refine forall_congr' fun x => forall_congr' fun hx => ?_
  rcases hp j hj hj' x hx with he | he
  · rw [he]
  · omega

theorem roomBackAt_congr
    (hp : ∀ j, i ≤ j → j < i + n → ∀ x ∈ (s.graph.op (s.opAt j)).ins,
      t.placeOf x = s.placeOf x ∨ i ≤ t.placeOf x ∧ i ≤ s.placeOf x) :
    t.roomBackAt n i = s.roomBackAt n i := by
  refine eq_of_forall_le_iff fun k => ?_
  rw [hs.le_roomBackAt_iff, ht.le_roomBackAt_iff]
  refine and_congr_right fun _ => ?_
  unfold ClearBack
  refine forall_congr' fun j => forall_congr' fun hj => forall_congr' fun hj' => ?_
  simp only [ht.mem_placesBefore, hs.mem_placesBefore, hg, ho j hj hj', forall_exists_index,
    and_imp, forall_apply_eq_imp_iff₂]
  refine forall_congr' fun x => forall_congr' fun hx => ?_
  rcases hp j hj hj' x hx with he | he
  · rw [he]
  · omega

end Unchanged

/-- The first window whose room ahead is computed again. -/
def aheadFrom (s : Schedule W) (a c n : Nat) : Nat :=
  ((s.producersBetween a c).map s.placeOf).foldl min a - (n + 1)

def backTo (s : Schedule W) (a c : Nat) : Nat :=
  ((s.consumersBetween a c).map fun x => s.placeOf x + 1).foldl max c

namespace Exchanged

variable (e : Exchanged s t a b c) (hs : s.Coherent) (ht : t.Coherent)

include e hs ht

/-- The rooms ahead of windows behind the blocks, and of windows before all Ops that are
before one of the blocks, stay. -/
theorem roomAheadAt_eq (hw : i + n ≤ s.opCount) (h : i < t.aheadFrom a c n ∨ c ≤ i) :
    t.roomAheadAt n i = s.roomAheadAt n i := by
  rcases h with h | h
  · have hlt : i + (n + 2) ≤ ((t.producersBetween a c).map t.placeOf).foldl min a := by
      unfold aheadFrom at h
      omega
    obtain ⟨ha, hp⟩ := le_foldl_min.mp hlt
    have ho : ∀ j, i ≤ j → j < i + n → t.opAt j = s.opAt j := fun j _ hj =>
      e.opAt_of_outside (by omega)
    refine roomAheadAt_congr hs ht e.graph ho hw fun j hj hj' x hx => .inl ?_
    refine e.placeOf_of_absent hs (hs.wellFormed.outs_lt hx) ?_
    rintro ⟨q, hq, rfl⟩
    have hm : s.opAt j ∈ t.producersBetween a c := by
      refine mem_producersBetween.mpr ⟨q, hq, ?_⟩
      rw [e.graph]
      exact hs.wellFormed.mem_ins.mpr hx
    have hle := hp _ (List.mem_map.mpr ⟨_, hm, rfl⟩)
    rw [← ho j hj hj', ht.placeOf_opAt (e.opCount ▸ by omega)] at hle
    omega
  · refine roomAheadAt_congr hs ht e.graph (fun j hj _ => e.opAt_of_outside (by omega)) hw
      fun j _ _ x hx => ?_
    have hx' := hs.wellFormed.outs_lt hx
    rw [e.placeOf hx']
    by_cases hm : a ≤ s.placeOf x ∧ s.placeOf x < c
    · have := (Move.landing_mem_iff e.le_mid e.mid_le).mpr hm
      omega
    · exact .inl (Move.landing_of_outside e.le_mid e.mid_le (by omega))

theorem roomBackAt_eq (hw : i + n ≤ s.opCount) (h : i < a - (n + 1) ∨ t.backTo a c ≤ i) :
    t.roomBackAt n i = s.roomBackAt n i := by
  rcases h with h | h
  · refine roomBackAt_congr hs ht e.graph (fun j _ _ => e.opAt_of_outside (by omega))
      fun j _ _ x hx => ?_
    have hx' := hs.wellFormed.lt_of_mem_ins hx
    rw [e.placeOf hx']
    by_cases hm : a ≤ s.placeOf x ∧ s.placeOf x < c
    · have := (Move.landing_mem_iff e.le_mid e.mid_le).mpr hm
      omega
    · exact .inl (Move.landing_of_outside e.le_mid e.mid_le (by omega))
  · obtain ⟨hc, hp⟩ := foldl_max_le.mp h
    have ho : ∀ j, i ≤ j → j < i + n → t.opAt j = s.opAt j := fun j hj _ =>
      e.opAt_of_outside (by omega)
    refine roomBackAt_congr hs ht e.graph ho fun j hj hj' x hx => .inl ?_
    refine e.placeOf_of_absent hs (hs.wellFormed.lt_of_mem_ins hx) ?_
    rintro ⟨q, hq, rfl⟩
    have hm : s.opAt j ∈ t.consumersBetween a c := by
      refine mem_consumersBetween.mpr ⟨q, hq, ?_⟩
      rw [e.graph]
      exact hs.wellFormed.mem_ins.mp hx
    have hle := hp _ (List.mem_map.mpr ⟨_, hm, rfl⟩)
    rw [← ho j hj hj', ht.placeOf_opAt (e.opCount ▸ by omega)] at hle
    omega

end Exchanged

omit [Weight W] in
theorem touchBlock_eq (s : Schedule W) (a b : Nat) :
    ∃ marks, s.touchBlock a b = { s with susceptible := marks } := by
  unfold touchBlock
  refine List.foldlRecOn (motive := fun t : Schedule W => ∃ marks, t = { s with susceptible := marks }) _ _
    ⟨s.susceptible, rfl⟩ ?_
  rintro _ ⟨marks, rfl⟩ i -
  unfold touchAround
  refine List.foldlRecOn (motive := fun t : Schedule W => ∃ marks, t = { s with susceptible := marks }) _ _
    ⟨marks, rfl⟩ ?_
  rintro _ ⟨marks, rfl⟩ y -
  exact ⟨_, rfl⟩

theorem UpToDate.touchBlock (h : s.UpToDate n) (a b : Nat) : (s.touchBlock a b).UpToDate n := by
  obtain ⟨marks, he⟩ := touchBlock_eq s a b
  rw [he]
  exact ⟨h.toCoherent.congr rfl rfl rfl rfl rfl rfl rfl, h.roomAhead, h.roomBack⟩

omit [Weight W] in
@[simp]
theorem opCount_touchBlock (s : Schedule W) (a b : Nat) :
    (s.touchBlock a b).opCount = s.opCount := by
  obtain ⟨marks, he⟩ := touchBlock_eq s a b
  rw [he]
  rfl

/-- Computing the rooms of some windows again is enough if those of all others stay. -/
theorem mapIdx_eq {count : Nat} {rooms : Array Nat} {old new : Nat → Nat} {low high : Nat}
    (hr : rooms = ((List.range count).map old).toArray)
    (h : ∀ i < count, i < low ∨ high ≤ i → new i = old i) :
    (rooms.mapIdx fun i room => if low ≤ i && i < high then new i else room) =
      ((List.range count).map new).toArray := by
  subst hr
  refine Array.ext (by simp) fun i hi _ => ?_
  have hi' : i < count := by simpa using hi
  simp only [Array.getElem_mapIdx, List.getElem_toArray, List.getElem_map, List.getElem_range,
    Bool.and_eq_true, decide_eq_true_eq]
  split
  · rfl
  · exact (h i hi' (by omega)).symm

/-- A move marks Ops as touched, exchanges two blocks, and computes rooms again. -/
theorem apply_eq {m : Move} (hb : m.bounds = (a, b, c)) :
    let t := ((s.touchBlock a b).touchBlock b c).exchangeFully a b c
    s.apply m = (t.refreshAhead m.size (t.aheadFrom a c m.size)
      (min c (s.windowCount m.size))).refreshBack m.size (a - (m.size + 1))
        (min (t.backTo a c) (s.windowCount m.size)) := by
  unfold apply
  rw [hb]
  dsimp only
  obtain ⟨marks, he⟩ := touchBlock_eq s a b
  obtain ⟨marks', he'⟩ := touchBlock_eq (s.touchBlock a b) b c
  rw [he', he]
  rfl

theorem UpToDate.apply {m : Move} (h : s.UpToDate m.size) (hm : m.InRange s.opCount) :
    (s.apply m).UpToDate m.size := by
  obtain ⟨a, b, c, hb, hab, hbc, hc⟩ := Move.bounds_inRange hm
  rw [apply_eq hb]
  have ht := (h.touchBlock a b).touchBlock b c
  have hw : ((s.touchBlock a b).touchBlock b c).windowCount m.size = s.windowCount m.size := by
    simp [windowCount]
  rw [← hw]
  have hc' : c ≤ ((s.touchBlock a b).touchBlock b c).opCount := by simpa using hc
  generalize (s.touchBlock a b).touchBlock b c = u at ht hc' ⊢
  have hx := exchangeFully_coherent ht.toCoherent hab hbc hc'
  have e := exchanged_exchangeFully ht.toCoherent hab hbc hc'
  have hin : ∀ {i}, i < u.windowCount m.size → i + m.size ≤ u.opCount := by
    unfold windowCount
    omega
  refine ⟨hx.congr rfl rfl rfl rfl rfl rfl rfl, ?_, ?_⟩
  · refine mapIdx_eq ht.roomAhead fun i hi hr => ?_
    change i < u.windowCount m.size at hi
    exact e.roomAheadAt_eq ht.toCoherent hx (hin hi) (by omega)
  · refine mapIdx_eq ht.roomBack fun i hi hr => ?_
    change i < u.windowCount m.size at hi
    exact e.roomBackAt_eq ht.toCoherent hx (hin hi) (by omega)

theorem Coherent.exchanged_apply {m : Move} (h : s.Coherent) (hb : m.bounds = (a, b, c))
    (hab : a ≤ b) (hbc : b ≤ c) (hc : c ≤ s.opCount) : Exchanged s (s.apply m) a b c := by
  rw [apply_eq hb]
  obtain ⟨marks, he⟩ := touchBlock_eq s a b
  obtain ⟨marks', he'⟩ := touchBlock_eq (s.touchBlock a b) b c
  rw [he', he]
  have hu : Schedule.Coherent { s with susceptible := marks' } :=
    h.congr rfl rfl rfl rfl rfl rfl rfl
  have e := exchanged_exchangeFully hu hab hbc hc
  exact ⟨e.graph, hab, hbc, hc, e.opAt, e.placeOf⟩

theorem Coherent.apply {m : Move} (h : s.Coherent) (hm : m.InRange s.opCount) :
    (s.apply m).Coherent := by
  obtain ⟨a, b, c, hb, hab, hbc, hc⟩ := Move.bounds_inRange hm
  rw [apply_eq hb]
  obtain ⟨marks, he⟩ := touchBlock_eq s a b
  obtain ⟨marks', he'⟩ := touchBlock_eq (s.touchBlock a b) b c
  rw [he', he]
  have hu : Schedule.Coherent { s with susceptible := marks' } :=
    h.congr rfl rfl rfl rfl rfl rfl rfl
  exact (exchangeFully_coherent hu hab hbc hc).congr rfl rfl rfl rfl rfl rfl rfl

theorem apply_frame (s : Schedule W) (m : Move) : (s.apply m).graph = s.graph ∧
    (s.apply m).ops = m.apply s.ops ∧ (s.apply m).liveness = s.liveness ∧
      (s.apply m).ending = s.ending ∧ (s.apply m).stats = s.stats := by
  rw [apply_eq (a := m.bounds.1) (b := m.bounds.2.1) (c := m.bounds.2.2) rfl]
  obtain ⟨marks, he⟩ := touchBlock_eq s m.bounds.1 m.bounds.2.1
  obtain ⟨marks', he'⟩ := touchBlock_eq (s.touchBlock m.bounds.1 m.bounds.2.1) m.bounds.2.1
    m.bounds.2.2
  rw [he', he]
  exact ⟨rfl, rfl, rfl, rfl, rfl⟩

@[simp]
theorem graph_apply (s : Schedule W) (m : Move) : (s.apply m).graph = s.graph :=
  (apply_frame s m).1

theorem ops_apply (s : Schedule W) (m : Move) : (s.apply m).ops = m.apply s.ops :=
  (apply_frame s m).2.1

theorem liveness_apply (s : Schedule W) (m : Move) : (s.apply m).liveness = s.liveness :=
  (apply_frame s m).2.2.1

theorem ending_apply (s : Schedule W) (m : Move) : (s.apply m).ending = s.ending :=
  (apply_frame s m).2.2.2.1

theorem stats_apply (s : Schedule W) (m : Move) : (s.apply m).stats = s.stats :=
  (apply_frame s m).2.2.2.2

@[simp]
theorem opCount_apply (s : Schedule W) (m : Move) : (s.apply m).opCount = s.opCount :=
  congrArg Graph.opCount (graph_apply s m)

theorem Coherent.applyAll {moves : List Move} (h : s.Coherent)
    (hm : ∀ m ∈ moves, m.InRange s.opCount) :
    (moves.foldl Schedule.apply s).Coherent ∧
      (moves.foldl Schedule.apply s).graph = s.graph := by
  induction moves generalizing s with
  | nil => exact ⟨h, rfl⟩
  | cons m moves ih =>
    obtain ⟨hc, hg⟩ := ih (h.apply (hm m List.mem_cons_self)) fun k hk => by
      simpa using hm k (List.mem_cons_of_mem m hk)
    exact ⟨hc, hg.trans (graph_apply s m)⟩

theorem UpToDate.applyAll {moves : List Move} (h : s.UpToDate n)
    (hm : ∀ m ∈ moves, m.size = n ∧ m.InRange s.opCount) :
    (moves.foldl Schedule.apply s).UpToDate n ∧
      (moves.foldl Schedule.apply s).graph = s.graph := by
  induction moves generalizing s with
  | nil => exact ⟨h, rfl⟩
  | cons m moves ih =>
    obtain ⟨rfl, hr⟩ := hm m List.mem_cons_self
    obtain ⟨hu, hg⟩ := ih (h.apply hr) fun k hk => by
      simpa using hm k (List.mem_cons_of_mem m hk)
    exact ⟨hu, hg.trans (graph_apply s m)⟩

namespace Coherent

theorem places_eq (hs : s.Coherent) (ht : t.Coherent) (hg : t.graph = s.graph)
    (ho : t.ops = s.ops) : t.places = s.places := by
  have hc : t.opCount = s.opCount := congrArg Graph.opCount hg
  refine Array.ext (by rw [ht.size_places, hs.size_places, hc]) fun x hx hx' => ?_
  have hxs : x < s.opCount := hs.size_places ▸ hx'
  have hxt : x < t.opCount := hc.symm ▸ hxs
  have hp : t.placeOf x = s.placeOf x := by
    refine hs.opAt_inj (hc ▸ ht.placeOf_lt hxt) (hs.placeOf_lt hxs) ?_
    have ht' := ht.opAt_placeOf hxt
    rw [opAt, ho] at ht'
    exact ht'.trans (hs.opAt_placeOf hxs).symm
  simpa [placeOf, Array.getD, hx, hx'] using hp

end Coherent

theorem setRoom_upToDate (h : s.Coherent) (n : Nat) : (s.setRoom n).UpToDate n :=
  ⟨h.congr rfl rfl rfl rfl rfl rfl rfl, rfl, rfl⟩

theorem UpToDate.setRoom_eq (hs : s.UpToDate n) (ht : t.UpToDate n) (hg : t.graph = s.graph)
    (ho : t.ops = s.ops) : t.roomAhead = s.roomAhead ∧ t.roomBack = s.roomBack := by
  have hw : t.windowCount n = s.windowCount n := by
    unfold windowCount opCount
    rw [hg]
  have hop : ∀ i, t.opAt i = s.opAt i := fun i => congrArg (·.getD i 0) ho
  have hp : ∀ x, t.placeOf x = s.placeOf x := fun x =>
    congrArg (·.getD x 0) (hs.toCoherent.places_eq ht.toCoherent hg ho)
  rw [ht.roomAhead, hs.roomAhead, ht.roomBack, hs.roomBack]
  unfold setRoom
  dsimp only
  rw [hw]
  refine ⟨congrArg List.toArray (List.map_congr_left fun i hi => ?_),
    congrArg List.toArray (List.map_congr_left fun i hi => ?_)⟩
  · refine roomAheadAt_congr hs.toCoherent ht.toCoherent hg (fun j _ _ => hop j) ?_
      fun j _ _ x _ => .inl (hp x)
    have := List.mem_range.mp hi
    unfold windowCount at this
    omega
  · exact roomBackAt_congr hs.toCoherent ht.toCoherent hg (fun j _ _ => hop j)
      fun j _ _ x _ => .inl (hp x)

/-- After any moves of blocks of `n` places, whatever they do to constraints and links,
everything recorded is what a schedule made from the new order would record. -/
theorem applyAll_ofOrder {g : Graph W} {order : List Nat} {moves : List Move} (hg : g.Built)
    (hp : order.Perm (List.range g.opCount))
    (hm : ∀ m ∈ moves, m.size = n ∧ m.InRange g.opCount) :
    let s := moves.foldl Schedule.apply ((ofOrder g order).setRoom n)
    let t := (ofOrder g s.ops.toList).setRoom n
    (∀ i < g.opCount, s.placeOf (s.opAt i) = i) ∧ (∀ a < g.opCount, s.opAt (s.placeOf a) = a) ∧
      s.places = t.places ∧ s.allocPlaces = t.allocPlaces ∧ s.placeAllocs = t.placeAllocs ∧
      s.inPlaces = t.inPlaces ∧ s.outPlaces = t.outPlaces ∧
      s.roomAhead = t.roomAhead ∧ s.roomBack = t.roomBack := by
  intro s t
  have h0 := setRoom_upToDate (ofOrder_coherent hg.wellFormed hp) n
  obtain ⟨hs, hgs⟩ : s.UpToDate n ∧ s.graph = g := h0.applyAll hm
  have hc : s.opCount = g.opCount := congrArg Graph.opCount hgs
  have ht : t.UpToDate n :=
    setRoom_upToDate (ofOrder_coherent hg.wellFormed (hc ▸ hs.perm)) n
  have hgt : s.graph = t.graph := hgs
  have hot : s.ops = t.ops := by simp [t, setRoom, ofOrder, refreshLiveness]
  have hpl := ht.toCoherent.places_eq hs.toCoherent hgt hot
  obtain ⟨ha, hb⟩ := ht.setRoom_eq hs hgt hot
  refine ⟨fun i hi => hs.placeOf_opAt (hc ▸ hi), fun a ha => hs.opAt_placeOf (hc ▸ ha), hpl, ?_, ?_,
    ?_, ?_, ha, hb⟩
  · rw [hs.allocPlaces, ht.allocPlaces, hgt, hpl]
  · rw [hs.placeAllocs, ht.placeAllocs, hgt, hot]
  · rw [hs.inPlaces, ht.inPlaces, hgt, hpl]
  · rw [hs.outPlaces, ht.outPlaces, hgt, hpl]

open Numbers in
/-- Three moves of single Ops that put the first chain before the second one. -/
theorem applyAll_twoChains :
    let s := [⟨1, 2, 1⟩, ⟨0, 1, 1⟩, ⟨3, 1, 1⟩].foldl Schedule.apply
      ((ofOrder Graph.twoChains [2, 3, 0, 1]).setRoom 1)
    let t := (ofOrder Graph.twoChains s.ops.toList).setRoom 1
    s.ops = #[0, 1, 2, 3] ∧ s.places = t.places ∧ s.allocPlaces = t.allocPlaces ∧
      s.placeAllocs = t.placeAllocs ∧ s.inPlaces = t.inPlaces ∧ s.outPlaces = t.outPlaces ∧
      s.roomAhead = t.roomAhead ∧ s.roomBack = t.roomBack := by
  have hp : [2, 3, 0, 1].Perm (List.range Graph.twoChains.opCount) := by decide
  have hm : ∀ m ∈ ([⟨1, 2, 1⟩, ⟨0, 1, 1⟩, ⟨3, 1, 1⟩] : List Move),
      m.size = 1 ∧ m.InRange Graph.twoChains.opCount := by decide
  exact ⟨by decide +kernel, (applyAll_ofOrder Graph.twoChains_built hp hm).2.2⟩

end Schedule

end Liveness
