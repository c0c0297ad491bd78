import Liveness.Proofs.Schedule.Converged
import Liveness.Proofs.Schedule.IdleSince

/-! # What filtered rounds leave out

Rounds that follow moves may look at marked Ops only. An Op that is left out was looked at
before, and is undisturbed since. If such a round with windows of size one is the last one
before the run converges, there is too little room for that to matter. If it has larger
windows, the last move left two independent blocks with more room than a converged run
can have.
-/

namespace Liveness

open Success

variable {W R : Type} [Weight W] [ExactWeight W] {g : Graph W} {n : Nat}

namespace Schedule

variable {s t : Schedule W} {a b c start u : Nat}

theorem bestOf_cases (s : Schedule W) (start n : Nat) : s.bestOf start n = Shift.stay ∨
    ∃ target ∈ targets start n (s.back start) (s.ahead start), target ≠ start ∧
      s.bestOf start n = ⟨(target : Int) - start, s.priceAt start n target⟩ := by
  unfold bestOf
  refine List.foldlRecOn (motive := fun best : Shift W => best = Shift.stay ∨
    ∃ target ∈ targets start n (s.back start) (s.ahead start), target ≠ start ∧
      best = ⟨(target : Int) - start, s.priceAt start n target⟩) _ _ (.inl rfl)
    fun best hb p hp => ?_
  unfold better
  dsimp only
  split
  · obtain ⟨target, ht, rfl⟩ := List.mem_map.mp hp
    obtain ⟨ht, hne⟩ := List.mem_filter.mp ht
    exact .inr ⟨target, ht, of_decide_eq_true hne, rfl⟩
  · exact hb

theorem moveBy_ne_start (h : Weight.lt (s.bestOf start n).cost 0 = true) :
    (moveBy start n (s.bestOf start n).distance).target ≠ start := by
  rcases s.bestOf_cases start n with he | ⟨target, -, hne, he⟩
  · rw [he, Shift.stay, Weight.lt_self] at h
    cases h
  · rw [he]
    unfold moveBy
    dsimp only
    omega

def Swappable (s : Schedule W) (n : Nat) : Prop :=
  ∃ a b c, a < b ∧ b < c ∧ c ≤ s.opCount ∧ s.Independent a b c ∧ (b - a = n ∨ c - b = n)

omit [ExactWeight W] in
theorem Exchanged.independent (e : Exchanged s t a b c) (hs : s.Coherent) (hl : s.Legal) :
    t.Independent a (a + (c - b)) c := by
  intro x y hxy hx hx' hy
  rw [e.graph] at hxy
  have hlt := hl.before hxy
  have hab := e.le_mid
  have hbc := e.mid_le
  rw [e.placeOf (Graph.lt_of_mem_outs hxy)] at hx hx'
  rw [e.placeOf (hs.wellFormed.outs_lt hxy)] at hy ⊢
  grind [Move.landing]

omit [ExactWeight W] in
theorem Admissible.swappable {m : Move} (h : s.Admissible m) (hs : s.Coherent) (hl : s.Legal)
    (hn : 0 < m.size) (hne : m.target ≠ m.start) : (s.apply m).Swappable m.size := by
  obtain ⟨a, b, c, hb, hab, hbc, hc⟩ := Move.bounds_inRange (h.move_inRange hs)
  have e := hs.exchanged_apply hb hab hbc hc
  have hcases := Move.bounds_cases hb
  exact ⟨a, a + (c - b), c, by omega, by omega, e.opCount.symm ▸ hc, e.independent hs hl, by omega⟩

theorem IdleSince.congr (h : IdleSince g u s) (hp : t.places = s.places) :
    IdleSince g u t := by
  obtain ⟨v, hv, hbest, hun⟩ := h
  exact ⟨v, hv, hbest, hun.congr hp⟩

/-- An Op that can move is marked by a move of its own; what a move leaves unmarked stays
idle if it was. -/
theorem Admissible.marked_or_idle {distance : Int} (hs : s.Intact g 1)
    (h : s.Admissible (moveBy (s.placeOf a) 1 distance)) (hsize : s.susceptible.size = g.opCount)
    (hu : Movable g u) (hw : s.Marked u ∨ u = a ∨ IdleSince g u s) :
    (s.apply (moveBy (s.placeOf a) 1 distance)).Marked u ∨
      IdleSince g u (s.apply (moveBy (s.placeOf a) 1 distance)) := by
  obtain rfl := hs.graph_eq
  obtain ⟨x, o, z, hb, hxo, hoz, hz⟩ := Move.bounds_inRange (h.move_inRange hs.toCoherent)
  have e := hs.toCoherent.exchanged_apply hb hxo hoz hz
  obtain ⟨-, hkeep, hmark⟩ := marked_apply (s := s) (u := u) hb
  have hlt : u < s.susceptible.size := hsize ▸ hu.lt
  by_cases hcross : s.Crosses x o u ∨ s.Crosses o z u
  · exact .inl (hmark hlt hcross)
  · obtain ⟨hfirst, hsecond⟩ := not_or.mp hcross
    rcases hw with hw | rfl | ⟨v, hv, hbest, hun⟩
    · exact .inl (hkeep hw)
    · -- a block of the Op alone is crossed by its constraints
      obtain ⟨y, hy, hne⟩ := hu.near
      rcases Move.bounds_cases hb with ⟨-, hx, ho, -⟩ | ⟨-, -, ho, hz⟩
      · obtain rfl : o = x + 1 := by rw [ho, hx]; rfl
        exact absurd (hs.toLegal.crosses_single hs.toCoherent hu.lt hx.symm hy hne) hfirst
      · obtain rfl : z = o + 1 := by rw [hz, ho]; rfl
        exact absurd (hs.toLegal.crosses_single hs.toCoherent hu.lt ho.symm hy hne) hsecond
    · refine .inr ⟨v, hv, hbest, hun.trans ?_⟩
      exact e.undisturbed hs.toCoherent hs.toLegal hu.lt hfirst hsecond

end Schedule

namespace Round

open Schedule

variable {settings : SettingsOver R} {touched : Array Bool} {r r' : Round W} {a : Nat}
  {done visits : List Nat}

/-- In a round with windows of size one every Op that can move is marked for the next
round, idle since it was last looked at, or marked for this round and still to come. -/
structure Watched (g : Graph W) (touched : Array Bool) (done : List Nat) (r : Round W) : Prop where
  ready : r.Ready g 1
  size : r.schedule.susceptible.size = g.opCount
  watch : ∀ u, Movable g u → r.schedule.Marked u ∨ IdleSince g u r.schedule ∨
    u ∉ done ∧ touched.getD u false = true

omit [ExactWeight W] in
theorem isCandidate_of_movable (hr : r.Ready g 1) (ha : Movable g a)
    (ht : touched.getD a false = true) :
    r.schedule.isCandidate settings touched 1 a = true := by
  obtain rfl := hr.intact.graph_eq
  have hco := hr.intact.toCoherent
  have hop := hco.opAt_placeOf ha.lt
  refine isCandidate_iff.mpr ⟨hco.placeOf_lt ha.lt, ha.bwdLink, ?_, fun _ => ?_⟩
  · rw [Nat.add_sub_cancel, hop]
    exact ha.fwdLink
  · refine ⟨r.schedule.placeOf a, Nat.le_refl _, Nat.lt_succ_self _, ?_⟩
    rwa [hop]

theorem Watched.visit (h : r.Watched g touched done)
    (hv : visit settings touched 1 r a = .ok r') : r'.Watched g touched (a :: done) := by
  have hready := visit_ready Nat.one_pos h.ready hv
  rw [visit_eq Nat.one_pos h.ready] at hv
  obtain rfl := Except.ok.inj hv
  rcases visited_cases settings touched 1 r a with ⟨hidle, he⟩ | ⟨hc, -, he⟩
  · rw [he] at hready ⊢
    refine ⟨hready, h.size, fun u hu => ?_⟩
    rcases h.watch u hu with hw | hw | ⟨hd, ht⟩
    · exact .inl hw
    · exact .inr (.inl hw)
    · by_cases hua : u = a
      · subst hua
        have hlt := hidle (isCandidate_of_movable h.ready hu ht)
        exact .inr (.inl ⟨r.schedule, h.ready.intact, hlt, Undisturbed.refl _ _ _⟩)
      · exact .inr (.inr ⟨by simp [hua, hd], ht⟩)
  · have hadm := h.ready.intact.toUpToDate.bestOf_admissible (isCandidate_iff.mp hc).1
    rw [he] at hready ⊢
    refine ⟨hready, ?_, fun u hu => ?_⟩
    · obtain ⟨x, o, z, hb, -⟩ := Move.bounds_inRange (hadm.move_inRange h.ready.intact.toCoherent)
      exact (marked_apply (u := 0) hb).1.trans h.size
    · rw [← or_assoc]
      by_cases hua : u = a
      · exact .inl (hadm.marked_or_idle h.ready.intact h.size hu (.inr (.inl hua)))
      · rcases h.watch u hu with hw | hw | ⟨hd, ht⟩
        · exact .inl (hadm.marked_or_idle h.ready.intact h.size hu (.inl hw))
        · exact .inl (hadm.marked_or_idle h.ready.intact h.size hu (.inr (.inr hw)))
        · exact .inr ⟨by simp [hua, hd], ht⟩

theorem Watched.foldlM_visit (h : r.Watched g touched done)
    (hv : visits.foldlM (Round.visit settings touched 1) r = .ok r') :
    r'.Watched g touched (visits.reverse ++ done) := by
  induction visits generalizing r done with
  | nil =>
    obtain rfl := pure_eq_ok.mp hv
    exact h
  | cons a visits ih =>
    rw [List.foldlM_cons, bind_eq_ok] at hv
    obtain ⟨t, ht, hv⟩ := hv
    simpa using ih (h.visit ht) hv

theorem visit_swappable (hn : 0 < n) (hr : r.Ready g n)
    (hv : visit settings touched n r a = .ok r') (h : r.changes ≠ 0 → r.schedule.Swappable n) :
    r'.changes ≠ 0 → r'.schedule.Swappable n := by
  rw [visit_eq hn hr] at hv
  obtain rfl := Except.ok.inj hv
  rcases visited_cases settings touched n r a with ⟨-, he⟩ | ⟨hc, hlt, he⟩
  · rwa [he]
  · have hadm := hr.intact.toUpToDate.bestOf_admissible (isCandidate_iff.mp hc).1
    rw [he]
    intro _
    exact hadm.swappable hr.intact.toCoherent hr.intact.toLegal hn (moveBy_ne_start hlt)

theorem foldlM_visit_swappable (hn : 0 < n) (hr : r.Ready g n)
    (h : r.changes ≠ 0 → r.schedule.Swappable n)
    (hv : visits.foldlM (Round.visit settings touched n) r = .ok r') :
    r'.changes ≠ 0 → r'.schedule.Swappable n := by
  refine (foldlM_keeps (P := fun r : Round W =>
    r.Ready g n ∧ (r.changes ≠ 0 → r.schedule.Swappable n)) ⟨hr, h⟩ ?_ hv).2
  exact fun a _ r r' h hv => ⟨visit_ready hn h.1 hv, visit_swappable hn h.1 hv h.2⟩

end Round

namespace Phase

open Schedule

variable {plan : Plan R} {p q : Phase W} {r : Round W}

/-- Between rounds with windows of size one every Op that can move is marked or idle since
it was last looked at. And after moves two independent blocks are neighbours. -/
structure Watched (g : Graph W) (p : Phase W) : Prop where
  watch : p.window = 1 → ∀ u, Movable g u →
    p.schedule.Marked u ∨ IdleSince g u p.schedule
  swappable : p.quiet = false → p.schedule.Swappable p.window

theorem runRound_watched (hp : p.Ready g) (hw : p.Watched g)
    (hv : ∀ a < g.opCount, a ∈ plan.visits) (h : p.runRound plan = .ok r)
    (h1 : p.window = 1) (u : Nat) (hu : Movable g u) :
    r.schedule.Marked u ∨ IdleSince g u r.schedule := by
  have hready := startRound_ready hp
  rw [runRound_eq, h1] at h
  rw [h1] at hready
  have hstart : p.startRound.Watched g p.schedule.susceptible [] := by
    refine ⟨hready, ?_, fun u hu => .inr ?_⟩
    · rw [← hp.intact.graph_eq]
      exact Array.size_replicate
    · rcases hw.watch h1 u hu with hm | hi
      · exact .inr ⟨List.not_mem_nil, hm⟩
      · exact .inl (hi.congr rfl)
  rcases (hstart.foldlM_visit h).watch u hu with hm | hi | ⟨hd, -⟩
  · exact .inl hm
  · exact .inr hi
  · exact absurd (hv u hu.lt) (by simpa using hd)

/-- While nothing has moved since the windows had size one, all Ops are marked. -/
theorem Explored.watched (he : p.Explored) (hp : p.Ready g) (hq : p.quiet = true) :
    p.Watched g := by
  refine ⟨fun _ u hu => .inl ?_, fun hn => by rw [hq] at hn; cases hn⟩
  have hlt : u < p.schedule.opCount := by
    rw [Schedule.opCount, hp.intact.graph_eq]
    exact hu.lt
  unfold Marked
  rw [(he hq).1, Array.getD, dif_pos (by simpa using hlt)]
  exact Array.getElem_replicate ..

omit [Weight W] [ExactWeight W] in
theorem nextWindow_susceptible_of_changes (p : Phase W) (hc : r.changes ≠ 0) :
    (p.nextWindow r).schedule.susceptible = r.schedule.susceptible := by
  unfold nextWindow
  dsimp only
  rw [if_neg (by simp [hc]), if_neg hc]
  rfl

theorem afterRound_watched (hp : p.Ready g) (he : p.Explored) (hw : p.Watched g)
    (hv : ∀ a < g.opCount, a ∈ plan.visits) (h : p.runRound plan = .ok r) :
    (p.afterRound r).Watched g := by
  have hquiet : (p.nextWindow r).quiet = true → (p.afterRound r).Watched g := fun hq =>
    (afterRound_explored hp he hv h).watched (afterRound_ready hp (runRound_ready hp h)) hq
  rcases nextWindow_cases p r with ⟨-, -, -, hq⟩ | ⟨-, -, -, hq⟩ | ⟨hc, hwin, -⟩
  · exact hquiet hq
  · exact hquiet hq
  · have hs := afterRound_schedule p r
    rw [nextWindow_susceptible_of_changes p hc] at hs
    constructor
    · intro h1 u hu
      rw [afterRound_window, hwin] at h1
      rcases runRound_watched hp hw hv h h1 u hu with hm | hi
      · rw [hs]
        exact .inl hm
      · refine .inr (hi.congr ?_)
        rw [hs]
    · intro _
      rw [runRound_eq] at h
      rw [afterRound_window, hwin, hs]
      exact Round.foldlM_visit_swappable hp.pos (startRound_ready hp) (fun h0 => absurd rfl h0) h hc

omit [ExactWeight W] in
theorem startRound_not_marked (p : Phase W) (u : Nat) : ¬ p.startRound.schedule.Marked u := by
  unfold Marked startRound
  simp only [withStats, Array.getD_eq_getD_getElem?, Array.getElem?_replicate]
  split <;> simp

omit [ExactWeight W] in
theorem isConverged_iff (hp : p.Ready g) :
    p.isConverged = true ↔ p.quiet = true ∧ p.schedule.Cramped p.window := by
  constructor
  · intro hc
    refine ⟨((Bool.and_eq_true _ _).mp hc).1, fun i hi => ?_⟩
    obtain ⟨ha, hb, -⟩ := hp.intact.toUpToDate.room_eq hi
    rw [← ha, ← hb]
    exact rooms_le_of_isConverged hp hc hi
  · rintro ⟨hq, hc⟩
    unfold isConverged
    rw [hq, Bool.true_and, List.all_eq_true]
    intro room hm
    obtain ⟨i, hi, rfl⟩ := List.getElem_of_mem hm
    have hi' : i < p.schedule.roomAhead.size ∧ i < p.schedule.roomBack.size := by simpa using hi
    have hcount := hi'.1
    rw [hp.intact.roomAhead, size_setRoom_ahead] at hcount
    have hw : i + p.window ≤ p.schedule.opCount := by
      have := hp.pos
      unfold windowCount at hcount
      omega
    obtain ⟨ha, hb, -⟩ := hp.intact.toUpToDate.room_eq hw
    have hroom := hc i hw
    rw [← ha, ← hb] at hroom
    simpa [ahead, back, Array.getD, hi'] using hroom

theorem settled_of_isConverged (hp : p.Ready g) (he : p.Explored) (hw : p.Watched g)
    (hv : ∀ a < g.opCount, a ∈ plan.visits) (h : p.runRound plan = .ok r)
    (hc : (p.afterRound r).isConverged = true) {k : Nat} (hk : 0 < k)
    (hkn : k < (p.afterRound r).window ∨ k = 1) : (p.afterRound r).schedule.Settled k := by
  have hready := afterRound_ready hp (runRound_ready hp h)
  obtain ⟨hquiet, hcramped⟩ := (isConverged_iff hready).mp hc
  have hexp := (afterRound_explored hp he hv h hquiet).2
  rw [afterRound_window] at hkn hexp
  rcases nextWindow_cases p r with ⟨-, -, hwin, -⟩ | ⟨hch, hq, hwin, -⟩ | ⟨-, -, hq⟩
  · have := hp.pos
    exact hexp k hk (by omega)
  · -- the windows start again at size one: what the last round left out was idle
    obtain rfl : k = 1 := by omega
    rw [afterRound_window, hwin] at hcramped
    have hs := afterRound_schedule p r
    have hstill := runRound_still hp h hch
    have hplaces : (p.afterRound r).schedule.places = r.schedule.places := by rw [hs]
    have h1 : p.window = 1 := by
      obtain ⟨a, b, c, hab, hbc, hcount, hi, hsize⟩ := hw.swappable hq
      have hi' : (p.afterRound r).schedule.Independent a b c := by
        rw [hs, hstill]
        exact hi
      have hcount' : c ≤ (p.afterRound r).schedule.opCount := by
        rw [hs, hstill]
        exact hcount
      have := hcramped.blocks hready.intact.toCoherent hab hbc hcount' hi'
      omega
    have hintact := hready.intact
    rw [afterRound_window, hwin] at hintact
    refine hintact.settled_one hcramped fun u hu => ?_
    rcases runRound_watched hp hw hv h h1 u hu with hm | hi
    · rw [hstill] at hm
      exact absurd hm (startRound_not_marked p u)
    · exact hi.congr hplaces
  · rw [show (p.afterRound r).quiet = false from hq] at hquiet
    cases hquiet

/-- A run that converges leaves no window with more room than its size, and has settled all
smaller sizes, and size one in any case. -/
theorem run_settled {rounds : Nat} (hp : p.Ready g) (he : p.Explored) (hw : p.Watched g)
    (hv : ∀ a < g.opCount, a ∈ plan.visits) (h : Phase.run plan rounds p = .ok q)
    (hc : q.schedule.ending = .converged) :
    q.Ready g ∧ q.schedule.Cramped q.window ∧
      ∀ k, 0 < k → k < q.window ∨ k = 1 → q.schedule.Settled k := by
  induction rounds generalizing p with
  | zero =>
    obtain rfl := Except.ok.inj h
    cases hc
  | succ rounds ih =>
    obtain ⟨r, hr, h⟩ := run_succ_eq_ok h
    have hnext := afterRound_ready hp (runRound_ready hp hr)
    rcases h with ⟨hconv, rfl⟩ | ⟨-, ⟨ending, hne, rfl⟩ | h⟩
    · refine ⟨hnext.finish _, ((isConverged_iff hnext).mp hconv).2, fun k hk hkn => ?_⟩
      exact (settled_of_isConverged hp he hw hv hr hconv hk hkn).congr rfl
    · exact absurd hc hne
    · exact ih hnext (afterRound_explored hp he hv hr) (afterRound_watched hp he hw hv hr) h

end Phase

end Liveness
