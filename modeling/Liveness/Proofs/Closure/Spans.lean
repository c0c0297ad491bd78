import Mathlib.Order.Interval.Finset.Nat
import Liveness.Closure.Query
import Liveness.Proofs.Closure.Exact
import Liveness.Proofs.Closure.Words
import Liveness.Proofs.Graph.Order
import Liveness.Proofs.Schedule.Span

/-! # What the closure tells about spans

In an order that keeps what the closure knows, a node with members of a set on both sides is
inside the span of the set. So the first and the last member never have members on both sides,
and the span lies between the two bounds that the closure gives.
-/

namespace Liveness

variable {order ids : List Nat} {n a b low high x : Nat}

theorem Words.testBit_foldl_union {f : Nat → Words n} {s : Words n} :
    (ids.foldl (fun s a => s.union (f a)) s).testBit x = true ↔
      s.testBit x = true ∨ ∃ a ∈ ids, (f a).testBit x = true := by
  induction ids generalizing s with
  | nil => simp
  | cons a ids ih =>
    rw [List.foldl_cons, ih, Words.testBit_union, Bool.or_eq_true, List.exists_mem_cons_iff,
      or_assoc]

theorem Words.testBit_foldl_insert {s : Words n} (hids : ∀ a ∈ ids, a < n) :
    (ids.foldl (fun s a => s.insert a) s).testBit x = true ↔ s.testBit x = true ∨ x ∈ ids := by
  induction ids generalizing s with
  | nil => simp
  | cons a ids ih =>
    obtain ⟨ha, hids⟩ := List.forall_mem_cons.mp hids
    rw [List.foldl_cons, ih hids, Words.testBit_insert, and_iff_left (div_lt_wordsFor ha),
      List.mem_cons, or_assoc, eq_comm (a := a)]

theorem card_between (hp : order.Perm (List.range n)) (hhigh : high < n) (hle : low ≤ high) :
    ((Finset.range n).filter fun x => low ≤ order.idxOf x ∧ order.idxOf x ≤ high).card =
      high - low + 1 := by
  have hn : order.Nodup := hp.nodup_iff.mpr List.nodup_range
  have hl : order.length = n := hp.length_eq.trans List.length_range
  have hm : ∀ {x}, x ∈ order ↔ x < n := hp.mem_iff.trans List.mem_range
  have himage : ((Finset.range n).filter fun x =>
      low ≤ order.idxOf x ∧ order.idxOf x ≤ high).image order.idxOf = Finset.Icc low high := by
    ext i
    simp only [Finset.mem_image, Finset.mem_filter, Finset.mem_range, Finset.mem_Icc]
    constructor
    · rintro ⟨x, ⟨-, hi⟩, rfl⟩
      exact hi
    · intro hi
      have hlt : i < order.length := by omega
      have hidx := hn.idxOf_getElem i hlt
      exact ⟨order[i], ⟨hm.mp (List.getElem_mem hlt), hidx ▸ hi⟩, hidx⟩
  rw [← Finset.card_image_of_injOn (f := order.idxOf), himage, Nat.card_Icc, Nat.sub_add_comm hle]
  intro x hx y _ he
  exact (List.idxOf_inj (hm.mpr (Finset.mem_range.mp (Finset.mem_filter.mp hx).1))).mp he

namespace Closure

variable {c : Closure} {R : Nat → Nat → Prop}

structure KeptBy (c : Closure) (order : List Nat) : Prop where
  perm : order.Perm (List.range c.size)
  before : ∀ {a b}, c.precedes a b = true → order.idxOf a < order.idxOf b
  after : ∀ {a b}, Rows.holds c.after a b = true → order.idxOf a < order.idxOf b

theorem Exact.keptBy (hc : c.Exact R n) (hp : order.Perm (List.range n))
    (hR : ∀ {a b}, R a b → order.idxOf a < order.idxOf b) : c.KeptBy order where
  perm := by
    rw [hc.size]
    exact hp
  before h := hR (hc.precedes_iff.mp h)
  after h := hR ((hc.after.holds_iff _ _).mp h)

theorem verdict_eq_never {beats : Nat → Nat → Bool} :
    verdict beats a ids = .never ↔ ∃ b ∈ ids, beats b a = true := by
  unfold verdict
  split
  · next h => exact iff_of_true rfl (List.any_eq_true.mp h)
  · next h =>
    refine iff_of_false (by split <;> simp) fun hb => h (List.any_eq_true.mpr hb)

theorem extremes_never (h : c.extremes a ids = (.never, .never)) :
    (∃ b ∈ ids, c.precedes b a = true) ∧ ∃ b ∈ ids, c.precedes a b = true := by
  obtain ⟨hfirst, hlast⟩ := Prod.mk.inj h
  obtain ⟨b, hb, hba⟩ := verdict_eq_never.mp hfirst
  obtain ⟨b', hb', hab⟩ := verdict_eq_never.mp hlast
  exact ⟨⟨b, (List.mem_filter.mp hb).1, hba⟩, b', (List.mem_filter.mp hb').1, hab⟩

/-- A node that is not always on one side of the members can be between two of them. -/
theorem canBeInside_eq_true (ha : a ∈ ids) (hb : b ∈ ids) (hab : a ≠ b)
    (hxa : c.precedes x a = false) (hbx : c.precedes b x = false) :
    c.canBeInside ids x = true := by
  have hfollow : a ∈ ids.filter fun a => !c.precedes x a := List.mem_filter.mpr ⟨ha, by simp [hxa]⟩
  have hprecede : b ∈ ids.filter fun b => !c.precedes b x := List.mem_filter.mpr ⟨hb, by simp [hbx]⟩
  unfold canBeInside
  cases hf : ids.filter fun a => !c.precedes x a with
  | nil =>
    rw [hf] at hfollow
    cases hfollow
  | cons a' follow =>
    cases hp : ids.filter fun b => !c.precedes b x with
    | nil =>
      rw [hp] at hprecede
      cases hprecede
    | cons b' precede =>
      rw [hf] at hfollow
      rw [hp] at hprecede
      cases follow with
      | cons _ _ => simp
      | nil =>
        cases precede with
        | cons _ _ => simp
        | nil =>
          obtain rfl := List.mem_singleton.mp hfollow
          obtain rfl := List.mem_singleton.mp hprecede
          simp [hab]

theorem length_filter_range (p : Nat → Bool) :
    ((List.range n).filter p).length = ((Finset.range n).filter fun x => p x = true).card := by
  rw [← List.toFinset_card_of_nodup (List.nodup_range.filter p), List.toFinset_filter,
    List.toFinset_range]

namespace KeptBy

variable (hk : c.KeptBy order)

include hk

theorem mem_of_lt (h : x < c.size) : x ∈ order := hk.perm.mem_iff.mpr (List.mem_range.mpr h)

theorem lt_of_precedes (h : c.precedes x b = true) : x < c.size := by
  have hlt := (hk.before h).trans_le List.idxOf_le_length
  exact List.mem_range.mp (hk.perm.mem_iff.mp (List.idxOf_lt_length_iff.mp hlt))

/-- The bounds count the members, and with them either the nodes that are always between two
members or the nodes that can be. -/
theorem spanBound_eq (hids : ∀ a ∈ ids, a < c.size) (hne : ids ≠ []) :
    c.spanBound ids =
      let members := (Finset.range c.size).filter (· ∈ ids)
      let between := (Finset.range c.size).filter fun x => x ∉ ids ∧
        (∃ a ∈ ids, Rows.holds c.after a x = true) ∧ ∃ b ∈ ids, c.precedes x b = true
      let possible := (Finset.range c.size).filter fun x => x ∉ ids ∧
        c.canBeInside (Ascending.ofList ids) x = true
      ⟨members.card + between.card, members.card + possible.card + 1⟩ := by
  have hmembers : (Ascending.ofList ids).length = ((Finset.range c.size).filter (· ∈ ids)).card := by
    rw [← List.toFinset_card_of_nodup (Ascending.ofList_nodup ids)]
    congr 1
    ext a
    simpa using hids a
  have hempty : (Ascending.ofList ids).isEmpty = false := by
    obtain ⟨a, ha⟩ := List.exists_mem_of_ne_nil ids hne
    exact List.isEmpty_eq_false_iff_exists_mem.mpr ⟨a, Ascending.mem_ofList.mpr ha⟩
  have htaken : ∀ x, ((Ascending.ofList ids).foldl (fun s a => s.insert a)
      (Words.empty c.size)).testBit x = decide (x ∈ ids) := fun x => by
    have hlt : ∀ a ∈ Ascending.ofList ids, a < c.size := fun a ha =>
      hids a (Ascending.mem_ofList.mp ha)
    rw [Bool.eq_iff_iff, Words.testBit_foldl_insert hlt, Ascending.mem_ofList]
    simp
  have hbetween : ∀ x, (((Ascending.ofList ids).foldl
      (fun s a => s.union (Rows.row c.after a)) (Words.empty c.size)).inter
        ((Ascending.ofList ids).foldl
          (fun s a => s.union (Rows.row c.before a)) (Words.empty c.size))).testBit x = true ↔
      (∃ a ∈ ids, Rows.holds c.after a x = true) ∧ ∃ b ∈ ids, c.precedes x b = true := fun x => by
    rw [Words.testBit_inter, Bool.and_eq_true, Words.testBit_foldl_union, Words.testBit_foldl_union]
    simp [Rows.holds, precedes]
  unfold spanBound
  dsimp only
  rw [hempty, if_neg Bool.false_ne_true, hmembers, List.filter_filter]
  rw [Words.count_eq_filter (m := c.size), length_filter_range, length_filter_range]
  · congr 4
    · ext x
      rw [Words.testBit_diff, Bool.and_eq_true, hbetween, htaken, and_comm]
      simp
    · ext x
      simp [htaken, and_comm]
  · -- what is between two members is before one of them
    intro x hx
    rw [Words.testBit_diff, Bool.and_eq_true, hbetween] at hx
    obtain ⟨⟨-, b, -, hxb⟩, -⟩ := hx
    exact hk.lt_of_precedes hxb

theorem spanOf_filter {keep : Nat → Bool}
    (h : ∀ a ∈ ids, keep a = false →
      (∃ b ∈ ids, c.precedes b a = true) ∧ ∃ b ∈ ids, c.precedes a b = true) :
    spanOf ((ids.filter keep).map order.idxOf) = spanOf (ids.map order.idxOf) := by
  by_cases hne : ids = []
  · rw [hne]
    rfl
  · obtain ⟨low, high, he⟩ := Ends.exists_of_ne_nil (mt List.map_eq_nil_iff.mp hne)
    have hbetween : ∀ a ∈ ids, low ≤ order.idxOf a ∧ order.idxOf a ≤ high := fun a ha =>
      he.between _ (List.mem_map_of_mem ha)
    have hkept : Ends ((ids.filter keep).map order.idxOf) low high := by
      constructor
      · obtain ⟨a, ha, rfl⟩ := List.mem_map.mp he.low_mem
        refine List.mem_map_of_mem (List.mem_filter.mpr ⟨ha, ?_⟩)
        by_contra hno
        obtain ⟨⟨b, hb, hba⟩, -⟩ := h a ha (Bool.eq_false_of_not_eq_true hno)
        exact Nat.not_lt.mpr (hbetween b hb).1 (hk.before hba)
      · obtain ⟨a, ha, rfl⟩ := List.mem_map.mp he.high_mem
        refine List.mem_map_of_mem (List.mem_filter.mpr ⟨ha, ?_⟩)
        by_contra hno
        obtain ⟨-, b, hb, hab⟩ := h a ha (Bool.eq_false_of_not_eq_true hno)
        exact Nat.not_lt.mpr (hbetween b hb).2 (hk.before hab)
      · intro p hp
        obtain ⟨a, ha, rfl⟩ := List.mem_map.mp hp
        exact hbetween a (List.mem_filter.mp ha).1
    rw [hkept.spanOf_eq, he.spanOf_eq]

section Bounds

variable (hids : ∀ a ∈ ids, a < c.size)

include hids

theorem spanOf_eq_card (hne : ids ≠ []) : ∃ a ∈ ids, ∃ b ∈ ids,
    (∀ x ∈ ids, order.idxOf a ≤ order.idxOf x ∧ order.idxOf x ≤ order.idxOf b) ∧
      spanOf (ids.map order.idxOf) = ((Finset.range c.size).filter fun x =>
        order.idxOf a ≤ order.idxOf x ∧ order.idxOf x ≤ order.idxOf b).card := by
  obtain ⟨low, high, he⟩ := Ends.exists_of_ne_nil (mt List.map_eq_nil_iff.mp hne)
  obtain ⟨a, ha, rfl⟩ := List.mem_map.mp he.low_mem
  obtain ⟨b, hb, rfl⟩ := List.mem_map.mp he.high_mem
  have hbetween : ∀ x ∈ ids, order.idxOf a ≤ order.idxOf x ∧ order.idxOf x ≤ order.idxOf b :=
    fun x hx => he.between _ (List.mem_map_of_mem hx)
  have hhigh : order.idxOf b < c.size := by
    have := List.idxOf_lt_length_of_mem (hk.mem_of_lt (hids b hb))
    rwa [hk.perm.length_eq, List.length_range] at this
  refine ⟨a, ha, b, hb, hbetween, ?_⟩
  rw [he.spanOf_eq, card_between hk.perm hhigh (hbetween a ha).2]

/-- The members and what is always between two of them are inside the span. -/
theorem low_le_spanOf (hne : ids ≠ []) :
    (c.spanBound ids).low ≤ spanOf (ids.map order.idxOf) := by
  obtain ⟨a, -, b, -, hbetween, hspan⟩ := hk.spanOf_eq_card hids hne
  rw [hk.spanBound_eq hids hne, hspan]
  dsimp only
  rw [← Finset.card_union_of_disjoint]
  · apply Finset.card_le_card
    intro x hx
    simp only [Finset.mem_union, Finset.mem_filter, Finset.mem_range] at hx ⊢
    rcases hx with ⟨hlt, hx⟩ | ⟨hlt, -, ⟨y, hy, hyx⟩, z, hz, hxz⟩
    · exact ⟨hlt, hbetween x hx⟩
    · constructor
      · exact hlt
      · exact ⟨(hbetween y hy).1.trans (hk.after hyx).le,
          (hk.before hxz).le.trans (hbetween z hz).2⟩
  · rw [Finset.disjoint_filter]
    exact fun x _ hx hno => hno.1 hx

theorem spanOf_lt_high (hne : ids ≠ []) :
    spanOf (ids.map order.idxOf) < (c.spanBound ids).high := by
  obtain ⟨a, ha, b, hb, -, hspan⟩ := hk.spanOf_eq_card hids hne
  rw [hk.spanBound_eq hids hne, hspan]
  apply Nat.lt_succ_of_le
  apply le_trans _ (Finset.card_union_le _ _)
  apply Finset.card_le_card
  intro x hx
  simp only [Finset.mem_union, Finset.mem_filter, Finset.mem_range] at hx ⊢
  obtain ⟨hlt, hax, hxb⟩ := hx
  by_cases hm : x ∈ ids
  · exact .inl ⟨hlt, hm⟩
  · have hab : a ≠ b := by
      rintro rfl
      have hxa := Nat.le_antisymm hxb hax
      exact hm ((List.idxOf_inj (hk.mem_of_lt hlt)).mp hxa ▸ ha)
    have hxa : c.precedes x a = false :=
      Bool.eq_false_of_not_eq_true fun h => Nat.not_lt.mpr hax (hk.before h)
    have hbx : c.precedes b x = false :=
      Bool.eq_false_of_not_eq_true fun h => Nat.not_lt.mpr hxb (hk.before h)
    exact .inr ⟨hlt, hm, canBeInside_eq_true (Ascending.mem_ofList.mpr ha)
      (Ascending.mem_ofList.mpr hb) hab hxa hbx⟩

theorem spanOf_bounds : (c.spanBound ids).low ≤ spanOf (ids.map order.idxOf) ∧
    spanOf (ids.map order.idxOf) < (c.spanBound ids).high := by
  by_cases hne : ids = []
  · subst hne
    exact ⟨Nat.le_refl 0, Nat.zero_lt_one⟩
  · exact ⟨hk.low_le_spanOf hids hne, hk.spanOf_lt_high hids hne⟩

end Bounds

end KeptBy

/-- Edges without a cycle have a closure, and in every topological order the span of a set of
nodes lies between the bounds that the closure gives. Bounds that leave room for one span only
make it the same in all of them. -/
theorem ofEdges_spanBound {edges : Edges} (hr : edges.InRange) (hac : edges.Acyclic) :
    ∃ c, Closure.ofEdges edges = .ok c ∧ ∀ ids, (∀ a ∈ ids, a < edges.size) →
      (∀ order, edges.Topological order →
        (c.spanBound ids).low ≤ spanOf (ids.map order.idxOf) ∧
          spanOf (ids.map order.idxOf) < (c.spanBound ids).high) ∧
      ((c.spanBound ids).high = (c.spanBound ids).low + 1 → ∀ order order',
        edges.Topological order → edges.Topological order' →
          spanOf (ids.map order.idxOf) = spanOf (ids.map order'.idxOf)) := by
  obtain ⟨c, hc, he⟩ := (ofEdges_eq hr).1 hac
  refine ⟨c, hc, fun ids hids => ?_⟩
  have hbounds : ∀ order, edges.Topological order →
      (c.spanBound ids).low ≤ spanOf (ids.map order.idxOf) ∧
        spanOf (ids.map order.idxOf) < (c.spanBound ids).high := fun order ho =>
    (he.keptBy ho.perm ho.path_lt).spanOf_bounds fun a ha => by
      rw [he.size]
      exact hids a ha
  refine ⟨hbounds, fun hone order order' ho ho' => ?_⟩
  have := hbounds order ho
  have := hbounds order' ho'
  omega

/-- In the diamond a side of two nodes spans two or three places, as a node of the other side can
come between them, and both ends together span all five places. -/
theorem diamond_spanBound : (Edges.diamond.InRange ∧ Edges.diamond.Acyclic) ∧ ∃ c,
    Closure.ofEdges .diamond = .ok c ∧ c.spanBound [3, 1, 1] = ⟨2, 4⟩ ∧
      (∀ order, Edges.diamond.Topological order →
        2 ≤ spanOf ([3, 1, 1].map order.idxOf) ∧ spanOf ([3, 1, 1].map order.idxOf) < 4) ∧
      c.spanBound [0, 4] = ⟨5, 6⟩ ∧ ∀ order order', Edges.diamond.Topological order →
        Edges.diamond.Topological order' →
          spanOf ([0, 4].map order.idxOf) = spanOf ([0, 4].map order'.idxOf) := by
  have hd : Edges.diamond.InRange ∧ Edges.diamond.Acyclic := Edges.isSchedulable_iff.mp (by decide)
  obtain ⟨c, hc, h⟩ := ofEdges_spanBound hd.1 hd.2
  have hv : (Closure.ofEdges .diamond).map (fun c => (c.spanBound [3, 1, 1], c.spanBound [0, 4])) =
      .ok (⟨2, 4⟩, ⟨5, 6⟩) := by decide +kernel
  rw [hc] at hv
  obtain ⟨hside, hends⟩ := Prod.mk.inj (Except.ok.inj hv)
  refine ⟨hd, c, hc, hside, ?_, hends, (h [0, 4] (by decide)).2 (by rw [hends])⟩
  have hbounds := (h [3, 1, 1] (by decide)).1
  rwa [hside] at hbounds

end Closure

end Liveness
