import Liveness.Proofs.Closure.Spans

/-! # What the closure tells about ends

Where nothing leads from a set to one of its nodes, some topological order has this node before
all others of the set: what leads to it comes first. So a node is the first of a set in every
topological order when it leads to all others, and in none when one of them leads to it. Turned
around, the same holds for the last of a set.
-/

namespace Liveness

variable {edges preds : Edges} {order ids : List Nat} {v v' : Verdict} {p q : List Nat → Prop}
  {beats : Nat → Nat → Bool} {a b : Nat}

theorem idxOf_reverse (hn : order.Nodup) (ha : a ∈ order) :
    order.reverse.idxOf a = order.length - 1 - order.idxOf a := by
  have hlt := List.idxOf_lt_length_of_mem ha
  have hlt' : order.length - 1 - order.idxOf a < order.reverse.length := by
    rw [List.length_reverse]
    omega
  have hget : order.reverse[order.length - 1 - order.idxOf a] = a := by
    rw [List.getElem_reverse]
    simp only [show order.length - 1 - (order.length - 1 - order.idxOf a) = order.idxOf a by omega]
    exact List.getElem_idxOf hlt
  have hidx := (List.nodup_reverse.mpr hn).idxOf_getElem _ hlt'
  rwa [hget] at hidx

theorem idxOf_reverse_le (hn : order.Nodup) (ha : a ∈ order) (hb : b ∈ order) :
    order.reverse.idxOf a ≤ order.reverse.idxOf b ↔ order.idxOf b ≤ order.idxOf a := by
  have hla := List.idxOf_lt_length_of_mem ha
  have hlb := List.idxOf_lt_length_of_mem hb
  rw [idxOf_reverse hn ha, idxOf_reverse hn hb]
  omega

namespace Edges

/-- What a verdict tells about a property of orders: that all topological orders have it, that
some have it and others do not, or that none has it. -/
def Tells (edges : Edges) (v : Verdict) (p : List Nat → Prop) : Prop :=
  match v with
  | .always => ∀ order, edges.Topological order → p order
  | .sometimes => (∃ order, edges.Topological order ∧ p order) ∧
      ∃ order, edges.Topological order ∧ ¬ p order
  | .never => ∀ order, edges.Topological order → ¬ p order

theorem Tells.congr (h : edges.Tells v p) (hpq : ∀ order, edges.Topological order →
    (p order ↔ q order)) : edges.Tells v q := by
  cases v with
  | always => exact fun order ho => (hpq order ho).mp (h order ho)
  | sometimes =>
    obtain ⟨⟨order, ho, hp⟩, order', ho', hn⟩ := h
    exact ⟨⟨order, ho, (hpq order ho).mp hp⟩, order', ho', mt (hpq order' ho').mpr hn⟩
  | never => exact fun order ho => mt (hpq order ho).mpr (h order ho)

theorem Tells.turned (h : preds.Tells v p) (ht : edges.Turned preds) :
    edges.Tells v fun order => p order.reverse := by
  have hback : ∀ order, preds.Topological order → ∃ order', edges.Topological order' ∧
      order'.reverse = order := fun order ho =>
    ⟨order.reverse, ho.reverse ht.symm, List.reverse_reverse order⟩
  cases v with
  | always => exact fun order ho => h _ (ho.reverse ht)
  | sometimes =>
    obtain ⟨⟨_, hyes, hp⟩, _, hno, hn⟩ := h
    obtain ⟨order, ho, rfl⟩ := hback _ hyes
    obtain ⟨other, ho', rfl⟩ := hback _ hno
    exact ⟨⟨order, ho, hp⟩, other, ho', hn⟩
  | never => exact fun order ho => h _ (ho.reverse ht)

theorem Tells.unique (ho : edges.Topological order) (h : edges.Tells v p)
    (h' : edges.Tells v' p) : v = v' := by
  cases v <;> cases v' <;> grind [Tells]

theorem Topological.forall_others_lt_iff (ho : edges.Topological order) (ha : a < edges.size) :
    (∀ b ∈ ids.filter fun b => b != a, order.idxOf a < order.idxOf b) ↔
      ∀ b ∈ ids, order.idxOf a ≤ order.idxOf b := by
  have hm : a ∈ order := ho.perm.mem_iff.mpr (List.mem_range.mpr ha)
  constructor
  · intro h b hb
    by_cases he : b = a
    · rw [he]
    · exact (h b (List.mem_filter.mpr ⟨hb, by simpa using he⟩)).le
  · intro h b hb
    obtain ⟨hb, hne⟩ := List.mem_filter.mp hb
    refine lt_of_le_of_ne (h b hb) fun he => ?_
    simp [(List.idxOf_inj hm).mp he] at hne

end Edges

namespace Closure

variable {c : Closure}

/-- What leads to one of the others never comes before them all, what leads to all of them always
does, and otherwise there are orders of both kinds. -/
theorem verdict_tells (hr : edges.InRange) (hac : edges.Acyclic)
    (hbeats : ∀ x y, beats x y = true ↔ edges.Path x y) (ha : a < edges.size)
    (hids : ∀ b ∈ ids, b < edges.size ∧ b ≠ a) :
    edges.Tells (verdict beats a ids) fun order => ∀ b ∈ ids, order.idxOf a < order.idxOf b := by
  have ht := Edges.topologicalOrder_topological hr hac
  unfold verdict
  split
  · next hbeaten =>
    obtain ⟨b, hb, hba⟩ := List.any_eq_true.mp hbeaten
    intro order ho hall
    have := ho.path_lt ((hbeats b a).mp hba)
    have := hall b hb
    omega
  · next hfree =>
    split
    · next hleads =>
      exact fun order ho b hb => ho.path_lt ((hbeats a b).mp (List.all_eq_true.mp hleads b hb))
    · next hnot =>
      constructor
      · -- nothing leads to `a`, so it can come before all others
        obtain ⟨order, ho, hfront⟩ := ht.pull_front hr ha
        refine ⟨order, ho, fun b hb => hfront b (hids b hb).2 fun hp => ?_⟩
        exact hfree (List.any_eq_true.mpr ⟨b, hb, (hbeats b a).mpr hp⟩)
      · -- `a` does not lead to `b`, so `b` can come before it
        obtain ⟨b, hb, hab⟩ : ∃ b ∈ ids, ¬ beats a b = true := by
          simpa using hnot
        obtain ⟨order, ho, hfront⟩ := ht.pull_front hr (hids b hb).1
        have hlt := hfront a (hids b hb).2.symm (mt (hbeats a b).mpr hab)
        exact ⟨order, ho, fun hall => Nat.lt_asymm hlt (hall b hb)⟩

theorem Exact.extremes_tell (hc : c.Exact edges.Path edges.size) (hr : edges.InRange)
    (hac : edges.Acyclic) (hids : ∀ b ∈ ids, b < edges.size) (ha : a ∈ ids) :
    edges.Tells (c.extremes a ids).1 (fun order => ∀ b ∈ ids, order.idxOf a ≤ order.idxOf b) ∧
      edges.Tells (c.extremes a ids).2 fun order => ∀ b ∈ ids, order.idxOf b ≤ order.idxOf a := by
  have ht := Edges.turned_reverse hr
  have hothers : ∀ b ∈ ids.filter fun b => b != a, b < edges.size ∧ b ≠ a := fun b hb =>
    ⟨hids b (List.mem_filter.mp hb).1, by simpa using (List.mem_filter.mp hb).2⟩
  constructor
  · have hfirst := verdict_tells hr hac (fun x y => hc.precedes_iff) (hids a ha) hothers
    exact hfirst.congr fun order ho => ho.forall_others_lt_iff (hids a ha)
  · have hlast : edges.reverse.Tells (c.extremes a ids).2 fun order =>
        ∀ b ∈ ids.filter fun b => b != a, order.idxOf a < order.idxOf b :=
      verdict_tells ht.symm.inRange (ht.acyclic.mpr hac)
        (fun x y => hc.precedes_iff.trans ht.path.symm) (ht.1 ▸ hids a ha) (ht.1.symm ▸ hothers)
    refine (hlast.turned ht).congr fun order ho => ?_
    have hm : ∀ b ∈ ids, b ∈ order := fun b hb =>
      ho.perm.mem_iff.mpr (List.mem_range.mpr (hids b hb))
    rw [(ho.reverse ht).forall_others_lt_iff (ht.1 ▸ hids a ha)]
    refine forall₂_congr fun b hb => ?_
    exact idxOf_reverse_le (ho.perm.nodup_iff.mpr List.nodup_range) (hm a ha) (hm b hb)

/-- Edges without a cycle have a closure, and its verdicts on the ends of a set are exact: a node
of the set is its first one always, sometimes or never as this holds in all topological orders, in
some but not all, or in none, and it is the last one likewise. -/
theorem ofEdges_extremes (hr : edges.InRange) (hac : edges.Acyclic) :
    ∃ c, Closure.ofEdges edges = .ok c ∧ ∀ ids, (∀ b ∈ ids, b < edges.size) → ∀ a ∈ ids, ∀ v,
      ((c.extremes a ids).1 = v ↔
        edges.Tells v fun order => ∀ b ∈ ids, order.idxOf a ≤ order.idxOf b) ∧
      ((c.extremes a ids).2 = v ↔
        edges.Tells v fun order => ∀ b ∈ ids, order.idxOf b ≤ order.idxOf a) := by
  obtain ⟨c, hc, he⟩ := (ofEdges_eq hr).1 hac
  refine ⟨c, hc, fun ids hids a ha v => ?_⟩
  have ht := Edges.topologicalOrder_topological hr hac
  obtain ⟨hfirst, hlast⟩ := he.extremes_tell hr hac hids ha
  exact ⟨⟨fun h => h ▸ hfirst, hfirst.unique ht⟩, ⟨fun h => h ▸ hlast, hlast.unique ht⟩⟩

/-- In the diamond one of its sides is the first of both sides and the end in some orders only,
and the last of them in none. -/
theorem diamond_extremes : (Edges.diamond.InRange ∧ Edges.diamond.Acyclic) ∧ ∃ c,
    Closure.ofEdges .diamond = .ok c ∧ c.extremes 1 [1, 2, 4] = (.sometimes, .never) ∧
      Edges.diamond.Tells .sometimes (fun order => ∀ b ∈ [1, 2, 4], order.idxOf 1 ≤ order.idxOf b) ∧
      Edges.diamond.Tells .never fun order => ∀ b ∈ [1, 2, 4], order.idxOf b ≤ order.idxOf 1 := by
  have hd : Edges.diamond.InRange ∧ Edges.diamond.Acyclic := Edges.isSchedulable_iff.mp (by decide)
  obtain ⟨c, hc, h⟩ := ofEdges_extremes hd.1 hd.2
  have hv : (Closure.ofEdges .diamond).map (fun c => c.extremes 1 [1, 2, 4]) =
      .ok (.sometimes, .never) := by decide +kernel
  rw [hc] at hv
  have hv := Except.ok.inj hv
  obtain ⟨hfirst, hlast⟩ := Prod.mk.inj hv
  have hex := h [1, 2, 4] (by decide) 1 (by decide)
  exact ⟨hd, c, hc, hv, (hex .sometimes).1.mp hfirst, (hex .never).2.mp hlast⟩

end Closure

end Liveness
