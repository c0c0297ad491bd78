import Liveness.Proofs.Peeling

/-! # The closure is reachability

Along an order with predecessors first, the rows of the nodes done so far hold exactly
what leads to them. A predecessor is left out of a join only when another one that is
joined already holds it, so no ancestor is lost.
-/

namespace Liveness

open Success

variable {edges preds : Edges} {taken order : List Nat} {a b c x : Nat} {R : Nat → Nat → Prop}

namespace Rows

variable {n : Nat} {rows rows' : Rows n}

structure Exact (R : Nat → Nat → Prop) (rows : Rows n) : Prop where
  holds_iff : ∀ a b, rows.holds a b = true ↔ R b a

theorem Exact.lt (h : rows.Exact R) (hab : R b a) : a < n := by
  have hh := (h.holds_iff a b).mpr hab
  by_contra hlt
  simp [holds, row, hlt] at hh

theorem Exact.unique (h : rows.Exact R) (h' : rows'.Exact R) : rows = rows' := by
  apply Vector.ext
  intro a ha
  apply Words.eq_of_testBit_eq
  intro b
  have hb : rows.holds a b = rows'.holds a b := by
    rw [Bool.eq_iff_iff, h.holds_iff, h'.holds_iff]
  simpa [holds, row, ha] using hb

theorem holds_join_of_ne (hc : c ≠ a) : (rows.join a b).holds c x = rows.holds c x := by
  rw [holds, row_join, if_neg fun h => hc h.1]
  rfl

theorem holds_join_self (ha : a < n) (hb : b < n) :
    (rows.join a b).holds a x = true ↔
      rows.holds a x = true ∨ x = b ∨ rows.holds b x = true := by
  rw [holds, row_join, if_pos ⟨rfl, ha⟩, Words.testBit_union, Bool.or_eq_true,
    Words.testBit_insert, and_iff_left (div_lt_wordsFor hb), or_assoc, eq_comm (a := b)]
  rfl

theorem foldl_join (rows : Rows n) {ps : List Nat} (ha : a < n) (hp : a ∉ ps) (hlt : ∀ p ∈ ps, p < n) :
    let rows' := ps.foldl (fun rows p => rows.join a p) rows
    (∀ c x, c ≠ a → rows'.holds c x = rows.holds c x) ∧
      ∀ x, rows'.holds a x = true ↔
        rows.holds a x = true ∨ ∃ p ∈ ps, x = p ∨ rows.holds p x = true := by
  induction ps generalizing rows with
  | nil => simp
  | cons p ps ih =>
    obtain ⟨hpa, hp⟩ := List.ne_and_not_mem_of_not_mem_cons hp
    obtain ⟨hpn, hlt⟩ := List.forall_mem_cons.mp hlt
    obtain ⟨hne, hself⟩ := ih (rows.join a p) hp hlt
    refine ⟨fun c x hc => (hne c x hc).trans (holds_join_of_ne hc), fun x => ?_⟩
    have hrest : (∃ q ∈ ps, x = q ∨ (rows.join a p).holds q x = true) ↔
        ∃ q ∈ ps, x = q ∨ rows.holds q x = true := by
      refine exists_congr fun q => and_congr_right fun hq => ?_
      rw [holds_join_of_ne fun he : q = a => hp (he ▸ hq)]
    rw [List.foldl_cons, hself, holds_join_self ha hpn, hrest, List.exists_mem_cons_iff, or_assoc]

/-- Each node looked at is among the essential ones or in the row of one of them. -/
theorem essential_covers (ht : ∀ p q r, rows.holds q p = true → rows.holds r q = true →
    rows.holds r p = true) {kept ps : List Nat} {p : Nat} (hp : p ∈ kept ∨ p ∈ ps) :
    ∃ q ∈ rows.essential kept ps, q = p ∨ rows.holds q p = true := by
  induction ps generalizing kept p with
  | nil => exact ⟨p, hp.resolve_right List.not_mem_nil, .inl rfl⟩
  | cons y ps ih =>
    unfold essential
    split
    · next hy =>
      rcases hp with hp | hp
      · exact ih (.inl hp)
      · rcases List.mem_cons.mp hp with rfl | hp
        · -- what was left out is in the row of `q`, and `q` is covered
          obtain ⟨q, hq, hqp⟩ := List.any_eq_true.mp hy
          obtain ⟨r, hr, rfl | hrq⟩ := ih (List.mem_append.mp hq)
          · exact ⟨r, hr, .inr hqp⟩
          · exact ⟨r, hr, .inr (ht _ _ _ hqp hrq)⟩
        · exact ih (.inr hp)
    · apply ih
      simp only [List.mem_append, List.mem_cons] at hp ⊢
      tauto

/-- The rows of the nodes done hold what leads to them, the other rows are empty. -/
def Done (edges : Edges) (taken : List Nat) (rows : Rows n) : Prop :=
  rows.Exact fun x a => a ∈ taken ∧ edges.Path x a

theorem Done.complete (h : Done edges taken rows) (hp : edges.Turned preds) (hsize : edges.size = n)
    (ha : a < n) (hn : a ∉ taken) (hd : ∀ p, a ∈ edges.outs p → p ∈ taken) :
    Done edges (taken ++ [a]) (rows.complete preds a) := by
  have hess : ∀ p ∈ rows.essential [] (preds.outs a), a ∈ edges.outs p := fun p hm =>
    (hp.2 a p).mp ((mem_of_mem_essential hm).resolve_left List.not_mem_nil)
  have hnot : a ∉ rows.essential [] (preds.outs a) := fun hm => hn (hd a (hess a hm))
  have hlt : ∀ p ∈ rows.essential [] (preds.outs a), p < n := fun p hm =>
    hsize ▸ Edges.lt_of_mem_outs (hess p hm)
  obtain ⟨hne, hself⟩ := foldl_join rows ha hnot hlt
  refine ⟨fun c x => ?_⟩
  unfold Rows.complete
  by_cases hc : c = a
  · subst hc
    rw [hself, h.holds_iff, Edges.path_iff]
    simp only [hn, false_and, false_or, List.mem_append, List.mem_singleton, or_true, true_and,
      h.holds_iff]
    constructor
    · rintro ⟨p, hm, hx⟩
      exact ⟨p, hess p hm, hx.imp_right And.right⟩
    · -- a predecessor that is not essential is covered by one that is
      rintro ⟨p, hm, hx⟩
      have htrans : ∀ p q r, rows.holds q p = true → rows.holds r q = true →
          rows.holds r p = true := by
        intro p q r hqp hrq
        rw [h.holds_iff] at hqp hrq ⊢
        exact ⟨hrq.1, hqp.2.trans hrq.2⟩
      have hmem : p ∈ ([] : List Nat) ∨ p ∈ preds.outs c := .inr ((hp.2 c p).mpr hm)
      obtain ⟨q, hq, hqp⟩ := essential_covers htrans hmem
      refine ⟨q, hq, ?_⟩
      rcases hqp with rfl | hqp
      · exact hx.imp_right fun hx => ⟨hd q hm, hx⟩
      · obtain ⟨hqt, hpq⟩ := (h.holds_iff _ _).mp hqp
        rcases hx with rfl | hx
        · exact .inr ⟨hqt, hpq⟩
        · exact .inr ⟨hqt, hx.trans hpq⟩
  · rw [hne c x hc, h.holds_iff]
    simp [hc]

theorem Done.foldl_complete (h : Done edges taken rows) (hp : edges.Turned preds)
    (hsize : edges.size = n) (hn : (taken ++ order).Nodup) (hl : ∀ a ∈ order, a < n)
    (hc : edges.Closed (taken ++ order)) :
    Done edges (taken ++ order) (order.foldl (fun rows a => rows.complete preds a) rows) := by
  induction order generalizing taken rows with
  | nil => simpa using h
  | cons a order ih =>
    have ha : a ∉ taken := fun hm =>
      (List.nodup_append.mp hn).2.2 a hm a List.mem_cons_self rfl
    have := h.complete hp hsize (hl a List.mem_cons_self) ha (hc taken a order rfl)
    rw [List.append_cons] at hn hc ⊢
    exact ih this hn (fun b hb => hl b (List.mem_cons_of_mem a hb)) hc

/-- The rows can be found exactly when there is no cycle, and then they are exact. -/
theorem ofEdges_eq (hp : edges.Turned preds) (hsize : edges.size = n) :
    (edges.Acyclic → ∃ rows, Rows.ofEdges n edges preds = .ok rows ∧ rows.Exact edges.Path) ∧
    (¬ edges.Acyclic → Rows.ofEdges n edges preds =
      .error (.cycle edges.topologicalOrder.length edges.size)) := by
  have hl := Edges.length_topologicalOrder hp.inRange
  refine ⟨fun ha => ?_, fun ha => ?_⟩
  · have ht := Edges.topologicalOrder_topological hp.inRange ha
    obtain ⟨hn, hlt, hc⟩ := topologicalOrder_sound hp.inRange
    have hstart : Done edges [] (Vector.replicate n (Words.empty n)) := ⟨fun a b => by simp⟩
    have hdone : Done edges edges.topologicalOrder
        (edges.topologicalOrder.foldl (fun rows a => rows.complete preds a) _) :=
      hstart.foldl_complete hp hsize hn (hsize ▸ hlt) hc
    refine ⟨_, by unfold Rows.ofEdges; exact if_neg (not_not_intro (hl.mpr ha)), ⟨?_⟩⟩
    intro a b
    rw [hdone.holds_iff]
    refine and_iff_right_of_imp fun hpath => ?_
    rw [ht.perm.mem_iff, List.mem_range]
    exact hpath.right_lt hp.inRange
  · unfold Rows.ofEdges
    exact if_pos fun he => ha (hl.mp he)

end Rows

/-- Two ways from the first node to the last, one of them with an edge given twice. -/
def Edges.diamond : Edges := #[[1, 2, 1], [3], [4], [4], []]

namespace Closure

variable {c c' : Closure} {n : Nat}

structure Exact (R : Nat → Nat → Prop) (n : Nat) (c : Closure) : Prop where
  size : c.size = n
  before : c.before.Exact R
  after : c.after.Exact (Function.swap R)

theorem Exact.unique (h : c.Exact R n) (h' : c'.Exact R n) : c = c' := by
  obtain ⟨size, before, after⟩ := c
  obtain ⟨size', before', after'⟩ := c'
  obtain rfl : size = size' := h.size.trans h'.size.symm
  obtain rfl : before = before' := h.before.unique h'.before
  obtain rfl : after = after' := h.after.unique h'.after
  rfl

theorem Exact.precedes_iff (h : c.Exact R n) : c.precedes a b = true ↔ R a b :=
  h.before.holds_iff b a

end Closure

theorem Edges.check_eq_ok {n : Nat} :
    edges.check n = .ok () ↔ (∀ ⦃a b⦄, b ∈ edges.outs a → b < n) ∧ edges.size ≤ n := by
  rw [← forall_mem_flatten]
  unfold Edges.check
  split
  · next b hb =>
    have hn := List.find?_some hb
    simp only [decide_eq_true_eq] at hn
    refine iff_of_false throw_eq_ok.mp fun h => ?_
    have := h.1 b (List.mem_of_find?_eq_some hb)
    omega
  · next hb =>
    have hlt : ∀ b ∈ edges.toList.flatten, b < n := fun b hm => by
      have := List.find?_eq_none.mp hb b hm
      simpa using this
    split
    · next hs => exact iff_of_false throw_eq_ok.mp fun h => Nat.not_lt.mpr h.2 hs
    · next hs => exact iff_of_true rfl ⟨hlt, Nat.not_lt.mp hs⟩

namespace Closure

theorem ofEdges_eq_bind (hr : edges.InRange) : Closure.ofEdges edges =
    Rows.ofEdges edges.size edges edges.reverse >>= fun before =>
      Rows.ofEdges edges.size edges.reverse edges >>= fun after =>
        pure ⟨edges.size, before, after⟩ := by
  unfold Closure.ofEdges
  rw [Edges.check_eq_ok.mpr ⟨hr, Nat.le_refl _⟩]
  rfl

/-- The closure can be found exactly when there is no cycle, and then it is exact. -/
theorem ofEdges_eq (hr : edges.InRange) :
    (edges.Acyclic → ∃ c, Closure.ofEdges edges = .ok c ∧ c.Exact edges.Path edges.size) ∧
    (¬ edges.Acyclic → Closure.ofEdges edges =
      .error (.cycle edges.topologicalOrder.length edges.size)) := by
  have ht := Edges.turned_reverse hr
  rw [ofEdges_eq_bind hr]
  constructor
  · intro ha
    obtain ⟨before, hb, hbe⟩ := (Rows.ofEdges_eq ht rfl).1 ha
    obtain ⟨after, ha, hae⟩ := (Rows.ofEdges_eq ht.symm ht.1).1 (ht.acyclic.mpr ha)
    have hswap : edges.reverse.Path = Function.swap edges.Path := by
      funext a b
      exact propext ht.path
    rw [hswap] at hae
    rw [hb, ha]
    exact ⟨_, rfl, rfl, hbe, hae⟩
  · intro ha
    rw [(Rows.ofEdges_eq ht rfl).2 ha]
    rfl

theorem ofEdges_eq_ok {c : Closure} : Closure.ofEdges edges = .ok c ↔
    edges.InRange ∧ edges.Acyclic ∧ c.Exact edges.Path edges.size := by
  constructor
  · intro h
    have hr : edges.InRange := by
      unfold Closure.ofEdges at h
      rw [seq_eq_ok] at h
      exact (Edges.check_eq_ok.mp h.1).1
    by_cases ha : edges.Acyclic
    · obtain ⟨c', hc', he⟩ := (ofEdges_eq hr).1 ha
      obtain rfl := Except.ok.inj (h.symm.trans hc')
      exact ⟨hr, ha, he⟩
    · rw [(ofEdges_eq hr).2 ha] at h
      cases h
  · rintro ⟨hr, ha, he⟩
    obtain ⟨c', hc', he'⟩ := (ofEdges_eq hr).1 ha
    rw [hc', he.unique he']

theorem ofEdges_congr {edges' : Edges} {c : Closure} (h : Closure.ofEdges edges = .ok c)
    (hr : edges'.InRange) (hs : edges'.size = edges.size) (hp : edges'.Path = edges.Path) :
    Closure.ofEdges edges' = .ok c := by
  obtain ⟨-, ha, he⟩ := ofEdges_eq_ok.mp h
  rw [ofEdges_eq_ok, Edges.Acyclic, hp, hs]
  exact ⟨hr, ha, he⟩

/-- There is a closure exactly for edges that can be scheduled. It puts `a` before `b` when
a path leads from `a` to `b`, and for different nodes that is when every topological order
does. The second matrix is the first one turned around, and neither has a bit too many. -/
theorem ofEdges_reachability (edges : Edges) :
    ((∃ c, Closure.ofEdges edges = .ok c) ↔ edges.InRange ∧ edges.Acyclic) ∧
    (edges.isSchedulable = true ↔ edges.InRange ∧ edges.Acyclic) ∧
    ∀ c, Closure.ofEdges edges = .ok c →
      c.size = edges.size ∧
      (∀ a b, c.precedes a b = true ↔ edges.Path a b) ∧
      (∀ a b, a < edges.size → b < edges.size → a ≠ b → (c.precedes a b = true ↔
        ∀ order, edges.Topological order → order.idxOf a < order.idxOf b)) ∧
      (∀ a b, Rows.holds c.after a b = Rows.holds c.before b a) ∧
      ∀ a i, (Rows.row c.before a).testBit i = true ∨ (Rows.row c.after a).testBit i = true →
        i < edges.size := by
  refine ⟨⟨fun ⟨c, hc⟩ => ?_, fun ⟨hr, ha⟩ => ?_⟩, Edges.isSchedulable_iff, fun c hc => ?_⟩
  · obtain ⟨hr, ha, -⟩ := ofEdges_eq_ok.mp hc
    exact ⟨hr, ha⟩
  · obtain ⟨c, hc, -⟩ := (ofEdges_eq hr).1 ha
    exact ⟨c, hc⟩
  · obtain ⟨hr, ha, he⟩ := ofEdges_eq_ok.mp hc
    refine ⟨he.size, fun a b => he.precedes_iff,
      fun a b _ hb hab => ?_, fun a b => ?_, fun a i hi => ?_⟩
    · rw [he.precedes_iff]
      exact Edges.path_iff_forall_topological (Edges.topologicalOrder_topological hr ha) hr hb hab
    · rw [Bool.eq_iff_iff, he.after.holds_iff, he.before.holds_iff]
    · rcases hi with hi | hi
      · exact ((he.before.holds_iff a i).mp hi).left_lt
      · exact ((he.after.holds_iff a i).mp hi).right_lt hr

def diamond : Closure where
  size := 5
  before := #v[#v[0], #v[1], #v[1], #v[3], #v[15]]
  after := #v[#v[30], #v[24], #v[16], #v[16], #v[0]]

theorem ofEdges_diamond : Closure.ofEdges .diamond = .ok diamond := by decide +kernel

/-- In the diamond the last node comes after the first, and its sides come in any order. -/
theorem diamond_reachability : ∃ c, Closure.ofEdges .diamond = .ok c ∧ Edges.diamond.Path 0 4 ∧
    ¬ ∀ order, Edges.diamond.Topological order → order.idxOf 1 < order.idxOf 2 := by
  obtain ⟨-, hpath, horders, -⟩ := (ofEdges_reachability .diamond).2.2 _ ofEdges_diamond
  refine ⟨_, ofEdges_diamond, (hpath 0 4).mp (by decide), fun hall => ?_⟩
  have := (horders 1 2 (by decide) (by decide) (by decide)).mpr hall
  revert this
  decide

end Closure

end Liveness
