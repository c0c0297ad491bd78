import Liveness.Proofs.Closure.Exact

/-! # Updating the closure

One more edge relates what leads to its start to what its end leads to. Every row takes
up the new pairs in one pass, because the row of the start does not change as long as no
cycle is closed. So an update with any edges ends with the closure of all edges together.
-/

namespace Liveness

open Relation Success

variable {edges new : Edges} {r R : Nat → Nat → Prop} {a b f t x y n : Nat}

/-- A relation with one more pair, and what follows from it by transitivity. -/
def Added (R : Nat → Nat → Prop) (a b : Nat) : Nat → Nat → Prop :=
  fun x y => R x y ∨ (x = a ∨ R x a) ∧ (y = b ∨ R b y)

theorem swap_added : Function.swap (Added R a b) = Added (Function.swap R) b a := by
  funext x y
  simp [Function.swap, Added, and_comm]

theorem transGen_add :
    TransGen (fun x y => r x y ∨ x = a ∧ y = b) = Added (TransGen r) a b := by
  funext x y
  refine propext ⟨fun h => ?_, fun h => ?_⟩
  · induction h with
    | single h =>
      rcases h with h | ⟨rfl, rfl⟩
      · exact .inl (.single h)
      · exact .inr ⟨.inl rfl, .inl rfl⟩
    | tail _ h ih =>
      rcases h with h | ⟨rfl, rfl⟩
      · rcases ih with ih | ⟨hx, hy⟩
        · exact .inl (ih.tail h)
        · refine .inr ⟨hx, .inr ?_⟩
          rcases hy with rfl | hy
          · exact .single h
          · exact hy.tail h
      · rcases ih with ih | ⟨hx, -⟩
        · exact .inr ⟨.inr ih, .inl rfl⟩
        · exact .inr ⟨hx, .inl rfl⟩
  · have hold : ∀ {x y}, TransGen r x y → TransGen (fun x y => r x y ∨ x = a ∧ y = b) x y :=
      fun h => h.lift id fun _ _ => .inl
    have hnew : TransGen (fun x y => r x y ∨ x = a ∧ y = b) a b := .single (.inr ⟨rfl, rfl⟩)
    rcases h with h | ⟨rfl | hx, rfl | hy⟩
    · exact hold h
    · exact hnew
    · exact hnew.trans (hold hy)
    · exact (hold hx).trans hnew
    · exact (hold hx).trans (hnew.trans (hold hy))

theorem added_of_rel (hR : ∀ ⦃a b c⦄, R a b → R b c → R a c) (h : R a b) : Added R a b = R := by
  funext x y
  refine propext ⟨?_, .inl⟩
  rintro (hxy | ⟨rfl | hx, rfl | hy⟩)
  · exact hxy
  · exact h
  · exact hR h hy
  · exact hR hx h
  · exact hR (hR hx h) hy

/-- A pair closes a cycle exactly when it leads from a node to itself or back on a path. -/
theorem added_self (hR : ∀ ⦃a b c⦄, R a b → R b c → R a c) (hirr : ∀ x, ¬ R x x) :
    (∀ x, ¬ Added R a b x x) ↔ a ≠ b ∧ ¬ R b a := by
  constructor
  · intro h
    refine ⟨fun hab => h a (.inr ⟨.inl rfl, .inl hab⟩), fun hba => ?_⟩
    exact h a (.inr ⟨.inl rfl, .inr hba⟩)
  · rintro ⟨hne, hba⟩ x (h | ⟨rfl | hx, rfl | hy⟩)
    · exact hirr x h
    · exact hne rfl
    · exact hba hy
    · exact hba hx
    · exact hba (hR hy hx)

namespace Rows

variable {rows : Rows n}

/-- What the rows hold of the new pairs when the nodes in `done` have taken them up. -/
def Partly (R : Nat → Nat → Prop) (f t : Nat) (done : List Nat) : Nat → Nat → Prop :=
  fun x c => R x c ∨ c ∈ done ∧ (c = t ∨ R t c) ∧ (x = f ∨ R x f)

theorem partly_concat {done : List Nat} {c : Nat} : Partly R f t (done ++ [c]) x y ↔
    Partly R f t done x y ∨ y = c ∧ (c = t ∨ R t c) ∧ (x = f ∨ R x f) := by
  simp only [Partly, List.mem_append, List.mem_singleton]
  grind

theorem partly_of_forall {done : List Nat} (hd : ∀ y, y = t ∨ R t y → y ∈ done) :
    Partly R f t done = Added R f t := by
  funext x y
  refine propext (or_congr_right ⟨fun h => ⟨h.2.2, h.2.1⟩, fun h => ⟨hd y h.2, h.2, h.1⟩⟩)

theorem Exact.insert_start (h : rows.Exact R) (hf : f < n) (ht : t < n) :
    (rows.join t f).Exact (Partly R f t [t]) := by
  refine ⟨fun y x => ?_⟩
  by_cases hy : y = t
  · subst hy
    rw [holds_join_self ht hf, h.holds_iff, h.holds_iff]
    simp [Partly]
  · rw [holds_join_of_ne hy, h.holds_iff]
    simp [Partly, hy]

theorem Exact.insert_step {done : List Nat} {c : Nat} (h : rows.Exact (Partly R f t done))
    (hR : ∀ ⦃a b c⦄, R a b → R b c → R a c) (hne : f ≠ t) (hno : ¬ R t f) (hd : t ∈ done)
    (hfn : f < n) (hc : c < n) :
    Exact (Partly R f t (done ++ [c]))
      (if rows.holds c t && !rows.holds c f then rows.join c f else rows) := by
  have hct : rows.holds c t = true ↔ R t c := by
    simp [h.holds_iff, Partly, hne.symm, hno]
  have hcf : rows.holds c f = true ↔ R f c ∨ c ∈ done ∧ (c = t ∨ R t c) := by
    simp [h.holds_iff, Partly]
  have hf : ∀ x, rows.holds f x = true ↔ R x f := by
    simp [h.holds_iff, Partly, hne, hno]
  split
  · next hif =>
    rw [Bool.and_eq_true, hct] at hif
    refine ⟨fun y x => ?_⟩
    rw [partly_concat]
    by_cases hy : y = c
    · subst hy
      rw [holds_join_self hc hfn, hf, h.holds_iff]
      simp only [hif.1, or_true, true_and]
    · rw [holds_join_of_ne hy, h.holds_iff]
      simp [hy]
  · next hif =>
    rw [Bool.and_eq_true, Bool.not_eq_true', ← Bool.not_eq_true, hct, hcf] at hif
    refine ⟨fun y x => ?_⟩
    rw [h.holds_iff, partly_concat, or_iff_left_of_imp]
    rintro ⟨rfl, hty, hxf⟩
    by_cases hyd : y ∈ done
    · exact .inr ⟨hyd, hty, hxf⟩
    · -- the node already has the start, and so everything before it
      have hyt : R t y := hty.resolve_left fun he => hyd (he ▸ hd)
      have hfy : R f y := by grind
      rcases hxf with rfl | hxf
      · exact .inl hfy
      · exact .inl (hR hxf hfy)

theorem Exact.insert_foldl {done cs : List Nat} (h : rows.Exact (Partly R f t done))
    (hR : ∀ ⦃a b c⦄, R a b → R b c → R a c) (hne : f ≠ t) (hno : ¬ R t f) (hd : t ∈ done)
    (hfn : f < n) (hcs : ∀ c ∈ cs, c < n) :
    Exact (Partly R f t (done ++ cs)) (cs.foldl (fun rows c =>
      if rows.holds c t && !rows.holds c f then rows.join c f else rows) rows) := by
  induction cs generalizing done rows with
  | nil => simpa using h
  | cons c cs ih =>
    obtain ⟨hc, hcs⟩ := List.forall_mem_cons.mp hcs
    rw [List.append_cons]
    exact ih (h.insert_step hR hne hno hd hfn hc) (List.mem_append_left _ hd) hcs

/-- An edge that closes no cycle is added with all that follows from it. -/
theorem Exact.insert (h : rows.Exact R) (hR : ∀ ⦃a b c⦄, R a b → R b c → R a c) (hne : f ≠ t)
    (hno : ¬ R t f) (hf : f < n) (ht : t < n) : (rows.insert f t).Exact (Added R f t) := by
  unfold Rows.insert
  split
  · next hft => rwa [added_of_rel hR ((h.holds_iff t f).mp hft)]
  · have hlt : ∀ c ∈ List.range n, c < n := fun c hc => List.mem_range.mp hc
    have hend := (h.insert_start hf ht).insert_foldl hR hne hno List.mem_cons_self hf hlt
    rwa [partly_of_forall] at hend
    rintro y (rfl | hy)
    · exact List.mem_cons_self
    · exact List.mem_cons_of_mem _ (List.mem_range.mpr (h.lt hy))

end Rows

namespace Closure

variable {c c' : Closure}

/-- Adding an edge fails exactly when it closes a cycle. -/
theorem Exact.addEdge (h : c.Exact R n) (hR : ∀ ⦃a b c⦄, R a b → R b c → R a c)
    (hirr : ∀ x, ¬ R x x) (ha : a < n) (hb : b < n) :
    ((∀ x, ¬ Added R a b x x) → ∃ c', c.addEdge a b = .ok c' ∧ c'.Exact (Added R a b) n) ∧
    (¬ (∀ x, ¬ Added R a b x x) → c.addEdge a b = .error (.cycle 0 n)) := by
  rw [added_self hR hirr]
  unfold Closure.addEdge
  constructor
  · rintro ⟨hne, hba⟩
    have hif : ¬ (decide (a = b) || c.precedes b a) = true := by
      simp [hne, h.precedes_iff, hba]
    rw [if_neg hif]
    obtain ⟨rfl, hbefore, hafter⟩ := h
    refine ⟨_, rfl, rfl, hbefore.insert hR hne hba ha hb, ?_⟩
    rw [swap_added]
    exact hafter.insert (fun _ _ _ hab hbc => hR hbc hab) hne.symm hba hb ha
  · intro hcyc
    have hif : (decide (a = b) || c.precedes b a) = true := by
      simp only [Bool.or_eq_true, decide_eq_true_eq, h.precedes_iff]
      grind
    rw [if_pos hif]
    rw [h.size]

theorem Exact.foldlM_addEdge {ps : List (Nat × Nat)} (h : c.Exact (TransGen r) n)
    (hirr : ∀ x, ¬ TransGen r x x) (hlt : ∀ p ∈ ps, p.1 < n ∧ p.2 < n) :
    let r' := fun x y => r x y ∨ (x, y) ∈ ps
    ((∀ x, ¬ TransGen r' x x) → ∃ c', ps.foldlM (fun c p => c.addEdge p.1 p.2) c = .ok c' ∧
      c'.Exact (TransGen r') n) ∧
    (¬ (∀ x, ¬ TransGen r' x x) →
      ps.foldlM (fun c p => c.addEdge p.1 p.2) c = .error (.cycle 0 n)) := by
  induction ps generalizing c r with
  | nil =>
    simp only [List.not_mem_nil, or_false]
    exact ⟨fun _ => ⟨c, rfl, h⟩, fun hn => absurd hirr hn⟩
  | cons p ps ih =>
    obtain ⟨a, b⟩ := p
    obtain ⟨ha, hb⟩ := hlt _ List.mem_cons_self
    obtain ⟨hok, herr⟩ := h.addEdge (fun _ _ _ => TransGen.trans) hirr ha hb
    rw [← transGen_add] at hok herr
    -- all edges together are those with the first one added, and then the others
    have hsplit : (fun x y => r x y ∨ (x, y) ∈ (a, b) :: ps) =
        fun x y => (r x y ∨ x = a ∧ y = b) ∨ (x, y) ∈ ps := by
      funext x y
      simp [or_assoc]
    simp only [List.foldlM_cons, hsplit]
    by_cases hfirst : ∀ x, ¬ TransGen (fun x y => r x y ∨ x = a ∧ y = b) x x
    · obtain ⟨c₁, hc₁, he⟩ := hok hfirst
      rw [hc₁]
      exact ih he hfirst fun p hp => hlt p (List.mem_cons_of_mem _ hp)
    · rw [herr hfirst]
      refine ⟨fun hall => absurd (fun x hx => ?_) hfirst, fun _ => rfl⟩
      exact hall x (hx.lift id fun _ _ => .inl)

end Closure

namespace Edges

def union (edges new : Edges) : Edges := edges.mapIdx fun a bs => bs ++ new.outs a

def FitsIn (edges : Edges) (n : Nat) : Prop :=
  (∀ ⦃a b⦄, b ∈ edges.outs a → b < n) ∧ edges.size ≤ n

@[simp]
theorem size_union (edges new : Edges) : (edges.union new).size = edges.size := by
  simp [union]

theorem mem_outs_union (hn : new.FitsIn edges.size) :
    b ∈ (edges.union new).outs a ↔ b ∈ edges.outs a ∨ b ∈ new.outs a := by
  by_cases ha : a < edges.size
  · simp [union, outs, Array.getD, ha]
  · have ha' : ¬ a < new.size := fun h => ha (Nat.lt_of_lt_of_le h hn.2)
    simp [union, outs, Array.getD, ha, ha']

theorem InRange.union (hr : edges.InRange) (hn : new.FitsIn edges.size) :
    (edges.union new).InRange := by
  intro a b hb
  rw [size_union]
  rcases (mem_outs_union hn).mp hb with hb | hb
  · exact hr hb
  · exact hn.1 hb

theorem path_union (hn : new.FitsIn edges.size) :
    (edges.union new).Path = TransGen fun x y => y ∈ edges.outs x ∨ (x, y) ∈ new.pairs := by
  unfold Path
  simp only [mem_outs_union hn, mem_pairs]

end Edges

namespace Closure

variable {c c' : Closure}

theorem updated_eq_foldlM (hn : new.FitsIn c.size) :
    c.updated new = new.pairs.foldlM (fun c p => c.addEdge p.1 p.2) c := by
  rw [updated_eq, Edges.check_eq_ok.mpr hn]
  rfl

/-- An update succeeds exactly when all edges together have no cycle, and is then exact. -/
theorem Exact.updated (h : c.Exact edges.Path edges.size) (ha : edges.Acyclic)
    (hn : new.FitsIn edges.size) :
    ((edges.union new).Acyclic →
      ∃ c', c.updated new = .ok c' ∧ c'.Exact (edges.union new).Path edges.size) ∧
    (¬ (edges.union new).Acyclic → c.updated new = .error (.cycle 0 edges.size)) := by
  have hlt : ∀ p ∈ new.pairs, p.1 < edges.size ∧ p.2 < edges.size := by
    rintro ⟨a, b⟩ hp
    have hb := Edges.mem_pairs.mp hp
    exact ⟨Nat.lt_of_lt_of_le (Edges.lt_of_mem_outs hb) hn.2, hn.1 hb⟩
  rw [updated_eq_foldlM (h.size ▸ hn)]
  unfold Edges.Acyclic
  rw [Edges.path_union hn]
  exact h.foldlM_addEdge ha hlt

theorem updated_eq_ok (h : Closure.ofEdges edges = .ok c) : c.updated new = .ok c' ↔
    new.FitsIn edges.size ∧ Closure.ofEdges (edges.union new) = .ok c' := by
  obtain ⟨hr, ha, he⟩ := ofEdges_eq_ok.mp h
  by_cases hn : new.FitsIn edges.size
  · rw [and_iff_right hn]
    obtain ⟨hok, herr⟩ := he.updated ha hn
    by_cases hu : (edges.union new).Acyclic
    · obtain ⟨c₁, hc₁, he₁⟩ := hok hu
      have hc₂ : Closure.ofEdges (edges.union new) = .ok c₁ :=
        ofEdges_eq_ok.mpr ⟨hr.union hn, hu, by rwa [Edges.size_union]⟩
      rw [hc₁, hc₂]
    · rw [herr hu]
      refine iff_of_false (fun h => by cases h) fun h => hu (ofEdges_eq_ok.mp h).2.1
  · refine iff_of_false (fun h => hn ?_) fun h => hn h.1
    rw [updated_eq, seq_eq_ok, he.size] at h
    exact Edges.check_eq_ok.mp h.1

theorem update_eq (c : Closure) (new : Edges) : update new c =
    match c.updated new with
    | .ok c' => .ok () c'
    | .error e => .error e c := by
  rw [updated_eq]
  exact update_apply new

theorem updated_of_update (h : update new c = .ok () c') : c.updated new = .ok c' := by
  rw [update_eq] at h
  split at h
  · next hu =>
    cases h
    exact hu
  · cases h

/-- The closure that an update leaves, whether it succeeds or fails. -/
def afterUpdate (c : Closure) (new : Edges) : Closure :=
  match update new c with
  | .ok _ c' => c'
  | .error _ c' => c'

end Closure

/-- The edges after some more were offered, which are only taken without a cycle. -/
def Edges.grow (edges new : Edges) : Edges :=
  if (edges.union new).isSchedulable then edges.union new else edges

theorem Edges.size_grow (edges new : Edges) : (edges.grow new).size = edges.size := by
  unfold Edges.grow
  split
  · exact size_union edges new
  · rfl

namespace Closure

variable {c c' : Closure} {news : List Edges}

theorem ofEdges_grow (h : Closure.ofEdges edges = .ok c) (hn : new.FitsIn edges.size) :
    Closure.ofEdges (edges.grow new) = .ok (c.afterUpdate new) := by
  obtain ⟨hr, ha, he⟩ := ofEdges_eq_ok.mp h
  have hs : (edges.union new).isSchedulable = true ↔ (edges.union new).Acyclic := by
    rw [Edges.isSchedulable_iff]
    exact and_iff_right (hr.union hn)
  unfold Edges.grow
  rw [afterUpdate, update_eq]
  by_cases hu : (edges.union new).Acyclic
  · obtain ⟨c', hc', -⟩ := (he.updated ha hn).1 hu
    rw [if_pos (hs.mpr hu), hc']
    exact ((updated_eq_ok h).mp hc').2
  · rw [if_neg fun hi => hu (hs.mp hi), (he.updated ha hn).2 hu]
    exact h

theorem ofEdges_foldl_grow (h : Closure.ofEdges edges = .ok c)
    (hn : ∀ new ∈ news, new.FitsIn edges.size) :
    (news.foldl Edges.grow edges).size = edges.size ∧
      Closure.ofEdges (news.foldl Edges.grow edges) = .ok (news.foldl afterUpdate c) := by
  induction news generalizing edges c with
  | nil => exact ⟨rfl, h⟩
  | cons new news ih =>
    have hs := Edges.size_grow edges new
    obtain ⟨hsize, hok⟩ := ih (ofEdges_grow h (hn new List.mem_cons_self)) fun new hm =>
      hs.symm ▸ hn new (List.mem_cons_of_mem _ hm)
    exact ⟨hsize.trans hs, hok⟩

/-- Start with the closure of edges without a cycle, and offer it lists of edges in place, of which
it takes those that close no cycle. Then the next update succeeds exactly when all edges together
have no cycle, and leaves the closure of them all. Whatever is offered, an update that fails leaves
the closure as it was. -/
theorem update_after_updates (hr : edges.InRange) (ha : edges.Acyclic)
    (hn : ∀ new ∈ news, new.FitsIn edges.size) (hnew : new.FitsIn edges.size) :
    ∃ c, Closure.ofEdges edges = .ok c ∧
      let taken := news.foldl Edges.grow edges
      let current := news.foldl afterUpdate c
      Closure.ofEdges taken = .ok current ∧
        ((∃ c', update new current = .ok () c') ↔ (taken.union new).Acyclic) ∧
        (∀ c', update new current = .ok () c' →
          Closure.ofEdges (taken.union new) = .ok c') ∧
        ∀ other e c', update other current = .error e c' → c' = current := by
  obtain ⟨c, hc, -⟩ := (ofEdges_eq hr).1 ha
  obtain ⟨hs, hok⟩ := ofEdges_foldl_grow hc hn
  obtain ⟨-, ht, he⟩ := ofEdges_eq_ok.mp hok
  obtain ⟨hacc, -⟩ := he.updated ht (hs.symm ▸ hnew)
  have htaken : ∀ c', update new (news.foldl afterUpdate c) = .ok () c' →
      Closure.ofEdges ((news.foldl Edges.grow edges).union new) = .ok c' := fun c' hc' =>
    ((updated_eq_ok hok).mp (updated_of_update hc')).2
  refine ⟨c, hc, hok, ⟨fun ⟨c', hc'⟩ => ?_, fun hu => ?_⟩, htaken, fun other e c' hc' => ?_⟩
  · exact (ofEdges_eq_ok.mp (htaken c' hc')).2.1
  · obtain ⟨c', hc', -⟩ := hacc hu
    exact ⟨c', by rw [update_eq, hc']⟩
  · rw [update_eq] at hc'
    split at hc'
    · cases hc'
    · cases hc'
      rfl

/-- An edge between the two sides of the diamond is taken and the one back refused; then
edges that follow from the others, one of them twice, can still be added. -/
theorem diamond_update_after_updates :
    let news : List Edges := [#[[], [2]], #[[], [], [1]]]
    ∃ c, Closure.ofEdges .diamond = .ok c ∧
      Closure.ofEdges (news.foldl Edges.grow .diamond) = .ok (news.foldl afterUpdate c) ∧
      ∃ c', update #[[4, 4], [4]] (news.foldl afterUpdate c) = .ok () c' := by
  have hd : Edges.diamond.isSchedulable = true := by decide +kernel
  obtain ⟨hr, ha⟩ := Edges.isSchedulable_iff.mp hd
  have hfirst : Edges.FitsIn #[[], [2]] 5 := Edges.check_eq_ok.mp rfl
  have hsecond : Edges.FitsIn #[[], [], [1]] 5 := Edges.check_eq_ok.mp rfl
  have hnews : ∀ new ∈ ([#[[], [2]], #[[], [], [1]]] : List Edges),
      new.FitsIn Edges.diamond.size := by simpa [Edges.diamond] using ⟨hfirst, hsecond⟩
  have hnew : Edges.FitsIn #[[4, 4], [4]] Edges.diamond.size := Edges.check_eq_ok.mp rfl
  obtain ⟨c, hc, htaken, hnext, -⟩ := update_after_updates hr ha hnews hnew
  refine ⟨c, hc, htaken, hnext.mpr ?_⟩
  exact (Edges.isSchedulable_iff.mp (by decide +kernel)).2

end Closure

end Liveness
