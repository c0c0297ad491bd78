import Liveness.Closure.Query
import Liveness.Proofs.Closure.Update
import Liveness.Proofs.Closure.Words
import Liveness.Random.Draw

/-! # Sets that filters give

A filter asks for the nodes on one side of a node. Filters together give the nodes that meet all
of them, or at least one. The set is known early when it is empty or has all nodes, and no visit
after that changes it, so the order in which the filters are visited does not matter. The rows of a
closure and the set of all nodes have no bit beyond the last node, so neither has any of these sets.
-/

namespace Liveness

variable {c : Closure} {f : Filter} {filters visited : List Filter} {a b x : Nat}
  {s : Words c.size} {source : Random.Source}

theorem Filter.shuffled_perm (source : Random.Source) (filters : List Filter) :
    (shuffled source filters).Perm filters := source.shuffle_perm _ _

namespace Closure

/-- A closure that edges give, after any number of updates. -/
inductive Found : Closure → Prop where
  | ofEdges {edges : Edges} {c : Closure} (h : Closure.ofEdges edges = .ok c) : Found c
  | update {new : Edges} {c c' : Closure} (hc : Found c) (h : Closure.update new c = .ok () c') :
    Found c'

theorem Found.exists_edges (h : c.Found) : ∃ edges, Closure.ofEdges edges = .ok c := by
  induction h with
  | ofEdges h => exact ⟨_, h⟩
  | update _ h ih =>
    obtain ⟨edges, he⟩ := ih
    exact ⟨_, ((updated_eq_ok he).mp (updated_of_update h)).2⟩

theorem Found.precedes_lt (h : c.Found) (hp : c.precedes a b = true) :
    a < c.size ∧ b < c.size := by
  obtain ⟨edges, he⟩ := h.exists_edges
  obtain ⟨hr, -, hex⟩ := ofEdges_eq_ok.mp he
  have hp := hex.precedes_iff.mp hp
  exact ⟨hex.size ▸ hp.left_lt, hex.size ▸ hp.right_lt hr⟩

theorem Found.holds_after (h : c.Found) : Rows.holds c.after a b = c.precedes a b := by
  obtain ⟨edges, he⟩ := h.exists_edges
  obtain ⟨-, -, hex⟩ := ofEdges_eq_ok.mp he
  rw [Bool.eq_iff_iff, hex.after.holds_iff, hex.precedes_iff]

/-- What a filter asks of a node: to precede a node, to be preceded by it, or to be another node
that is free on either side of it. -/
def Meets (c : Closure) (f : Filter) (x : Nat) : Prop :=
  match f.side with
  | .always => c.precedes x f.op = true
  | .never => c.precedes f.op x = true
  | .sometimes => x ≠ f.op ∧ c.precedes x f.op = false ∧ c.precedes f.op x = false

theorem Found.testBit_select (h : c.Found) :
    (c.select f).testBit x = true ↔ x < c.size ∧ c.Meets f x := by
  have hbefore : (Rows.row c.before f.op).testBit x = c.precedes x f.op := rfl
  have hafter : (Rows.row c.after f.op).testBit x = c.precedes f.op x := h.holds_after
  obtain ⟨side, op⟩ := f
  cases side with
  | always => exact hbefore ▸ iff_and_self.mpr fun hp => (h.precedes_lt hp).1
  | never => exact hafter ▸ iff_and_self.mpr fun hp => (h.precedes_lt hp).2
  | sometimes =>
    simp only [select, Meets, Words.testBit_erase, Words.testBit_diff, Words.testBit_full,
      Words.testBit_union, hbefore, hafter]
    grind

/-- Narrowing keeps what every filter selects. It can stop early, since nothing is left then. -/
theorem testBit_narrow : (c.narrow s visited).testBit x = true ↔
    s.testBit x = true ∧ ∀ f ∈ visited, (c.select f).testBit x = true := by
  induction visited generalizing s with
  | nil => simp [narrow]
  | cons f visited ih =>
    have hand : (s.inter (c.select f)).testBit x = true ↔
        s.testBit x = true ∧ (c.select f).testBit x = true := by
      rw [Words.testBit_inter, Bool.and_eq_true]
    rw [List.forall_mem_cons, ← and_assoc, ← hand]
    rw [narrow]
    split
    · next hz => simp only [Words.testBit_of_isEmpty hz, Bool.false_eq_true, false_and]
    · exact ih

theorem testBit_widen (hsel : ∀ f, (c.select f).testBit x = true → x < c.size) :
    (c.widen s visited).testBit x = true ↔
      s.testBit x = true ∨ ∃ f ∈ visited, (c.select f).testBit x = true := by
  induction visited generalizing s with
  | nil => simp [widen]
  | cons f visited ih =>
    have hor : (s.union (c.select f)).testBit x = true ↔
        s.testBit x = true ∨ (c.select f).testBit x = true := by
      rw [Words.testBit_union, Bool.or_eq_true]
    rw [List.exists_mem_cons_iff, ← or_assoc, ← hor, widen]
    split
    · next hfull =>
      refine (or_iff_left_of_imp ?_).symm
      rintro ⟨f, -, hf⟩
      rw [hfull, Words.testBit_full]
      exact decide_eq_true (hsel f hf)
    · exact ih

theorem Found.testBit_narrow_full (h : c.Found) :
    (c.narrow (Words.full c.size) visited).testBit x = true ↔
      x < c.size ∧ ∀ f ∈ visited, c.Meets f x := by
  rw [testBit_narrow, Words.testBit_full, decide_eq_true_iff]
  exact and_congr_right fun hx => forall₂_congr fun f _ =>
    h.testBit_select.trans (and_iff_right hx)

theorem Found.testBit_widen_empty (h : c.Found) :
    (c.widen (Words.empty c.size) visited).testBit x = true ↔
      x < c.size ∧ ∃ f ∈ visited, c.Meets f x := by
  rw [testBit_widen fun f hf => (h.testBit_select.mp hf).1, Words.testBit_empty]
  simp only [h.testBit_select]
  grind

theorem Found.narrow_perm (h : c.Found) (hp : visited.Perm filters) :
    c.narrow (Words.full c.size) visited = c.narrow (Words.full c.size) filters := by
  refine Words.eq_of_testBit_eq fun x => Bool.eq_iff_iff.mpr ?_
  simp only [h.testBit_narrow_full, hp.mem_iff]

theorem Found.widen_perm (h : c.Found) (hp : visited.Perm filters) :
    c.widen (Words.empty c.size) visited = c.widen (Words.empty c.size) filters := by
  refine Words.eq_of_testBit_eq fun x => Bool.eq_iff_iff.mpr ?_
  simp only [h.testBit_widen_empty, hp.mem_iff]

/-- The nodes that meet all filters and those that meet at least one are listed in ascending
order, each of them once, and the number of the former can be asked for. The words of the sets are
listed and counted with all their bits, and the order in which the filters are visited is drawn from
any source; every other order gives the same answers. -/
theorem Found.filtered (h : c.Found) (source : Random.Source) (filters : List Filter) :
    ((c.allOf source filters).Pairwise (· < ·) ∧
      ∀ x, x ∈ c.allOf source filters ↔ x < c.size ∧ ∀ f ∈ filters, c.Meets f x) ∧
    ((c.anyOf source filters).Pairwise (· < ·) ∧
      ∀ x, x ∈ c.anyOf source filters ↔ x < c.size ∧ ∃ f ∈ filters, c.Meets f x) ∧
    c.countOf source filters = (c.allOf source filters).length ∧
    ∀ visited, visited.Perm filters →
      (c.narrow (Words.full c.size) visited).nodes = c.allOf source filters ∧
      (c.widen (Words.empty c.size) visited).nodes = c.anyOf source filters ∧
      (c.narrow (Words.full c.size) visited).count = c.countOf source filters := by
  have hs := Filter.shuffled_perm source filters
  refine ⟨⟨Words.nodes_pairwise _, fun x => ?_⟩, ⟨Words.nodes_pairwise _, fun x => ?_⟩,
    Words.count_eq _, fun visited hp => ?_⟩
  · rw [allOf, h.narrow_perm hs, Words.mem_nodes, h.testBit_narrow_full]
  · rw [anyOf, h.widen_perm hs, Words.mem_nodes, h.testBit_widen_empty]
  · have hv := hp.trans hs.symm
    rw [h.narrow_perm hv, h.widen_perm hv]
    exact ⟨rfl, rfl, rfl⟩

def diamondAcross : Closure := diamond.afterUpdate #[[], [], [3]]

/-- With an edge from one side of the diamond to the end of the other, only one node is left that
is free against the former. -/
theorem diamond_filtered : diamondAcross.Found ∧
    diamondAcross.allOf Random.chaCha [⟨.never, 0⟩, ⟨.sometimes, 2⟩] = [1] ∧
      diamondAcross.countOf Random.chaCha [⟨.never, 0⟩, ⟨.sometimes, 2⟩] = 1 ∧
        (diamondAcross.widen (.empty 5) [⟨.sometimes, 2⟩, ⟨.never, 0⟩]).nodes = [1, 2, 3, 4] := by
  have hu : Closure.update #[[], [], [3]] diamond = .ok () diamondAcross := by
    rw [update_eq, show diamond.updated _ = .ok diamondAcross by decide +kernel]
  have hf := Found.update (.ofEdges ofEdges_diamond) hu
  obtain ⟨-, -, -, hvisited⟩ := hf.filtered Random.chaCha [⟨.never, 0⟩, ⟨.sometimes, 2⟩]
  -- the answers are those of the filters visited as they are listed
  obtain ⟨hall, hany, hcount⟩ := hvisited _ (.refl _)
  refine ⟨hf, hall.symm.trans (by decide +kernel), hcount.symm.trans (by decide +kernel), ?_⟩
  exact (hvisited _ (.swap _ _ _)).2.1.trans (hany.symm.trans (by decide +kernel))

end Closure

end Liveness
