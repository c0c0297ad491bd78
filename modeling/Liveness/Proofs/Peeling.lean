import Liveness.Proofs.Reach

/-! # Peeling takes what no cycle leads to

A rule that always picks a ready node takes just those nodes to which no cycle leads: as
long as one of them is left, some of them has no open edge and is ready. So all rules take
the same nodes, and the edges have a topological order exactly when there is no cycle.
-/

namespace Liveness

variable {edges : Edges} {order taken : List Nat} {a b i : Nat} {σ : Type} {choose : Choice σ}

def Choice.Picks (choose : Choice σ) : Prop :=
  ∀ s ready, ready ≠ [] → (choose s ready).1 < ready.length

theorem Choice.newest_picks : Choice.newest.Picks := by
  intro s ready h
  have := List.length_pos_iff.mpr h
  simp only [Choice.newest]
  omega

namespace Edges

/-- Every way back from the node along the edges comes to an end. -/
def Grounded (edges : Edges) (b : Nat) : Prop := Acc (fun a b => b ∈ edges.outs a) b

theorem Acyclic.grounded (ha : edges.Acyclic) (b : Nat) : edges.Grounded b := by
  obtain ⟨rank, hrank⟩ := ha.exists_rank
  have hwf : WellFounded fun a b => rank a < rank b := (measure rank).wf
  exact Subrelation.accessible (fun hab => hrank hab) (hwf.apply b)

theorem Closed.grounded (hc : edges.Closed order) (hb : b ∈ order) : edges.Grounded b := by
  obtain ⟨l, r, he⟩ := List.append_of_mem hb
  induction hn : l.length using Nat.strong_induction_on generalizing b l r with
  | _ n ih =>
    refine .intro b fun a hab => ?_
    obtain ⟨l₁, l₂, rfl⟩ := List.append_of_mem (hc l b r he a hab)
    refine ih l₁.length ?_ (he ▸ by simp) l₁ (l₂ ++ b :: r) (by simpa using he) rfl
    simp [← hn]

end Edges

theorem Edges.pending_eq_zero (h : ∀ a, b ∈ edges.outs a → a ∈ taken) :
    edges.pending taken b = 0 := by
  unfold Edges.pending
  simp only [List.sum_eq_zero_iff_forall_eq_nat, List.mem_map, List.mem_range]
  rintro _ ⟨a, -, rfl⟩
  split
  · rfl
  · next ha => exact List.count_eq_zero.mpr fun hb => ha (h a hb)

namespace Frontier

variable {f : Frontier}

def Complete (edges : Edges) (taken : List Nat) (f : Frontier) : Prop :=
  ∀ b < edges.size, b ∉ taken → f.waiting.getD b 0 = 0 → b ∈ f.ready

theorem start_complete (edges : Edges) : (start edges).Complete edges [] := by
  intro b hb _ hz
  simpa [start, hb] using hz

theorem Complete.release (h : f.Complete edges taken) (c : Nat) :
    (f.release c).Complete edges taken := by
  intro b hb hn hz
  rw [waiting_release] at hz
  rw [mem_ready_release]
  by_cases hbc : b = c
  · subst hbc
    exact .inr ⟨rfl, by simpa using hz⟩
  · exact .inl (h b hb hn (by simpa [hbc] using hz))

theorem Complete.foldl_release (h : f.Complete edges taken) (bs : List Nat) :
    (bs.foldl Frontier.release f).Complete edges taken :=
  List.foldlRecOn (motive := Complete edges taken) bs _ h fun _ h c _ => h.release c

theorem Complete.take (h : f.Complete edges taken) (ha : f.ready[i]? = some a) (bs : List Nat) :
    (f.take i bs).Complete edges (taken ++ [a]) := by
  apply Complete.foldl_release
  intro b hb hn hz
  simp only [List.mem_append, List.mem_singleton, not_or] at hn
  obtain ⟨k, hk, rfl⟩ := List.getElem_of_mem (h b hb hn.1 hz)
  refine List.mem_eraseIdx_iff_getElem.mpr ⟨k, hk, ?_, rfl⟩
  rintro rfl
  rw [List.getElem?_eq_getElem hk] at ha
  exact hn.2 (Option.some.inj ha)

/-- When nothing is ready any more, all is taken but for what a cycle leads to. -/
theorem Sound.mem_of_ready_eq_nil (h : f.Sound edges taken) (hc : f.Complete edges taken)
    (hf : f.ready = []) (hg : edges.Grounded b) (hb : b < edges.size) : b ∈ taken := by
  induction hg with
  | intro b _ ih =>
    by_contra hbt
    have hz : edges.pending taken b = 0 := Edges.pending_eq_zero fun a hab =>
      ih a hab (Edges.lt_of_mem_outs hab)
    have := hc b hb hbt ((h.waiting b hb).trans hz)
    rw [hf] at this
    cases this

end Frontier

/-- Peeling goes on until every node is taken to which no cycle leads. -/
theorem mem_peel (hr : edges.InRange) (hp : choose.Picks) {steps : Nat} {s : σ} {f : Frontier}
    (h : f.Sound edges taken) (hc : f.Complete edges taken)
    (hs : edges.size ≤ taken.length + steps) (hg : edges.Grounded b) (hb : b < edges.size) :
    b ∈ taken ++ peel edges choose steps s f := by
  induction steps generalizing s f taken with
  | zero =>
    have hperm := Graph.perm_range h.nodup hs h.lt
    simpa [peel] using hperm.mem_iff.mpr (List.mem_range.mpr hb)
  | succ steps ih =>
    unfold peel
    split
    · next he =>
      exact List.mem_append_left _
        (h.mem_of_ready_eq_nil hc (List.isEmpty_iff.mp he) hg hb)
    · next he =>
      have hlt := hp s f.ready (by simpa using he)
      have hget := List.getElem?_eq_getElem hlt
      dsimp only
      rw [hget]
      have := ih (s := (choose s f.ready).2) (h.take hr hget) (hc.take hget _)
        (by simp only [List.length_append, List.length_singleton]; omega)
      simpa using this

theorem mem_takeAll (hr : edges.InRange) (hp : choose.Picks) (s : σ) :
    b ∈ takeAll edges choose s ↔ b < edges.size ∧ edges.Grounded b := by
  obtain ⟨-, hlt, hc⟩ := takeAll_sound choose hr s
  refine ⟨fun hb => ⟨hlt b hb, hc.grounded hb⟩, fun ⟨hb, hg⟩ => ?_⟩
  unfold takeAll
  simpa using mem_peel hr hp (Frontier.start_sound edges) (Frontier.start_complete edges)
    (by simp) hg hb

theorem takeAll_perm {τ : Type} {choose' : Choice τ} (hr : edges.InRange) (hp : choose.Picks)
    (hp' : choose'.Picks) (s : σ) (t : τ) :
    (takeAll edges choose s).Perm (takeAll edges choose' t) := by
  rw [List.perm_ext_iff_of_nodup (takeAll_sound choose hr s).1 (takeAll_sound choose' hr t).1]
  exact fun b => (mem_takeAll hr hp s).trans (mem_takeAll hr hp' t).symm

theorem takeAll_topological (hr : edges.InRange) (ha : edges.Acyclic) (hp : choose.Picks) (s : σ) :
    edges.Topological (takeAll edges choose s) := by
  obtain ⟨hn, hlt, hc⟩ := takeAll_sound choose hr s
  apply hc.topological hr
  rw [List.perm_ext_iff_of_nodup hn List.nodup_range]
  intro b
  rw [mem_takeAll hr hp, List.mem_range]
  exact and_iff_left (ha.grounded b)

/-- All nodes are taken exactly when there is no cycle. -/
theorem length_takeAll (hr : edges.InRange) (hp : choose.Picks) (s : σ) :
    (takeAll edges choose s).length = edges.size ↔ edges.Acyclic := by
  constructor
  · intro hl
    obtain ⟨hn, hlt, hc⟩ := takeAll_sound choose hr s
    exact (hc.topological hr (Graph.perm_range hn (Nat.le_of_eq hl.symm) hlt)).acyclic
  · intro ha
    have := (takeAll_topological hr ha hp s).perm.length_eq
    simpa using this

namespace Edges

theorem topologicalOrder_topological (hr : edges.InRange) (ha : edges.Acyclic) :
    edges.Topological edges.topologicalOrder := takeAll_topological hr ha Choice.newest_picks ()

theorem length_topologicalOrder (hr : edges.InRange) :
    edges.topologicalOrder.length = edges.size ↔ edges.Acyclic :=
  length_takeAll hr Choice.newest_picks ()

theorem isSchedulable_iff : edges.isSchedulable = true ↔ edges.InRange ∧ edges.Acyclic := by
  unfold isSchedulable
  rw [Bool.and_eq_true, inRange_iff, beq_iff_eq]
  exact and_congr_right length_topologicalOrder

end Edges

end Liveness
