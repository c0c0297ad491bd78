import Liveness.Proofs.Graph.TightChains

/-! # Longest chains and closed rings

Cyclic graphs have chains too. The tight chains and the chains of links are the longest ones, and
hold all tight pairs and links but for those on closed rings. No walk enters a closed ring from
outside, but one from an Op on it has no end.
-/

namespace Liveness.Graph

variable {W : Type} {g : Graph W} {chain : List Nat} {a b : Nat}

namespace Ordered

variable (hg : g.Ordered)

include hg

/-- Each Op of a tight pair is the only one that the other one is constrained with on this side. -/
theorem tightNext_iff : g.tightNext a = some b ↔ (g.op a).outs = [b] ∧ (g.op b).ins = [a] := by
  constructor
  · intro h
    exact ⟨(tightNext_eq_some.mp h).1, hg.ins_of_tightNext h⟩
  · rintro ⟨houts, hins⟩
    exact tightNext_eq_some.mpr ⟨houts, by rw [hins, List.length_singleton]⟩

theorem tightChainFrom?_eq_some (ha : a < g.opCount) :
    g.tightChainFrom? a = some chain ↔ Walked g.tightNext a chain := by
  have hall : Walked g.tightNext a chain → g.tightChainFrom a = chain := fun h =>
    h.walk_eq ((h.length_le hg.tightNext_injective hg.lt_of_tightNext ha).trans (Nat.le_succ _))
  unfold tightChainFrom?
  dsimp only
  split
  · next hl =>
    rw [Option.some.injEq]
    exact ⟨fun h => h ▸ walked_walk hl, hall⟩
  · next hl =>
    refine iff_of_false (by simp) fun h => hl ?_
    rw [hall h]
    exact h.length_le hg.tightNext_injective hg.lt_of_tightNext ha

end Ordered

theorem Acyclic.not_onRing (h : g.Acyclic) : ¬ OnRing g.tightNext a := by
  obtain ⟨f, hf⟩ := h
  exact not_onRing_of_rank fun _ _ hab => hf (mem_outs_of_tightNext hab)

variable [Weight W]

/-- Also where constraints or links have cycles, the tight chains and the chains of links are the
longest ones, and contracting them only fails where a constraint goes back in a chain. -/
theorem Built.longest_chains (hg : g.Built) :
    (∀ a b, g.tightNext a = some b ↔ (g.op a).outs = [b] ∧ (g.op b).ins = [a]) ∧
      LongestChains g.tightNext g.tightChains ∧
      LongestChains (fun a => (g.op a).fwdLink) g.linkChains ∧
      (∀ e, g.contractTight = .error e → ∃ a b, e = .chainCycle a b) ∧
      ∀ e, g.contractLinks = .error e → ∃ a b, e = .chainCycle a b := by
  have ho := hg.wellFormed.toOrdered
  have htight := ho.longest_tightChains
  have hlinks := ho.longest_linkChains
  exact ⟨fun a b => ho.tightNext_iff, htight, hlinks,
    fun e => chainCycle_of_contract (htight.lt_of_mem_flatten ho.lt_of_tightNext) htight.nodup,
    fun e => chainCycle_of_contract (hlinks.lt_of_mem_flatten ho.lt_of_link) hlinks.nodup⟩

section RingAndChains

open Numbers

/-- Three Ops in a row, two on a ring of links, and two linked ones. -/
def ringAndChains : Graph (Tiered Int) :=
  ((((empty.addOps ["a", "b", "c", "d", "e", "f", "g"]).connectAll [(0, 1), (1, 2)]).join 3 4).join
    4 3).join 5 6

theorem ringAndChains_built : ringAndChains.Built := by
  have hrow : ((empty.addOps ["a", "b", "c", "d", "e", "f", "g"]).connectAll [(0, 1), (1, 2)] :
      Graph (Tiered Int)).Built := (Built.empty.addOps _).connectAll (by decide)
  have hd := hrow.link (link_eq_ok.mpr ⟨by decide, by decide, by decide, rfl⟩ : link _ 3 4 = _)
  have he := hd.link (link_eq_ok.mpr ⟨by decide, by decide, by decide, rfl⟩ : link _ 4 3 = _)
  exact he.link (link_eq_ok.mpr ⟨by decide, by decide, by decide, rfl⟩)

/-- The ring is left out: it is one of tight pairs and of links. -/
theorem ringAndChains_longest : LongestChains ringAndChains.tightNext [[0, 1, 2], [5, 6]] ∧
    LongestChains (fun a => (ringAndChains.op a).fwdLink) [[5, 6]] ∧
    ringAndChains.tightNext 3 = some 4 ∧ (ringAndChains.op 3).fwdLink = some 4 := by
  obtain ⟨-, htight, hlinks, -⟩ := ringAndChains_built.longest_chains
  exact ⟨htight, hlinks, by decide, by decide⟩

end RingAndChains

/-- The walk along tight pairs comes to an end from each Op that is not on a closed ring of them.
Then it gives the longest tight chain from this Op, which holds no Op twice. On a closed ring the
walk uses up however many steps it is given. -/
theorem Built.tightChainFrom?_exact (hg : g.Built) (ha : a < g.opCount) :
    (∀ chain, g.tightChainFrom? a = some chain ↔ Walked g.tightNext a chain) ∧
      ((∃ chain, Walked g.tightNext a chain) ↔ ¬ OnRing g.tightNext a) ∧
      (OnRing g.tightNext a → ∀ steps, (walk g.tightNext steps a).length = steps + 1) ∧
      (g.Acyclic → ∃ chain, Walked g.tightNext a chain) ∧
      ∀ chain, Walked g.tightNext a chain → chain.head? = some a ∧ chain.Nodup ∧
        chain.length ≤ g.opCount ∧ (chain.IsChain fun a b => g.tightNext a = some b) ∧
        ∀ z, chain.getLast? = some z → g.tightNext z = none := by
  have ho := hg.wellFormed.toOrdered
  have hends := exists_walked_iff ho.tightNext_injective ho.lt_of_tightNext ha
  exact ⟨fun chain => ho.tightChainFrom?_eq_some ha, hends, fun hr => hr.length_walk,
    fun hc => hends.mpr hc.not_onRing, fun chain h => ⟨h.head?, h.nodup ho.tightNext_injective,
      h.length_le ho.tightNext_injective ho.lt_of_tightNext ha, h.isChain,
      fun z => h.next_eq_none⟩⟩

section Rings

open Numbers

/-- The walk from the middle of the row comes to its end, also beside a ring. -/
theorem ringAndChains_tightChainFrom? : Walked ringAndChains.tightNext 1 [1, 2] ∧
    ¬ OnRing ringAndChains.tightNext 1 := by
  obtain ⟨hchain, hends, -⟩ := ringAndChains_built.tightChainFrom?_exact (a := 1) (by decide)
  have h := (hchain [1, 2]).mp (by decide)
  exact ⟨h, hends.mp ⟨_, h⟩⟩

def closedRing : Graph (Tiered Int) := (empty.addOps ["a", "b"]).connectAll [(0, 1), (1, 0)]

/-- From an Op on the ring there is a next one after every number of steps. -/
theorem closedRing_endless : closedRing.Built ∧ 0 < closedRing.opCount ∧
    (∀ steps, (walk closedRing.tightNext steps 0).length = steps + 1) ∧
    (¬ ∃ chain, Walked closedRing.tightNext 0 chain) ∧ closedRing.tightChainFrom? 0 = none := by
  have hb : closedRing.tightNext 0 = some 1 := by decide
  have ha : closedRing.tightNext 1 = some 0 := by decide
  have hr : OnRing closedRing.tightNext 0 := .tail (.single hb) ha
  exact ⟨(Built.empty.addOps _).connectAll (by decide), by decide, hr.length_walk,
    fun ⟨_, h⟩ => h.not_onRing hr, by decide⟩

end Rings

end Liveness.Graph
