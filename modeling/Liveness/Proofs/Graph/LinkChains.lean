import Liveness.Proofs.Graph.Contraction
import Liveness.Proofs.Walk

/-! # Chains of links

Links lead from different Ops to different Ops. So the chains of links are the longest ones there
are, and hold every link that is not on a closed ring of links. There are no such rings where links
go up in some rank.
-/

namespace Liveness

namespace Graph

variable {W : Type} {g : Graph W} {chain : List Nat} {a b : Nat}

theorem isChain_of_mem_linkChains (h : chain ∈ g.linkChains) :
    chain.IsChain fun a b => (g.op a).fwdLink = some b := by
  obtain ⟨a, -, rfl⟩ := List.mem_map.mp h
  exact walk_isChain _ _ _

namespace Ordered

theorem link_injective (hg : g.Ordered) ⦃a b c : Nat⦄ (ha : (g.op a).fwdLink = some c)
    (hb : (g.op b).fwdLink = some c) : a = b := by
  have h := (hg.bwdLink.mpr ha).symm.trans (hg.bwdLink.mpr hb)
  exact Option.some.inj h

theorem lt_of_link (hg : g.Ordered) ⦃a b : Nat⦄ (h : (g.op a).fwdLink = some b) :
    a < g.opCount ∧ b < g.opCount := ⟨lt_of_fwdLink h, hg.link_lt h⟩

theorem longest_linkChains (hg : g.Ordered) :
    LongestChains (fun a => (g.op a).fwdLink) g.linkChains := by
  refine longestChains_map_walk hg.link_injective hg.lt_of_link
    ((List.pairwise_lt_range.filter _).filter _) fun a => ?_
  simp only [linkedForward, List.mem_filter, List.mem_range, Op.hasFwdLink, Op.hasBwdLink,
    Option.isSome_iff_exists, Bool.not_eq_true', Option.isSome_eq_false_iff, Option.isNone_iff_eq_none,
    Option.eq_none_iff_forall_ne_some, hg.bwdLink, ne_eq]
  exact and_congr_left fun _ => and_iff_right_of_imp fun ⟨b, hb⟩ => lt_of_fwdLink hb

theorem lt_of_mem_linkChain (hg : g.Ordered) (h : chain ∈ g.linkChains) (ha : a ∈ chain) :
    a < g.opCount := hg.longest_linkChains.lt_of_mem hg.lt_of_link h ha

theorem linkChain_unique (hg : g.Ordered) {other : List Nat} (h : chain ∈ g.linkChains)
    (h' : other ∈ g.linkChains) (ha : a ∈ chain) (ha' : a ∈ other) : chain = other :=
  hg.longest_linkChains.unique h h' ha ha'

theorem contractLinks_cases (hg : g.Ordered) :
    (∃ c, g.contractLinks = .ok c) ∨
      ∃ chain ∈ g.linkChains, ∃ a b, b ∈ (g.op a).outs ∧ [b, a].Sublist chain ∧
        g.contractLinks = .error (.chainCycle a b) :=
  contract_cases (hg.longest_linkChains.lt_of_mem_flatten hg.lt_of_link) hg.longest_linkChains.nodup

theorem adjacent_on_linkChain (hg : g.Ordered) {f : Nat → Nat}
    (hf : ∀ {a b}, (g.op a).fwdLink = some b → f a < f b) (h : (g.op a).fwdLink = some b) :
    ∃ chain ∈ g.linkChains, [a, b] <:+: chain :=
  hg.longest_linkChains.step_iff.mpr ⟨h, not_onRing_of_rank fun _ _ => hf⟩

end Ordered

end Graph

end Liveness
