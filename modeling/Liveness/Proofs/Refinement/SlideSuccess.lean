import Liveness.Proofs.Refinement.PassSuccess
import Liveness.Proofs.Refinement.Slides

/-! # Sliding constraints succeeds

In a valid order an Op outside of a chain of links comes before or after the whole chain.
So constraints can slide to the ends of the chain, and the order stays valid.
-/

namespace Liveness

open Success

namespace Graph

variable {W : Type} {g h k : Graph W} {order chain : List Nat} {head tail a b u v x y : Nat}

namespace ValidOrder

theorem lt_opCount (ho : g.ValidOrder order) (hab : order.idxOf a < order.idxOf b) :
    a < g.opCount := by
  have hle : order.idxOf b ≤ order.length := List.idxOf_le_length
  have ha := List.idxOf_lt_length_iff.mp (Nat.lt_of_lt_of_le hab hle)
  exact List.mem_range.mp (ho.perm.mem_iff.mp ha)

theorem move (ho : g.ValidOrder order) (hg : g.Ordered) (hu : u < g.opCount) (hv : v < g.opCount)
    (hx : x < g.opCount) (hy : y < g.opCount) (hxy : order.idxOf x < order.idxOf y) :
    ((g.disconnect u v).connect x y).ValidOrder order := by
  have hx' : x < (g.disconnect u v).opCount := by simpa using hx
  have hy' : y < (g.disconnect u v).opCount := by simpa using hy
  refine ⟨by simpa using ho.perm, fun {a b} hab => ?_, fun {a b} hab => ?_⟩
  · rcases (mem_outs_connect hx' hy').mp hab with ⟨rfl, rfl⟩ | hab
    · exact hxy
    · exact ho.before ((mem_outs_disconnect hg hu hv).mp hab).1
  · rw [fwdLink_connect hx' hy', fwdLink_disconnect hu hv] at hab
    exact ho.linked hab

section Chain

variable (ho : g.ValidOrder order) (hc : g.LinkChain chain head tail) (ha : a ∈ chain)
  (hb : b ∉ chain) (hlt : b < g.opCount)

include ho hc ha hb hlt

theorem tail_lt (hab : order.idxOf a < order.idxOf b) : order.idxOf tail < order.idxOf b := by
  obtain ⟨i, hi, rfl⟩ := List.getElem_of_mem ha
  have htail := hc.tail
  rw [List.getLast?_eq_getElem?] at htail
  obtain ⟨hj, rfl⟩ := List.getElem?_eq_some_iff.mp htail
  refine Nat.lt_of_not_le fun hle => hb ?_
  apply ho.mem_chain hc.isChain hlt (Nat.zero_lt_of_lt hj) hj
  · rw [ho.idxOf_chain hc.isChain (Nat.zero_lt_of_lt hi) hi] at hab
    omega
  · apply Nat.lt_of_le_of_ne hle
    intro he
    rw [List.idxOf_inj (ho.perm.mem_iff.mpr (List.mem_range.mpr hlt))] at he
    exact hb (he ▸ List.getElem_mem hj)

theorem lt_head (hba : order.idxOf b < order.idxOf a) : order.idxOf b < order.idxOf head := by
  obtain ⟨i, hi, rfl⟩ := List.getElem_of_mem ha
  have hhead := hc.head
  rw [List.head?_eq_getElem?] at hhead
  obtain ⟨hz, rfl⟩ := List.getElem?_eq_some_iff.mp hhead
  apply Nat.lt_of_not_le
  intro hle
  exact hb (ho.mem_chain hc.isChain hlt (Nat.zero_lt_of_lt hi) hi hle hba)

end Chain

end ValidOrder

section Steps

variable (hg : g.Ordered) (hc : g.LinkChain chain head tail) (ha : a ∈ chain)
  (ho : g.ValidOrder order) (hb : b ∉ chain)

include hg hc ha ho hb

theorem slideToTail_succeeds (hab : order.idxOf a < order.idxOf b) (hlt : b < g.opCount) :
    ∃ h, slideToTail tail a g b = .ok h ∧ h.ValidOrder order := by
  have htail := ho.tail_lt hc ha hb hlt hab
  have hu := ho.lt_opCount hab
  have hx := ho.lt_opCount htail
  have hne : tail ≠ b := fun he => Nat.lt_irrefl _ (he ▸ htail)
  unfold slideToTail
  rw [unconstrain_eq_ok.mpr ⟨hu, hlt, rfl⟩]
  exact ⟨_, constrain_eq_ok.mpr ⟨⟨by simpa using hx, by simpa using hlt, hne⟩, rfl⟩,
    ho.move hg hu hlt hx hlt htail⟩

theorem slideToHead_succeeds (hba : order.idxOf b < order.idxOf a) (hlt : a < g.opCount)
    (hhead : head < g.opCount) : ∃ h, slideToHead head a g b = .ok h ∧ h.ValidOrder order := by
  have hv := ho.lt_opCount hba
  have hlth := ho.lt_head hc ha hb hv hba
  have hne : b ≠ head := fun he => Nat.lt_irrefl _ (he ▸ hlth)
  unfold slideToHead
  rw [unconstrain_eq_ok.mpr ⟨hv, hlt, rfl⟩]
  exact ⟨_, constrain_eq_ok.mpr ⟨⟨by simpa using hv, by simpa using hhead, hne⟩, rfl⟩,
    ho.move hg hv hlt hv hhead hlth⟩

end Steps

section Chains

variable [Weight W] {changed : Bool}

theorem foldlM_slides_succeeds {f : Graph W → Nat → Except Error (Graph W)} {bs : List Nat}
    (hf : ∀ {k : Graph W} b, b ∈ bs → g.Slides k → k.ValidOrder order →
      ∃ k', f k b = .ok k' ∧ k'.ValidOrder order)
    (hs : ∀ {k k' : Graph W} b, b ∈ bs → g.Slides k → f k b = .ok k' → k.Slides k')
    (hg : g.WellFormed) (hl : g.LinksHeld) (ho : g.ValidOrder order) :
    ∃ h, bs.foldlM f g = .ok h ∧ g.Slides h ∧ h.ValidOrder order := by
  apply foldlM_succeeds (P := fun k : Graph W => g.Slides k ∧ k.ValidOrder order)
    ⟨⟨.refl hg hl, fun _ => rfl⟩, ho⟩
  rintro b hb k ⟨hk, hko⟩
  obtain ⟨k', hk', hko'⟩ := hf b hb hk hko
  exact ⟨k', hk', hk.trans (hs b hb hk hk'), hko'⟩

theorem slideOp_succeeds (hg : g.WellFormed) (hl : g.LinksHeld)
    (hc : g.LinkChain chain head tail) (ha : a ∈ chain) (ho : g.ValidOrder order) :
    ∃ state, slideOp chain head tail (g, changed) a = .ok state ∧ state.1.ValidOrder order := by
  obtain ⟨k, hk, hks, hko⟩ : ∃ k, (if a = tail then [] else (g.op a).outs.filter fun b =>
      !chain.contains b).foldlM (slideToTail tail a) g = .ok k ∧ g.Slides k ∧
        k.ValidOrder order := by
    apply foldlM_slides_succeeds _ _ hg hl ho
    · intro k b hb hs hko
      obtain ⟨-, hn, hm⟩ := mem_outside.mp hb
      exact slideToTail_succeeds hs.wellFormed.toOrdered (hc.congr hs.fwdLink) ha hko hn
        (ho.before hm) (hs.opCount ▸ hg.outs_lt hm)
    · intro k k' b hb hs hk
      obtain ⟨hne, hn, -⟩ := mem_outside.mp hb
      exact slideToTail_slides hs.wellFormed hs.linksHeld (hc.congr hs.fwdLink) ha hne hn hk
  have hck := hc.congr hks.fwdLink
  obtain ⟨k', hk', -, hko'⟩ : ∃ k', (if a = head then [] else (k.op a).ins.filter fun b =>
      !chain.contains b).foldlM (slideToHead head a) k = .ok k' ∧ k.Slides k' ∧
        k'.ValidOrder order := by
    apply foldlM_slides_succeeds _ _ hks.wellFormed hks.linksHeld hko
    · intro k' b hb hs hko'
      obtain ⟨hne, hn, hm⟩ := mem_outside.mp hb
      have hab := hks.wellFormed.mem_ins.mp hm
      obtain ⟨-, hpath⟩ := (hck.of_mem' ha).resolve_left hne
      obtain ⟨z, hz, -⟩ := Relation.TransGen.head'_iff.mp hpath
      exact slideToHead_succeeds hs.wellFormed.toOrdered (hck.congr hs.fwdLink) ha hko' hn
        (hko.before hab) (hs.opCount ▸ hks.wellFormed.outs_lt hab) (hs.opCount ▸ lt_of_fwdLink hz)
    · intro k' k'' b hb hs hk
      obtain ⟨hne, hn, -⟩ := mem_outside.mp hb
      exact slideToHead_slides hs.wellFormed hs.linksHeld (hck.congr hs.fwdLink) ha hne hn hk
  unfold slideOp
  dsimp only
  rw [hk]
  simp only [bind, Except.bind]
  rw [hk']
  exact ⟨_, rfl, hko'⟩

theorem slideChain_succeeds {state : Graph W × Bool} (hs : g.SlidesTo state)
    (ho : state.1.ValidOrder order)
    (hc : ∀ head tail, chain.head? = some head → chain.getLast? = some tail →
      g.LinkChain chain head tail) :
    ∃ state', slideChain state chain = .ok state' ∧ state'.1.ValidOrder order := by
  unfold slideChain
  split
  · next head tail hh ht =>
    have hlc := hc head tail hh ht
    obtain ⟨state', hs', -, ho'⟩ : ∃ state', chain.foldlM (slideOp chain head tail) state =
        .ok state' ∧ g.Slides state'.1 ∧ state'.1.ValidOrder order := by
      apply foldlM_succeeds (P := fun s : Graph W × Bool => g.Slides s.1 ∧ s.1.ValidOrder order)
        ⟨hs.1, ho⟩
      rintro a ha ⟨k, changed⟩ ⟨hks, hko⟩
      have hck := hlc.congr hks.fwdLink
      obtain ⟨⟨k', changed'⟩, hk', hko'⟩ :=
        slideOp_succeeds hks.wellFormed hks.linksHeld hck ha hko
      have hstep := slideOp_slides hks.wellFormed hks.linksHeld hck ha hk'
      exact ⟨_, hk', hks.trans hstep.1, hko'⟩
    exact ⟨state', hs', ho'⟩
  · exact ⟨state, rfl, ho⟩

theorem slideLinks_succeeds (hg : g.WellFormed) (hl : g.LinksHeld) (hs : g.Schedulable) :
    ∃ result, g.slideLinks = .ok result ∧ result.graph.Schedulable := by
  obtain ⟨order, ho⟩ := hs
  obtain ⟨state, hstate, -, ho'⟩ : ∃ state, g.linkChains.foldlM slideChain (g, false) =
      .ok state ∧ g.SlidesTo state ∧ state.1.ValidOrder order := by
    apply foldlM_succeeds (P := fun s : Graph W × Bool => g.SlidesTo s ∧ s.1.ValidOrder order)
      ⟨⟨⟨.refl hg hl, fun _ => rfl⟩, fun _ => rfl⟩, ho⟩
    rintro chain hm state ⟨hs, hso⟩
    have hc : ∀ head tail, chain.head? = some head → chain.getLast? = some tail →
        g.LinkChain chain head tail := fun head tail => .mk (isChain_of_mem_linkChains hm)
    obtain ⟨state', hs', ho'⟩ := slideChain_succeeds hs hso hc
    exact ⟨state', hs', slideChain_slides hs hc hs', ho'⟩
  unfold slideLinks
  rw [hstate]
  exact ⟨_, rfl, order, ho'⟩

end Chains

end Graph

end Liveness
