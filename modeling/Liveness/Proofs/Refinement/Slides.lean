import Liveness.Proofs.Graph.LinkChains
import Liveness.Proofs.Refinement.Passes

/-! # Sliding constraints along links

The Ops of a chain of links are side by side in every schedule. So a constraint with an
Op outside of the chain can be moved to the tail or the head of the chain.
-/

namespace Liveness

open Success

namespace Graph

variable {W : Type} [Weight W] {g h k : Graph W} {chain : List Nat} {head tail a b x : Nat}

structure LinkChain (g : Graph W) (chain : List Nat) (head tail : Nat) : Prop where
  isChain : chain.IsChain fun a b => (g.op a).fwdLink = some b
  head : chain.head? = some head
  tail : chain.getLast? = some tail

namespace LinkChain

omit [Weight W] in
theorem congr (hc : g.LinkChain chain head tail)
    (hl : ∀ x, (h.op x).fwdLink = (g.op x).fwdLink) : h.LinkChain chain head tail := by
  refine ⟨?_, hc.head, hc.tail⟩
  simp only [hl]
  exact hc.isChain

omit [Weight W] in
theorem of_mem (hc : g.LinkChain chain head tail) (hx : x ∈ chain) :
    x = tail ∨ (∃ y ∈ chain, (g.op x).fwdLink = some y) ∧ g.LinkPath x tail := by
  obtain ⟨hchain, -, htail⟩ := hc
  induction chain generalizing x with
  | nil => cases hx
  | cons y ys ih =>
    cases ys with
    | nil =>
      obtain rfl := List.mem_singleton.mp hx
      exact .inl (Option.some.inj htail)
    | cons z zs =>
      obtain ⟨hyz, hzs⟩ := List.isChain_cons_cons.mp hchain
      rw [List.getLast?_cons_cons] at htail
      rcases List.mem_cons.mp hx with rfl | hx
      · refine .inr ⟨⟨z, by simp, hyz⟩, ?_⟩
        rcases ih List.mem_cons_self hzs htail with rfl | ⟨-, hp⟩
        · exact .single hyz
        · exact Relation.TransGen.trans (.single hyz) hp
      · rcases ih hx hzs htail with rfl | ⟨⟨w, hw, hl⟩, hp⟩
        · exact .inl rfl
        · exact .inr ⟨⟨w, List.mem_cons_of_mem y hw, hl⟩, hp⟩

omit [Weight W] in
theorem of_mem' (hc : g.LinkChain chain head tail) (hx : x ∈ chain) :
    x = head ∨ (∃ y ∈ chain, (g.op y).fwdLink = some x) ∧ g.LinkPath head x := by
  obtain ⟨hchain, hhead, -⟩ := hc
  induction chain generalizing x head with
  | nil => cases hx
  | cons y ys ih =>
    obtain rfl : y = head := Option.some.inj hhead
    rcases List.mem_cons.mp hx with rfl | hx
    · exact .inl rfl
    · cases ys with
      | nil => cases hx
      | cons z zs =>
        obtain ⟨hyz, hzs⟩ := List.isChain_cons_cons.mp hchain
        refine .inr ?_
        rcases ih hx hzs rfl with rfl | ⟨⟨w, hw, hl⟩, hp⟩
        · exact ⟨⟨y, List.mem_cons_self, hyz⟩, .single hyz⟩
        · exact ⟨⟨w, List.mem_cons_of_mem y hw, hl⟩, Relation.TransGen.trans (.single hyz) hp⟩

end LinkChain

structure Slides (g h : Graph W) : Prop extends g.Tightens h where
  fwdLink : ∀ x, (h.op x).fwdLink = (g.op x).fwdLink

theorem Slides.trans (h₁ : g.Slides h) (h₂ : h.Slides k) : g.Slides k :=
  ⟨h₁.toTightens.trans h₂.toTightens, fun x => (h₂.fwdLink x).trans (h₁.fwdLink x)⟩

theorem slideToTail_slides (hg : g.WellFormed) (hl : g.LinksHeld)
    (hc : g.LinkChain chain head tail) (ha : a ∈ chain) (hat : a ≠ tail) (hb : b ∉ chain)
    (h' : slideToTail tail a g b = .ok h) : g.Slides h := by
  obtain ⟨k, hk, h'⟩ := bind_eq_ok.mp h'
  obtain ⟨hu, hv, rfl⟩ := unconstrain_eq_ok.mp hk
  obtain ⟨⟨hx, hv', hne⟩, rfl⟩ := constrain_eq_ok.mp h'
  obtain ⟨⟨y, hy, hay⟩, hp⟩ := (hc.of_mem ha).resolve_left hat
  have hab : (g.op a).fwdLink ≠ some b := by
    rw [hay]
    rintro ⟨⟩
    exact hb hy
  exact ⟨slideDown_tightens hg hl hu hv (by simpa using hx) hne hab hp, fun x =>
    (fwdLink_connect hx hv' x).trans (fwdLink_disconnect hu hv x)⟩

theorem slideToHead_slides (hg : g.WellFormed) (hl : g.LinksHeld)
    (hc : g.LinkChain chain head tail) (ha : a ∈ chain) (hah : a ≠ head) (hb : b ∉ chain)
    (h' : slideToHead head a g b = .ok h) : g.Slides h := by
  obtain ⟨k, hk, h'⟩ := bind_eq_ok.mp h'
  obtain ⟨hu, hv, rfl⟩ := unconstrain_eq_ok.mp hk
  obtain ⟨⟨hu', hx, hne⟩, rfl⟩ := constrain_eq_ok.mp h'
  obtain ⟨⟨y, hy, hya⟩, hp⟩ := (hc.of_mem' ha).resolve_left hah
  have hba : (g.op b).fwdLink ≠ some a := by
    intro hba
    have := hg.bwdLink.mpr hba
    rw [hg.bwdLink.mpr hya] at this
    exact hb (Option.some.inj this ▸ hy)
  exact ⟨slideUp_tightens hg hl hv hu (by simpa using hx) hne hba hp, fun x =>
    (fwdLink_connect hu' hx x).trans (fwdLink_disconnect hu hv x)⟩

theorem foldlM_slides {f : Graph W → Nat → Except Error (Graph W)} {bs : List Nat}
    (hf : ∀ {k k' : Graph W} b, b ∈ bs → g.Slides k → f k b = .ok k' → k.Slides k')
    (hg : g.WellFormed) (hl : g.LinksHeld) (h' : bs.foldlM f g = .ok h) : g.Slides h :=
  foldlM_keeps (P := g.Slides) ⟨.refl hg hl, fun _ => rfl⟩
    (fun b hb _ _ hk hs => hk.trans (hf b hb hk hs)) h'

omit [Weight W] in
/-- What slides from an Op are its constraints with Ops outside of the chain, unless the Op is
the end to slide to. -/
theorem mem_outside {bs : List Nat} : b ∈ (if a = x then [] else
    bs.filter fun b => !chain.contains b) ↔ a ≠ x ∧ b ∉ chain ∧ b ∈ bs := by
  split
  · next he => simp [he]
  · next hne => simp [hne, and_comm]

theorem slideOp_slides {changed changed' : Bool} (hg : g.WellFormed) (hl : g.LinksHeld)
    (hc : g.LinkChain chain head tail) (ha : a ∈ chain)
    (h' : slideOp chain head tail (g, changed) a = .ok (h, changed')) :
    g.Slides h ∧ (changed' = false → changed = false ∧ h = g) := by
  obtain ⟨k, hk, h'⟩ := bind_eq_ok.mp h'
  obtain ⟨k', hk', h'⟩ := bind_eq_ok.mp h'
  obtain ⟨rfl, rfl⟩ := Prod.mk.inj (pure_eq_ok.mp h')
  have h₁ : g.Slides k := by
    refine foldlM_slides (fun b hb hs hk => ?_) hg hl hk
    obtain ⟨hne, hn, -⟩ := mem_outside.mp hb
    exact slideToTail_slides hs.wellFormed hs.linksHeld (hc.congr hs.fwdLink) ha hne hn hk
  have h₂ : k.Slides k' := by
    refine foldlM_slides (fun b hb hs hk => ?_) h₁.wellFormed h₁.linksHeld hk'
    obtain ⟨hne, hn, -⟩ := mem_outside.mp hb
    exact slideToHead_slides hs.wellFormed hs.linksHeld
      (hc.congr fun x => (hs.fwdLink x).trans (h₁.fwdLink x)) ha hne hn hk
  refine ⟨h₁.trans h₂, fun hn => ?_⟩
  simp only [Bool.or_eq_false_iff, Bool.not_eq_false', List.isEmpty_iff] at hn
  obtain ⟨⟨hn, ho⟩, hi⟩ := hn
  rw [ho] at hk
  obtain rfl := pure_eq_ok.mp hk
  rw [hi] at hk'
  exact ⟨hn, (pure_eq_ok.mp hk').symm⟩

def SlidesTo (g : Graph W) (state : Graph W × Bool) : Prop :=
  g.Slides state.1 ∧ (state.2 = false → state.1 = g)

theorem slideChain_slides {state state' : Graph W × Bool} (hs : g.SlidesTo state)
    (hc : ∀ head tail, chain.head? = some head → chain.getLast? = some tail →
      g.LinkChain chain head tail)
    (h' : slideChain state chain = .ok state') : g.SlidesTo state' := by
  unfold slideChain at h'
  split at h'
  · next head tail hh ht =>
    refine foldlM_keeps (P := g.SlidesTo) hs (fun a ha s t hs ht' => ?_) h'
    obtain ⟨k, changed⟩ := s
    obtain ⟨k', changed'⟩ := t
    have hlc := (hc head tail hh ht).congr hs.1.fwdLink
    obtain ⟨h₁, h₂⟩ := slideOp_slides hs.1.wellFormed hs.1.linksHeld hlc ha ht'
    refine ⟨hs.1.trans h₁, fun hn => ?_⟩
    obtain ⟨hn, rfl⟩ := h₂ hn
    exact hs.2 hn
  · obtain rfl := Except.ok.inj h'
    exact hs

theorem slideLinks_tightens {result : Refined W} (hg : g.WellFormed) (hl : g.LinksHeld)
    (h' : g.slideLinks = .ok result) :
    g.Tightens result.graph ∧ (result.changed = false → result.graph = g) := by
  obtain ⟨⟨k, changed⟩, hk, h'⟩ := bind_eq_ok.mp h'
  obtain rfl := pure_eq_ok.mp h'
  have hs : g.SlidesTo (k, changed) := by
    refine foldlM_keeps (P := g.SlidesTo) ⟨⟨.refl hg hl, fun _ => rfl⟩, fun _ => rfl⟩
      (fun chain hm s t hs ht => slideChain_slides hs (fun head tail hh htail => ?_) ht) hk
    obtain ⟨a, -, rfl⟩ := List.mem_map.mp hm
    exact ⟨walk_isChain _ _ _, hh, htail⟩
  exact ⟨hs.1.toTightens, hs.2⟩

end Graph

end Liveness
