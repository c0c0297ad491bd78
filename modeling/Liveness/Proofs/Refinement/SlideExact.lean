import Liveness.Proofs.Refinement.SlideSuccess

/-! # Sliding constraints keeps all orders

Moving constraints to the ends of the chains of links changes nothing else of a graph, and
neither loses nor gains an order. Chains share no Op, so what was moved to the ends of one
chain stays there when the others are slid, and sliding again finds nothing to move.
-/

namespace Liveness

open Success

namespace Graph

variable {W : Type} [Weight W] {g h k : Graph W} {order chain : List Nat}
  {head tail a b u v x y : Nat}

/-- The same graph with constraints moved, and with the same valid orders. -/
structure Moved (g h : Graph W) : Prop where
  built : h.Built
  opCount : h.opCount = g.opCount
  allocs : h.allocs = g.allocs
  op : ∀ x, h.op x = { g.op x with ins := (h.op x).ins, outs := (h.op x).outs }
  validOrder : ∀ order, h.ValidOrder order ↔ g.ValidOrder order

namespace Moved

theorem refl (hg : g.Built) : g.Moved g := ⟨hg, rfl, rfl, fun _ => rfl, fun _ => Iff.rfl⟩

theorem trans (h₁ : g.Moved h) (h₂ : h.Moved k) : g.Moved k where
  built := h₂.built
  opCount := h₂.opCount.trans h₁.opCount
  allocs := h₂.allocs.trans h₁.allocs
  op x := (h₂.op x).trans (by rw [h₁.op x])
  validOrder order := (h₂.validOrder order).trans (h₁.validOrder order)

theorem fwdLink (hm : g.Moved h) (x : Nat) : (h.op x).fwdLink = (g.op x).fwdLink := by
  rw [hm.op x]

theorem bwdLink (hm : g.Moved h) (x : Nat) : (h.op x).bwdLink = (g.op x).bwdLink := by
  rw [hm.op x]

theorem linkChains (hm : g.Moved h) : h.linkChains = g.linkChains := by
  unfold Graph.linkChains linkedForward Graph.linkChainFrom Op.hasFwdLink Op.hasBwdLink
  simp only [hm.opCount, hm.fwdLink, hm.bwdLink]

end Moved

omit [Weight W] in
theorem KeepsLinks.lt_of_linkPath (hk : g.KeepsLinks order) (hp : g.LinkPath a b) :
    order.idxOf a < order.idxOf b := by
  induction hp with
  | single h =>
    rw [hk h]
    exact Nat.lt_succ_self _
  | tail _ h ih =>
    rw [hk h]
    exact Nat.lt_succ_of_lt ih

section Moves

omit [Weight W] in
theorem mem_outs_move (hg : g.Ordered) (hu : u < g.opCount) (hv : v < g.opCount)
    (hx : x < g.opCount) (hy : y < g.opCount) :
    b ∈ (((g.disconnect u v).connect x y).op a).outs ↔
      a = x ∧ b = y ∨ b ∈ (g.op a).outs ∧ ¬ (a = u ∧ b = v) := by
  rw [mem_outs_connect (by simpa using hx) (by simpa using hy), mem_outs_disconnect hg hu hv]

/-- A constraint can be moved where it says the same about orders with these links. -/
theorem moved_move (hg : g.Built) (hu : u < g.opCount) (hv : v < g.opCount)
    (hx : x < g.opCount) (hy : y < g.opCount) (hne : x ≠ y)
    (hnew : ∀ order, g.ValidOrder order → order.idxOf x < order.idxOf y)
    (hold : ∀ order, g.KeepsLinks order → order.idxOf x < order.idxOf y →
      order.idxOf u < order.idxOf v) :
    g.Moved ((g.disconnect u v).connect x y) := by
  have hx' : x < (g.disconnect u v).opCount := by simpa using hx
  have hy' : y < (g.disconnect u v).opCount := by simpa using hy
  have hop : ∀ z, ((g.disconnect u v).connect x y).op z = { g.op z with
      ins := (((g.disconnect u v).connect x y).op z).ins
      outs := (((g.disconnect u v).connect x y).op z).outs } := by
    intro z
    rw [op_connect hx' hy', op_disconnect hu hv]
  have hbuilt : (g.disconnect u v).Built := hg.unconstrain (unconstrain_eq_ok.mpr ⟨hu, hv, rfl⟩)
  have hallocs : ((g.disconnect u v).connect x y).allocs = g.allocs := by
    unfold connect disconnect modifyOp
    rfl
  refine ⟨hbuilt.connect hx' hy' hne, by simp, hallocs, hop, fun order =>
    ⟨fun ho => ?_, fun ho => ho.move hg.wellFormed.toOrdered hu hv hx hy (hnew _ ho)⟩⟩
  have hlinks : g.KeepsLinks order := fun p q hpq =>
    ho.linked ((congrArg Op.fwdLink (hop p)).trans hpq)
  have hmem := fun {p q} => mem_outs_move (a := p) (b := q) hg.wellFormed.toOrdered hu hv hx hy
  refine ⟨by simpa using ho.perm, fun {p q} hpq => ?_, fun hpq => hlinks hpq⟩
  by_cases he : p = u ∧ q = v
  · obtain ⟨rfl, rfl⟩ := he
    exact hold order hlinks (ho.before (hmem.mpr (.inl ⟨rfl, rfl⟩)))
  · exact ho.before (hmem.mpr (.inr ⟨hpq, he⟩))

theorem foldlM_moved {f : Graph W → Nat → Except Error (Graph W)} (old new : Nat → Nat × Nat)
    (bs : List Nat) (hf : ∀ k b, f k b = k.unconstrain (old b).1 (old b).2 >>= fun k =>
      k.constrain (new b).1 (new b).2) (hg : g.Built)
    (hlt : ∀ b ∈ bs, ((old b).1 < g.opCount ∧ (old b).2 < g.opCount) ∧
      (new b).1 < g.opCount ∧ (new b).2 < g.opCount ∧ (new b).1 ≠ (new b).2)
    (hnew : ∀ b ∈ bs, ∀ order, g.ValidOrder order →
      order.idxOf (new b).1 < order.idxOf (new b).2)
    (hold : ∀ b ∈ bs, ∀ order, g.KeepsLinks order →
      order.idxOf (new b).1 < order.idxOf (new b).2 →
        order.idxOf (old b).1 < order.idxOf (old b).2) :
    ∃ k, bs.foldlM f g = .ok k ∧ g.Moved k ∧ ∀ {x y}, y ∈ (k.op x).outs →
      (∃ b ∈ bs, (x, y) = new b) ∨ y ∈ (g.op x).outs ∧ ∀ b ∈ bs, (x, y) ≠ old b := by
  induction bs generalizing g with
  | nil => exact ⟨g, rfl, .refl hg, fun hy => .inr ⟨hy, nofun⟩⟩
  | cons b bs ih =>
    obtain ⟨⟨hu, hv⟩, hx, hy, hne⟩ := hlt b List.mem_cons_self
    have hm := moved_move hg hu hv hx hy hne (hnew b List.mem_cons_self)
      (hold b List.mem_cons_self)
    have hstep : f g b =
        .ok ((g.disconnect (old b).1 (old b).2).connect (new b).1 (new b).2) := by
      rw [hf, unconstrain_eq_ok.mpr ⟨hu, hv, rfl⟩]
      exact constrain_eq_ok.mpr ⟨⟨by simpa using hx, by simpa using hy, hne⟩, rfl⟩
    obtain ⟨k, hk, hmk, hedges⟩ := ih hm.built
      (fun c hc => by
        rw [hm.opCount]
        exact hlt c (List.mem_cons_of_mem b hc))
      (fun c hc order ho => hnew c (List.mem_cons_of_mem b hc) order ((hm.validOrder order).mp ho))
      (fun c hc order hl => hold c (List.mem_cons_of_mem b hc) order fun p q hpq =>
        hl ((hm.fwdLink p).trans hpq))
    refine ⟨k, ?_, hm.trans hmk, fun {p q} hpq => ?_⟩
    · rw [List.foldlM_cons, hstep]
      exact hk
    · rcases hedges hpq with ⟨c, hc, he⟩ | ⟨hpq, hno⟩
      · exact .inl ⟨c, List.mem_cons_of_mem b hc, he⟩
      · rcases (mem_outs_move hg.wellFormed.toOrdered hu hv hx hy).mp hpq with ⟨hp, hq⟩ | ⟨hpq, hn⟩
        · exact .inl ⟨b, List.mem_cons_self, Prod.ext hp hq⟩
        · refine .inr ⟨hpq, List.forall_mem_cons.mpr ⟨fun he => hn ?_, hno⟩⟩
          exact Prod.mk.inj he

end Moves

def SettledOn (g : Graph W) (chain : List Nat) (a : Nat) : Prop :=
  ∀ b ∉ chain, (b ∈ (g.op a).outs → chain.getLast? = some a) ∧
    (a ∈ (g.op b).outs → chain.head? = some a)

/-- Constraints are moved, but none away from the end of a chain. -/
structure Settles (g h : Graph W) : Prop extends g.Moved h where
  settledOn : ∀ chain ∈ g.linkChains, ∀ a ∈ chain, g.SettledOn chain a → h.SettledOn chain a

theorem Settles.refl (hg : g.Built) : g.Settles g := ⟨.refl hg, fun _ _ _ _ => id⟩

theorem Settles.trans (h₁ : g.Settles h) (h₂ : h.Settles k) : g.Settles k :=
  ⟨h₁.toMoved.trans h₂.toMoved, fun chain hc a ha hs =>
    h₂.settledOn chain (h₁.linkChains ▸ hc) a ha (h₁.settledOn chain hc a ha hs)⟩

section Slide

variable (hg : g.Built) (hm : chain ∈ g.linkChains) (ht : chain.getLast? = some tail)
  (hh : chain.head? = some head) (ha : a ∈ chain)

include hg hm ht hh ha

theorem slideToTail_moved : ∃ k, (if a = tail then [] else (g.op a).outs.filter fun b =>
      !chain.contains b).foldlM (slideToTail tail a) g = .ok k ∧ g.Moved k ∧
    (∀ {x y}, y ∈ (k.op x).outs → y ∈ (g.op x).outs ∨
      x = tail ∧ y ∉ chain ∧ y ∈ (g.op a).outs) ∧
    ∀ {y}, y ∉ chain → y ∈ (k.op a).outs → a = tail := by
  have hwf := hg.wellFormed
  have hc : g.LinkChain chain head tail := ⟨isChain_of_mem_linkChains hm, hh, ht⟩
  have htail : tail ∈ chain := List.mem_of_getLast? ht
  have hin : ∀ {x}, x ∈ chain → x < g.opCount := hwf.toOrdered.lt_of_mem_linkChain hm
  have hlt : ∀ b ∈ (if a = tail then [] else (g.op a).outs.filter fun b => !chain.contains b),
      (a < g.opCount ∧ b < g.opCount) ∧ tail < g.opCount ∧ b < g.opCount ∧ tail ≠ b := by
    intro b hb
    obtain ⟨-, hn, hb⟩ := mem_outside.mp hb
    have hlt := hwf.outs_lt hb
    exact ⟨⟨hin ha, hlt⟩, hin htail, hlt, fun he => hn (he ▸ htail)⟩
  obtain ⟨k, hk, hmk, hedges⟩ := foldlM_moved (f := slideToTail tail a) (fun b => (a, b))
    (fun b => (tail, b)) _ (fun k b => by rw [slideToTail]) hg hlt
    (fun b hb order ho => by
      obtain ⟨-, hn, hb⟩ := mem_outside.mp hb
      exact ho.tail_lt hc ha hn (hwf.outs_lt hb) (ho.before hb))
    (fun b hb order hl hlt => by
      obtain ⟨hne, -⟩ := mem_outside.mp hb
      exact Nat.lt_trans (hl.lt_of_linkPath ((hc.of_mem ha).resolve_left hne).2) hlt)
  refine ⟨k, hk, hmk, fun {x y} hxy => ?_, fun {y} hy hay => ?_⟩
  · rcases hedges hxy with ⟨b, hb, he⟩ | ⟨hxy, -⟩
    · obtain ⟨rfl, rfl⟩ := Prod.mk.inj he
      obtain ⟨-, hn, hb⟩ := mem_outside.mp hb
      exact .inr ⟨rfl, hn, hb⟩
    · exact .inl hxy
  · rcases hedges hay with ⟨b, -, he⟩ | ⟨hay, hno⟩
    · exact (Prod.mk.inj he).1
    · by_contra hne
      exact hno y (mem_outside.mpr ⟨hne, hy, hay⟩) rfl

theorem slideToHead_moved : ∃ k, (if a = head then [] else (g.op a).ins.filter fun b =>
      !chain.contains b).foldlM (slideToHead head a) g = .ok k ∧ g.Moved k ∧
    (∀ {x y}, y ∈ (k.op x).outs → y ∈ (g.op x).outs ∨
      y = head ∧ x ∉ chain ∧ a ∈ (g.op x).outs) ∧
    ∀ {x}, x ∉ chain → a ∈ (k.op x).outs → a = head := by
  have hwf := hg.wellFormed
  have hc : g.LinkChain chain head tail := ⟨isChain_of_mem_linkChains hm, hh, ht⟩
  have hhead : head ∈ chain := List.mem_of_head? hh
  have hin : ∀ {x}, x ∈ chain → x < g.opCount := hwf.toOrdered.lt_of_mem_linkChain hm
  have hlt : ∀ b ∈ (if a = head then [] else (g.op a).ins.filter fun b => !chain.contains b),
      (b < g.opCount ∧ a < g.opCount) ∧ b < g.opCount ∧ head < g.opCount ∧ b ≠ head := by
    intro b hb
    obtain ⟨-, hn, hb⟩ := mem_outside.mp hb
    have hlt := hwf.lt_of_mem_ins hb
    exact ⟨⟨hlt, hin ha⟩, hlt, hin hhead, fun he => hn (he ▸ hhead)⟩
  obtain ⟨k, hk, hmk, hedges⟩ := foldlM_moved (f := slideToHead head a) (fun b => (b, a))
    (fun b => (b, head)) _ (fun k b => by rw [slideToHead]) hg hlt
    (fun b hb order ho => by
      obtain ⟨-, hn, hb⟩ := mem_outside.mp hb
      exact ho.lt_head hc ha hn (hwf.lt_of_mem_ins hb) (ho.before (hwf.mem_ins.mp hb)))
    (fun b hb order hl hlt => by
      obtain ⟨hne, -⟩ := mem_outside.mp hb
      exact Nat.lt_trans hlt (hl.lt_of_linkPath ((hc.of_mem' ha).resolve_left hne).2))
  refine ⟨k, hk, hmk, fun {x y} hxy => ?_, fun {x} hx hxa => ?_⟩
  · rcases hedges hxy with ⟨b, hb, he⟩ | ⟨hxy, -⟩
    · obtain ⟨rfl, rfl⟩ := Prod.mk.inj he
      obtain ⟨-, hn, hb⟩ := mem_outside.mp hb
      exact .inr ⟨rfl, hn, hwf.mem_ins.mp hb⟩
    · exact .inl hxy
  · rcases hedges hxa with ⟨b, -, he⟩ | ⟨hxa, hno⟩
    · exact (Prod.mk.inj he).2
    · by_contra hne
      exact hno x (mem_outside.mpr ⟨hne, hx, hwf.mem_ins.mpr hxa⟩) rfl

/-- Sliding one Op moves its constraints with Ops outside of the chain to the ends of the chain. -/
theorem slideOp_moved (changed : Bool) : ∃ state, slideOp chain head tail (g, changed) a =
    .ok state ∧ g.Moved state.1 ∧ state.1.SettledOn chain a ∧
      ∀ {x y}, y ∈ (state.1.op x).outs → y ∈ (g.op x).outs ∨
        (x = tail ∧ y ∉ chain ∧ y ∈ (g.op a).outs) ∨ y = head ∧ x ∉ chain ∧ a ∈ (g.op x).outs := by
  obtain ⟨k, hk, hmk, hsub, hout⟩ := slideToTail_moved hg hm ht hh ha
  obtain ⟨k', hk', hmk', hsub', hin⟩ := slideToHead_moved hmk.built (hmk.linkChains ▸ hm) ht hh ha
  obtain ⟨changed', hstep⟩ : ∃ changed', slideOp chain head tail (g, changed) a =
      .ok (k', changed') := by
    unfold slideOp
    dsimp only
    rw [hk]
    simp only [bind, Except.bind]
    rw [hk']
    exact ⟨_, rfl⟩
  refine ⟨_, hstep, hmk.trans hmk', fun b hb => ⟨fun hab => ?_, fun hba => ?_⟩, fun {x y} hxy => ?_⟩
  · rcases hsub' hab with hab | ⟨rfl, -⟩
    · rw [ht, hout hb hab]
    · exact absurd (List.mem_of_head? hh) hb
  · rw [hh, hin hb hba]
  · rcases hsub' hxy with hxy | ⟨rfl, hx, hxa⟩
    · exact (hsub hxy).imp_right .inl
    · rcases hsub hxa with hxa | ⟨rfl, -⟩
      · exact .inr (.inr ⟨rfl, hx, hxa⟩)
      · exact absurd (List.mem_of_getLast? ht) hx

/-- What is moved to the ends of a chain is not moved away from the end of any chain. -/
theorem slideOp_settles (changed : Bool) : ∃ state, slideOp chain head tail (g, changed) a =
    .ok state ∧ g.Settles state.1 ∧ state.1.SettledOn chain a := by
  obtain ⟨state, hstep, hmoved, hsettled, hedges⟩ := slideOp_moved hg hm ht hh ha changed
  refine ⟨state, hstep, ⟨hmoved, fun other ho d hd hs b hb => ?_⟩, hsettled⟩
  -- an Op of the chain is on no other one
  have hsame : ∀ x ∈ chain, x ∈ other → other = chain := fun x hx hx' =>
    hg.wellFormed.toOrdered.linkChain_unique ho hm hx' hx
  constructor
  · intro hdb
    rcases hedges hdb with hdb | ⟨rfl, -⟩ | ⟨rfl, hd', hda⟩
    · exact (hs b hb).1 hdb
    · rw [hsame d (List.mem_of_getLast? ht) hd, ht]
    · exact (hs a fun ha' => hd' (hsame a ha ha' ▸ hd)).1 hda
  · intro hbd
    rcases hedges hbd with hbd | ⟨rfl, hd', had⟩ | ⟨rfl, -⟩
    · exact (hs b hb).2 hbd
    · exact (hs a fun ha' => hd' (hsame a ha ha' ▸ hd)).2 had
    · rw [hsame d (List.mem_of_head? hh) hd, hh]

end Slide

theorem slideChain_settles (hg : g.Built) (hm : chain ∈ g.linkChains) (changed : Bool) :
    ∃ state, slideChain (g, changed) chain = .ok state ∧ g.Settles state.1 ∧
      ∀ a ∈ chain, state.1.SettledOn chain a := by
  unfold slideChain
  split
  · next head tail hh ht =>
    apply foldlM_settles (P := fun s : Graph W × Bool => g.Settles s.1)
      (Q := fun a (s : Graph W × Bool) => s.1.SettledOn chain a) (.refl hg)
    rintro a ha ⟨k, changed⟩ hk
    have hm' : chain ∈ k.linkChains := hk.linkChains ▸ hm
    obtain ⟨state, hs, hks, hsettled⟩ := slideOp_settles hk.built hm' ht hh ha changed
    exact ⟨state, hs, hk.trans hks, hsettled, hks.settledOn chain hm'⟩
  · next hno =>
    refine ⟨_, rfl, .refl hg, fun a ha => ?_⟩
    have hne := List.ne_nil_of_mem ha
    exact (hno _ _ (List.head?_eq_some_head hne) (List.getLast?_eq_some_getLast hne)).elim

theorem slideChain_eq_self (hg : g.WellFormed) (hs : ∀ a ∈ chain, g.SettledOn chain a)
    (changed : Bool) : slideChain (g, changed) chain = .ok (g, changed) := by
  unfold slideChain
  split
  · next head tail hh ht =>
    refine foldlM_eq_self fun a ha => ?_
    have houts : (if a = tail then [] else (g.op a).outs.filter fun b =>
        !chain.contains b) = [] := by
      refine List.eq_nil_iff_forall_not_mem.mpr fun b hb => ?_
      obtain ⟨hne, hn, hb⟩ := mem_outside.mp hb
      exact hne (Option.some.inj (((hs a ha b hn).1 hb).symm.trans ht))
    have hins : (if a = head then [] else (g.op a).ins.filter fun b =>
        !chain.contains b) = [] := by
      refine List.eq_nil_iff_forall_not_mem.mpr fun b hb => ?_
      obtain ⟨hne, hn, hb⟩ := mem_outside.mp hb
      exact hne (Option.some.inj (((hs a ha b hn).2 (hg.mem_ins.mp hb)).symm.trans hh))
    unfold slideOp
    dsimp only
    rw [houts, List.foldlM_nil]
    simp only [bind, Except.bind, pure, Except.pure]
    rw [hins, List.foldlM_nil]
    simp [pure, Except.pure]
  · rfl

/-- Sliding the constraints of a built graph always succeeds, and moves constraints and nothing
else. The orders stay the same. After it, a constraint out of a chain of links starts at its
tail and one into it ends at its head, so that sliding again changes nothing. -/
theorem slideLinks_exact (hg : g.Built) : ∃ h changed, g.slideLinks = .ok ⟨h, changed, []⟩ ∧
    (h.opCount = g.opCount ∧ h.allocs = g.allocs ∧
      ∀ a, h.op a = { g.op a with ins := (h.op a).ins, outs := (h.op a).outs }) ∧
    (∀ order, h.ValidOrder order ↔ g.ValidOrder order) ∧
    (∀ chain ∈ h.linkChains, ∀ a ∈ chain, ∀ b ∉ chain,
      (b ∈ (h.op a).outs → chain.getLast? = some a) ∧
        (a ∈ (h.op b).outs → chain.head? = some a)) ∧
    h.slideLinks = .ok ⟨h, false, []⟩ := by
  obtain ⟨⟨h, changed⟩, hh, hm, hs⟩ : ∃ state, g.linkChains.foldlM slideChain (g, false) =
      .ok state ∧ g.Settles state.1 ∧
        ∀ chain ∈ g.linkChains, ∀ a ∈ chain, state.1.SettledOn chain a := by
    apply foldlM_settles (P := fun s : Graph W × Bool => g.Settles s.1)
      (Q := fun chain (s : Graph W × Bool) => ∀ a ∈ chain, s.1.SettledOn chain a) (.refl hg)
    rintro chain hc ⟨k, changed⟩ hk
    obtain ⟨state, hs, hks, hsettled⟩ :=
      slideChain_settles hk.built (hk.linkChains ▸ hc) changed
    refine ⟨state, hs, hk.trans hks, hsettled, fun other ho hsettled a ha => ?_⟩
    exact hks.settledOn other (hk.linkChains ▸ ho) a ha (hsettled a ha)
  refine ⟨h, changed, ?_, ⟨hm.opCount, hm.allocs, hm.op⟩, hm.validOrder, hm.linkChains ▸ hs, ?_⟩
  · unfold slideLinks
    rw [hh]
    rfl
  · have hagain : h.linkChains.foldlM slideChain (h, false) = .ok (h, false) :=
      foldlM_eq_self fun chain hc =>
        slideChain_eq_self hm.built.wellFormed (hs chain (hm.linkChains ▸ hc)) false
    unfold slideLinks
    rw [hagain]
    rfl

section EnteredChain

open Numbers

/-- The linked chain with a constraint that comes into it past its head. -/
def enteredChain : Graph (Tiered Int) := linkedChains.connect 2 1

/-- The constraint is moved to the head. The order that runs the chain first was no valid one
before, and is none after. -/
theorem enteredChain_slides : ∃ h changed, enteredChain.slideLinks = .ok ⟨h, changed, []⟩ ∧
    changed = true ∧ (h.op 2).outs = [0, 3] ∧ h.ValidOrder [2, 0, 1, 3] ∧
      ¬ h.ValidOrder [0, 1, 2, 3] ∧ h.slideLinks = .ok ⟨h, false, []⟩ := by
  have hg : enteredChain.Built := linkedChains_built.constrain
    (constrain_eq_ok.mpr ⟨by decide, rfl⟩)
  obtain ⟨h, changed, hs, -, ho, -, hagain⟩ := slideLinks_exact hg
  have hrun : enteredChain.slideLinks.map (fun r => (r.changed, (r.graph.op 2).outs)) =
      .ok (true, [0, 3]) := by decide +kernel
  rw [hs] at hrun
  obtain ⟨hc, houts⟩ := Prod.mk.inj (Except.ok.inj hrun)
  exact ⟨h, changed, hs, hc, houts, (ho _).mpr (by decide), mt (ho _).mp (by decide), hagain⟩

end EnteredChain

end Graph

end Liveness
