import Liveness.Proofs.Schedule.Trade
import Liveness.Proofs.Graph.TightChains

/-! # Parallel chains

Two tight chains with the same constraints before their heads and after their tails can trade
places Op by Op: wherever an Op of the second chain comes before its counterpart in the first
one, the two change places. Then the Ops of the first chain have the earlier of the two places
each time, and the order is still valid.
-/

namespace Liveness

section Partners

variable {pairs : List (Nat × Nat)} {p : Nat × Nat} {a : Nat}

/-- The other Op of the pair that an Op is in, and the Op itself if it is in none. -/
def partner (pairs : List (Nat × Nat)) (a : Nat) : Nat :=
  match pairs.find? fun p => p.1 == a || p.2 == a with
  | some p => if p.1 = a then p.2 else p.1
  | none => a

def Apart (pairs : List (Nat × Nat)) : Prop :=
  ∀ p ∈ pairs, ∀ q ∈ pairs, p.1 ≠ q.2 ∧ (p.1 = q.1 ∨ p.2 = q.2 → p = q)

theorem partner_of_mem (h : Apart pairs) (hp : p ∈ pairs) :
    partner pairs p.1 = p.2 ∧ partner pairs p.2 = p.1 := by
  have hfound : ∀ a, p.1 = a ∨ p.2 = a → pairs.find? (fun q => q.1 == a || q.2 == a) = some p := by
    intro a ha
    cases hf : pairs.find? fun q => q.1 == a || q.2 == a with
    | none => simpa [ha] using List.find?_eq_none.mp hf p hp
    | some q =>
      have hq := List.mem_of_find?_eq_some hf
      have hqa : q.1 = a ∨ q.2 = a := by simpa using List.find?_some hf
      rcases ha with rfl | rfl <;> rcases hqa with hqa | hqa
      · rw [(h q hq p hp).2 (.inl hqa)]
      · exact absurd hqa.symm (h p hp q hq).1
      · exact absurd hqa (h q hq p hp).1
      · rw [(h q hq p hp).2 (.inr hqa)]
  constructor
  · rw [partner, hfound p.1 (.inl rfl)]
    exact if_pos rfl
  · rw [partner, hfound p.2 (.inr rfl)]
    exact if_neg (h p hp p hp).1

theorem partner_of_not_mem (h : ∀ p ∈ pairs, p.1 ≠ a ∧ p.2 ≠ a) : partner pairs a = a := by
  have hnone : pairs.find? (fun p => p.1 == a || p.2 == a) = none :=
    List.find?_eq_none.mpr fun p hp => by simpa using h p hp
  rw [partner, hnone]

theorem partner_cases (h : Apart pairs) (a : Nat) :
    (∃ p ∈ pairs, a = p.1 ∧ partner pairs a = p.2 ∨ a = p.2 ∧ partner pairs a = p.1) ∨
      partner pairs a = a := by
  by_cases hex : ∃ p ∈ pairs, a = p.1 ∨ a = p.2
  · obtain ⟨p, hp, rfl | rfl⟩ := hex
    · exact .inl ⟨p, hp, .inl ⟨rfl, (partner_of_mem h hp).1⟩⟩
    · exact .inl ⟨p, hp, .inr ⟨rfl, (partner_of_mem h hp).2⟩⟩
  · push Not at hex
    exact .inr (partner_of_not_mem fun p hp => ⟨(hex p hp).1.symm, (hex p hp).2.symm⟩)

theorem partner_involutive (h : Apart pairs) : Function.Involutive (partner pairs) := by
  intro a
  rcases partner_cases h a with ⟨p, hp, ⟨rfl, he⟩ | ⟨rfl, he⟩⟩ | he
  · rw [he, (partner_of_mem h hp).2]
  · rw [he, (partner_of_mem h hp).1]
  · rw [he, he]

end Partners

namespace Graph

variable {W : Type} {g : Graph W} {order first second : List Nat} {p : Nat × Nat} {a b i : Nat}

/-- Two tight chains, the second no longer than the first, between the same Ops. -/
structure Parallel (g : Graph W) (first second : List Nat) : Prop where
  length_le : second.length ≤ first.length
  inRange : ∀ a ∈ first ++ second, a < g.opCount
  nodup : (first ++ second).Nodup
  isChain_first : first.IsChain fun a b => g.tightNext a = some b
  isChain_second : second.IsChain fun a b => g.tightNext a = some b
  heads : ∀ a ∈ first.head?, ∀ b ∈ second.head?, (g.op a).ins = (g.op b).ins
  lasts : ∀ a ∈ first.getLast?, ∀ b ∈ second.getLast?, (g.op a).outs = (g.op b).outs

/-- The counterparts of which the one in the second chain comes first. -/
def turned (order first second : List Nat) : List (Nat × Nat) :=
  (first.zip second).filter fun p => order.idxOf p.2 < order.idxOf p.1

/-- The Op whose place an Op takes when all these counterparts trade places. -/
def traded (order first second : List Nat) (a : Nat) : Nat :=
  partner (turned order first second) a

theorem mem_turned : p ∈ turned order first second ↔
    p ∈ first.zip second ∧ order.idxOf p.2 < order.idxOf p.1 := by
  simp [turned]

section Places

variable (h : (first ++ second).Nodup)

include h

theorem ne_of_mem_chains (ha : a ∈ first) (hb : b ∈ second) : a ≠ b :=
  (List.nodup_append.mp h).2.2 a ha b hb

theorem apart_zip : Apart (first.zip second) := by
  obtain ⟨hf, hs, -⟩ := List.nodup_append.mp h
  intro p hp q hq
  obtain ⟨i, hi, -, rfl⟩ := mem_zip_iff.mp hp
  obtain ⟨j, -, hj, rfl⟩ := mem_zip_iff.mp hq
  refine ⟨ne_of_mem_chains h (List.getElem_mem hi) (List.getElem_mem hj), ?_⟩
  rintro (he | he)
  · obtain rfl := (hf.getElem_inj_iff).mp he
    rfl
  · obtain rfl := (hs.getElem_inj_iff).mp he
    rfl

theorem apart_turned (order : List Nat) : Apart (turned order first second) := fun p hp q hq =>
  apart_zip h p (mem_turned.mp hp).1 q (mem_turned.mp hq).1

theorem traded_involutive (order : List Nat) :
    Function.Involutive (traded order first second) := partner_involutive (apart_turned h order)

/-- Either an Op keeps its place, or it trades with its counterpart, the later of the two being in
the first chain. -/
theorem traded_cases (order : List Nat) (a : Nat) : traded order first second a = a ∨
    ∃ i, ∃ (hf : i < first.length) (hs : i < second.length),
      order.idxOf second[i] < order.idxOf first[i] ∧
        (a = first[i] ∧ traded order first second a = second[i] ∨
          a = second[i] ∧ traded order first second a = first[i]) := by
  rcases partner_cases (apart_turned h order) a with ⟨p, hp, he⟩ | he
  · obtain ⟨hp, hlt⟩ := mem_turned.mp hp
    obtain ⟨i, hf, hs, rfl⟩ := mem_zip_iff.mp hp
    exact .inr ⟨i, hf, hs, hlt, he⟩
  · exact .inl he

theorem traded_first (hf : i < first.length)
    (hno : ∀ hs : i < second.length, ¬ order.idxOf second[i] < order.idxOf first[i]) :
    traded order first second first[i] = first[i] := by
  refine (traded_cases h order first[i]).resolve_right ?_
  rintro ⟨j, hj, hs, hturn, ⟨he, -⟩ | ⟨he, -⟩⟩
  · obtain rfl := (List.nodup_append.mp h).1.getElem_inj_iff.mp he
    exact hno hs hturn
  · exact ne_of_mem_chains h (List.getElem_mem hf) (List.getElem_mem hs) he

theorem traded_second (hs : i < second.length)
    (hno : ∀ hf : i < first.length, ¬ order.idxOf second[i] < order.idxOf first[i]) :
    traded order first second second[i] = second[i] := by
  refine (traded_cases h order second[i]).resolve_right ?_
  rintro ⟨j, hf, hj, hturn, ⟨he, -⟩ | ⟨he, -⟩⟩
  · exact ne_of_mem_chains h (List.getElem_mem hf) (List.getElem_mem hs) he.symm
  · obtain rfl := (List.nodup_append.mp h).2.1.getElem_inj_iff.mp he
    exact hno hf hturn

/-- Of two counterparts, the first gets the earlier place and the second the later one. -/
theorem idxOf_traded (order : List Nat) (hf : i < first.length) (hs : i < second.length) :
    order.idxOf (traded order first second first[i]) =
        min (order.idxOf first[i]) (order.idxOf second[i]) ∧
      order.idxOf (traded order first second second[i]) =
        max (order.idxOf first[i]) (order.idxOf second[i]) := by
  by_cases hlt : order.idxOf second[i] < order.idxOf first[i]
  · have hp : (first[i], second[i]) ∈ turned order first second :=
      mem_turned.mpr ⟨mem_zip_iff.mpr ⟨i, hf, hs, rfl⟩, hlt⟩
    obtain ⟨h₁, h₂⟩ := partner_of_mem (apart_turned h order) hp
    rw [min_eq_right hlt.le, max_eq_left hlt.le]
    exact ⟨congrArg order.idxOf h₁, congrArg order.idxOf h₂⟩
  · rw [traded_first h hf fun _ => hlt, traded_second h hs fun _ => hlt,
      min_eq_left (not_lt.mp hlt), max_eq_right (not_lt.mp hlt)]
    exact ⟨rfl, rfl⟩

theorem idxOf_traded_le (order : List Nat) (ha : a ∈ first) :
    order.idxOf (traded order first second a) ≤ order.idxOf a := by
  rcases traded_cases h order a with he | ⟨i, hf, hs, hlt, ⟨rfl, he⟩ | ⟨rfl, he⟩⟩
  · rw [he]
  · rw [he]
    exact hlt.le
  · exact absurd rfl (ne_of_mem_chains h ha (List.getElem_mem hs))

theorem le_idxOf_traded (order : List Nat) (ha : a ∉ first) :
    order.idxOf a ≤ order.idxOf (traded order first second a) := by
  rcases traded_cases h order a with he | ⟨i, hf, hs, hlt, ⟨rfl, he⟩ | ⟨rfl, he⟩⟩
  · rw [he]
  · exact absurd (List.getElem_mem hf) ha
  · rw [he]
    exact hlt.le

end Places

theorem ValidOrder.idxOf_lt_of_isChain {chain : List Nat} (ho : g.ValidOrder order)
    (hc : chain.IsChain fun a b => g.tightNext a = some b) {i j : Nat} (hij : i < j)
    (hj : j < chain.length) : order.idxOf chain[i] < order.idxOf chain[j] := by
  have hp : chain.Pairwise fun a b => order.idxOf a < order.idxOf b := by
    have : IsTrans Nat fun a b => order.idxOf a < order.idxOf b := ⟨fun _ _ _ => Nat.lt_trans⟩
    refine (hc.imp fun a b h => ?_).pairwise
    exact ho.before (mem_outs_of_tightNext h)
  exact List.pairwise_iff_getElem.mp hp i j (hij.trans hj) hj hij

theorem ValidOrder.idxOf_le_of_isChain {chain : List Nat} (ho : g.ValidOrder order)
    (hc : chain.IsChain fun a b => g.tightNext a = some b) {i j : Nat} (hij : i ≤ j)
    (hj : j < chain.length) : order.idxOf chain[i] ≤ order.idxOf chain[j] := by
  rcases Nat.lt_or_eq_of_le hij with hlt | rfl
  · exact (ho.idxOf_lt_of_isChain hc hlt hj).le
  · exact le_rfl

namespace Parallel

variable (hc : g.Parallel first second) (hg : g.Ordered) (ho : g.ValidOrder order)

include hc hg ho

theorem idxOf_lt_second (hf : 0 < first.length) (hab : first[0] ∈ (g.op a).outs)
    (hs : i < second.length) : order.idxOf a < order.idxOf second[i] := by
  have hs₀ := Nat.zero_lt_of_lt hs
  have hheads := hc.heads first[0] (by simp [List.head?_eq_getElem?, hf]) second[0]
    (by simp [List.head?_eq_getElem?, hs₀])
  have hins : a ∈ (g.op second[0]).ins := hheads ▸ hg.mem_ins.mpr hab
  exact (ho.before (hg.mem_ins.mp hins)).trans_le
    (ho.idxOf_le_of_isChain hc.isChain_second (Nat.zero_le i) hs)

theorem before_head (hf : 0 < first.length) (hab : first[0] ∈ (g.op a).outs) :
    order.idxOf (traded order first second a) <
      order.idxOf (traded order first second first[0]) := by
  have hlt := ho.before hab
  have ha : traded order first second a = a := by
    rcases traded_cases hc.nodup order a with he | ⟨j, hj, hs, -, ⟨rfl, -⟩ | ⟨rfl, -⟩⟩
    · exact he
    · exact absurd hlt (Nat.not_lt.mpr (ho.idxOf_le_of_isChain hc.isChain_first (Nat.zero_le j) hj))
    · exact absurd (hc.idxOf_lt_second hg ho hf hab hs) (Nat.lt_irrefl _)
  rw [ha]
  rcases traded_cases hc.nodup order first[0] with he | ⟨j, -, hs, -, ⟨-, he⟩ | ⟨he, -⟩⟩
  · rwa [he]
  · rw [he]
    exact hc.idxOf_lt_second hg ho hf hab hs
  · exact absurd he (ne_of_mem_chains hc.nodup (List.getElem_mem hf) (List.getElem_mem hs))

omit hg in
theorem before_next (hf : i + 1 < first.length) :
    order.idxOf (traded order first second first[i]) <
      order.idxOf (traded order first second first[i + 1]) := by
  have hlt := ho.idxOf_lt_of_isChain hc.isChain_first (Nat.lt_succ_self i) hf
  by_cases hs : i + 1 < second.length
  · have hlt' := ho.idxOf_lt_of_isChain hc.isChain_second (Nat.lt_succ_self i) hs
    rw [(idxOf_traded hc.nodup order (Nat.lt_of_succ_lt hf) (Nat.lt_of_succ_lt hs)).1,
      (idxOf_traded hc.nodup order hf hs).1]
    exact min_lt_min hlt hlt'
  · -- the second chain has ended, so the later Op has no counterpart
    rw [traded_first hc.nodup hf fun hs' => absurd hs' hs]
    exact (idxOf_traded_le hc.nodup order (List.getElem_mem _)).trans_lt hlt

theorem before_first (hb : b ∈ first) (hab : b ∈ (g.op a).outs) :
    order.idxOf (traded order first second a) < order.idxOf (traded order first second b) := by
  obtain ⟨k, hk, rfl⟩ := List.getElem_of_mem hb
  cases k with
  | zero => exact hc.before_head hg ho hk hab
  | succ k =>
    have hins := hg.ins_of_tightNext (List.isChain_iff_getElem.mp hc.isChain_first k hk)
    obtain rfl : a = first[k] := by
      have ha := hg.mem_ins.mpr hab
      rwa [hins, List.mem_singleton] at ha
    exact hc.before_next ho hk

omit hg in
theorem before_other (hb : b ∉ first) (hab : b ∈ (g.op a).outs) :
    order.idxOf (traded order first second a) < order.idxOf (traded order first second b) := by
  have hlt := ho.before hab
  have hle := le_idxOf_traded hc.nodup order hb
  rcases traded_cases hc.nodup order a with he | ⟨j, hf, hs, hturn, ⟨rfl, he⟩ | ⟨rfl, he⟩⟩
  · rw [he]
    exact hlt.trans_le hle
  · rw [he]
    exact hturn.trans (hlt.trans_le hle)
  · rw [he]
    by_cases hj : j + 1 < second.length
    · have hnext := List.isChain_iff_getElem.mp hc.isChain_second j hj
      obtain rfl : b = second[j + 1] := by
        rwa [(tightNext_eq_some.mp hnext).1, List.mem_singleton] at hab
      have hj' : j + 1 < first.length := hj.trans_le hc.length_le
      rw [(idxOf_traded hc.nodup order hj' hj).2]
      exact lt_max_of_lt_left (ho.idxOf_lt_of_isChain hc.isChain_first (Nat.lt_succ_self j) hj')
    · have hn : first.length - 1 < first.length := Nat.sub_one_lt_of_lt hf
      have hlast : order.idxOf first[j] ≤ order.idxOf first[first.length - 1] :=
        ho.idxOf_le_of_isChain hc.isChain_first (by omega) hn
      obtain rfl : j = second.length - 1 := by omega
      have hend := hc.lasts first[first.length - 1] (by simp [List.getLast?_eq_getElem?, hn])
        second[second.length - 1] (by simp [List.getLast?_eq_getElem?, hs])
      rw [← hend] at hab
      exact hlast.trans_lt ((ho.before hab).trans_le hle)

/-- An order stays valid when the counterparts of parallel chains trade places. -/
theorem validOrder_traded (hn : g.Unlinked) :
    g.ValidOrder (order.map (traded order first second)) := by
  refine ho.trade hn (traded_involutive hc.nodup order) (fun a ha => ?_) fun a b hab => ?_
  · rcases traded_cases hc.nodup order a with he | ⟨i, hf, hs, -, ⟨-, he⟩ | ⟨-, he⟩⟩
    · rwa [he]
    · rw [he]
      exact hc.inRange _ (List.mem_append_right _ (List.getElem_mem hs))
    · rw [he]
      exact hc.inRange _ (List.mem_append_left _ (List.getElem_mem hf))
  · by_cases hb : b ∈ first
    · exact hc.before_first hg ho hb hab
    · exact hc.before_other ho hb hab

end Parallel

end Graph

end Liveness
