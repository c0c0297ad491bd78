import Mathlib.Data.List.TakeWhile
import Liveness.Proofs.Graph.Repeated
import Liveness.Proofs.Reach

/-! # Bins in order

Bottlenecks order bins of Ops one after the other. Each of them can be put right in front of the
first Op of a later bin: the Ops of its own bin and of those before are ahead of it then. So
bottlenecks forbid nothing but an Op of a later bin ahead of one of an earlier bin, also across
empty bins.
-/

namespace Liveness

section Restriction

variable {keep : Nat → Bool} {order l r later : List Nat} {a b n : Nat}

theorem idxOf_filter_lt_iff (ha : keep a = true) (hb : keep b = true) :
    (order.filter keep).idxOf a < (order.filter keep).idxOf b ↔ order.idxOf a < order.idxOf b := by
  induction order with
  | nil => rfl
  | cons x xs ih =>
    by_cases hxa : x = a
    · subst hxa
      rw [List.filter_cons_of_pos ha, List.idxOf_cons_self, List.idxOf_cons_self]
      by_cases hxb : x = b
      · subst hxb
        simp
      · rw [List.idxOf_cons_ne _ hxb, List.idxOf_cons_ne _ hxb]
        simp
    · by_cases hxb : x = b
      · subst hxb
        rw [List.filter_cons_of_pos hb]
        simp
      · rw [List.idxOf_cons_ne _ hxa, List.idxOf_cons_ne _ hxb]
        by_cases hx : keep x = true
        · rw [List.filter_cons_of_pos hx, List.idxOf_cons_ne _ hxa, List.idxOf_cons_ne _ hxb]
          simpa using ih
        · rw [List.filter_cons_of_neg hx]
          simpa using ih

theorem filter_lt_perm_range {m : Nat} (h : order.Perm (List.range m)) (hnm : n ≤ m) :
    (order.filter (· < n)).Perm (List.range n) := by
  have hn : order.Nodup := h.nodup_iff.mpr List.nodup_range
  rw [List.perm_ext_iff_of_nodup (hn.filter _) List.nodup_range]
  intro a
  rw [List.mem_filter, h.mem_iff, List.mem_range, List.mem_range, decide_eq_true_iff]
  omega

theorem filter_lt_of_perm_range (h : order.Perm (List.range n)) : order.filter (· < n) = order := by
  rw [List.filter_eq_self]
  intro a ha
  simpa using h.mem_iff.mp ha

theorem idxOf_lt_of_not_mem (ha : a ∉ l) (hb : b ∉ l) (hne : a ≠ b) :
    (l ++ a :: r).idxOf a < (l ++ a :: r).idxOf b := by
  rw [List.idxOf_append, List.idxOf_append, if_neg ha, if_neg hb, List.idxOf_cons_self,
    List.idxOf_cons_ne _ hne]
  omega

theorem exists_split_before (order later : List Nat) : ∃ l r, order = l ++ r ∧
    (∀ b ∈ later, b ∉ l) ∧
      ∀ a ∈ order, (∀ b ∈ later, order.idxOf a < order.idxOf b) → a ∈ l := by
  let early (a : Nat) : Bool := !later.contains a
  have hl : ∀ b ∈ later, b ∉ order.takeWhile early := by
    intro b hb hm
    simpa [early, hb] using List.mem_takeWhile_imp hm
  refine ⟨order.takeWhile early, order.dropWhile early, by simp, hl, fun a ha hahead => ?_⟩
  have hsplit : order.takeWhile early ++ order.dropWhile early = order :=
    List.takeWhile_append_dropWhile
  by_contra hal
  cases hr : order.dropWhile early with
  | nil =>
    rw [hr, List.append_nil] at hsplit
    exact hal (hsplit.symm ▸ ha)
  | cons first rest =>
    have hne : order.dropWhile early ≠ [] := by simp [hr]
    have hfirst : first ∈ later := by
      have := List.head_dropWhile_not early hne
      simp only [hr, List.head_cons] at this
      simpa [early] using this
    have hlt := hahead first hfirst
    rw [← hsplit, hr, List.idxOf_append, List.idxOf_append, if_neg hal, if_neg (hl first hfirst),
      List.idxOf_cons_self] at hlt
    omega

/-- The next number can be put in front of the first of some elements, and what was ahead of all of
them is ahead of it then. -/
theorem exists_insert_before (h : order.Perm (List.range n)) (hl : ∀ b ∈ later, b < n) :
    ∃ longer : List Nat, longer.Perm (List.range (n + 1)) ∧ longer.filter (· < n) = order ∧
      (∀ b ∈ later, longer.idxOf n < longer.idxOf b) ∧
      ∀ a < n, (∀ b ∈ later, order.idxOf a < order.idxOf b) →
        longer.idxOf a < longer.idxOf n := by
  obtain ⟨l, r, rfl, hout, hin⟩ := exists_split_before order later
  have hmem : ∀ {a}, a ∈ l ++ r ↔ a < n := h.mem_iff.trans List.mem_range
  have hnl : n ∉ l := fun hm => Nat.lt_irrefl _ (hmem.mp (List.mem_append_left r hm))
  refine ⟨l ++ n :: r, ?_, ?_, fun b hb => ?_, fun a ha hahead => ?_⟩
  · rw [List.range_succ]
    exact List.perm_middle.trans ((h.cons _).trans (List.perm_append_singleton _ _).symm)
  · have hall := filter_lt_of_perm_range h
    rw [List.filter_append] at hall ⊢
    rwa [List.filter_cons_of_neg (by simp)]
  · exact idxOf_lt_of_not_mem hnl (hout b hb) (hl b hb).ne'
  · exact idxOf_append_lt (hin a (hmem.mpr ha) hahead) hnl

theorem filter_lt_filter_lt {m : Nat} (hnm : n ≤ m) (order : List Nat) :
    (order.filter (· < m)).filter (· < n) = order.filter (· < n) := by
  rw [List.filter_filter]
  refine List.filter_congr fun a _ => ?_
  rw [← Bool.decide_and, decide_eq_decide]
  omega

end Restriction

namespace Graph

open Success

variable {W : Type} {g : Graph W} {previous : Option Nat} {bin next : List Nat}
  {bins : List (List Nat)} {order longer : List Nat} {stem name : String} {x y i n : Nat}

def Separated (bins : List (List Nat)) (order : List Nat) : Prop :=
  bins.Pairwise fun bin later => ∀ a ∈ bin, ∀ b ∈ later, order.idxOf a < order.idxOf b

instance (bins : List (List Nat)) (order : List Nat) : Decidable (Separated bins order) :=
  inferInstanceAs (Decidable (List.Pairwise _ _))

theorem separated_filter_iff (hb : ∀ bin ∈ bins, ∀ a ∈ bin, a < n) :
    Separated bins (order.filter (· < n)) ↔ Separated bins order := by
  unfold Separated
  apply List.Pairwise.iff_of_mem
  intro bin later hbin hlater
  refine forall₂_congr fun a ha => forall₂_congr fun b hb' => ?_
  exact idxOf_filter_lt_iff (by simpa using hb bin hbin a ha) (by simpa using hb later hlater b hb')

/-- A topological order in which the bins come one after the other, those behind the first bin
also after a given Op. -/
structure Divides (g : Graph W) (previous : Option Nat) (bins : List (List Nat))
    (order : List Nat) : Prop where
  topological : g.edges.Topological order
  separated : Separated bins order
  behind : ∀ a ∈ previous, ∀ later ∈ bins.tail, ∀ b ∈ later, order.idxOf a < order.idxOf b

theorem opCount_addBottleneck (g : Graph W) (previous : Option Nat) (bin next : List Nat)
    (name : String) : (g.addBottleneck previous bin next name).opCount = g.opCount + 1 := by
  simp [addBottleneck]

section Bottleneck

variable (hp : ∀ a ∈ previous, a < g.opCount) (hb : ∀ a ∈ bin, a < g.opCount)
  (hn : ∀ a ∈ next, a < g.opCount)

include hp hb hn

theorem mem_outs_addBottleneck : y ∈ ((g.addBottleneck previous bin next name).op x).outs ↔
    (y = g.opCount ∧ (x ∈ bin ∨ x ∈ previous) ∨ x = g.opCount ∧ y ∈ next) ∨ y ∈ (g.op x).outs := by
  have houts : y ∈ ((g.addOp name).op x).outs ↔ y ∈ (g.op x).outs := by
    rw [op_addOp]
    split
    · next he =>
      rw [he, op_of_ge (Nat.le_refl _)]
      rfl
    · rfl
  rw [addBottleneck, mem_outs_connectAll (Built.bottleneck_inRange name hp hb hn), houts]
  simp only [List.mem_append, List.mem_map, Option.mem_toList, Option.mem_def, Prod.mk.injEq]
  grind

variable (hbins : ∀ later ∈ bins, ∀ a ∈ later, a < g.opCount) (hg : g.Ordered)

include hbins hg

/-- Where the bins are in order, a bottleneck fits in front of the first Op of a later bin. -/
theorem Divides.exists_longer (h : g.Divides previous (bin :: next :: bins) order) :
    ∃ longer, (g.addBottleneck previous bin next name).Divides (some g.opCount) (next :: bins)
      longer ∧ longer.filter (· < g.opCount) = order := by
  obtain ⟨ht, hs, hbehind⟩ := h
  obtain ⟨hsep, hs⟩ := List.pairwise_cons.mp hs
  have hlater : ∀ later ∈ next :: bins, ∀ a ∈ later, a < g.opCount :=
    List.forall_mem_cons.mpr ⟨hn, hbins⟩
  have hflat : ∀ {P : Nat → Prop}, (∀ later ∈ next :: bins, ∀ b ∈ later, P b) →
      ∀ b ∈ (next :: bins).flatten, P b := by
    intro P hall b hb
    obtain ⟨later, hm, hb⟩ := List.mem_flatten.mp hb
    exact hall later hm b hb
  obtain ⟨longer, hperm, rfl, hafter, hahead⟩ :=
    exists_insert_before (g.size_edges ▸ ht.perm) (hflat hlater)
  refine ⟨longer, ⟨⟨?_, fun {x y} hxy => ?_⟩, (separated_filter_iff hlater).mp hs, ?_⟩, rfl⟩
  · rwa [size_edges, opCount_addBottleneck]
  · rw [outs_edges, mem_outs_addBottleneck hp hb hn] at hxy
    rcases hxy with (⟨rfl, hx | hx⟩ | ⟨rfl, hy⟩) | hxy
    · exact hahead x (hb x hx) (hflat fun later hm b hb' => hsep later hm x hx b hb')
    · exact hahead x (hp x hx) (hflat fun later hm b hb' => hbehind x hx later hm b hb')
    · exact hafter y (List.mem_flatten_of_mem List.mem_cons_self hy)
    · refine (idxOf_filter_lt_iff ?_ ?_).mp (ht.before (outs_edges g x ▸ hxy))
      · simpa using lt_of_mem_outs hxy
      · simpa using hg.outs_lt hxy
  · rintro _ ⟨⟩ later hm b hb'
    exact hafter b (List.mem_flatten_of_mem (List.mem_cons_of_mem next hm) hb')

theorem Divides.filter (h : (g.addBottleneck previous bin next name).Divides (some g.opCount)
    (next :: bins) longer) :
    g.Divides previous (bin :: next :: bins) (longer.filter (· < g.opCount)) := by
  obtain ⟨ht, hs, hbehind⟩ := h
  have hlater : ∀ later ∈ next :: bins, ∀ a ∈ later, a < g.opCount :=
    List.forall_mem_cons.mpr ⟨hn, hbins⟩
  have hbefore : ∀ {x y}, _ → longer.idxOf x < longer.idxOf y := fun {x y} hxy =>
    ht.before (outs_edges _ x ▸ (mem_outs_addBottleneck hp hb hn).mpr hxy)
  have hold : ∀ {a b}, a < g.opCount → b < g.opCount → longer.idxOf a < longer.idxOf b →
      (longer.filter (· < g.opCount)).idxOf a < (longer.filter (· < g.opCount)).idxOf b :=
    fun ha hb => (idxOf_filter_lt_iff (by simpa using ha) (by simpa using hb)).mpr
  have hafter : ∀ later ∈ next :: bins, ∀ b ∈ later, longer.idxOf g.opCount < longer.idxOf b :=
    List.forall_mem_cons.mpr ⟨fun b hb' => hbefore (.inl (.inr ⟨rfl, hb'⟩)), fun later hm =>
      hbehind _ rfl later hm⟩
  have hahead : ∀ a, a < g.opCount → longer.idxOf a < longer.idxOf g.opCount →
      ∀ later ∈ next :: bins, ∀ b ∈ later,
        (longer.filter (· < g.opCount)).idxOf a < (longer.filter (· < g.opCount)).idxOf b :=
    fun a ha hlt later hm b hb' =>
      hold ha (hlater later hm b hb') (hlt.trans (hafter later hm b hb'))
  refine ⟨⟨?_, fun {x y} hxy => ?_⟩, List.pairwise_cons.mpr ⟨fun later hm a ha => ?_, ?_⟩,
    fun a ha => ?_⟩
  · have hperm := ht.perm
    rw [size_edges, opCount_addBottleneck] at hperm
    rw [size_edges]
    exact filter_lt_perm_range hperm (Nat.le_succ _)
  · rw [outs_edges] at hxy
    exact hold (lt_of_mem_outs hxy) (hg.outs_lt hxy) (hbefore (.inr hxy))
  · exact hahead a (hb a ha) (hbefore (.inl (.inl ⟨rfl, .inl ha⟩))) later hm
  · exact (separated_filter_iff hlater).mpr hs
  · exact hahead a (hp a ha) (hbefore (.inl (.inl ⟨rfl, .inr ha⟩)))

end Bottleneck

theorem addBottlenecks_cons (g : Graph W) (stem : String) (previous : Option Nat) (i : Nat)
    (bin next : List Nat) (bins : List (List Nat)) :
    ∃ name, (g.addBottlenecks stem previous i (bin :: next :: bins)) =
      (((g.addBottleneck previous bin next name).addBottlenecks stem (some g.opCount) (i + 1)
        (next :: bins)).1, g.opCount :: ((g.addBottleneck previous bin next name).addBottlenecks stem
          (some g.opCount) (i + 1) (next :: bins)).2) :=
  ⟨_, rfl⟩

/-- All bottlenecks together are an Op between every two bins, and add no constraint between Ops
that were there. -/
theorem addBottlenecks_adds (stem : String) (hp : ∀ a ∈ previous, a < g.opCount)
    (hb : ∀ bin ∈ bins, ∀ a ∈ bin, a < g.opCount) :
    (g.addBottlenecks stem previous i bins).1.opCount = g.opCount + (bins.length - 1) ∧
      (g.addBottlenecks stem previous i bins).2 =
        (List.range (bins.length - 1)).map (g.opCount + ·) ∧
      ∀ x < g.opCount, ∀ y < g.opCount,
        y ∈ ((g.addBottlenecks stem previous i bins).1.op x).outs ↔ y ∈ (g.op x).outs := by
  induction bins generalizing g previous i with
  | nil => simp [addBottlenecks]
  | cons bin rest ih =>
    cases rest with
    | nil => simp [addBottlenecks]
    | cons next bins =>
      obtain ⟨hbin, hrest⟩ := List.forall_mem_cons.mp hb
      obtain ⟨hnext, -⟩ := List.forall_mem_cons.mp hrest
      obtain ⟨name, he⟩ := addBottlenecks_cons g stem previous i bin next bins
      have hcount := opCount_addBottleneck g previous bin next name
      have hneck : ∀ a ∈ some g.opCount, a < (g.addBottleneck previous bin next name).opCount := by
        simp [hcount]
      obtain ⟨hc, hnecks, hold⟩ := ih (i := i + 1) hneck fun later hm a ha =>
        hcount ▸ Nat.lt_succ_of_lt (hrest later hm a ha)
      simp only [List.length_cons, Nat.add_sub_cancel, hcount] at hc hnecks ⊢
      rw [he]
      refine ⟨by rw [hc]; omega, ?_, fun x hx y hy => ?_⟩
      · rw [hnecks, List.range_succ_eq_map, List.map_cons, List.map_map]
        simp [Function.comp_def, Nat.add_assoc, Nat.add_comm 1]
      · rw [hold x (by omega) y (by omega), mem_outs_addBottleneck hp hbin hnext]
        refine or_iff_right ?_
        omega

theorem divides_iff_topological (h : bins.length ≤ 1) :
    g.Divides previous bins order ↔ g.edges.Topological order := by
  refine ⟨fun hd => hd.topological, fun ht => ⟨ht, ?_, ?_⟩⟩
  · exact List.pairwise_iff_getElem.mpr fun i j hi hj hij => by omega
  · have htail : bins.tail = [] := List.eq_nil_of_length_eq_zero (by rw [List.length_tail]; omega)
    simp [htail]

theorem topological_iff_exists : g.edges.Topological order ↔
    ∃ longer, g.edges.Topological longer ∧ longer.filter (· < g.opCount) = order := by
  constructor
  · intro ht
    exact ⟨order, ht, filter_lt_of_perm_range (g.size_edges ▸ ht.perm)⟩
  · rintro ⟨longer, ht, rfl⟩
    rwa [filter_lt_of_perm_range (g.size_edges ▸ ht.perm)]

/-- The bins are in order exactly when all bottlenecks fit between them. -/
theorem divides_iff [Weight W] (hg : g.Built) (hp : ∀ a ∈ previous, a < g.opCount)
    (hb : ∀ bin ∈ bins, ∀ a ∈ bin, a < g.opCount) : g.Divides previous bins order ↔
      ∃ longer, (g.addBottlenecks stem previous i bins).1.edges.Topological longer ∧
        longer.filter (· < g.opCount) = order := by
  induction bins generalizing g previous i order with
  | nil => exact (divides_iff_topological (by simp)).trans topological_iff_exists
  | cons bin rest ih =>
    cases rest with
    | nil => exact (divides_iff_topological (by simp)).trans topological_iff_exists
    | cons next bins =>
      obtain ⟨hbin, hrest⟩ := List.forall_mem_cons.mp hb
      obtain ⟨hnext, hbins⟩ := List.forall_mem_cons.mp hrest
      obtain ⟨name, he⟩ := addBottlenecks_cons g stem previous i bin next bins
      have hcount := opCount_addBottleneck g previous bin next name
      have hk := hg.addBottleneck hp hbin hnext name
      have hrest' : ∀ later ∈ next :: bins, ∀ a ∈ later,
          a < (g.addBottleneck previous bin next name).opCount := fun later hm a ha =>
        hcount ▸ Nat.lt_succ_of_lt (hrest later hm a ha)
      have hneck : ∀ a ∈ some g.opCount, a < (g.addBottleneck previous bin next name).opCount := by
        simp [hcount]
      have hrestrict := filter_lt_filter_lt (Nat.le_of_lt (hneck _ rfl))
      rw [he]
      constructor
      · intro h
        obtain ⟨longer, hd, rfl⟩ := h.exists_longer hp hbin hnext hbins hg.wellFormed.toOrdered
        obtain ⟨longest, ht, rfl⟩ := (ih hk hneck hrest').mp hd
        exact ⟨longest, ht, (hrestrict longest).symm⟩
      · rintro ⟨longest, ht, rfl⟩
        rw [← hrestrict]
        have hd := (ih hk hneck hrest').mpr ⟨longest, ht, rfl⟩
        exact hd.filter hp hbin hnext hbins hg.wellFormed.toOrdered

/-- Bottlenecks stand for the constraints between all Ops of different bins. The orders that keep
the constraints of a graph and have its bins one after the other are those that remain of the
topological orders with bottlenecks when these are left out. One bottleneck is added between every
two bins, and nothing changes between the other Ops. Bins may be empty, share Ops and repeat them. -/
theorem separateBins_exact [Weight W] (hg : g.Built)
    (hb : ∀ bin ∈ bins, ∀ a ∈ bin, a < g.opCount) (stem : String) : ∃ h,
    g.separateBins bins stem = .ok (h, (List.range (bins.length - 1)).map (g.opCount + ·)) ∧
      h.opCount = g.opCount + (bins.length - 1) ∧
      (∀ x < g.opCount, ∀ y < g.opCount, y ∈ (h.op x).outs ↔ y ∈ (g.op x).outs) ∧
      ∀ order, g.edges.Topological order ∧ Separated bins order ↔
        ∃ longer, h.edges.Topological longer ∧ longer.filter (· < g.opCount) = order := by
  have hnone : ∀ a ∈ (none : Option Nat), a < g.opCount := by simp
  obtain ⟨hcount, hnecks, hold⟩ := addBottlenecks_adds stem (i := 0) hnone hb
  refine ⟨(g.addBottlenecks stem none 0 bins).1, ?_, hcount, hold, fun order => ?_⟩
  · have hcheck : g.checkOps bins.flatten = .ok () := by
      rw [checkOps_eq_ok]
      intro a ha
      obtain ⟨bin, hm, ha⟩ := List.mem_flatten.mp ha
      exact hb bin hm a ha
    rw [separateBins, seq_eq_ok, pure_eq_ok]
    exact ⟨hcheck, Prod.ext rfl hnecks⟩
  · rw [← divides_iff hg hnone hb]
    exact ⟨fun h => ⟨h.1, h.2, by simp⟩, fun h => ⟨h.topological, h.separated⟩⟩

open Numbers in
/-- With three bins, the middle one empty and an Op twice in the last, two bottlenecks keep the first
Op of the second chain behind the last Op of the first chain. -/
theorem twoChains_separateBins : ∃ h,
    twoChains.separateBins [[1], [], [2, 2]] "bin" = .ok (h, [4, 5]) ∧
      (∃ longer, h.edges.Topological longer ∧ longer.filter (· < 4) = [0, 1, 2, 3]) ∧
      ¬ ∃ longer, h.edges.Topological longer ∧ longer.filter (· < 4) = [2, 3, 0, 1] := by
  have hbins : ∀ bin ∈ [[1], [], [2, 2]], ∀ a ∈ bin, a < twoChains.opCount := by decide
  obtain ⟨h, hok, -, -, horders⟩ := separateBins_exact twoChains_built hbins "bin"
  refine ⟨h, hok, (horders _).mp ⟨by decide +kernel, by decide⟩, fun hl => ?_⟩
  have hsep := ((horders _).mpr hl).2
  exact absurd hsep (by decide)

end Graph

end Liveness
