import Mathlib.Algebra.GroupWithZero.Nat
import Liveness.Frontier

/-! # Peeling puts predecessors first

The nodes taken from a frontier are distinct, and every predecessor of a taken node was
taken before it. This holds for any rule that picks among the ready nodes.
-/

namespace Liveness

variable {edges : Edges} {order taken : List Nat} {a b i : Nat}

theorem sum_map_add_of_agree {xs : List Nat} {f f' : Nat → Nat} (hx : xs.Nodup) (ha : a ∈ xs)
    (h : ∀ x, x ≠ a → f x = f' x) : (xs.map f).sum + f' a = (xs.map f').sum + f a := by
  induction xs with
  | nil => cases ha
  | cons x xs ih =>
    obtain ⟨hn, hx⟩ := List.nodup_cons.mp hx
    simp only [List.map_cons, List.sum_cons]
    by_cases he : x = a
    · subst he
      have hm : xs.map f = xs.map f' := List.map_congr_left fun y hy => h y fun he => hn (he ▸ hy)
      rw [hm]
      omega
    · have := ih hx ((List.mem_cons.mp ha).resolve_left (Ne.symm he))
      have := h x he
      omega

theorem nodup_snoc (h : taken.Nodup) (ha : a ∉ taken) : (taken ++ [a]).Nodup :=
  (List.perm_append_singleton a taken).nodup_iff.mpr (List.nodup_cons.mpr ⟨ha, h⟩)

namespace Edges

theorem lt_of_mem_outs (h : b ∈ edges.outs a) : a < edges.size := by
  refine Nat.lt_of_not_le fun hle => ?_
  simp [outs, Array.getD, Nat.not_lt.mpr hle] at h

def InRange (edges : Edges) : Prop := ∀ ⦃a b⦄, b ∈ edges.outs a → b < edges.size

def Closed (edges : Edges) (order : List Nat) : Prop :=
  ∀ l b r, order = l ++ b :: r → ∀ a, b ∈ edges.outs a → a ∈ l

/-- The number of edges into a node from nodes that have not been taken. -/
def pending (edges : Edges) (taken : List Nat) (b : Nat) : Nat :=
  ((List.range edges.size).map fun a => if a ∈ taken then 0 else (edges.outs a).count b).sum

theorem Closed.nil : edges.Closed [] := by
  intro l b r h
  simp at h

theorem Closed.snoc (h : edges.Closed order) (hb : ∀ a, b ∈ edges.outs a → a ∈ order) :
    edges.Closed (order ++ [b]) := by
  intro l c r he a ha
  rcases List.eq_nil_or_concat r with rfl | ⟨r, z, rfl⟩
  · obtain ⟨rfl, hc⟩ := List.append_inj' he rfl
    obtain rfl : b = c := by simpa using hc
    exact hb a ha
  · have he' : order ++ [b] = (l ++ c :: r) ++ [z] := by simpa using he
    exact h l c r (List.append_inj' he' rfl).1 a ha

theorem Closed.idxOf_lt (h : edges.Closed order) (hn : order.Nodup) (hb : b ∈ order)
    (ha : b ∈ edges.outs a) : order.idxOf a < order.idxOf b := by
  obtain ⟨l, r, rfl⟩ := List.append_of_mem hb
  have hal := h l b r rfl a ha
  have hbl : b ∉ l := fun hbl =>
    (List.nodup_append.mp hn).2.2 b hbl b List.mem_cons_self rfl
  rw [List.idxOf_append, List.idxOf_append, if_pos hal, if_neg hbl]
  have := List.idxOf_lt_length_of_mem hal
  omega

theorem pending_snoc (ha : a < edges.size) (hn : a ∉ taken) (b : Nat) :
    edges.pending taken b = edges.pending (taken ++ [a]) b + (edges.outs a).count b := by
  let f (taken : List Nat) (x : Nat) := if x ∈ taken then 0 else (edges.outs x).count b
  have hs : ((List.range edges.size).map (f taken)).sum + f (taken ++ [a]) a =
      ((List.range edges.size).map (f (taken ++ [a]))).sum + f taken a :=
    sum_map_add_of_agree List.nodup_range (List.mem_range.mpr ha) fun x hx => by simp [f, hx]
  have ha' : f (taken ++ [a]) a = 0 := by simp [f]
  have hn' : f taken a = (edges.outs a).count b := if_neg hn
  rwa [ha', hn', Nat.add_zero] at hs

theorem mem_of_pending_eq_zero (h : edges.pending taken b = 0) (ha : b ∈ edges.outs a) :
    a ∈ taken := by
  refine Classical.byContradiction fun hn => ?_
  have := pending_snoc (lt_of_mem_outs ha) hn b
  have := List.count_pos_iff.mpr ha
  omega

theorem getD_foldl_modify {ds : Array Nat} {bs : List Nat} (hb : b < ds.size) :
    (bs.foldl (fun ds b => ds.modify b (· + 1)) ds).getD b 0 = ds.getD b 0 + bs.count b := by
  induction bs generalizing ds with
  | nil => rfl
  | cons c bs ih =>
    rw [List.foldl_cons, ih (by simpa using hb), List.count_cons]
    simp only [Array.getD_eq_getD_getElem?, Array.getElem?_modify]
    by_cases hc : c = b
    · subst hc
      simp [hb]
      omega
    · simp [hc]

theorem size_foldl_modify (ds : Array Nat) (bs : List Nat) :
    (bs.foldl (fun ds b => ds.modify b (· + 1)) ds).size = ds.size := by
  induction bs generalizing ds with
  | nil => rfl
  | cons c bs ih => rw [List.foldl_cons, ih, Array.size_modify]

theorem size_inDegrees (edges : Edges) : edges.inDegrees.size = edges.size := by
  unfold inDegrees
  rw [size_foldl_modify, Array.size_replicate]

theorem inDegrees_eq (hb : b < edges.size) :
    edges.inDegrees.getD b 0 = edges.pending [] b := by
  unfold inDegrees
  rw [getD_foldl_modify (by simpa using hb)]
  have hm : edges.toList.map (fun xs => xs.count b) =
      (List.range edges.size).map fun a => (edges.outs a).count b := by
    refine List.ext_getElem (by simp) fun i hi _ => ?_
    have hi' : i < edges.size := by simpa using hi
    simp [outs, Array.getD, hi']
  simp [pending, List.count_flatten, hm, hb]

end Edges

namespace Frontier

structure Sound (edges : Edges) (taken : List Nat) (f : Frontier) : Prop where
  size : f.waiting.size = edges.size
  nodup : taken.Nodup
  lt : ∀ a ∈ taken, a < edges.size
  closed : edges.Closed taken
  ready_nodup : f.ready.Nodup
  ready : ∀ b ∈ f.ready, b < edges.size ∧ b ∉ taken ∧ f.waiting.getD b 0 = 0
  waiting : ∀ b < edges.size, f.waiting.getD b 0 = edges.pending taken b

theorem start_sound (edges : Edges) : (start edges).Sound edges [] where
  size := Edges.size_inDegrees edges
  nodup := List.nodup_nil
  lt := by simp
  closed := .nil
  ready_nodup := List.nodup_range.filter _
  ready := by
    intro b hb
    simp only [start, List.mem_filter, List.mem_range, beq_iff_eq] at hb
    exact ⟨hb.1, List.not_mem_nil, hb.2⟩
  waiting := fun b hb => Edges.inDegrees_eq hb

theorem waiting_release (f : Frontier) (c b : Nat) : (f.release c).waiting.getD b 0 =
    if b = c then f.waiting.getD c 0 - 1 else f.waiting.getD b 0 := by
  simp only [release, Array.getD_eq_getD_getElem?, Array.getElem?_setIfInBounds]
  by_cases hb : b = c
  · subst hb
    by_cases hs : b < f.waiting.size <;> simp [hs]
  · simp [hb, Ne.symm hb]

theorem mem_ready_release {f : Frontier} {c b : Nat} :
    b ∈ (f.release c).ready ↔ b ∈ f.ready ∨ b = c ∧ f.waiting.getD c 0 - 1 = 0 := by
  unfold release
  dsimp only
  split
  · next hz => rw [List.mem_append, List.mem_singleton, and_iff_left hz]
  · next hz => exact ⟨.inl, fun h => h.resolve_right fun h => hz h.2⟩

theorem nodup_ready_release {f : Frontier} {c : Nat} (hn : f.ready.Nodup) (hc : c ∉ f.ready) :
    (f.release c).ready.Nodup := by
  unfold release
  dsimp only
  split
  · exact nodup_snoc hn hc
  · exact hn

/-- Releasing nodes takes each of them off once, and those without edges left get ready. -/
theorem foldl_release {f : Frontier} {bs : List Nat} {w : Nat → Nat} {P : Nat → Prop} {n : Nat}
    (hs : f.waiting.size = n) (hw : ∀ b < n, f.waiting.getD b 0 = w b + bs.count b)
    (hb : ∀ b ∈ bs, b < n ∧ P b) (hn : f.ready.Nodup)
    (hr : ∀ b ∈ f.ready, b < n ∧ P b ∧ f.waiting.getD b 0 = 0) :
    let f' := bs.foldl release f
    f'.waiting.size = n ∧ (∀ b < n, f'.waiting.getD b 0 = w b) ∧ f'.ready.Nodup ∧
      ∀ b ∈ f'.ready, b < n ∧ P b ∧ f'.waiting.getD b 0 = 0 := by
  induction bs generalizing f with
  | nil => exact ⟨hs, by simpa using hw, hn, hr⟩
  | cons c bs ih =>
    obtain ⟨hc, hP⟩ := hb c List.mem_cons_self
    have hwc := hw c hc
    rw [List.count_cons_self] at hwc
    refine ih (by simp [release, hs]) (fun b hb => ?_) (fun b hm => hb b (List.mem_cons_of_mem c hm))
      (nodup_ready_release hn fun hm => ?_) fun b hm => ?_
    · rw [waiting_release]
      by_cases he : b = c
      · subst he
        rw [if_pos rfl]
        omega
      · rw [if_neg he, hw b hb, List.count_cons_of_ne (Ne.symm he)]
    · have := (hr c hm).2.2
      omega
    · rw [waiting_release]
      rcases mem_ready_release.mp hm with hm | ⟨rfl, hz⟩
      · obtain ⟨hlt, hPb, hz⟩ := hr b hm
        exact ⟨hlt, hPb, by split <;> grind⟩
      · exact ⟨hc, hP, by rw [if_pos rfl, hz]⟩

theorem Sound.take {f : Frontier} (h : f.Sound edges taken) (hr : edges.InRange)
    (ha : f.ready[i]? = some a) : (f.take i (edges.outs a)).Sound edges (taken ++ [a]) := by
  obtain ⟨hi, hget⟩ := List.getElem?_eq_some_iff.mp ha
  have hm : a ∈ f.ready := hget ▸ List.getElem_mem hi
  obtain ⟨hlt, hnt, hz⟩ := h.ready a hm
  have hpreds : ∀ x, a ∈ edges.outs x → x ∈ taken := fun x hx =>
    Edges.mem_of_pending_eq_zero (h.waiting a hlt ▸ hz) hx
  have hfresh : ∀ b ∈ edges.outs a, b ∉ taken ++ [a] := by
    intro b hb hbt
    rcases List.mem_append.mp hbt with hbt | hbt
    · obtain ⟨l, r, rfl⟩ := List.append_of_mem hbt
      exact hnt (List.mem_append_left _ (h.closed l b r rfl a hb))
    · obtain rfl := List.mem_singleton.mp hbt
      exact hnt (hpreds b hb)
  have herase : ∀ b ∈ f.ready.eraseIdx i, b ≠ a := by
    intro b hb
    rintro rfl
    obtain ⟨k, hk, hne, hk'⟩ := List.mem_eraseIdx_iff_getElem.mp hb
    exact hne ((List.getElem_inj h.ready_nodup).mp (hk'.trans hget.symm))
  obtain ⟨hs, hw, hn, hready⟩ := foldl_release (f := ⟨f.ready.eraseIdx i, f.waiting⟩)
    (w := edges.pending (taken ++ [a])) (P := (· ∉ taken ++ [a])) h.size
    (fun b hb => (h.waiting b hb).trans (Edges.pending_snoc hlt hnt b))
    (fun b hb => ⟨hr hb, hfresh b hb⟩) (h.ready_nodup.sublist (List.eraseIdx_sublist _ _))
    fun b hb => by
      obtain ⟨hb', hnb, hzb⟩ := h.ready b (List.mem_of_mem_eraseIdx hb)
      exact ⟨hb', by simp [hnb, herase b hb], hzb⟩
  refine ⟨hs, nodup_snoc h.nodup hnt, fun x hx => ?_, h.closed.snoc hpreds, hn, hready, hw⟩
  rcases List.mem_append.mp hx with hx | hx
  · exact h.lt x hx
  · obtain rfl := List.mem_singleton.mp hx
    exact hlt

end Frontier

section Peel

variable {σ : Type} {choose : Choice σ}

theorem peel_sound (hr : edges.InRange) {steps : Nat} {s : σ} {f : Frontier}
    (h : f.Sound edges taken) :
    let order := taken ++ peel edges choose steps s f
    order.Nodup ∧ (∀ a ∈ order, a < edges.size) ∧ edges.Closed order := by
  induction steps generalizing s f taken with
  | zero => simpa [peel] using ⟨h.nodup, h.lt, h.closed⟩
  | succ steps ih =>
    unfold peel
    split
    · simpa using ⟨h.nodup, h.lt, h.closed⟩
    · dsimp only
      split
      · simpa using ⟨h.nodup, h.lt, h.closed⟩
      · next a ha =>
        have := ih (s := (choose s f.ready).2) (h.take hr ha)
        simpa using this

theorem takeAll_sound (choose : Choice σ) (hr : edges.InRange) (s : σ) :
    (takeAll edges choose s).Nodup ∧ (∀ a ∈ takeAll edges choose s, a < edges.size) ∧
      edges.Closed (takeAll edges choose s) := by
  unfold takeAll
  simpa using peel_sound hr (Frontier.start_sound edges)

theorem topologicalOrder_sound (hr : edges.InRange) :
    edges.topologicalOrder.Nodup ∧ (∀ a ∈ edges.topologicalOrder, a < edges.size) ∧
      edges.Closed edges.topologicalOrder :=
  takeAll_sound _ hr ()

end Peel

end Liveness
