import Liveness.Proofs.Ascending
import Liveness.Proofs.Peeling

/-! # When nodes get ready

Peeling goes from one state to the next by taking the ready node that the rule picks. In every
state that is reached, the ready nodes are just those that are left and whose predecessors have
been taken, and they stand in the order in which they got ready. Those that got ready in the same
step are ascending.
-/

namespace Liveness

variable {edges : Edges} {taken l r : List Nat} {a b u v i k : Nat} {σ : Type}
  {choose : Choice σ} {s₀ s : σ} {f : Frontier}

namespace Edges

structure Available (edges : Edges) (taken : List Nat) (b : Nat) : Prop where
  lt : b < edges.size
  left : b ∉ taken
  preds : ∀ a, b ∈ edges.outs a → a ∈ taken

/-- The predecessors of the node are among the first `k` nodes that were taken. -/
def ReadyAfter (edges : Edges) (taken : List Nat) (k b : Nat) : Prop :=
  ∀ a, b ∈ edges.outs a → a ∈ taken.take k

/-- A node got ready before another one: in an earlier step, or as the lower one in the same
step. -/
def ReadyBefore (edges : Edges) (taken : List Nat) (u v : Nat) : Prop :=
  (∃ k, edges.ReadyAfter taken k u ∧ ¬ edges.ReadyAfter taken k v) ∨
    (∀ k, edges.ReadyAfter taken k u ↔ edges.ReadyAfter taken k v) ∧ u < v

/-- Whatever is taken later, nodes whose predecessors have been taken got ready when they did. -/
theorem readyAfter_snoc (hp : ∀ a, b ∈ edges.outs a → a ∈ taken) (c : Nat) :
    edges.ReadyAfter (taken ++ [c]) k b ↔ edges.ReadyAfter taken k b := by
  rcases Nat.lt_or_ge taken.length k with hk | hk
  · refine iff_of_true (fun a hab => ?_) fun a hab => ?_
    · rw [List.take_of_length_le (by simp; omega)]
      exact List.mem_append_left _ (hp a hab)
    · rw [List.take_of_length_le (Nat.le_of_lt hk)]
      exact hp a hab
  · unfold ReadyAfter
    rw [List.take_append_of_le_length hk]

theorem readyAfter_snoc_of_mem (hp : ∀ x, b ∈ edges.outs x → x ∈ taken ++ [a])
    (hab : b ∈ edges.outs a) (ha : a ∉ taken) :
    edges.ReadyAfter (taken ++ [a]) k b ↔ taken.length < k := by
  constructor
  · intro h
    refine Nat.lt_of_not_le fun hk => ha ?_
    have hm := h a hab
    rw [List.take_append_of_le_length hk] at hm
    exact List.mem_of_mem_take hm
  · intro hk x hx
    rw [List.take_of_length_le (by simp; omega)]
    exact hp x hx

theorem Available.readyBefore_snoc (hu : edges.Available taken u) (hv : edges.Available taken v)
    (c : Nat) : edges.ReadyBefore (taken ++ [c]) u v ↔ edges.ReadyBefore taken u v := by
  simp only [ReadyBefore, readyAfter_snoc hu.preds, readyAfter_snoc hv.preds]

end Edges

namespace Frontier

theorem ready_foldl_release {bs : List Nat} (hn : bs.Nodup) : (bs.foldl release f).ready =
    f.ready ++ bs.filter fun b => f.waiting.getD b 0 ≤ 1 := by
  induction bs generalizing f with
  | nil => simp
  | cons c bs ih =>
    obtain ⟨hc, hn⟩ := List.nodup_cons.mp hn
    have hkept : (bs.filter fun b => (f.release c).waiting.getD b 0 ≤ 1) =
        bs.filter fun b => f.waiting.getD b 0 ≤ 1 := by
      refine List.filter_congr fun b hb => ?_
      rw [waiting_release, if_neg fun he : b = c => hc (he ▸ hb)]
    rw [List.foldl_cons, ih hn, hkept, List.filter_cons]
    simp only [release, decide_eq_true_eq]
    by_cases hle : f.waiting.getD c 0 ≤ 1
    · rw [if_pos hle, if_pos (Nat.sub_eq_zero_of_le hle), List.append_assoc, List.singleton_append]
    · rw [if_neg hle, if_neg (by omega)]

theorem Sound.available_iff (h : f.Sound edges taken) (hc : f.Complete edges taken) :
    b ∈ f.ready ↔ edges.Available taken b := by
  constructor
  · intro hb
    obtain ⟨hlt, hn, hz⟩ := h.ready b hb
    exact ⟨hlt, hn, fun a ha => Edges.mem_of_pending_eq_zero (h.waiting b hlt ▸ hz) ha⟩
  · rintro ⟨hlt, hn, hp⟩
    exact hc b hlt hn ((h.waiting b hlt).trans (Edges.pending_eq_zero hp))

def Aged (edges : Edges) (taken : List Nat) (f : Frontier) : Prop :=
  f.ready.Pairwise (edges.ReadyBefore taken)

theorem start_aged (edges : Edges) : (start edges).Aged edges [] := by
  have hsorted : (start edges).ready.Pairwise (· < ·) := List.pairwise_lt_range.filter _
  refine hsorted.imp_of_mem fun {u v} hu hv huv => .inr ⟨fun k => ?_, huv⟩
  have hnone : ∀ {b}, b ∈ (start edges).ready → edges.ReadyAfter [] k b := fun hb a hab =>
    absurd (((start_sound edges).available_iff (start_complete edges)).mp hb |>.preds a hab)
      List.not_mem_nil
  exact iff_of_true (hnone hu) (hnone hv)

/-- Nodes that get ready come behind those that were ready, in ascending order. -/
theorem Aged.take (h : f.Aged edges taken) (hs : f.Sound edges taken)
    (hc : f.Complete edges taken) (hr : edges.InRange)
    (ho : (edges.outs a).Pairwise (· < ·)) (ha : f.ready[i]? = some a) :
    (f.take i (edges.outs a)).Aged edges (taken ++ [a]) := by
  have hmem := List.mem_of_getElem? ha
  have hleft : a ∉ taken := (hs.ready a hmem).2.1
  have hready : (f.take i (edges.outs a)).ready = f.ready.eraseIdx i ++ (edges.outs a).filter _ :=
    ready_foldl_release (Ascending.nodup_of_pairwise ho)
  have hnew := fun b => (hs.take hr ha).available_iff (hc.take ha (edges.outs a)) (b := b)
  have hold : ∀ {b}, b ∈ f.ready.eraseIdx i → edges.Available taken b := fun hb =>
    (hs.available_iff hc).mp (List.mem_of_mem_eraseIdx hb)
  unfold Aged
  rw [hready] at hnew ⊢
  have hlate : ∀ {b}, b ∈ (edges.outs a).filter (fun b => f.waiting.getD b 0 ≤ 1) →
      ∀ k, edges.ReadyAfter (taken ++ [a]) k b ↔ taken.length < k := fun {b} hb k =>
    Edges.readyAfter_snoc_of_mem ((hnew b).mp (List.mem_append_right _ hb)).preds
      (List.mem_of_mem_filter hb) hleft
  refine List.pairwise_append.mpr ⟨?_, ?_, fun u hu v hv => .inl ⟨taken.length, ?_, ?_⟩⟩
  · have hsub := h.sublist (List.eraseIdx_sublist f.ready i)
    exact hsub.imp_of_mem fun hu hv huv => ((hold hu).readyBefore_snoc (hold hv) a).mpr huv
  · refine (ho.filter _).imp_of_mem fun hu hv huv => .inr ⟨fun k => ?_, huv⟩
    rw [hlate hu, hlate hv]
  · rw [Edges.readyAfter_snoc (hold hu).preds]
    intro x hx
    rw [List.take_length]
    exact (hold hu).preds x hx
  · rw [hlate hv]
    exact Nat.lt_irrefl _

end Frontier

/-- The states that peeling by a rule comes to: what was taken, the state of the rule, and the
frontier. -/
inductive Peels (edges : Edges) (choose : Choice σ) (s₀ : σ) : List Nat → σ → Frontier → Prop
  | start : Peels edges choose s₀ [] s₀ (Frontier.start edges)
  | take {taken : List Nat} {s : σ} {f : Frontier} {a : Nat} (h : Peels edges choose s₀ taken s f)
      (ha : f.ready[(choose s f.ready).1]? = some a) :
      Peels edges choose s₀ (taken ++ [a]) (choose s f.ready).2
        (f.take (choose s f.ready).1 (edges.outs a))

namespace Peels

theorem sound (h : Peels edges choose s₀ taken s f) (hr : edges.InRange) :
    f.Sound edges taken := by
  induction h with
  | start => exact Frontier.start_sound edges
  | take _ ha ih => exact ih.take hr ha

theorem complete (h : Peels edges choose s₀ taken s f) : f.Complete edges taken := by
  induction h with
  | start => exact Frontier.start_complete edges
  | take _ ha ih => exact ih.take ha _

theorem available_iff (h : Peels edges choose s₀ taken s f) (hr : edges.InRange) :
    b ∈ f.ready ↔ edges.Available taken b := (h.sound hr).available_iff h.complete

theorem aged (h : Peels edges choose s₀ taken s f) (hr : edges.InRange)
    (ho : ∀ a, (edges.outs a).Pairwise (· < ·)) : f.Aged edges taken := by
  induction h with
  | start => exact Frontier.start_aged edges
  | take h ha ih => exact ih.take (h.sound hr) h.complete hr (ho _) ha

/-- Before each node that is taken, peeling stands where the rule picks it. -/
theorem of_peel {steps : Nat} (h : Peels edges choose s₀ taken s f)
    (hp : peel edges choose steps s f = l ++ a :: r) : ∃ s' f',
      Peels edges choose s₀ (taken ++ l) s' f' ∧ f'.ready[(choose s' f'.ready).1]? = some a := by
  induction steps generalizing taken s f l with
  | zero => simp [peel] at hp
  | succ steps ih =>
    unfold peel at hp
    split at hp
    · simp at hp
    · dsimp only at hp
      split at hp
      · simp at hp
      · next b hb =>
        cases l with
        | nil =>
          obtain ⟨rfl, -⟩ := List.cons.inj hp
          exact ⟨s, f, by simpa using h, hb⟩
        | cons c l =>
          obtain ⟨rfl, hrest⟩ := List.cons.inj hp
          simpa using ih (h.take hb) hrest

theorem of_takeAll (h : takeAll edges choose s₀ = l ++ a :: r) : ∃ s f,
    Peels edges choose s₀ l s f ∧ f.ready[(choose s f.ready).1]? = some a := by
  simpa using start.of_peel h

end Peels

end Liveness
