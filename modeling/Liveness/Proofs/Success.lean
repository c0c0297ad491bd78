/-! # Steps that succeed

A computation that may fail succeeds when each of its steps does, and it fails as one of its
steps does. A fold of such steps keeps what every single step keeps.
-/

namespace Liveness.Success

variable {ε α β σ : Type}

theorem bind_eq_ok {x : Except ε α} {f : α → Except ε β} {b : β} :
    x >>= f = .ok b ↔ ∃ a, x = .ok a ∧ f a = .ok b := by
  cases x with
  | error e => simp [bind, Except.bind]
  | ok a => simp [bind, Except.bind]

theorem seq_eq_ok {x : Except ε Unit} {y : Except ε β} {b : β} :
    (x >>= fun _ => y) = .ok b ↔ x = .ok () ∧ y = .ok b := by
  cases x with
  | error e => simp [bind, Except.bind]
  | ok a => simp [bind, Except.bind]

theorem map_eq_ok {x : Except ε α} {f : α → β} {b : β} :
    x.map f = .ok b ↔ ∃ a, x = .ok a ∧ f a = b := by
  cases x with
  | error e => simp [Except.map]
  | ok a => simp [Except.map]

theorem bind_congr_ok {x : Except ε α} {f g : α → Except ε β} (h : ∀ a, x = .ok a → f a = g a) :
    x >>= f = x >>= g := by
  cases x with
  | error e => rfl
  | ok a => exact h a rfl

theorem pure_eq_ok {a b : α} : (pure a : Except ε α) = .ok b ↔ a = b := by
  simp [pure, Except.pure]

theorem throw_eq_ok {e : ε} {a : α} : (throw e : Except ε α) = .ok a ↔ False := by
  simp [throw, throwThe, MonadExceptOf.throw]

theorem throwIf_eq_ok {p : Prop} [Decidable p] {e : ε} {y : Except ε β} {b : β} :
    (if p then throw e else y) = .ok b ↔ ¬ p ∧ y = .ok b := by
  by_cases hp : p
  · simp [hp, throw_eq_ok]
  · simp [hp]

theorem throwIf_bind_eq_ok {p : Prop} [Decidable p] {e : ε} {f : α → Except ε β} {y : Except ε β}
    {b : β} : (if p then throw e >>= f else y) = .ok b ↔ ¬ p ∧ y = .ok b :=
  throwIf_eq_ok (p := p) (e := e)

theorem forM_eq_ok {f : α → Except ε Unit} {xs : List α} :
    xs.forM f = .ok () ↔ ∀ x ∈ xs, f x = .ok () := by
  induction xs with
  | nil => simp [pure_eq_ok]
  | cons x xs ih =>
    have hc : (x :: xs).forM f = f x >>= fun _ => xs.forM f := rfl
    rw [hc, seq_eq_ok, ih]
    simp

theorem foldlM_keeps {f : σ → α → Except ε σ} {P : σ → Prop} {xs : List α} {s t : σ}
    (hs : P s) (hf : ∀ x ∈ xs, ∀ s t, P s → f s x = .ok t → P t)
    (h : xs.foldlM f s = .ok t) : P t := by
  induction xs generalizing s with
  | nil =>
    obtain rfl := pure_eq_ok.mp h
    exact hs
  | cons x xs ih =>
    rw [List.foldlM_cons, bind_eq_ok] at h
    obtain ⟨u, hu, h⟩ := h
    refine ih (hf x List.mem_cons_self s u hs hu) (fun y hy => ?_) h
    exact hf y (List.mem_cons_of_mem x hy)

theorem foldlM_forall {f : σ → α → Except ε σ} {P : σ → Prop} {Q : α → Prop} {xs : List α}
    {s t : σ} (hs : P s) (hf : ∀ x ∈ xs, ∀ s t, P s → f s x = .ok t → P t ∧ Q x)
    (h : xs.foldlM f s = .ok t) : ∀ x ∈ xs, Q x := by
  induction xs generalizing s with
  | nil => simp
  | cons x xs ih =>
    rw [List.foldlM_cons, bind_eq_ok] at h
    obtain ⟨u, hu, h⟩ := h
    obtain ⟨hu, hx⟩ := hf x List.mem_cons_self s u hs hu
    exact List.forall_mem_cons.mpr
      ⟨hx, ih hu (fun y hy => hf y (List.mem_cons_of_mem x hy)) h⟩

theorem mapM_eq_some {f : α → Option β} {g : α → β} {xs : List α}
    (h : ∀ x ∈ xs, f x = some (g x)) : xs.mapM f = some (xs.map g) := by
  induction xs with
  | nil => rfl
  | cons x xs ih =>
    rw [List.mapM_cons, h x List.mem_cons_self, ih fun y hy => h y (List.mem_cons_of_mem x hy)]
    rfl

section Outcome

variable {P : α → Prop} {Q : β → Prop} {E F : ε → Prop} {x : Except ε α}

/-- What a computation gives has one property, and what it fails with has another. -/
def Outcome (P : α → Prop) (E : ε → Prop) : Except ε α → Prop
  | .ok a => P a
  | .error e => E e

namespace Outcome

theorem of_succeeds (h : ∃ a, x = .ok a ∧ P a) : Outcome P E x := by
  obtain ⟨a, rfl, ha⟩ := h
  exact ha

theorem cases (h : Outcome P E x) : (∃ a, x = .ok a ∧ P a) ∨ ∃ e, x = .error e ∧ E e := by
  cases x with
  | ok a => exact .inl ⟨a, rfl, h⟩
  | error e => exact .inr ⟨e, rfl, h⟩

theorem succeeds (h : Outcome P E x) (hE : ∀ e, ¬ E e) : ∃ a, x = .ok a ∧ P a :=
  h.cases.resolve_right fun ⟨e, _, he⟩ => hE e he

theorem mono (h : Outcome P E x) {P' : α → Prop} (hP : ∀ a, x = .ok a → P a → P' a)
    (hE : ∀ e, E e → F e) : Outcome P' F x := by
  cases x with
  | ok a => exact hP a rfl h
  | error e => exact hE e h

theorem map {f : α → β} (h : Outcome (fun a => Q (f a)) E x) : Outcome Q E (x.map f) := by
  cases x with
  | error e => exact h
  | ok a => exact h

theorem bind (h : Outcome P E x) {f : α → Except ε β}
    (hf : ∀ a, x = .ok a → P a → Outcome Q E (f a)) : Outcome Q E (x >>= f) := by
  cases x with
  | ok a => exact hf a rfl h
  | error e => exact h

theorem foldlM {f : σ → α → Except ε σ} {P : σ → Prop} {xs : List α} {s : σ} (hs : P s)
    (hf : ∀ x ∈ xs, ∀ s, P s → Outcome P E (f s x)) : Outcome P E (xs.foldlM f s) := by
  induction xs generalizing s with
  | nil => exact hs
  | cons x xs ih =>
    rw [List.foldlM_cons]
    apply (hf x List.mem_cons_self s hs).bind
    intro t _ ht
    exact ih ht fun y hy => hf y (List.mem_cons_of_mem x hy)

end Outcome

theorem foldlM_succeeds {f : σ → α → Except ε σ} {P : σ → Prop} {xs : List α} {s : σ} (hs : P s)
    (hf : ∀ x ∈ xs, ∀ s, P s → ∃ t, f s x = .ok t ∧ P t) : ∃ t, xs.foldlM f s = .ok t ∧ P t := by
  have h : Outcome P (fun _ => False) (xs.foldlM f s) :=
    .foldlM hs fun x hx s hs => .of_succeeds (hf x hx s hs)
  exact h.succeeds fun _ => id

end Outcome

/-- A fold whose steps each bring about something that all of them keep brings it all about. -/
theorem foldlM_settles {f : σ → α → Except ε σ} {P : σ → Prop} {Q : α → σ → Prop} {xs : List α}
    {s : σ} (hs : P s) (hf : ∀ x ∈ xs, ∀ s, P s →
      ∃ t, f s x = .ok t ∧ P t ∧ Q x t ∧ ∀ y ∈ xs, Q y s → Q y t) :
    ∃ t, xs.foldlM f s = .ok t ∧ P t ∧ (∀ x ∈ xs, Q x t) := by
  suffices h : ∀ ys ⊆ xs, ∀ s, P s → ∃ t, ys.foldlM f s = .ok t ∧ P t ∧ (∀ x ∈ ys, Q x t) ∧
      ∀ x ∈ xs, Q x s → Q x t by
    obtain ⟨t, ht, hP, hQ, -⟩ := h xs (List.Subset.refl xs) s hs
    exact ⟨t, ht, hP, hQ⟩
  intro ys hys
  induction ys with
  | nil => exact fun s hs => ⟨s, rfl, hs, nofun, fun _ _ => id⟩
  | cons y ys ih =>
    intro s hs
    obtain ⟨hy, hys⟩ := List.cons_subset.mp hys
    obtain ⟨u, hu, hPu, hQu, hkeep⟩ := hf y hy s hs
    obtain ⟨t, ht, hPt, hQt, hkeep'⟩ := ih hys u hPu
    refine ⟨t, ?_, hPt, List.forall_mem_cons.mpr ⟨hkeep' y hy hQu, hQt⟩, fun x hx hQ =>
      hkeep' x hx (hkeep x hx hQ)⟩
    rw [List.foldlM_cons, hu]
    exact ht

theorem foldlM_eq_self {f : σ → α → Except ε σ} {xs : List α} {s : σ}
    (hf : ∀ x ∈ xs, f s x = .ok s) : xs.foldlM f s = .ok s := by
  induction xs with
  | nil => rfl
  | cons x xs ih =>
    rw [List.foldlM_cons, hf x List.mem_cons_self]
    exact ih fun y hy => hf y (List.mem_cons_of_mem x hy)

theorem foldlM_congr {f g : σ → α → Except ε σ} {P : σ → Prop} {xs : List α} {s : σ} (hs : P s)
    (hf : ∀ x ∈ xs, ∀ s, P s → f s x = g s x)
    (hk : ∀ x ∈ xs, ∀ s t, P s → f s x = .ok t → P t) : xs.foldlM f s = xs.foldlM g s := by
  induction xs generalizing s with
  | nil => rfl
  | cons x xs ih =>
    rw [List.foldlM_cons, List.foldlM_cons, ← hf x List.mem_cons_self s hs]
    refine bind_congr_ok fun t ht => ih (hk x List.mem_cons_self s t hs ht) ?_ ?_
    · exact fun y hy => hf y (List.mem_cons_of_mem x hy)
    · exact fun y hy => hk y (List.mem_cons_of_mem x hy)

end Liveness.Success
