/-! # Writing many entries of an array

A fold that writes entries one after the other leaves all other entries alone. Where
all writes to an entry agree, that entry holds what they write.
-/

namespace Liveness.Writes

variable {α ι : Type}

def writeAll (key : ι → Nat) (value : ι → α) (xs : Array α) (items : List ι) : Array α :=
  items.foldl (fun xs y => xs.setIfInBounds (key y) (value y)) xs

variable {key : ι → Nat} {value : ι → α} {i : Nat}

theorem writeAll_cons (xs : Array α) (y : ι) (ys : List ι) :
    writeAll key value xs (y :: ys) =
      writeAll key value (xs.setIfInBounds (key y) (value y)) ys := rfl

@[simp]
theorem size_writeAll (xs : Array α) (items : List ι) :
    (writeAll key value xs items).size = xs.size := by
  induction items generalizing xs with
  | nil => rfl
  | cons y ys ih => rw [writeAll_cons, ih, Array.size_setIfInBounds]

theorem getElem?_writeAll_of_ne {xs : Array α} {items : List ι} (h : ∀ y ∈ items, key y ≠ i) :
    (writeAll key value xs items)[i]? = xs[i]? := by
  induction items generalizing xs with
  | nil => rfl
  | cons y ys ih =>
    rw [writeAll_cons, ih fun z hz => h z (List.mem_cons_of_mem _ hz)]
    exact Array.getElem?_setIfInBounds_ne (h y List.mem_cons_self)

theorem getElem?_writeAll_of_mem {xs : Array α} {items : List ι} {v : α} (hi : i < xs.size)
    (hm : ∃ y ∈ items, key y = i) (hv : ∀ y ∈ items, key y = i → value y = v) :
    (writeAll key value xs items)[i]? = some v := by
  induction items generalizing xs with
  | nil => simp at hm
  | cons y ys ih =>
    rw [writeAll_cons]
    have hv' : ∀ z ∈ ys, key z = i → value z = v := fun z hz => hv z (List.mem_cons_of_mem _ hz)
    by_cases hys : ∃ z ∈ ys, key z = i
    · exact ih (by simpa using hi) hys hv'
    · have hy : key y = i := by
        obtain ⟨z, hz, he⟩ := hm
        rcases List.mem_cons.mp hz with rfl | hz
        · exact he
        · exact absurd ⟨z, hz, he⟩ hys
      have hne : ∀ z ∈ ys, key z ≠ i := fun z hz he => hys ⟨z, hz, he⟩
      rw [getElem?_writeAll_of_ne hne, hy, hv y List.mem_cons_self hy,
        Array.getElem?_setIfInBounds_self_of_lt hi]

/-- Bringing entries up to date from a function of the index leaves no entry behind that
was up to date or is on the list. -/
theorem writeAll_eq_of_forall {f : Nat → α} {xs ys : Array α} {items : List Nat}
    (hs : xs.size = ys.size) (hf : ∀ i (h : i < ys.size), ys[i] = f i)
    (hx : ∀ i (h : i < xs.size), i ∉ items → xs[i] = f i) :
    writeAll id f xs items = ys := by
  refine Array.ext (by simpa using hs) fun i hi hi' => ?_
  have hlt : i < xs.size := by simpa using hi
  rw [hf i hi']
  refine Option.some.inj ?_
  rw [← Array.getElem?_eq_getElem hi]
  by_cases hm : i ∈ items
  · refine getElem?_writeAll_of_mem hlt ⟨i, hm, rfl⟩ fun j _ he => ?_
    exact congrArg f he
  · have hne : ∀ j ∈ items, id j ≠ i := by
      rintro j hj rfl
      exact hm hj
    rw [getElem?_writeAll_of_ne hne, Array.getElem?_eq_getElem hlt, hx i hlt hm]

end Liveness.Writes
