/-! # Ascending lists

Sets of addresses are kept as strictly ascending lists, and schedule indices as
ascending lists in which a value may repeat.
-/

namespace Liveness.Ascending

/-- Add an element to a strictly ascending list; an element already there stays single. -/
def insert (x : Nat) : List Nat → List Nat
  | [] => [x]
  | y :: ys => if x < y then x :: y :: ys else if x = y then y :: ys else y :: insert x ys

/-- The distinct elements of a list in ascending order. -/
def ofList (xs : List Nat) : List Nat := xs.foldr insert []

/-- Put an element in front of the first one that is not smaller. -/
def place (x : Nat) : List Nat → List Nat
  | [] => [x]
  | y :: ys => if x ≤ y then x :: y :: ys else y :: place x ys

/-- The elements of a list in ascending order, repeated ones included. -/
def sort (xs : List Nat) : List Nat := xs.foldr place []

@[simp]
theorem mem_insert {a x : Nat} {ys : List Nat} : a ∈ insert x ys ↔ a = x ∨ a ∈ ys := by
  induction ys with
  | nil => simp [insert]
  | cons y ys ih => grind [insert]

@[simp]
theorem mem_ofList {a : Nat} {xs : List Nat} : a ∈ ofList xs ↔ a ∈ xs := by
  induction xs with
  | nil => simp [ofList]
  | cons x xs ih =>
    rw [ofList, List.foldr_cons, mem_insert, List.mem_cons, ← ih]
    rfl

@[simp]
theorem mem_place {a x : Nat} {ys : List Nat} : a ∈ place x ys ↔ a = x ∨ a ∈ ys := by
  induction ys with
  | nil => simp [place]
  | cons y ys ih => grind [place]

@[simp]
theorem mem_sort {a : Nat} {xs : List Nat} : a ∈ sort xs ↔ a ∈ xs := by
  induction xs with
  | nil => simp [sort]
  | cons x xs ih =>
    rw [sort, List.foldr_cons, mem_place, List.mem_cons, ← ih]
    rfl

end Liveness.Ascending
