/-!
# Sums over lists

Sizes and potentials are sums of numbers that are given for the members of a list.
-/

namespace SequentCalculus

variable {α β : Type} {f : α → Nat}

/-- The sum of the numbers that `f` gives for the members of a list. -/
def sumBy (f : α → Nat) : List α → Nat
  | [] => 0
  | x :: xs => f x + sumBy f xs

@[simp] theorem sumBy_nil : sumBy f [] = 0 := rfl

@[simp] theorem sumBy_cons {x : α} {xs : List α} : sumBy f (x :: xs) = f x + sumBy f xs := rfl

@[simp] theorem sumBy_append {xs ys : List α} : sumBy f (xs ++ ys) = sumBy f xs + sumBy f ys := by
  induction xs with
  | nil => simp
  | cons x xs ih =>
    rw [List.cons_append, sumBy_cons, sumBy_cons, ih]
    omega

/-- The order of the members does not matter. -/
theorem sumBy_perm (f : α → Nat) {xs ys : List α} (h : xs.Perm ys) : sumBy f xs = sumBy f ys := by
  induction h with
  | nil => rfl
  | cons x _ ih => rw [sumBy_cons, sumBy_cons, ih]
  | swap x y xs =>
    simp only [sumBy_cons]
    omega
  | trans _ _ ih₁ ih₂ => exact ih₁.trans ih₂

theorem sumBy_map (g : β → α) (xs : List β) : sumBy f (xs.map g) = sumBy (fun x => f (g x)) xs := by
  induction xs with
  | nil => rfl
  | cons x xs ih => rw [List.map_cons, sumBy_cons, sumBy_cons, ih]

theorem length_le_sumBy {xs : List α} (h : ∀ x ∈ xs, 0 < f x) : xs.length ≤ sumBy f xs := by
  induction xs with
  | nil => exact Nat.le_refl _
  | cons x xs ih =>
    have hx := h x (by simp)
    have hxs := ih fun y hy => h y (by simp [hy])
    rw [List.length_cons, sumBy_cons]
    omega

end SequentCalculus
