/-!
# Ascending lists

The imports of a file and the objects of a package are kept in ascending order of their names, each
name once. `insert` puts an element at its place and drops the element that was there before under
the same name. Names are ordered by their code points.
-/

namespace Multicast.Ascending

variable {α : Type} (key : α → String)

/-- In ascending order of keys, and therefore with each key once. -/
def Sorted (xs : List α) : Prop :=
  xs.Pairwise fun x y => key x < key y

/-- Puts an element at its place. An element with the same key makes way for it. -/
def insert (x : α) : List α → List α
  | [] => [x]
  | y :: ys =>
    if key x < key y then x :: y :: ys
    else if key x = key y then x :: ys
    else y :: insert x ys

/-- The elements of a list in ascending order. Of those with one key the last is kept. -/
def ofList (xs : List α) : List α :=
  xs.foldl (fun ys x => insert key x ys) []

variable {key}

theorem eq_or_mem_of_mem_insert {x z : α} {xs : List α} (h : z ∈ insert key x xs) :
    z = x ∨ z ∈ xs := by
  induction xs with
  | nil => exact Or.inl (by simpa [insert] using h)
  | cons y ys ih =>
    rw [insert] at h
    split at h
    · simpa using h
    · split at h
      · rcases List.mem_cons.1 h with h | h
        · exact Or.inl h
        · exact Or.inr (List.mem_cons_of_mem _ h)
      · rcases List.mem_cons.1 h with h | h
        · exact Or.inr (h ▸ List.mem_cons_self)
        · exact (ih h).imp_right (List.mem_cons_of_mem _)

theorem mem_insert_self (x : α) (xs : List α) : x ∈ insert key x xs := by
  induction xs with
  | nil => simp [insert]
  | cons y ys ih =>
    rw [insert]
    split
    · simp
    · split <;> simp [ih]

/-- Looking up a key after an element was put at its place: under its own key the element is found,
and under any other key what was found before. -/
theorem find?_insert (x : α) (xs : List α) (k : String) :
    (insert key x xs).find? (key · = k) =
      if key x = k then some x else xs.find? (key · = k) := by
  induction xs with
  | nil => by_cases hx : key x = k <;> simp [insert, hx]
  | cons y ys ih =>
    rw [insert]
    by_cases hx : key x = k
    · split
      · simp [hx]
      · split
        · simp [hx]
        next hne =>
          have hy : key y ≠ k := fun hy => hne (hx.trans hy.symm)
          simp [hy, ih, hx]
    · split
      · simp [hx]
      · split
        next heq =>
          have hy : key y ≠ k := heq ▸ hx
          simp [hx, hy]
        · by_cases hy : key y = k <;> simp [hx, hy, ih]

theorem sorted_nil : Sorted key [] := List.Pairwise.nil

/-- Putting an element at its place keeps the order. -/
theorem sorted_insert (x : α) {xs : List α} (h : Sorted key xs) : Sorted key (insert key x xs) := by
  induction xs with
  | nil => simp [Sorted, insert]
  | cons y ys ih =>
    obtain ⟨hy, hys⟩ := List.pairwise_cons.1 h
    rw [insert]
    split
    next hlt =>
      refine List.pairwise_cons.2 ⟨fun z hz => ?_, h⟩
      rcases List.mem_cons.1 hz with rfl | hz
      · exact hlt
      · exact String.lt_trans hlt (hy z hz)
    next hnlt =>
      split
      next heq =>
        exact List.pairwise_cons.2 ⟨fun z hz => heq ▸ hy z hz, hys⟩
      next hne =>
        refine List.pairwise_cons.2 ⟨fun z hz => ?_, ih hys⟩
        rcases eq_or_mem_of_mem_insert hz with rfl | hz
        · exact Decidable.byContradiction fun hge =>
            hne (String.le_antisymm (String.not_lt.1 hge) (String.not_lt.1 hnlt))
        · exact hy z hz

/-- The elements of a list come out in ascending order. -/
theorem sorted_ofList (xs : List α) : Sorted key (ofList key xs) := by
  suffices h : ∀ ys, Sorted key ys → Sorted key (xs.foldl (fun ys x => insert key x ys) ys) from
    h [] sorted_nil
  induction xs with
  | nil => exact fun _ h => h
  | cons x xs ih => exact fun ys h => ih _ (sorted_insert x h)

end Multicast.Ascending
