import Mathlib

/-! Singly linked lists in a table of links.

`next` gives each cell's successor and `nil` ends a list. `Linked next nil a l`
says that the list starting at `a` runs through exactly the cells of `l`. -/

/-- The cells from `a` on are those of `l`, in order. -/
def Linked {α : Type} (next : α → α) (nil : α) : α → List α → Prop
  | a, [] => a = nil
  | a, x :: xs => a = x ∧ a ≠ nil ∧ Linked next nil (next a) xs

namespace Linked
variable {α : Type} {next next' : α → α} {nil a : α} {l : List α}

theorem head_eq {x : α} {xs : List α} (h : Linked next nil a (x :: xs)) : a = x := h.1

/-- A list that starts at its end has no cells. -/
theorem eq_nil (h : Linked next nil nil l) : l = [] := by
  cases l with
  | nil => rfl
  | cons y ys => exact absurd rfl h.2.1

/-- Only the links of the cells themselves matter. -/
theorem congr (h : Linked next nil a l) (he : ∀ x, x ∈ l → next' x = next x) : Linked next' nil a l := by
  induction l generalizing a with
  | nil => exact h
  | cons y ys ih =>
    obtain ⟨rfl, hne, htail⟩ := h
    refine ⟨rfl, hne, ?_⟩
    rw [he a List.mem_cons_self]
    exact ih htail fun x hx => he x (List.mem_cons_of_mem _ hx)

/-- A list is determined by where it starts. -/
theorem unique {l' : List α} (h : Linked next nil a l) (h' : Linked next nil a l') : l = l' := by
  induction l generalizing a l' with
  | nil =>
    cases l' with
    | nil => rfl
    | cons y ys => exact absurd h h'.2.1
  | cons x xs ih =>
    cases l' with
    | nil => exact absurd h' h.2.1
    | cons y ys =>
      obtain ⟨rfl, -, ht⟩ := h
      obtain ⟨rfl, -, ht'⟩ := h'
      rw [ih ht ht']

/-- From any of its cells on, a list runs through what follows that cell. -/
theorem suffix {xs ys : List α} {x : α} (h : Linked next nil a (xs ++ x :: ys)) :
    Linked next nil x (x :: ys) := by
  induction xs generalizing a with
  | nil =>
    obtain ⟨rfl, hne, ht⟩ := h
    exact ⟨rfl, hne, ht⟩
  | cons z zs ih => exact ih h.2.2

/-- Every cell but the first is linked to from another. -/
theorem pred {x : α} (h : Linked next nil a l) (hx : x ∈ l) : x = a ∨ ∃ y, y ∈ l ∧ next y = x := by
  induction l generalizing a with
  | nil => cases hx
  | cons y ys ih =>
    obtain ⟨rfl, -, ht⟩ := h
    rcases List.mem_cons.mp hx with rfl | hmem
    · exact .inl rfl
    · rcases ih ht hmem with rfl | ⟨z, hz, he⟩
      · exact .inr ⟨a, List.mem_cons_self, rfl⟩
      · exact .inr ⟨z, List.mem_cons_of_mem _ hz, he⟩

/-- A cell linked in after `x`. -/
theorem splice {xs ys : List α} {x c : α} (h : Linked next nil a (xs ++ x :: ys))
    (hnd : (xs ++ x :: ys).Nodup) (hx : next' x = c) (hc : next' c = next x) (hcn : c ≠ nil)
    (he : ∀ y, y ∈ xs ++ x :: ys → y ≠ x → next' y = next y) :
    Linked next' nil a (xs ++ x :: c :: ys) := by
  induction xs generalizing a with
  | nil =>
    obtain ⟨rfl, hne, ht⟩ := h
    obtain ⟨hxy, -⟩ := List.nodup_cons.mp hnd
    have hys : Linked next' nil (next a) ys :=
      ht.congr fun y hy => he y (List.mem_cons_of_mem _ hy) fun h => hxy (h ▸ hy)
    refine ⟨rfl, hne, ?_⟩
    rw [hx]
    exact ⟨rfl, hcn, hc ▸ hys⟩
  | cons z zs ih =>
    obtain ⟨rfl, hne, ht⟩ := h
    obtain ⟨hz, hnd'⟩ := List.nodup_cons.mp hnd
    have hzx : a ≠ x := by
      rintro rfl
      exact hz (List.mem_append_right _ List.mem_cons_self)
    refine ⟨rfl, hne, ?_⟩
    rw [he a List.mem_cons_self hzx]
    exact ih ht hnd' fun y hy => he y (List.mem_cons_of_mem _ hy)

/-- A list up to one of its cells, and from there on. -/
theorem takeWhile_append [DecidableEq α] {l' : List α} {x : α} (h : Linked next nil a l) (hx : x ∈ l)
    (h' : Linked next nil x l') : l.takeWhile (· ≠ x) ++ l' = l := by
  induction l generalizing a with
  | nil => cases hx
  | cons y ys ih =>
    obtain rfl := h.head_eq
    by_cases hy : a = x
    · subst hy
      rw [List.takeWhile_cons_of_neg (by simp), h.unique h']
      rfl
    · have hmem : x ∈ ys := (List.mem_cons.mp hx).resolve_left fun he => hy he.symm
      rw [List.takeWhile_cons_of_pos (by simpa using hy), List.cons_append, ih h.2.2 hmem]

/-- At most `fuel` cells, as they are linked from `a` on. -/
def follow [DecidableEq α] (next : α → α) (nil : α) : Nat → α → List α
  | 0, _ => []
  | fuel + 1, a => if a = nil then [] else a :: follow next nil fuel (next a)

/-- A list is read off by following its links. -/
theorem follow_eq [DecidableEq α] {fuel : Nat} (h : Linked next nil a l) (hf : l.length ≤ fuel) :
    follow next nil fuel a = l := by
  induction l generalizing a fuel with
  | nil =>
    obtain rfl : a = nil := h
    cases fuel with
    | zero => rfl
    | succ fuel => exact if_pos rfl
  | cons x xs ih =>
    obtain ⟨rfl, hne, ht⟩ := h
    obtain ⟨fuel, rfl⟩ : ∃ n, fuel = n + 1 := ⟨fuel - 1, by rw [List.length_cons] at hf; omega⟩
    rw [follow, if_neg hne, ih ht (by simpa using hf)]

end Linked
