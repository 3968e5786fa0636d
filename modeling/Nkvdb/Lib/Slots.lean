import Mathlib

/-! Arrays of a fixed number of slots.

A slot array is a total function on positions; a store past the last slot fails.
The operations are the loops a C program runs over such an array: a store, a
block copy, a fill, and the insertion that swaps the tail up by one. Each has a
pointwise description of what it leaves, and a description of what it does to
the list of the first `n` slots. -/
namespace Slots

variable {α : Type}

/-- Store `x` in slot `i` of an array of `cap` slots. -/
def write (cap i : Nat) (x : α) (a : Nat → α) : Option (Nat → α) :=
  if i < cap then some (Function.update a i x) else none

/-- Exchange slots `i` and `j`. -/
def swap (cap i j : Nat) (a : Nat → α) : Option (Nat → α) := do
  let b ← write cap i (a j) a
  write cap j (a i) b

/-- Copy `n` slots of `src`, from `start` on, to the first slots of `dst`. -/
def copy (cap : Nat) (src : Nat → α) (start : Nat) : Nat → (Nat → α) → Option (Nat → α)
  | 0, dst => some dst
  | n + 1, dst => do
    let dst ← copy cap src start n dst
    write cap n (src (start + n)) dst

/-- Store `x` in the `n` slots from `start` on. -/
def fill (cap : Nat) (x : α) (start : Nat) : Nat → (Nat → α) → Option (Nat → α)
  | 0, a => some a
  | n + 1, a => do
    let a ← fill cap x start n a
    write cap (start + n) x a

/-- Swap slot `i` with its left neighbour, then `i - 1`, down to `pos`. -/
def bubble (cap pos : Nat) : Nat → (Nat → α) → Option (Nat → α)
  | 0, a => some a
  | i + 1, a => if pos < i + 1 then do
      let a ← swap cap (i + 1) i a
      bubble cap pos i a
    else some a

/-- Open a gap at `pos` among the first `sz` slots and store `x` there. -/
def insert (cap sz pos : Nat) (x : α) (a : Nat → α) : Option (Nat → α) := do
  let a ← bubble cap pos (sz - 1) a
  write cap pos x a

/-- The first `n` slots. -/
def live (a : Nat → α) (n : Nat) : List α := (List.range n).map a

/-! ### What each operation leaves -/

theorem write_eq {cap i : Nat} (h : i < cap) (x : α) (a : Nat → α) :
    write cap i x a = some (Function.update a i x) := by
  simp [write, h]

theorem copy_eq (cap : Nat) (src : Nat → α) (start n : Nat) (dst : Nat → α) (h : n ≤ cap) :
    copy cap src start n dst = some (fun j => if j < n then src (start + j) else dst j) := by
  induction n with
  | zero => simp [copy]
  | succ n ih =>
    rw [copy, ih (by omega), Option.bind_eq_bind, Option.bind_some, write_eq (by omega)]
    congr 1
    funext j
    by_cases hj : j = n
    · subst hj
      simp
    · have : j < n + 1 ↔ j < n := by omega
      simp [hj, this]

theorem fill_eq (cap : Nat) (x : α) (start n : Nat) (a : Nat → α) (h : start + n ≤ cap) :
    fill cap x start n a = some (fun j => if start ≤ j ∧ j < start + n then x else a j) := by
  induction n with
  | zero =>
    have : ∀ j, ¬ (start ≤ j ∧ j < start) := by omega
    simp [fill, this]
  | succ n ih =>
    rw [fill, ih (by omega), Option.bind_eq_bind, Option.bind_some, write_eq (by omega)]
    congr 1
    funext j
    by_cases hj : j = start + n
    · subst hj
      simp
    · have : (start ≤ j ∧ j < start + (n + 1)) ↔ (start ≤ j ∧ j < start + n) := by omega
      simp [hj, this]

/-- The bubble moves slot `i` to `pos` and everything between up by one. -/
theorem bubble_eq (cap pos i : Nat) (a : Nat → α) (hi : i < cap) (hp : pos ≤ i) :
    bubble cap pos i a =
      some (fun j => if j = pos then a i else if pos < j ∧ j ≤ i then a (j - 1) else a j) := by
  induction i generalizing a with
  | zero =>
    have h0 : pos = 0 := by omega
    subst h0
    rw [bubble]
    congr 1
    funext j
    by_cases hj : j = 0
    · simp [hj]
    · simp [hj]
  | succ i ih =>
    rw [bubble]
    by_cases hlt : pos < i + 1
    · have hswap : swap cap (i + 1) i a =
          some (Function.update (Function.update a (i + 1) (a i)) i (a (i + 1))) := by
        rw [swap, write_eq (by omega), Option.bind_eq_bind, Option.bind_some, write_eq (by omega)]
      rw [if_pos hlt, hswap, Option.bind_eq_bind, Option.bind_some, ih _ (by omega) (by omega)]
      congr 1
      funext j
      -- the swap put slot `i + 1` at `i`; the rest of the bubble takes it on to `pos`
      by_cases hj : j = pos
      · simp [hj]
      · by_cases hm : pos < j ∧ j ≤ i
        · have h1 : j - 1 ≠ i := by omega
          have h2 : j - 1 ≠ i + 1 := by omega
          have h3 : pos < j ∧ j ≤ i + 1 := by omega
          simp [hj, hm, h1, h2, h3]
        · by_cases hl : j = i + 1
          · have h1 : ¬ i + 1 ≤ i := by omega
            simp [hl, hlt, h1, Nat.ne_of_gt hlt]
          · have h1 : ¬ (pos < j ∧ j ≤ i + 1) := by omega
            have h2 : j ≠ i := by omega
            simp [hj, hm, hl, h1, h2]
    · have he : pos = i + 1 := by omega
      rw [if_neg hlt]
      congr 1
      funext j
      by_cases hj : j = pos
      · simp [hj, he]
      · have : ¬ (pos < j ∧ j ≤ i + 1) := by omega
        simp [hj, this]

/-- What an insertion at `pos` among the first `sz` slots leaves. -/
def inserted (sz pos : Nat) (x : α) (a : Nat → α) : Nat → α :=
  fun j => if j < pos then a j else if j = pos then x else if j < sz then a (j - 1) else a j

theorem insert_eq (cap sz pos : Nat) (x : α) (a : Nat → α) (hs : sz ≤ cap) (hp : pos < sz) :
    insert cap sz pos x a = some (inserted sz pos x a) := by
  rw [insert, bubble_eq cap pos (sz - 1) a (by omega) (by omega), Option.bind_eq_bind,
    Option.bind_some, write_eq (by omega)]
  congr 1
  funext j
  by_cases hj : j = pos
  · simp [inserted, hj]
  · by_cases hlt : j < pos
    · have : ¬ (pos < j ∧ j ≤ sz - 1) := by omega
      simp [inserted, hj, hlt, this]
    · have : (pos < j ∧ j ≤ sz - 1) ↔ j < sz := by omega
      simp [inserted, hj, hlt, this]

@[simp] theorem inserted_self (sz pos : Nat) (x : α) (a : Nat → α) : inserted sz pos x a pos = x := by
  simp [inserted]

theorem inserted_below {sz pos j : Nat} (h : j < pos) (x : α) (a : Nat → α) :
    inserted sz pos x a j = a j := by
  simp [inserted, h]

theorem inserted_above {sz pos j : Nat} (h : pos < j) (hs : j < sz) (x : α) (a : Nat → α) :
    inserted sz pos x a j = a (j - 1) := by
  have h1 : ¬ j < pos := by omega
  have h2 : j ≠ pos := by omega
  simp [inserted, h1, h2, hs]

/-- An insertion past the last used slot is a store. -/
theorem inserted_end (n : Nat) (x : α) (a : Nat → α) :
    inserted (n + 1) n x a = Function.update a n x := by
  funext j
  by_cases hj : j = n
  · simp [hj]
  · have : j < n ∨ ¬ j < n + 1 := by omega
    rcases this with hlt | hge
    · simp [inserted, hj, hlt]
    · have : ¬ j < n := by omega
      simp [inserted, hj, hge, this]

/-- Every old slot of the first `n` is found again after an insertion. -/
theorem inserted_shift {n pos j : Nat} (hj : j < n) (x : α) (a : Nat → α) :
    inserted (n + 1) pos x a (if j < pos then j else j + 1) = a j := by
  by_cases h : j < pos
  · simp [inserted, h]
  · rw [if_neg h, inserted_above (by omega) (by omega)]
    simp

/-- Inserting a new element keeps the slots distinct. -/
theorem inserted_inj {n pos j k : Nat} {x : α} {a : Nat → α} (hp : pos ≤ n)
    (hj : j < n + 1) (hk : k < n + 1)
    (hinj : ∀ i l, i < n → l < n → a i = a l → i = l) (hnew : ∀ i, i < n → a i ≠ x)
    (he : inserted (n + 1) pos x a j = inserted (n + 1) pos x a k) : j = k := by
  unfold inserted at he
  grind

/-! ### The live list -/

@[simp] theorem length_live (a : Nat → α) (n : Nat) : (live a n).length = n := by
  simp [live]

theorem mem_live {a : Nat → α} {n : Nat} {x : α} : x ∈ live a n ↔ ∃ j, j < n ∧ a j = x := by
  simp [live]

theorem live_congr {a b : Nat → α} {n : Nat} (h : ∀ j, j < n → a j = b j) : live a n = live b n := by
  unfold live
  exact List.map_congr_left fun j hj => h j (List.mem_range.mp hj)

theorem live_add (a : Nat → α) (n m : Nat) :
    live a (n + m) = live a n ++ live (fun j => a (n + j)) m := by
  simp [live, List.range_add, Function.comp_def]

/-- An insertion among the first `n` slots adds its element and keeps the others in order. -/
theorem live_inserted (a : Nat → α) (n pos : Nat) (x : α) (h : pos ≤ n) :
    live (inserted (n + 1) pos x a) (n + 1) =
      live a pos ++ x :: live (fun j => a (pos + j)) (n - pos) := by
  have hn : n + 1 = pos + (1 + (n - pos)) := by omega
  have hpre : live (inserted (n + 1) pos x a) pos = live a pos :=
    live_congr fun j hj => inserted_below hj x a
  have hpost : live (fun j => inserted (n + 1) pos x a (pos + (1 + j))) (n - pos) =
      live (fun j => a (pos + j)) (n - pos) :=
    live_congr fun j hj => by
      rw [inserted_above (by omega) (by omega)]
      congr 1
      omega
  conv_lhs => rw [hn, live_add, live_add]
  rw [← hn, hpre, hpost]
  simp [live]

theorem live_split (a : Nat → α) {n pos : Nat} (h : pos ≤ n) :
    live a n = live a pos ++ live (fun j => a (pos + j)) (n - pos) := by
  rw [← live_add]
  congr 1
  omega

theorem live_inserted_perm (a : Nat → α) (n pos : Nat) (x : α) (h : pos ≤ n) :
    (live (inserted (n + 1) pos x a) (n + 1)).Perm (x :: live a n) := by
  rw [live_inserted a n pos x h, live_split a h]
  exact List.perm_middle

/-! ### The first slot that is not below -/

/-- The first of the first `n` slots at which `below` fails, `n` if there is none. -/
def lowerBound (below : α → Bool) (a : Nat → α) (n : Nat) : Nat :=
  (live a n).findIdx fun x => !below x

theorem lowerBound_le (below : α → Bool) (a : Nat → α) (n : Nat) : lowerBound below a n ≤ n := by
  calc lowerBound below a n ≤ (live a n).length := List.findIdx_le_length
    _ = n := length_live a n

theorem below_of_lt_lowerBound {below : α → Bool} {a : Nat → α} {n j : Nat}
    (h : j < lowerBound below a n) : below (a j) = true := by
  have := List.not_of_lt_findIdx h
  simpa [live] using this

theorem not_below_lowerBound {below : α → Bool} {a : Nat → α} {n : Nat}
    (h : lowerBound below a n < n) : below (a (lowerBound below a n)) = false := by
  have hl : (live a n).findIdx (fun x => !below x) < (live a n).length := by
    simpa [lowerBound] using h
  have := List.findIdx_getElem (w := hl)
  simpa [live, lowerBound] using this

/-- A slot that is not below puts the lower bound inside. -/
theorem lowerBound_lt {below : α → Bool} {a : Nat → α} {n j : Nat} (hj : j < n)
    (h : below (a j) = false) : lowerBound below a n < n := by
  rcases Nat.lt_or_ge (lowerBound below a n) n with hlt | hge
  · exact hlt
  · have := below_of_lt_lowerBound (show j < lowerBound below a n by omega)
    rw [h] at this
    cases this

end Slots
