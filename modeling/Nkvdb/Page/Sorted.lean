import Nkvdb.Page.Records

/-! Appends in the order of the times.

An array append takes the bounds of the times from the first and the last of what it accepts,
the single append from each. For sorted measurements this is the same (`Op.Sorted.minMax`). -/
namespace Nkvdb.Page

/-- The measurements handed to an append come in the order of their times. -/
def Op.Sorted (op : Op) : Prop := op.meases.Pairwise fun a b => a.time ≤ b.time

instance (op : Op) : Decidable op.Sorted := by
  unfold Op.Sorted
  infer_instance

theorem getElem?_nth {ms : List Meas} {i : Nat} (h : i < ms.length) : ms[i]? = some (nth ms i) := by
  rw [nth_eq h, List.getElem?_eq_getElem h]

theorem nth_time_le {ms : List Meas} (h : ms.Pairwise fun a b => a.time ≤ b.time) {i j : Nat} (hij : i ≤ j)
    (hj : j < ms.length) : (nth ms i).time ≤ (nth ms j).time := by
  rcases Nat.eq_or_lt_of_le hij with rfl | hlt
  · exact le_rfl
  · rw [nth_eq (hlt.trans hj), nth_eq hj]
    exact List.pairwise_iff_getElem.mp h i j (hlt.trans hj) hj hlt

/-- The bounds of the times after some measurements one by one. -/
def minMaxAll (ms : List Meas) (h : Header) : Header := ms.foldl (fun h m => updateMinMax m h) h

theorem updateMinMax_self (m : Meas) (h : Header) : updateMinMax m (updateMinMax m h) = updateMinMax m h := by
  cases hi : h.minMaxInit <;> simp [updateMinMax, hi]

/-- What comes between two others does not matter to the bounds. -/
theorem updateMinMax_between {a b c : Meas} (hab : a.time ≤ b.time) (hbc : b.time ≤ c.time) (h : Header) :
    updateMinMax c (updateMinMax b (updateMinMax a h)) = updateMinMax c (updateMinMax a h) := by
  have hmin : ∀ t : Time, min b.time (min a.time t) = min a.time t := fun t =>
    min_eq_right ((min_le_left ..).trans hab)
  have hmax : ∀ t : Time, max c.time (max b.time t) = max c.time t := fun t => by
    rw [← max_assoc, max_eq_left hbc]
  cases hi : h.minMaxInit with
  | true => simp only [updateMinMax, hi, if_true, hmin, hmax]
  | false =>
    simp only [updateMinMax, hi, if_true, if_false, hmax, min_eq_right hab, Bool.false_eq_true]

theorem minMaxAll_sorted {ms : List Meas} (hs : ms.Pairwise fun a b => a.time ≤ b.time) (hne : ms ≠ []) (h : Header) :
    minMaxAll ms h = updateMinMax (nth ms (ms.length - 1)) (updateMinMax (nth ms 0) h) := by
  induction ms generalizing h with
  | nil => exact absurd rfl hne
  | cons m ms ih =>
    by_cases hnil : ms = []
    · rw [hnil]
      exact (updateMinMax_self m h).symm
    · have hpos : 0 < ms.length := List.length_pos_of_ne_nil hnil
      have hlast : nth (m :: ms) ((m :: ms).length - 1) = nth ms (ms.length - 1) := by
        obtain ⟨n, hn⟩ : ∃ n, ms.length = n + 1 := ⟨ms.length - 1, by omega⟩
        rw [List.length_cons, hn]
        rfl
      have hab : (nth (m :: ms) 0).time ≤ (nth (m :: ms) 1).time :=
        nth_time_le hs (Nat.zero_le 1) (Nat.succ_lt_succ hpos)
      have hbc : (nth ms 0).time ≤ (nth ms (ms.length - 1)).time :=
        nth_time_le (List.pairwise_cons.mp hs).2 (Nat.zero_le _) (by omega)
      show minMaxAll ms (updateMinMax m h) = _
      rw [ih (List.pairwise_cons.mp hs).2 hnil, hlast]
      exact updateMinMax_between hab hbc h

/-- The bounds after an append are those after all it accepted, if that is sorted. -/
theorem Op.minMax_sorted {op : Op} {k : Nat} (hk : k ≤ op.meases.length)
    (hs : (op.meases.take k).Pairwise fun a b => a.time ≤ b.time) (h : Header) :
    op.minMax k h = minMaxAll (op.meases.take k) h := by
  cases op with
  | single m junk =>
    rcases Nat.le_one_iff_eq_zero_or_eq_one.mp hk with rfl | rfl <;> rfl
  | array ms =>
    replace hk : k ≤ ms.length := hk
    replace hs : (ms.take k).Pairwise fun a b => a.time ≤ b.time := hs
    show (if k = 0 then h else _) = minMaxAll (ms.take k) h
    by_cases hzero : k = 0
    · rw [if_pos hzero, hzero]
      rfl
    · have hlen : (ms.take k).length = k := by rw [List.length_take, Nat.min_eq_left hk]
      have hne : ms.take k ≠ [] := List.ne_nil_of_length_pos (by omega)
      rw [if_neg hzero, minMaxAll_sorted hs hne, hlen, nth_take (by omega), nth_take (by omega)]

theorem Op.Sorted.minMax {op : Op} (hop : op.Sorted) {k : Nat} (hk : k ≤ op.meases.length) (h : Header) :
    op.minMax k h = minMaxAll (op.meases.take k) h :=
  op.minMax_sorted hk (List.Pairwise.sublist (List.take_sublist ..) hop) h

end Nkvdb.Page
