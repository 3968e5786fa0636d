import Nkvdb.Cache

/-! The measurements that an append ignores (`checkPastTime`, `Cache::append`).

The filter is documented as `|current time - t| < past_time`, and takes an unsigned
difference. -/
namespace Nkvdb

/-- The measurement is within `pastTime` of the clock, before or after it. -/
def Near (now pastTime : Time) (m : Meas) : Prop := ((now.val : Int) - m.time.val).natAbs ≤ pastTime.val

instance (now pastTime : Time) (m : Meas) : Decidable (Near now pastTime m) := inferInstanceAs (Decidable (_ ≤ _))

/-- The distance to a time that is not after the clock is the difference. One after the clock is
as far away as it would be the other way round a ring of the 64-bit times. -/
theorem sub_val (now t : Time) :
    (now - t).val = if t ≤ now then now.val - t.val else 2 ^ 64 - (t.val - now.val) := by
  have hn := now.isLt
  have ht := t.isLt
  rw [Fin.sub_def]
  by_cases hle : t ≤ now
  · have hval : t.val ≤ now.val := hle
    rw [if_pos hle]
    have hsum : 2 ^ 64 - t.val + now.val = now.val - t.val + 2 ^ 64 := by omega
    simp only [hsum, Nat.add_mod_right]
    exact Nat.mod_eq_of_lt (by omega)
  · have hval : now.val < t.val := not_le.mp hle
    rw [if_neg hle]
    exact (Nat.mod_eq_of_lt (by omega)).trans (by omega)

/-- Where the unsigned difference puts a time on the same side of `pastTime` as the distance. -/
def Agrees (now pastTime : Time) (m : Meas) : Prop :=
  now < m.time → (m.time.val - now.val ≤ pastTime.val ↔ 2 ^ 64 - (m.time.val - now.val) ≤ pastTime.val)

theorem checkPastTime_iff {now pastTime : Time} (hpast : 0 < pastTime) (m : Meas) :
    checkPastTime now m.time pastTime = true ↔ (now - m.time).val ≤ pastTime.val := by
  unfold checkPastTime
  rw [Bool.or_eq_true, beq_iff_eq, decide_eq_true_eq]
  exact ⟨fun h => h.elim (fun hz => absurd hz hpast.ne') id, .inr⟩

/-- The check is the documented one on the measurements where difference and distance agree. -/
theorem agrees_iff {now pastTime : Time} (hpast : 0 < pastTime) (m : Meas) :
    Agrees now pastTime m ↔ (checkPastTime now m.time pastTime = true ↔ Near now pastTime m) := by
  rw [checkPastTime_iff hpast, sub_val]
  unfold Agrees Near
  by_cases hle : m.time ≤ now
  · have hval : m.time.val ≤ now.val := hle
    rw [if_pos hle]
    refine ⟨fun _ => ?_, fun _ hlt => absurd hle (not_le.mpr hlt)⟩
    omega
  · have hval : now.val < m.time.val := not_le.mp hle
    rw [if_neg hle]
    refine ⟨fun h => ?_, fun h _ => ?_⟩
    · rw [← h (not_le.mp hle)]
      omega
    · rw [h]
      omega

namespace Cache

/-- What the documentation says of an append of one measurement: one that is not near counts as
written and ignored, one that is near is stored if it is written. -/
def Filters (now pastTime : Time) (m : Meas) (before : Cache) (out : AppendResult × Cache) : Prop :=
  if Near now pastTime m then
    out.1.ignored = 0 ∧ out.1.writed ≤ 1 ∧ out.2.meases = before.meases ++ [m].take out.1.writed
  else out.1 = ⟨1, 1⟩ ∧ out.2.meases = before.meases

/-- What it says of an append of an array: of those that count as written, the near ones are
stored in order and the others are ignored. -/
def FiltersAll (now pastTime : Time) (ms : List Meas) (before : Cache) (out : AppendResult × Cache) : Prop :=
  out.1.writed = min (before.maxSize - before.meases.length) ms.length ∧
    out.1.ignored = ((ms.take out.1.writed).filter fun m => ¬ Near now pastTime m).length ∧
    out.2.meases = before.meases ++ (ms.take out.1.writed).filter fun m => Near now pastTime m

theorem append_filters_iff {now pastTime : Time} (hpast : 0 < pastTime) (m : Meas) (c : Cache) :
    Filters now pastTime m c (c.append m now pastTime) ↔ Agrees now pastTime m := by
  rw [agrees_iff hpast]
  unfold Filters append
  by_cases hcheck : checkPastTime now m.time pastTime = true
  · simp only [hcheck, Bool.not_true, true_iff]
    by_cases hfull : c.meases.length = c.maxSize
    · simp [hfull]
    · simp [hfull]
  · simp [hcheck]

/-- With one clock reading the admitted are those that pass the check. -/
theorem admitted_const (now pastTime : Time) (i : Nat) (ms : List Meas) :
    admitted (fun _ => now) pastTime i ms = ms.filter fun m => checkPastTime now m.time pastTime := by
  induction ms generalizing i with
  | nil => rfl
  | cons m ms ih =>
    rw [admitted, ih, List.filter_cons]

/-- Two tests that pick the same out of a list agree on it. -/
theorem filter_eq_filter_iff {α : Type} {p q : α → Bool} {xs : List α} :
    xs.filter p = xs.filter q ↔ ∀ x ∈ xs, (p x = true ↔ q x = true) := by
  constructor
  · intro h x hx
    have hp : x ∈ xs.filter p ↔ p x = true := by simp [hx]
    have hq : x ∈ xs.filter q ↔ q x = true := by simp [hx]
    rw [← hp, h, hq]
  · exact fun h => List.filter_congr fun x hx => Bool.eq_iff_iff.mpr (h x hx)

theorem appendArray_filtersAll_iff {now pastTime : Time} (hpast : 0 < pastTime) (ms : List Meas) (c : Cache) :
    FiltersAll now pastTime ms c (c.appendArray ms (fun _ => now) pastTime) ↔
      ∀ m ∈ ms.take (c.maxSize - c.meases.length), Agrees now pastTime m := by
  have htake : ms.take (min (c.maxSize - c.meases.length) ms.length) = ms.take (c.maxSize - c.meases.length) :=
    List.take_eq_take_min.symm
  have hlen : (ms.take (c.maxSize - c.meases.length)).length = min (c.maxSize - c.meases.length) ms.length :=
    List.length_take
  have hagree : (∀ m ∈ ms.take (c.maxSize - c.meases.length), Agrees now pastTime m) ↔
      (ms.take (c.maxSize - c.meases.length)).filter (fun m => checkPastTime now m.time pastTime) =
        (ms.take (c.maxSize - c.meases.length)).filter fun m => Near now pastTime m := by
    rw [filter_eq_filter_iff]
    simp only [agrees_iff hpast, decide_eq_true_eq]
  rw [hagree]
  unfold FiltersAll appendArray
  dsimp only
  rw [admitted_const, htake, List.append_right_inj]
  generalize ms.take (c.maxSize - c.meases.length) = taken at hlen
  refine ⟨fun h => h.2.2, fun h => ⟨rfl, ?_, h⟩⟩
  have hsplit := List.length_eq_length_filter_add (l := taken) fun m => decide (Near now pastTime m)
  rw [h, ← hlen, hsplit, Nat.add_sub_cancel_left]
  simp only [decide_not]

/-- Both appends filter as documented exactly where difference and distance agree: on every
measurement that is not after the clock, and on one after it that is both ways round on the same
side of `pastTime`. Of an array that concerns what there is room for. -/
theorem append_filters_iff_agrees {now pastTime : Time} (hpast : 0 < pastTime) (m : Meas) (ms : List Meas)
    (c : Cache) :
    (Filters now pastTime m c (c.append m now pastTime) ↔ Agrees now pastTime m) ∧
      (FiltersAll now pastTime ms c (c.appendArray ms (fun _ => now) pastTime) ↔
        ∀ m ∈ ms.take (c.maxSize - c.meases.length), Agrees now pastTime m) :=
  ⟨append_filters_iff hpast m c, appendArray_filtersAll_iff hpast ms c⟩

theorem append_filters_iff_agrees_late :
    (Filters 1000 10 (.plain 1 990) (create 2) ((create 2).append (.plain 1 990) 1000 10) ↔
      Agrees 1000 10 (.plain 1 990)) ∧
      (FiltersAll 1000 10 [.plain 1 990, .plain 1 900] (create 2)
        ((create 2).appendArray [.plain 1 990, .plain 1 900] (fun _ => 1000) 10) ↔
          ∀ m ∈ [Meas.plain 1 990, .plain 1 900].take 2, Agrees 1000 10 m) :=
  append_filters_iff_agrees (by decide) _ _ (create 2)

/-- A measurement one unit of time after the clock, with ten allowed, is ignored by both. -/
theorem append_ignores_next : Near 1000 10 (.plain 1 1001) ∧
    (create 2).append (.plain 1 1001) 1000 10 = (⟨1, 1⟩, create 2) ∧
    ¬ Filters 1000 10 (.plain 1 1001) (create 2) ((create 2).append (.plain 1 1001) 1000 10) ∧
    ¬ FiltersAll 1000 10 [.plain 1 1001] (create 2) ((create 2).appendArray [.plain 1 1001] (fun _ => 1000) 10) := by
  refine ⟨by decide +kernel, rfl, ?_, ?_⟩
  · unfold Filters
    decide +kernel
  · unfold FiltersAll
    decide +kernel

end Cache
end Nkvdb
