import Mathlib

/-! The newest entries before a point, key by key.

Entries have a key and a rank. A `Snapshot` of a log at a point has, for each key with an
entry of a rank below it, the newest of these, up to a relation that keeps keys and ranks. -/

/-- `x` is the newest of the entries of `log` before `t` that have its key. -/
structure LatestBefore {α κ τ : Type} [LinearOrder τ] (key : α → κ) (rank : α → τ) (t : τ) (log : List α) (x : α) :
    Prop where
  mem : x ∈ log
  before : rank x < t
  newest : ∀ y, y ∈ log → key y = key x → rank y < t → rank y ≤ rank x

/-- `out` has the newest entry before `t` of each key, up to `same`, once, and nothing else. -/
structure Snapshot {α κ τ : Type} [LinearOrder τ] (key : α → κ) (rank : α → τ) (same : α → α → Prop) (t : τ)
    (log out : List α) : Prop where
  once : (out.map key).Nodup
  each : ∀ x, LatestBefore key rank t log x → ∃ v, v ∈ out ∧ same v x
  only : ∀ v, v ∈ out → ∃ x, LatestBefore key rank t log x ∧ same v x

section
variable {α κ τ : Type} [LinearOrder τ] {key : α → κ} {rank : α → τ} {same : α → α → Prop} {t : τ}
  {log log' a b out older newer : List α} {x y : α}

namespace LatestBefore

instance [DecidableEq α] [DecidableEq κ] : Decidable (LatestBefore key rank t log x) :=
  decidable_of_iff (x ∈ log ∧ rank x < t ∧ ∀ y, y ∈ log → key y = key x → rank y < t → rank y ≤ rank x)
    ⟨fun h => ⟨h.1, h.2.1, h.2.2⟩, fun h => ⟨h.mem, h.before, h.newest⟩⟩

theorem rank_eq (hx : LatestBefore key rank t log x) (hy : LatestBefore key rank t log y) (h : key x = key y) :
    rank x = rank y :=
  le_antisymm (hy.newest x hx.mem h hx.before) (hx.newest y hy.mem h.symm hy.before)

/-- Where there is an entry before the point there is a newest one. -/
theorem exists_of_mem (hx : x ∈ log) (ht : rank x < t) :
    ∃ y, LatestBefore key rank t log y ∧ key y = key x ∧ rank x ≤ rank y := by
  classical
  obtain ⟨sub, hsub⟩ : ∃ sub, log.filter (fun y => decide (key y = key x ∧ rank y < t)) = sub := ⟨_, rfl⟩
  have hmem : ∀ z, z ∈ sub ↔ z ∈ log ∧ key z = key x ∧ rank z < t := by
    intro z
    rw [← hsub, List.mem_filter, decide_eq_true_eq]
  have hself : x ∈ sub := (hmem x).mpr ⟨hx, rfl, ht⟩
  cases hmax : sub.argmax rank with
  | none =>
    rw [List.argmax_eq_none.mp hmax] at hself
    cases hself
  | some y =>
    obtain ⟨hy, hkey, hlt⟩ := (hmem y).mp (List.argmax_mem hmax)
    refine ⟨y, ⟨hy, hlt, fun z hz hk hzt => ?_⟩, hkey, List.le_of_mem_argmax hself hmax⟩
    exact List.le_of_mem_argmax ((hmem z).mpr ⟨hz, hk.trans hkey, hzt⟩) hmax

/-- Entries from the point on do not matter. -/
theorem congr (h : LatestBefore key rank t log x) (hmem : ∀ y, rank y < t → (y ∈ log' ↔ y ∈ log)) :
    LatestBefore key rank t log' x :=
  ⟨(hmem x h.before).mpr h.mem, h.before, fun y hy hk hlt => h.newest y ((hmem y hlt).mp hy) hk hlt⟩

/-- The newest of some entries is that of those among them. -/
theorem sub (h : LatestBefore key rank t log x) (hsub : ∀ y, y ∈ log' → y ∈ log) (hx : x ∈ log') :
    LatestBefore key rank t log' x :=
  ⟨hx, h.before, fun y hy hk hlt => h.newest y (hsub y hy) hk hlt⟩

end LatestBefore

namespace Snapshot

instance [DecidableEq α] [DecidableEq κ] [∀ v x, Decidable (same v x)] : Decidable (Snapshot key rank same t log out) :=
  decidable_of_iff ((out.map key).Nodup ∧
      (∀ x, x ∈ log → LatestBefore key rank t log x → ∃ v, v ∈ out ∧ same v x) ∧
      ∀ v, v ∈ out → ∃ x, x ∈ log ∧ LatestBefore key rank t log x ∧ same v x)
    ⟨fun h => ⟨h.1, fun x hx => h.2.1 x hx.mem hx, fun v hv => (h.2.2 v hv).imp fun _ hx => hx.2⟩,
      fun h => ⟨h.once, fun x _ hx => h.each x hx, fun v hv => (h.only v hv).imp fun _ hx => ⟨hx.1.mem, hx⟩⟩⟩

/-- Where no entry is before the point there is nothing to show. -/
theorem none (h : ∀ x, x ∈ log → t ≤ rank x) : Snapshot key rank same t log [] :=
  ⟨List.nodup_nil, fun x hx => absurd hx.before (not_lt.mpr (h x hx.mem)), fun _ hv => absurd hv List.not_mem_nil⟩

theorem congr (h : Snapshot key rank same t log out) (hmem : ∀ y, rank y < t → (y ∈ log' ↔ y ∈ log)) :
    Snapshot key rank same t log' out := by
  refine ⟨h.once, fun x hx => h.each x (hx.congr fun y hlt => (hmem y hlt).symm), fun v hv => ?_⟩
  obtain ⟨x, hx, hsame⟩ := h.only v hv
  exact ⟨x, hx.congr hmem, hsame⟩

/-- Nothing is shown if and only if nothing is before the point. -/
theorem eq_nil_iff (h : Snapshot key rank same t log out) : out = [] ↔ ∀ x, x ∈ log → t ≤ rank x := by
  constructor
  · rintro rfl x hx
    by_contra hlt
    obtain ⟨y, hy, -⟩ : ∃ y, LatestBefore key rank t log y ∧ key y = key x ∧ rank x ≤ rank y :=
      LatestBefore.exists_of_mem hx (not_le.mp hlt)
    obtain ⟨v, hv, -⟩ := h.each y hy
    cases hv
  · intro hnone
    refine List.eq_nil_iff_forall_not_mem.mpr fun v hv => ?_
    obtain ⟨x, hx, -⟩ := h.only v hv
    exact absurd hx.before (not_lt.mpr (hnone x hx.mem))

/-- The keys shown are those of the entries before the point. -/
theorem key_iff (h : Snapshot key rank same t log out) (hkey : ∀ v x, same v x → key v = key x) {k : κ} :
    (∃ v, v ∈ out ∧ key v = k) ↔ ∃ x, x ∈ log ∧ key x = k ∧ rank x < t := by
  constructor
  · rintro ⟨v, hv, rfl⟩
    obtain ⟨x, hx, hsame⟩ := h.only v hv
    exact ⟨x, hx.mem, (hkey v x hsame).symm, hx.before⟩
  · rintro ⟨x, hx, rfl, hlt⟩
    obtain ⟨y, hy, hk, -⟩ : ∃ y, LatestBefore key rank t log y ∧ key y = key x ∧ rank x ≤ rank y :=
      LatestBefore.exists_of_mem hx hlt
    obtain ⟨v, hv, hsame⟩ := h.each y hy
    exact ⟨v, hv, (hkey v y hsame).trans hk⟩

/-- A snapshot of some of the entries is one of all of them if and only if the newest ones are
among these. -/
theorem sub_iff (h : Snapshot key rank same t log' out) (hsub : ∀ y, y ∈ log' → y ∈ log)
    (hrank : ∀ v x, same v x → rank v = rank x) (hdistinct : (log.map rank).Nodup) :
    Snapshot key rank same t log out ↔ ∀ x, LatestBefore key rank t log x → x ∈ log' := by
  have hinj : ∀ x y, x ∈ log → y ∈ log → rank x = rank y → x = y := fun x y hx hy he =>
    List.inj_on_of_nodup_map hdistinct hx hy he
  constructor
  · intro hall x hx
    obtain ⟨v, hv, hvx⟩ := hall.each x hx
    obtain ⟨y, hy, hvy⟩ := h.only v hv
    rw [hinj x y hx.mem (hsub y hy.mem) ((hrank v x hvx).symm.trans (hrank v y hvy))]
    exact hy.mem
  · intro hin
    refine ⟨h.once, fun x hx => h.each x (hx.sub hsub (hin x hx)), fun v hv => ?_⟩
    obtain ⟨y, hy, hvy⟩ := h.only v hv
    obtain ⟨x, hx, hk, -⟩ : ∃ x, LatestBefore key rank t log x ∧ key x = key y ∧ rank y ≤ rank x :=
      LatestBefore.exists_of_mem (hsub y hy.mem) hy.before
    have hsame := hy.rank_eq (hx.sub hsub (hin x hx)) hk.symm
    obtain rfl := hinj y x (hsub y hy.mem) hx.mem hsame
    exact ⟨y, hx, hvy⟩

/-- What an older snapshot has beyond a newer one completes it. -/
theorem merge [DecidableEq κ] (ha : Snapshot key rank same t a older) (hb : Snapshot key rank same t b newer)
    (hkey : ∀ v x, same v x → key v = key x) (hlt : ∀ x y, x ∈ a → y ∈ b → rank x < rank y) :
    Snapshot key rank same t (a ++ b) (older.filter (fun v => !newer.any fun u => key u == key v) ++ newer) := by
  have hpass : ∀ v, v ∈ older.filter (fun v => !newer.any fun u => key u == key v) ↔
      v ∈ older ∧ ∀ u, u ∈ newer → key u ≠ key v := by
    intro v
    rw [List.mem_filter]
    simp
  have hnewer : ∀ y, LatestBefore key rank t b y → LatestBefore key rank t (a ++ b) y := by
    intro y hy
    refine ⟨List.mem_append_right _ hy.mem, hy.before, fun z hz hk hzt => ?_⟩
    rcases List.mem_append.mp hz with hz | hz
    · exact (hlt z y hz hy.mem).le
    · exact hy.newest z hz hk hzt
  constructor
  case once =>
    rw [List.map_append, List.nodup_append]
    refine ⟨ha.once.sublist (List.filter_sublist.map _), hb.once, fun k hk k' hk' he => ?_⟩
    obtain ⟨v, hv, rfl⟩ := List.mem_map.mp hk
    obtain ⟨u, hu, rfl⟩ := List.mem_map.mp hk'
    exact ((hpass v).mp hv).2 u hu he.symm
  case each =>
    intro x hx
    rcases List.mem_append.mp hx.mem with hxa | hxb
    · obtain ⟨v, hv, hvx⟩ := ha.each x (hx.sub (fun y => List.mem_append_left _) hxa)
      refine ⟨v, List.mem_append_left _ ((hpass v).mpr ⟨hv, fun u hu hk => ?_⟩), hvx⟩
      -- a newer entry of the key would be the newest
      obtain ⟨y, hy, huy⟩ := hb.only u hu
      have hyx : key y = key x := (hkey u y huy).symm.trans (hk.trans (hkey v x hvx))
      exact absurd (hx.newest y (List.mem_append_right _ hy.mem) hyx hy.before) (not_le.mpr (hlt x y hxa hy.mem))
    · obtain ⟨v, hv, hvx⟩ := hb.each x (hx.sub (fun y => List.mem_append_right _) hxb)
      exact ⟨v, List.mem_append_right _ hv, hvx⟩
  case only =>
    intro v hv
    rcases List.mem_append.mp hv with hv | hv
    · obtain ⟨hv, hnone⟩ := (hpass v).mp hv
      obtain ⟨x, hx, hvx⟩ := ha.only v hv
      refine ⟨x, ⟨List.mem_append_left _ hx.mem, hx.before, fun z hz hk hzt => ?_⟩, hvx⟩
      rcases List.mem_append.mp hz with hz | hz
      · exact hx.newest z hz hk hzt
      · obtain ⟨y, hy, hyz, -⟩ : ∃ y, LatestBefore key rank t b y ∧ key y = key z ∧ rank z ≤ rank y :=
          LatestBefore.exists_of_mem hz hzt
        obtain ⟨u, hu, huy⟩ := hb.each y hy
        exact absurd ((hkey u y huy).trans (hyz.trans (hk.trans (hkey v x hvx).symm))) (hnone u hu)
    · obtain ⟨y, hy, hvy⟩ := hb.only v hv
      exact ⟨y, hnewer y hy, hvy⟩

end Snapshot
end
