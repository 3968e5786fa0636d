import Mathlib

/-! The newest entry of a log, key by key.

Entries have a key and a rank. Among the entries of one key, `FirstMax` picks one of
the greatest rank, and of those the one that was logged first. -/

/-- `x` is the first of the entries of greatest rank among those of `log` with key `k`. -/
def FirstMax {α κ τ : Type} [LinearOrder τ] (key : α → κ) (rank : α → τ) (k : κ) (log : List α) (x : α) : Prop :=
  key x = k ∧ ∃ before after, log = before ++ x :: after ∧
    (∀ y, y ∈ before → key y = k → rank y < rank x) ∧ (∀ y, y ∈ after → key y = k → rank y ≤ rank x)

namespace FirstMax
variable {α κ τ : Type} [LinearOrder τ] {key : α → κ} {rank : α → τ} {k : κ} {log : List α} {x y : α}

theorem mem (h : FirstMax key rank k log x) : x ∈ log := by
  obtain ⟨-, before, after, rfl, -⟩ := h
  exact List.mem_append_right _ List.mem_cons_self

theorem rank_le (h : FirstMax key rank k log x) (hy : y ∈ log) (hk : key y = k) : rank y ≤ rank x := by
  obtain ⟨-, before, after, rfl, hb, ha⟩ := h
  rcases List.mem_append.mp hy with hmem | hmem
  · exact le_of_lt (hb y hmem hk)
  · rcases List.mem_cons.mp hmem with rfl | hmem
    · exact le_rfl
    · exact ha y hmem hk

/-- An entry of greater rank than those of its key before it is the newest. -/
theorem push (hk : key x = k) (h : ∀ y, y ∈ log → key y = k → rank y < rank x) :
    FirstMax key rank k (log ++ [x]) x :=
  ⟨hk, log, [], rfl, h, fun _ hy => absurd hy List.not_mem_nil⟩

/-- An entry of another key, or of no greater rank, changes nothing. -/
theorem keep (h : FirstMax key rank k log x) (hy : key y = k → rank y ≤ rank x) :
    FirstMax key rank k (log ++ [y]) x := by
  obtain ⟨hk, before, after, rfl, hb, ha⟩ := h
  refine ⟨hk, before, after ++ [y], by simp, hb, fun z hz hzk => ?_⟩
  rcases List.mem_append.mp hz with hmem | hmem
  · exact ha z hmem hzk
  · obtain rfl := List.mem_singleton.mp hmem
    exact hy hzk

/-- A log with an entry of the key has a newest one. -/
theorem exists_of_mem (hx : x ∈ log) (hk : key x = k) : ∃ y, FirstMax key rank k log y := by
  induction log generalizing x with
  | nil => cases hx
  | cons z log ih =>
    by_cases hsome : ∃ y, y ∈ log ∧ key y = k
    · obtain ⟨y, hy, hyk⟩ := hsome
      obtain ⟨v, hv⟩ := ih hy hyk
      by_cases hz : key z = k ∧ rank v ≤ rank z
      · refine ⟨z, hz.1, [], log, rfl, fun _ hmem => absurd hmem List.not_mem_nil, fun w hw hwk => ?_⟩
        exact (hv.rank_le hw hwk).trans hz.2
      · obtain ⟨hvk, before, after, rfl, hb, ha⟩ := hv
        refine ⟨v, hvk, z :: before, after, rfl, fun w hw hwk => ?_, ha⟩
        rcases List.mem_cons.mp hw with rfl | hw
        · exact not_le.mp fun hle => hz ⟨hwk, hle⟩
        · exact hb w hw hwk
    · have hnone : ∀ y, y ∈ log → key y ≠ k := fun y hy hyk => hsome ⟨y, hy, hyk⟩
      rcases List.mem_cons.mp hx with rfl | hx
      · refine ⟨x, hk, [], log, rfl, fun _ hmem => absurd hmem List.not_mem_nil, fun w hw hwk => ?_⟩
        exact absurd hwk (hnone w hw)
      · exact absurd hk (hnone x hx)

theorem unique (hx : FirstMax key rank k log x) (hy : FirstMax key rank k log y) : x = y := by
  have hyx := hx.rank_le hy.mem hy.1
  have hxy := hy.rank_le hx.mem hx.1
  obtain ⟨hxk, before, after, rfl, hb, -⟩ := hx
  obtain ⟨hyk, before', after', he, hb', -⟩ := hy
  rcases List.append_eq_append_iff.mp he with ⟨c, hc, hrest⟩ | ⟨c, hc, hrest⟩
  · cases c with
    | nil => exact (List.cons.inj hrest).1
    | cons z c =>
      -- `x` would come before `y` and be less
      obtain ⟨rfl, -⟩ := List.cons.inj hrest
      exact absurd (hb' x (by simp [hc]) hxk) (not_lt.mpr hyx)
  · cases c with
    | nil => exact (List.cons.inj hrest).1.symm
    | cons z c =>
      obtain ⟨rfl, -⟩ := List.cons.inj hrest
      exact absurd (hb y (by simp [hc]) hyk) (not_lt.mpr hxy)

/-- The newest one stays so among some of the entries. -/
theorem filter (h : FirstMax key rank k log x) {p : α → Bool} (hp : p x = true) :
    FirstMax key rank k (log.filter p) x := by
  obtain ⟨hk, before, after, rfl, hb, ha⟩ := h
  refine ⟨hk, before.filter p, after.filter p, by simp [hp], fun y hy => ?_, fun y hy => ?_⟩
  · exact hb y (List.mem_of_mem_filter hy)
  · exact ha y (List.mem_of_mem_filter hy)

/-- Keys may be told by what distinguishes them. -/
theorem map_key_iff {μ : Type} {f : κ → μ} (hf : Function.Injective f) :
    FirstMax (fun x => f (key x)) rank (f k) log x ↔ FirstMax key rank k log x := by
  simp only [FirstMax, hf.eq_iff]

end FirstMax
