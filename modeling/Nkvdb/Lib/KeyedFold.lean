import Nkvdb.Lib.FirstMax

/-! Folds that keep an entry for each key.

The step of such a fold changes what is kept for the key of its entry alone, so that what is kept for
a key is a fold over the entries of that key. `keepNewest` admits the first entry and replaces it by
ones of greater rank without asking again: it keeps the newest from the first admitted one on, and
`Kept.admits_iff` says when that one is admitted itself. -/
namespace KeyedFold
variable {α β κ σ τ : Type}

theorem find_foldl [DecidableEq κ] {key : α → κ} {find : κ → σ → β} {step : σ → α → σ} {one : β → α → β}
    (h : ∀ s x k, find k (step s x) = if key x = k then one (find k s) x else find k s) (xs : List α) (s : σ) (k : κ) :
    find k (xs.foldl step s) = (xs.filter fun x => decide (key x = k)).foldl one (find k s) := by
  induction xs generalizing s with
  | nil => rfl
  | cons x xs ih =>
    rw [List.foldl_cons, ih, h]
    by_cases hk : key x = k
    · simp [hk]
    · simp [hk]

/-- A step that leaves some entries out. -/
theorem foldl_skip {one : β → α → β} {use : α → Bool} {step : β → α → β}
    (h : ∀ b x, step b x = if use x = true then one b x else b) (xs : List α) (b : β) :
    xs.foldl step b = (xs.filter use).foldl one b := by
  rw [List.foldl_filter]
  congr 1
  funext b x
  exact h b x

/-! ### The newest from the first admitted one on -/

section
variable [LinearOrder τ] {accepts : α → Bool} {rank : α → τ} {l : List α} {v : α}

def keepNewest (accepts : α → Bool) (rank : α → τ) : Option α → α → Option α
  | none, x => if accepts x then some x else none
  | some v, x => if rank v < rank x then some x else some v

/-- Only what is admitted of the entries themselves matters. -/
theorem foldl_keepNewest_congr {accepts' : α → Bool} (h : ∀ x, x ∈ l → accepts x = accepts' x) (o : Option α) :
    l.foldl (keepNewest accepts rank) o = l.foldl (keepNewest accepts' rank) o := by
  apply List.foldl_ext
  intro o x hx
  cases o with
  | none => simp [keepNewest, h x hx]
  | some v => rfl

/-- `v` is the newest, and the first of these, from the first admitted entry on. -/
def Kept (accepts : α → Bool) (rank : α → τ) (l : List α) (v : α) : Prop :=
  ∃ skipped first rest, l = skipped ++ first :: rest ∧ (∀ x, x ∈ skipped → accepts x = false) ∧ accepts first = true ∧
    FirstMax (fun _ => ()) rank () (first :: rest) v

theorem foldl_keepNewest (accepts : α → Bool) (rank : α → τ) (l : List α) :
    (l.foldl (keepNewest accepts rank) none = none ∧ ∀ x, x ∈ l → accepts x = false) ∨
      ∃ v, l.foldl (keepNewest accepts rank) none = some v ∧ Kept accepts rank l v := by
  induction l using List.reverseRecOn with
  | nil => simp
  | append_singleton l x ih =>
    rw [List.foldl_concat]
    obtain ⟨hnone, hskip⟩ | ⟨v, hsome, skipped, first, rest, rfl, hskip, hfirst, hmax⟩ := ih
    · rw [hnone]
      cases hx : accepts x with
      | false =>
        refine .inl ⟨by simp [keepNewest, hx], fun y hy => ?_⟩
        rcases List.mem_append.mp hy with hy | hy
        · exact hskip y hy
        · rwa [List.mem_singleton.mp hy]
      | true =>
        refine .inr ⟨x, by simp [keepNewest, hx], l, x, [], rfl, hskip, hx, ?_⟩
        exact ⟨rfl, [], [], rfl, by simp, by simp⟩
    · rw [hsome]
      by_cases hlt : rank v < rank x
      · refine .inr ⟨x, by simp [keepNewest, hlt], skipped, first, rest ++ [x], by simp, hskip, hfirst, ?_⟩
        have hpush : FirstMax (fun _ => ()) rank () ((first :: rest) ++ [x]) x :=
          FirstMax.push rfl fun y hy _ => lt_of_le_of_lt (hmax.rank_le hy rfl) hlt
        simpa using hpush
      · refine .inr ⟨v, by simp [keepNewest, hlt], skipped, first, rest ++ [x], by simp, hskip, hfirst, ?_⟩
        simpa using hmax.keep fun _ => not_lt.mp hlt

theorem foldl_keepNewest_none : l.foldl (keepNewest accepts rank) none = none ↔ ∀ x, x ∈ l → accepts x = false := by
  obtain ⟨hnone, hskip⟩ | ⟨v, hsome, skipped, first, rest, rfl, -, hfirst, -⟩ := foldl_keepNewest accepts rank l
  · simpa [hnone] using hskip
  · rw [hsome]
    refine iff_of_false (by simp) fun hall => ?_
    have := hall first (by simp)
    simp [hfirst] at this

theorem kept_of_foldl (h : l.foldl (keepNewest accepts rank) none = some v) : Kept accepts rank l v := by
  obtain ⟨hnone, -⟩ | ⟨w, hsome, hkept⟩ := foldl_keepNewest accepts rank l
  · simp [hnone] at h
  · rw [hsome] at h
    rwa [← Option.some.inj h]

/-- There is one such entry. -/
theorem Kept.unique {w : α} (hv : Kept accepts rank l v) (hw : Kept accepts rank l w) : v = w := by
  obtain ⟨skipped, first, rest, rfl, hskip, hfirst, hmax⟩ := hv
  obtain ⟨skipped', first', rest', he, hskip', hfirst', hmax'⟩ := hw
  have hsame : first :: rest = first' :: rest' := by
    rcases List.append_eq_append_iff.mp he with ⟨c, hs, hc⟩ | ⟨c, hs, hc⟩
    · cases c with
      | nil => exact hc
      | cons z c =>
        obtain ⟨rfl, -⟩ := List.cons.inj hc
        simp [hskip' first (by simp [hs])] at hfirst
    · cases c with
      | nil => exact hc.symm
      | cons z c =>
        obtain ⟨rfl, -⟩ := List.cons.inj hc
        simp [hskip first' (by simp [hs])] at hfirst'
  rw [hsame] at hmax
  exact hmax.unique hmax'

theorem foldl_keepNewest_some : l.foldl (keepNewest accepts rank) none = some v ↔ Kept accepts rank l v := by
  refine ⟨kept_of_foldl, fun hv => ?_⟩
  obtain ⟨-, hskip⟩ | ⟨w, hsome, hw⟩ := foldl_keepNewest accepts rank l
  · obtain ⟨skipped, first, rest, rfl, -, hfirst, -⟩ := hv
    simp [hskip first (by simp)] at hfirst
  · rw [hsome, hv.unique hw]

theorem Kept.mem (h : Kept accepts rank l v) : v ∈ l := by
  obtain ⟨skipped, first, rest, rfl, -, -, hmax⟩ := h
  exact List.mem_append_right _ hmax.mem

/-- No admitted entry is newer. -/
theorem Kept.rank_le (h : Kept accepts rank l v) {x : α} (hx : x ∈ l) (ha : accepts x = true) : rank x ≤ rank v := by
  obtain ⟨skipped, first, rest, rfl, hskip, -, hmax⟩ := h
  rcases List.mem_append.mp hx with hx | hx
  · simp [hskip x hx] at ha
  · exact hmax.rank_le hx rfl

/-- Behind an admitted entry, one that is not admitted is outdone by an admitted one: by a newer one, or
by one before it that is not older. -/
def Outdone (accepts : α → Bool) (rank : α → τ) (l : List α) : Prop :=
  ∀ before x after, l = before ++ x :: after → accepts x = false → (∃ y, y ∈ before ∧ accepts y = true) →
    (∃ y, y ∈ l ∧ accepts y = true ∧ rank x < rank y) ∨ ∃ y, y ∈ before ∧ accepts y = true ∧ rank x ≤ rank y

/-- The place of the entry kept. -/
theorem Kept.place (h : Kept accepts rank l v) : ∃ skipped before after, l = (skipped ++ before) ++ v :: after ∧
    (∀ x, x ∈ skipped → accepts x = false) ∧ (accepts v = true ∨ ∃ y, y ∈ before ∧ accepts y = true) ∧
    (∀ y, y ∈ before → rank y < rank v) ∧ ∀ y, y ∈ after → rank y ≤ rank v := by
  obtain ⟨skipped, first, rest, rfl, hskip, hfirst, -, before, after, he, hb, ha⟩ := h
  refine ⟨skipped, before, after, by rw [he, List.append_assoc], hskip, ?_, fun y hy => hb y hy rfl,
    fun y hy => ha y hy rfl⟩
  cases before with
  | nil =>
    obtain ⟨rfl, -⟩ := List.cons.inj he
    exact .inl hfirst
  | cons y before =>
    obtain ⟨rfl, -⟩ := List.cons.inj he
    exact .inr ⟨first, List.mem_cons_self, hfirst⟩

/-- The entry kept is admitted itself just where every other is outdone. -/
theorem Kept.admits_iff (h : Kept accepts rank l v) : accepts v = true ↔ Outdone accepts rank l := by
  obtain ⟨skipped, b, a, rfl, hskip, hadmit, hb, ha⟩ := h.place
  constructor
  · intro hv before x after he hx hsome
    obtain ⟨y, hy, hay⟩ := hsome
    have hne : x ≠ v := by
      rintro rfl
      simp [hv] at hx
    by_cases hlt : rank x < rank v
    · exact .inl ⟨v, by simp, hv, hlt⟩
    rcases List.append_eq_append_iff.mp he with ⟨c, hbefore, hc⟩ | ⟨c, hbefore, hc⟩
    -- `x` stands behind the entry kept
    · cases c with
      | nil =>
        obtain ⟨rfl, -⟩ := List.cons.inj hc
        exact absurd rfl hne
      | cons w c =>
        obtain ⟨rfl, rfl⟩ := List.cons.inj hc
        exact .inr ⟨v, by simp [hbefore], hv, ha x (by simp)⟩
    -- or before it, where all but those left out are older
    · cases c with
      | nil =>
        obtain ⟨rfl, -⟩ := List.cons.inj hc
        exact absurd rfl hne
      | cons w c =>
        obtain ⟨rfl, rfl⟩ := List.cons.inj hc
        rcases List.append_eq_append_iff.mp hbefore with ⟨d, rfl, hd⟩ | ⟨d, rfl, hd⟩
        · exact absurd (hb x (by simp [hd])) hlt
        · simp [hskip y (by simp [hy])] at hay
  · intro hout
    by_contra hv
    have hfalse : accepts v = false := by simpa using hv
    have hsome : ∃ y, y ∈ skipped ++ b ∧ accepts y = true := by
      obtain ⟨y, hy, hay⟩ := hadmit.resolve_left hv
      exact ⟨y, by simp [hy], hay⟩
    rcases hout (skipped ++ b) v a rfl hfalse hsome with ⟨y, hy, hay, hlt⟩ | ⟨y, hy, hay, hle⟩
    · exact absurd (h.rank_le hy hay) (not_le.mpr hlt)
    · rcases List.mem_append.mp hy with hy | hy
      · simp [hskip y hy] at hay
      · exact absurd (hb y hy) (not_lt.mpr hle)

end
end KeyedFold
