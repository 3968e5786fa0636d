import Nkvdb.Basic
import Nkvdb.Lib.FirstMax

/-! The write window (`writewindow.h`, `Page::updateWriteWindow`, `Page::loadWriteWindow`).

The window is a vector of measurements indexed by id, grown on demand; a slot never
written holds the empty measurement. -/
namespace Nkvdb

abbrev WriteWindow := List Meas

namespace WriteWindow

/-- `WriteWindow::operator[]`. -/
def slot (w : WriteWindow) (i : Nat) : Meas := w.getD i Meas.empty

/-- `resize` to `n` slots, for growing. -/
def resize (n : Nat) (w : WriteWindow) : WriteWindow := w ++ List.replicate (n - w.length) Meas.empty

/-- `max_size()` of the vector: no object is larger than `PTRDIFF_MAX`. -/
def maxSize : Nat := (2 ^ 63 - 1) / sizeofMeas

/-- `Page::updateWriteWindow`. For the greatest id the new size wraps to zero. -/
def update (m : Meas) (w : WriteWindow) : Except Fault WriteWindow :=
  if w.length ≤ m.id.val then
    if m.id.val + 1 = 2 ^ 64 then .error .outOfRange
    else if maxSize < m.id.val + 1 then .error .lengthError
    else .ok ((w.resize (m.id.val + 1)).set m.id.val m)
  else if (w.slot m.id.val).time < m.time then .ok (w.set m.id.val m)
  else .ok w

def updateAll : List Meas → WriteWindow → Except Fault WriteWindow
  | [], w => .ok w
  | m :: ms, w => do
    let w ← w.update m
    w.updateAll ms

/-- `Page::loadWriteWindow`: the file's slots are replayed, and after them the empty
measurement that the read at the end of the file leaves. -/
def load (file : Option (List Meas)) (w : WriteWindow) : Except Fault WriteWindow :=
  match file with
  | none => .ok w
  | some slots => do
    let w ← w.updateAll slots
    w.update Meas.empty

/-! ### The slots after an update -/

theorem maxSize_lt : maxSize < 2 ^ 64 := by decide

theorem slot_eq {w : WriteWindow} {i : Nat} (h : i < w.length) : w.slot i = w[i] := List.getD_eq_getElem _ _ h

theorem slot_set {w : WriteWindow} {i : Nat} {m : Meas} (h : i < w.length) (j : Nat) :
    slot (w.set i m) j = if j = i then m else w.slot j := by
  unfold slot
  rw [List.getD_eq_getElem?_getD, List.getD_eq_getElem?_getD, List.getElem?_set]
  by_cases hj : i = j
  · subst hj
    simp [h]
  · rw [if_neg hj, if_neg (Ne.symm hj)]

theorem length_resize {w : WriteWindow} {n : Nat} (h : w.length ≤ n) : (w.resize n).length = n := by
  simp only [resize, List.length_append, List.length_replicate]
  omega

theorem slot_resize (w : WriteWindow) (n j : Nat) : slot (w.resize n) j = w.slot j := by
  unfold slot resize
  rw [List.getD_eq_getElem?_getD, List.getD_eq_getElem?_getD]
  by_cases hj : j < w.length
  · rw [List.getElem?_append_left hj]
  · rw [List.getElem?_append_right (by omega), List.getElem?_eq_none (by omega : w.length ≤ j),
      List.getElem?_replicate]
    split <;> rfl

/-- What an update does: the measurement's own slot takes it if the window had to grow for
it or if it is newer, and no other slot changes. -/
theorem update_cases {w w' : WriteWindow} {m : Meas} (h : w.update m = .ok w') :
    (∀ j, j ≠ m.id.val → w'.slot j = w.slot j) ∧
      ((w.length ≤ m.id.val ∧ m.id.val + 1 ≤ maxSize ∧ w'.length = m.id.val + 1 ∧ w'.slot m.id.val = m) ∨
        (m.id.val < w.length ∧ w'.length = w.length ∧ w'.slot m.id.val = m ∧
          (w.slot m.id.val).time < m.time) ∨
        (m.id.val < w.length ∧ w' = w ∧ m.time ≤ (w.slot m.id.val).time)) := by
  unfold update at h
  split at h
  next hgrow =>
    split at h
    · cases h
    split at h
    · cases h
    next hroom =>
      obtain rfl : _ = w' := by simpa using h
      have hlen : (w.resize (m.id.val + 1)).length = m.id.val + 1 := length_resize (by omega)
      have hslot := slot_set (m := m) (show m.id.val < (w.resize (m.id.val + 1)).length by omega)
      refine ⟨fun j hj => ?_, .inl ⟨hgrow, not_lt.mp hroom, ?_, ?_⟩⟩
      · rw [hslot, if_neg hj, slot_resize]
      · rw [List.length_set, hlen]
      · rw [hslot, if_pos rfl]
  next hlt =>
    have hslot := slot_set (m := m) (show m.id.val < w.length by omega)
    split at h
    next hnew =>
      obtain rfl : _ = w' := by simpa using h
      refine ⟨fun j hj => ?_, .inr (.inl ⟨by omega, List.length_set, ?_, hnew⟩)⟩
      · rw [hslot, if_neg hj]
      · rw [hslot, if_pos rfl]
    next hold =>
      obtain rfl : w = w' := by simpa using h
      exact ⟨fun _ _ => rfl, .inr (.inr ⟨by omega, rfl, not_lt.mp hold⟩)⟩

/-- An update fails where the window cannot grow to its slot. -/
theorem update_fault {w : WriteWindow} {m : Meas} {e : Fault} (h : w.update m = .error e) :
    e = .outOfRange ∨ e = .lengthError := by
  unfold update at h
  split at h
  · split at h
    · exact .inl (Except.error.inj h).symm
    · split at h
      · exact .inr (Except.error.inj h).symm
      · cases h
  · split at h
    · cases h
    · cases h

/-- The window never shrinks. -/
theorem length_update {w w' : WriteWindow} {m : Meas} (h : w.update m = .ok w') : w.length ≤ w'.length := by
  rcases (update_cases h).2 with ⟨h1, -, h2, -⟩ | ⟨-, h2, -⟩ | ⟨-, h2, -⟩
  · omega
  · omega
  · rw [h2]

theorem length_updateAll {w w' : WriteWindow} {ms : List Meas} (h : w.updateAll ms = .ok w') :
    w.length ≤ w'.length := by
  induction ms generalizing w with
  | nil =>
    obtain rfl : w = w' := by simpa [updateAll] using h
    exact le_rfl
  | cons m ms ih =>
    obtain ⟨w₁, h₁, h₂⟩ := bind_ok h
    exact (length_update h₁).trans (ih h₂)

/-! ### What the window tracks -/

/-- The window after the measurements of `log` were written, in order. -/
structure Tracks (log : List Meas) (w : WriteWindow) : Prop where
  bound : w.length ≤ maxSize
  last : w ≠ [] → (w.slot (w.length - 1)).id.val + 1 = w.length
  own : ∀ i, w.slot i = Meas.empty ∨ (w.slot i ∈ log ∧ (w.slot i).id.val = i)
  reach : ∀ m, m ∈ log → m.id.val < w.length
  upper : ∀ m, m ∈ log → m.time ≤ (w.slot m.id.val).time
  newest : ∀ i, (∃ m, m ∈ log ∧ m.id.val = i ∧ 0 < m.time) →
    FirstMax (fun m => m.id.val) Meas.time i log (w.slot i)

theorem Tracks.empty : Tracks [] [] := by
  refine ⟨Nat.zero_le _, fun h => absurd rfl h, fun i => .inl rfl, ?_, ?_, ?_⟩
  · exact fun m hm => absurd hm List.not_mem_nil
  · exact fun m hm => absurd hm List.not_mem_nil
  · rintro i ⟨m, hm, -⟩
    exact absurd hm List.not_mem_nil

theorem Tracks.update {log : List Meas} {w w' : WriteWindow} {m : Meas} (h : Tracks log w)
    (hu : w.update m = .ok w') : Tracks (log ++ [m]) w' := by
  obtain ⟨hother, hcase⟩ := update_cases hu
  have hlen := length_update hu
  have hid : m.id.val < w'.length := by
    rcases hcase with ⟨h1, -, h2, -⟩ | ⟨h1, h2, -⟩ | ⟨h1, h2, -⟩
    · omega
    · omega
    · rwa [h2]
  -- the measurement's slot ends with it, or with one that is not older
  have hself : (w'.slot m.id.val = m ∧ ∀ y, y ∈ log → y.id.val = m.id.val → y.time < m.time) ∨
      (w'.slot m.id.val = w.slot m.id.val ∧ m.time ≤ (w.slot m.id.val).time) := by
    rcases hcase with ⟨h1, -, -, h2⟩ | ⟨-, -, h2, h3⟩ | ⟨-, h2, h3⟩
    · refine .inl ⟨h2, fun y hy hk => ?_⟩
      have := h.reach y hy
      omega
    · refine .inl ⟨h2, fun y hy hk => lt_of_le_of_lt ?_ h3⟩
      rw [← hk]
      exact h.upper y hy
    · exact .inr ⟨by rw [h2], h3⟩
  constructor
  case bound =>
    rcases hcase with ⟨-, h1, h2, -⟩ | ⟨-, h2, -⟩ | ⟨-, h2, -⟩
    · omega
    · rw [h2]
      exact h.bound
    · rw [h2]
      exact h.bound
  case last =>
    intro _
    rcases hcase with ⟨-, -, h2, h3⟩ | ⟨h1, h2, h3, -⟩ | ⟨h1, h2, -⟩
    · rw [h2, Nat.add_sub_cancel, h3]
    · rw [h2]
      by_cases he : w.length - 1 = m.id.val
      · rw [he, h3]
        omega
      · rw [hother _ he]
        exact h.last (List.ne_nil_of_length_pos (by omega))
    · rw [h2]
      exact h.last (List.ne_nil_of_length_pos (by omega))
  case own =>
    intro i
    by_cases hi : i = m.id.val
    · subst hi
      rcases hself with ⟨h2, -⟩ | ⟨h2, -⟩
      · rw [h2]
        exact .inr ⟨List.mem_append_right _ List.mem_cons_self, rfl⟩
      · rw [h2]
        exact (h.own _).imp id fun ⟨ha, hb⟩ => ⟨List.mem_append_left _ ha, hb⟩
    · rw [hother i hi]
      exact (h.own i).imp id fun ⟨ha, hb⟩ => ⟨List.mem_append_left _ ha, hb⟩
  case reach =>
    intro y hy
    rcases List.mem_append.mp hy with hmem | hmem
    · have := h.reach y hmem
      omega
    · rwa [List.mem_singleton.mp hmem]
  case upper =>
    intro y hy
    by_cases hi : y.id.val = m.id.val
    · rw [hi]
      rcases List.mem_append.mp hy with hmem | hmem
      · rcases hself with ⟨h2, h3⟩ | ⟨h2, -⟩
        · rw [h2]
          exact (h3 y hmem hi).le
        · rw [h2, ← hi]
          exact h.upper y hmem
      · rw [List.mem_singleton.mp hmem]
        rcases hself with ⟨h2, -⟩ | ⟨h2, h3⟩
        · rw [h2]
        · rwa [h2]
    · rw [hother _ hi]
      rcases List.mem_append.mp hy with hmem | hmem
      · exact h.upper y hmem
      · exact absurd (congrArg (fun z => z.id.val) (List.mem_singleton.mp hmem)) hi
  case newest =>
    rintro i ⟨y, hy, hk, hpos⟩
    by_cases hi : i = m.id.val
    · subst hi
      rcases hself with ⟨h2, h3⟩ | ⟨h2, h3⟩
      · rw [h2]
        exact FirstMax.push rfl h3
      -- a slot with a time was written by an earlier measurement of the id
      · rw [h2]
        refine (h.newest _ ?_).keep fun _ => h3
        rcases List.mem_append.mp hy with hmem | hmem
        · exact ⟨y, hmem, hk, hpos⟩
        · rw [List.mem_singleton.mp hmem] at hpos
          rcases h.own m.id.val with hempty | ⟨ha, hb⟩
          · rw [hempty] at h3
            exact absurd (lt_of_lt_of_le hpos h3) (lt_irrefl _)
          · exact ⟨_, ha, hb, lt_of_lt_of_le hpos h3⟩
    · rw [hother i hi]
      have hne : m.id.val ≠ i := Ne.symm hi
      refine (h.newest i ?_).keep fun hmi => absurd hmi hne
      rcases List.mem_append.mp hy with hmem | hmem
      · exact ⟨y, hmem, hk, hpos⟩
      · rw [List.mem_singleton.mp hmem] at hk
        exact absurd hk hne

theorem Tracks.updateAll {log ms : List Meas} {w w' : WriteWindow} (h : Tracks log w)
    (hu : w.updateAll ms = .ok w') : Tracks (log ++ ms) w' := by
  induction ms generalizing log w with
  | nil =>
    obtain rfl : w = w' := by simpa [WriteWindow.updateAll] using hu
    rwa [List.append_nil]
  | cons m ms ih =>
    obtain ⟨w₁, h₁, h₂⟩ := bind_ok hu
    have := ih (h.update h₁) h₂
    rwa [List.append_assoc] at this

/-- The slots of ids that were written have the newest measurement of each. -/
theorem Tracks.mem_iff {log : List Meas} {w : WriteWindow} (h : Tracks log w) (hpos : ∀ m, m ∈ log → 0 < m.time)
    {v : Meas} : v ∈ w ∧ v.time ≠ 0 ↔ FirstMax Meas.id Meas.time v.id log v := by
  rw [← FirstMax.map_key_iff Fin.val_injective]
  constructor
  · rintro ⟨hv, ht⟩
    obtain ⟨i, hi, rfl⟩ := List.getElem_of_mem hv
    rw [← slot_eq hi] at ht ⊢
    rcases h.own i with he | ⟨hmem, hid⟩
    · rw [he] at ht
      exact absurd rfl ht
    · rw [hid]
      exact h.newest i ⟨_, hmem, hid, hpos _ hmem⟩
  · intro hv
    have hnewest := h.newest v.id.val ⟨v, hv.mem, rfl, hpos v hv.mem⟩
    have hreach := h.reach v hv.mem
    refine ⟨?_, (hpos v hv.mem).ne'⟩
    rw [← hnewest.unique hv, slot_eq hreach]
    exact List.getElem_mem hreach

theorem Tracks.once {log : List Meas} {w : WriteWindow} (h : Tracks log w) :
    ((w.filter fun m => m.time != 0).map Meas.id).Nodup := by
  have hself : ∀ i (hi : i < w.length), (w[i].time != 0) = true → w[i].id.val = i := by
    intro i hi ht
    rw [← slot_eq hi] at ht ⊢
    rcases h.own i with he | ⟨-, hid⟩
    · rw [he] at ht
      cases ht
    · exact hid
  rw [List.Nodup, List.pairwise_map, List.pairwise_filter, List.pairwise_iff_getElem]
  intro i j hi hj hij hti htj he
  have := congrArg Fin.val he
  rw [hself i hi hti, hself j hj htj] at this
  omega

/-! ### Fillers -/

/-- The ids that were written have no gaps. -/
def Dense (log : List Meas) : Prop := ∀ m, m ∈ log → ∀ id, id ≤ m.id → ∃ m', m' ∈ log ∧ m'.id = id

section
variable {log : List Meas} {w : WriteWindow} {m : Meas}

theorem Tracks.slot_cases (h : Tracks log w) {i : Nat} (hi : i < w.length) :
    w[i] = Meas.empty ∨ (w[i] ∈ log ∧ w[i].id.val = i) := by
  rw [← slot_eq hi]
  exact h.own i

/-- What is in the window is a filler, or the newest of its id. -/
theorem Tracks.mem_cases (h : Tracks log w) (hpos : ∀ m, m ∈ log → 0 < m.time) (hm : m ∈ w) :
    m = Meas.empty ∨ FirstMax Meas.id Meas.time m.id log m := by
  by_cases ht : m.time = 0
  · obtain ⟨i, hi, rfl⟩ := List.getElem_of_mem hm
    rcases h.slot_cases hi with hempty | ⟨hmem, -⟩
    · exact .inl hempty
    · exact absurd ht (hpos _ hmem).ne'
  · exact .inr ((h.mem_iff hpos).mp ⟨hm, ht⟩)

/-- There are fillers if and only if there are gaps. -/
theorem Tracks.empty_mem_iff (h : Tracks log w) (hbare : log = [] → w = [])
    (hpos : ∀ m, m ∈ log → 0 < m.time) : Meas.empty ∈ w ↔ ¬ Dense log := by
  constructor
  · intro hmem hdense
    obtain ⟨i, hi, hslot⟩ := List.getElem_of_mem hmem
    have hne : w ≠ [] := List.ne_nil_of_mem hmem
    obtain ⟨m, hm, hle⟩ : ∃ m, m ∈ log ∧ i ≤ m.id.val := by
      have hlast := h.last hne
      rcases h.own (w.length - 1) with hempty | ⟨hown, -⟩
      · obtain ⟨m, hm⟩ := List.exists_mem_of_ne_nil _ fun hnil => hne (hbare hnil)
        rw [hempty] at hlast
        have hone : 0 + 1 = w.length := hlast
        exact ⟨m, hm, by omega⟩
      · exact ⟨_, hown, by omega⟩
    have hbound := h.bound.trans_lt maxSize_lt
    obtain ⟨m', hm', hid⟩ := hdense m hm ⟨i, by omega⟩ hle
    have hupper := h.upper m' hm'
    rw [hid, slot_eq hi, hslot] at hupper
    exact absurd (hpos m' hm') (not_lt.mpr hupper)
  · intro hgap
    unfold Dense at hgap
    push Not at hgap
    obtain ⟨m, hm, id, hle, hnone⟩ := hgap
    have hid : id.val < w.length := lt_of_le_of_lt hle (h.reach m hm)
    rcases h.slot_cases hid with hempty | ⟨hmem, hown⟩
    · rw [← hempty]
      exact List.getElem_mem hid
    · exact absurd (Fin.ext hown) (hnone _ hmem)

end

theorem updateAll_append (a b : List Meas) (w : WriteWindow) :
    w.updateAll (a ++ b) = w.updateAll a >>= updateAll b := by
  induction a generalizing w with
  | nil => rfl
  | cons m a ih =>
    simp only [List.cons_append, updateAll, bind, Except.bind]
    cases w.update m with
    | error e => rfl
    | ok w => exact ih w

/-! ### Saving and loading -/

theorem ext_slot {w w' : WriteWindow} (hl : w.length = w'.length) (h : ∀ j, w.slot j = w'.slot j) : w = w' := by
  apply List.ext_getElem hl
  intro j h₁ h₂
  have := h j
  unfold slot at this
  rwa [List.getD_eq_getElem?_getD, List.getD_eq_getElem?_getD, List.getElem?_eq_getElem h₁,
    List.getElem?_eq_getElem h₂] at this

theorem slot_take (w : WriteWindow) (k j : Nat) :
    slot (w.take k) j = if j < k then w.slot j else Meas.empty := by
  unfold slot
  rw [List.getD_eq_getElem?_getD, List.getD_eq_getElem?_getD, List.getElem?_take]
  split <;> rfl

/-- The empty measurement changes no window that has slots. -/
theorem update_empty {w : WriteWindow} (h : 0 < w.length) : w.update Meas.empty = .ok w := by
  have hid : (Meas.empty).id.val = 0 := rfl
  have ht : ¬ (w.slot 0).time < Meas.empty.time := Fin.not_lt_zero _
  unfold update
  rw [hid, if_neg (by omega), if_neg ht]

/-- A slot saved past the end is put back in its place, over what gaps there are. -/
theorem update_take {w : WriteWindow} {k n : Nat} (hk : k ≤ n) (hn : n < w.length) (hb : w.length ≤ maxSize)
    (hid : (w.slot n).id.val = n) (hgap : ∀ j, k ≤ j → j < n → w.slot j = Meas.empty) :
    update (w.slot n) (w.take k) = .ok (w.take (n + 1)) := by
  have hlen : (w.take k).length = k := by
    rw [List.length_take]
    omega
  have hgrown : (resize (n + 1) (w.take k)).length = n + 1 := length_resize (by omega)
  have heq : (resize (n + 1) (w.take k)).set n (w.slot n) = w.take (n + 1) := by
    apply ext_slot
    · rw [List.length_set, hgrown, List.length_take]
      omega
    · intro j
      rw [slot_set (by omega), slot_resize, slot_take, slot_take]
      by_cases hj : j = n
      · rw [if_pos hj, if_pos (by omega), hj]
      · rw [if_neg hj]
        by_cases hjk : j < k
        · rw [if_pos hjk, if_pos (by omega)]
        · by_cases hjn : j < n + 1
          · rw [if_neg hjk, if_pos hjn, hgap j (by omega) (by omega)]
          · rw [if_neg hjk, if_neg hjn]
  have hmax := maxSize_lt
  unfold update
  rw [hid, hlen, if_pos hk, if_neg (by omega), if_neg (by omega), heq]

/-- After a replay of the first `n` slots the window is a part of the one saved, and
what is missing is empty. -/
theorem replay_prefix {log : List Meas} {w : WriteWindow} (h : Tracks log w) {n : Nat} (hn : n ≤ w.length) :
    ∃ k, k ≤ n ∧ (0 < n → 0 < k) ∧ updateAll (w.take n) [] = .ok (w.take k) ∧
      ∀ j, k ≤ j → j < n → w.slot j = Meas.empty := by
  induction n with
  | zero => exact ⟨0, le_rfl, id, rfl, fun j _ hj => absurd hj (Nat.not_lt_zero j)⟩
  | succ n ih =>
    obtain ⟨k, hkn, hpos, hrun, hgap⟩ := ih (by omega)
    have hlt : n < w.length := by omega
    have hslot : w[n] = w.slot n := by
      unfold slot
      rw [List.getD_eq_getElem?_getD, List.getElem?_eq_getElem hlt, Option.getD_some]
    have hstep : updateAll (w.take (n + 1)) [] = update (w.slot n) (w.take k) := by
      rw [List.take_succ_eq_append_getElem hlt, updateAll_append, hrun, hslot]
      simp only [updateAll, bind, Except.bind]
      cases update (w.slot n) (w.take k) <;> rfl
    rw [hstep]
    by_cases hid : (w.slot n).id.val = n
    · exact ⟨n + 1, le_rfl, fun _ => Nat.succ_pos n, update_take hkn hlt h.bound hid hgap,
        fun j hj hj' => absurd hj' (by omega)⟩
    -- a gap in the saved window is the empty measurement, whose id is 0
    · have hempty : w.slot n = Meas.empty := (h.own n).resolve_right fun ⟨_, hown⟩ => hid hown
      have hn0 : 0 < n := by
        rcases Nat.eq_zero_or_pos n with rfl | hpos'
        · rw [hempty] at hid
          exact absurd rfl hid
        · exact hpos'
      have hlen : 0 < (w.take k).length := by
        have := hpos hn0
        rw [List.length_take]
        omega
      refine ⟨k, by omega, fun _ => hpos hn0, ?_, fun j hj hj' => ?_⟩
      · rw [hempty, update_empty hlen]
      · rcases Nat.lt_or_eq_of_le (Nat.le_of_lt_succ hj') with hj'' | rfl
        · exact hgap j hj hj''
        · exact hempty

/-- A window that was saved is loaded as it was. -/
theorem load_saved {log : List Meas} {w : WriteWindow} (h : Tracks log w) (hne : w ≠ []) :
    load (some w) [] = .ok w := by
  have hpos : 0 < w.length := List.length_pos_of_ne_nil hne
  obtain ⟨k, hkn, hk0, hrun, hgap⟩ := replay_prefix h (le_refl w.length)
  have hk : k = w.length := by
    by_contra hne'
    have hlast := h.last hne
    rw [hgap (w.length - 1) (by omega) (by omega)] at hlast
    have h1 : 0 + 1 = w.length := hlast
    have := hk0 hpos
    omega
  rw [List.take_length, hk, List.take_length] at hrun
  simp only [load, hrun, bind, Except.bind]
  exact update_empty hpos

end WriteWindow
end Nkvdb
