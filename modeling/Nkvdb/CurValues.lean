import Nkvdb.Basic

/-! The newest values of a storage, by id (`CurValuesCache`). -/
namespace Nkvdb

/-- `m_values`. -/
structure CurValuesCache where
  values : Id → Option Meas

namespace CurValuesCache

def create : CurValuesCache := ⟨fun _ => none⟩

def writeValue (c : CurValuesCache) (m : Meas) : CurValuesCache := ⟨Function.update c.values m.id (some m)⟩

/-- An id without a value is answered too. -/
def readValue (ids : List Id) (c : CurValuesCache) : List Meas := ids.map fun id => (c.values id).getD Meas.empty

/-- `writeValue` of each, in order. -/
def writeValues (ms : List Meas) (c : CurValuesCache) : CurValuesCache := ms.foldl writeValue c

theorem writeValues_append (ms ms' : List Meas) (c : CurValuesCache) :
    c.writeValues (ms ++ ms') = (c.writeValues ms).writeValues ms' := List.foldl_append

/-- The last measurement of an id. -/
def last (id : Id) (ms : List Meas) : Option Meas := (ms.filter fun m => decide (m.id = id)).getLast?

theorem last_append_singleton (id : Id) (ms : List Meas) (m : Meas) :
    last id (ms ++ [m]) = if m.id = id then some m else last id ms := by
  unfold last
  by_cases h : m.id = id
  · simp [List.filter_append, h]
  · simp [List.filter_append, h]

theorem last_cons (id : Id) (m : Meas) (ms : List Meas) :
    last id (m :: ms) = (last id ms).or (if m.id = id then some m else none) := by
  unfold last
  by_cases h : m.id = id
  · rw [List.filter_cons_of_pos (by simpa using h), List.getLast?_cons, if_pos h]
    cases (ms.filter fun m => decide (m.id = id)).getLast?
    · rfl
    · rfl
  · rw [List.filter_cons_of_neg (by simpa using h), if_neg h, Option.or_none]

/-- An id of one measurement alone has it last. -/
theorem last_eq {id : Id} {ms : List Meas} {m : Meas} (hsome : ∃ x, x ∈ ms ∧ x.id = id)
    (h : ∀ x, x ∈ ms → x.id = id → x = m) : last id ms = some m := by
  obtain ⟨x, hx, hid⟩ := hsome
  have hne : ms.filter (fun m => decide (m.id = id)) ≠ [] :=
    List.ne_nil_of_mem (List.mem_filter.mpr ⟨hx, decide_eq_true hid⟩)
  obtain ⟨hlast, hlid⟩ := List.mem_filter.mp (List.getLast_mem hne)
  unfold last
  rw [List.getLast?_eq_some_getLast hne, h _ hlast (of_decide_eq_true hlid)]

/-- Of what is written under an id the last stays. -/
theorem values_writeValues (ms : List Meas) (c : CurValuesCache) (id : Id) :
    (c.writeValues ms).values id = (last id ms).or (c.values id) := by
  induction ms using List.reverseRecOn with
  | nil => rfl
  | append_singleton ms m ih =>
    rw [writeValues_append, last_append_singleton]
    show Function.update (c.writeValues ms).values m.id (some m) id = _
    by_cases h : m.id = id
    · rw [if_pos h, ← h, Function.update_self, Option.some_or]
    · rw [if_neg h, Function.update_of_ne (Ne.symm h), ih]

/-- Two caches answer every query alike if they do every query of one id. -/
theorem readValue_eq_iff (c c' : CurValuesCache) : (∀ ids, c.readValue ids = c'.readValue ids) ↔
    ∀ id, (c.values id).getD Meas.empty = (c'.values id).getD Meas.empty := by
  constructor
  · intro h id
    exact List.head_eq_of_cons_eq (h [id])
  · intro h ids
    exact List.map_congr_left fun id _ => h id

end CurValuesCache
end Nkvdb
