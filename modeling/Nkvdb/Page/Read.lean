import Nkvdb.Page.Layout

/-! Reading back what was appended.

`Stored` says where the bytes of each measurement lie; a put that leaves the areas apart
keeps those of the earlier ones. A page of `calcSize n` has room for `n` measurements of
at most eight value bytes as long as `calcSize` does not wrap. -/
namespace Nkvdb.Page
open ByteMemory

/-- Where the value of the last of `log` begins. -/
def valueStart (fsize : U64) (log : List Meas) : U64 := word (fsize.val - valueBytes log)

/-- The record of a measurement whose value begins at `pos`. -/
def internal (m : Meas) (pos : U64) : InternalMeas := ⟨m.id, m.time, m.source, m.flag, m.size, pos⟩

/-- The bytes of a page that holds `log`. -/
def Stored (fsize : U64) (log : List Meas) (mem : ByteMemory) : Prop :=
  ∀ i m, log[i]? = some m →
    load (recordPos i) sizeofInternalMeas mem = (internal m (valueStart fsize (log.take (i + 1)))).toBytes ∧
    load (valueStart fsize (log.take (i + 1))).val m.size.val mem = m.value.toList.take m.size.val

theorem valueStart_val (fsize : U64) (log : List Meas) :
    (valueStart fsize log).val = fsize.val - valueBytes log :=
  word_val (lt_of_le_of_lt (Nat.sub_le ..) fsize.isLt)

theorem valueStart_put {fsize : U64} {log : List Meas} {p : Page} (h : Areas fsize log p) {m : Meas}
    (hf : Fits fsize (log ++ [m])) : p.header.writeValuePos - m.size = valueStart fsize (log ++ [m]) := by
  apply Fin.ext
  have h2 := h.writeValuePos
  have hlt := fsize.isLt
  have hs := m.size.isLt
  have hsub : (p.header.writeValuePos - m.size).val =
      (2 ^ 64 - m.size.val + p.header.writeValuePos.val) % 2 ^ 64 := congrArg Fin.val (Fin.sub_def ..)
  unfold Fits at hf
  rw [valueBytes_append, valueBytes_singleton] at hf
  rw [valueStart_val, valueBytes_append, valueBytes_singleton]
  omega

/-- A put keeps the bytes of the measurements before it and adds its own. -/
theorem Stored.put {fsize : U64} {log : List Meas} {p : Page} (hs : Stored fsize log p.rawData)
    (h : Areas fsize log p) {m : Meas} (hm : m.size.val ≤ sizeofValue) (hf : Fits fsize (log ++ [m]))
    (w : WriteWindow) : Stored fsize (log ++ [m]) (p.withMeas m w).rawData := by
  have hraw : (p.withMeas m w).rawData =
      store (recordPos log.length) (internal m (valueStart fsize (log ++ [m]))).toBytes
        (store (valueStart fsize (log ++ [m])).val (m.value.toList.take m.size.val) p.rawData) := by
    unfold withMeas
    rw [valueStart_put h hf, h.writePos]
    rfl
  have hlen := length_valueBytes hm
  have hroom : recordPos log.length + sizeofInternalMeas ≤ (valueStart fsize (log ++ [m])).val ∧
      (valueStart fsize (log ++ [m])).val + m.size.val + valueBytes log = fsize.val := by
    unfold Fits at hf
    rw [valueStart_val]
    simp only [valueBytes_append, valueBytes_singleton, List.length_append, List.length_singleton] at hf ⊢
    unfold recordPos sizeofHeader sizeofInternalMeas at *
    omega
  rw [hraw]
  intro i x hi
  rcases Nat.lt_or_ge i log.length with hlt | hge
  · rw [List.getElem?_append_left hlt] at hi
    obtain ⟨h1, h2⟩ := hs i x hi
    have htake : (log ++ [m]).take (i + 1) = log.take (i + 1) := List.take_append_of_le_length hlt
    have hpre := (valueBytes_mono (List.take_prefix (i + 1) log)).1
    have hvi := valueStart_val fsize (log.take (i + 1))
    have hrec : recordPos i + sizeofInternalMeas ≤ recordPos log.length := by
      unfold recordPos sizeofHeader sizeofInternalMeas
      omega
    rw [htake]
    constructor
    · rw [load_store_disjoint _ (.inl hrec), load_store_disjoint _ (.inl (by omega)), h1]
    · rw [load_store_disjoint _ (.inr (by rw [InternalMeas.length_toBytes]; omega)),
        load_store_disjoint _ (.inr (by rw [hlen]; omega)), h2]
  · obtain rfl : i = log.length := by
      have := (List.getElem?_eq_some_iff.mp hi).1
      rw [List.length_append, List.length_singleton] at this
      omega
    obtain rfl : m = x := by simpa using hi
    have htake : (log ++ [m]).take (log.length + 1) = log ++ [m] :=
      List.take_of_length_le (by rw [List.length_append, List.length_singleton])
    rw [htake]
    constructor
    · have := load_store (recordPos log.length) (internal m (valueStart fsize (log ++ [m]))).toBytes
        (store (valueStart fsize (log ++ [m])).val (m.value.toList.take m.size.val) p.rawData)
      rwa [InternalMeas.length_toBytes] at this
    · rw [load_store_disjoint _ (.inr (by rw [InternalMeas.length_toBytes]; omega))]
      have := load_store (valueStart fsize (log ++ [m])).val (m.value.toList.take m.size.val) p.rawData
      rwa [hlen] at this

/-! ### Reading -/

/-- The measurements agree in all but the value bytes not in use. -/
structure SameMeas (a b : Meas) : Prop where
  id : a.id = b.id
  time : a.time = b.time
  source : a.source = b.source
  flag : a.flag = b.flag
  size : a.size = b.size
  value : a.value.toList.take b.size.val = b.value.toList.take b.size.val

instance (a b : Meas) : Decidable (SameMeas a b) :=
  decidable_of_iff (a.id = b.id ∧ a.time = b.time ∧ a.source = b.source ∧ a.flag = b.flag ∧ a.size = b.size ∧
      a.value.toList.take b.size.val = b.value.toList.take b.size.val)
    ⟨fun ⟨h1, h2, h3, h4, h5, h6⟩ => ⟨h1, h2, h3, h4, h5, h6⟩,
      fun h => ⟨h.id, h.time, h.source, h.flag, h.size, h.value⟩⟩

/-- `read` gives back `log`, and nothing beyond it. -/
def ReadsBack (log : List Meas) (p : Page) : Prop :=
  ∀ result i, match log[i]? with
    | some m => ∃ m', p.read result i = .ok (some m') ∧ SameMeas m' m
    | none => p.read result i = .ok none

/-- The bytes copied into a value are its first ones. -/
theorem setValue_take (v v' : Value) {n : Nat} (hn : n ≤ 8) :
    (setValue (v.toList.take n) v').toList.take n = v.toList.take n := by
  apply List.ext_getElem
  · simp
  · intro k h₁ h₂
    have hk : k < n ∧ k < 16 := by simpa using h₂
    have hk8 : k < 8 := by omega
    simp [setValue, hk.1, hk8, List.getElem?_take]

/-- A page that holds `log`. -/
structure Holding (fsize : U64) (log : List Meas) (p : Page) : Prop where
  areas : Areas fsize log p
  stored : Stored fsize log p.rawData
  window : p.writeWindow.length ≤ WriteWindow.maxSize
  readers : p.header.readersCount = 0

theorem Holding.create (fsize : U64) : Holding fsize [] (create fsize) := by
  refine ⟨Areas.create fsize, fun i m hi => ?_, Nat.zero_le _, rfl⟩
  rw [List.getElem?_nil] at hi
  cases hi

/-- What reading a position of a page that holds `log` gives. -/
theorem read_eq {fsize : U64} {log : List Meas} {p : Page} (ha : Areas fsize log p) (hs : Stored fsize log p.rawData)
    (hf : Fits fsize log) {i : Nat} {m : Meas} (hi : log[i]? = some m) (result : Meas) : p.read result i =
      if 8 < m.size.val then .error .bufferOverflow
      else .ok (some
        ⟨m.id, m.time, m.source, m.flag, setValue (m.value.toList.take m.size.val) result.value, m.size⟩) := by
  obtain ⟨hlt, hget⟩ := List.getElem?_eq_some_iff.mp hi
  obtain ⟨hrec, hval⟩ := hs i m hi
  have hvs := valueStart_val fsize (log.take (i + 1))
  have hbytes : valueBytes (log.take (i + 1)) ≤ valueBytes log ∧
      m.size.val ≤ valueBytes (log.take (i + 1)) := by
    refine ⟨(valueBytes_mono (List.take_prefix ..)).1, ?_⟩
    rw [List.take_succ_eq_append_getElem hlt, valueBytes_append, hget, valueBytes_singleton]
    omega
  have hroom : recordPos i + sizeofInternalMeas ≤ fsize.val ∧
      sizeofHeader ≤ (valueStart fsize (log.take (i + 1))).val ∧
      (valueStart fsize (log.take (i + 1))).val + m.size.val ≤ fsize.val := by
    unfold Fits at hf
    unfold recordPos sizeofHeader sizeofInternalMeas at *
    omega
  have hout : p.copyOut (recordPos i) sizeofInternalMeas = .ok (load (recordPos i) sizeofInternalMeas p.rawData) :=
    if_pos (.inr ⟨Nat.le_add_right .., by rw [ha.size]; exact hroom.1⟩)
  have hout' : p.copyOut (valueStart fsize (log.take (i + 1))).val m.size.val =
      .ok (load (valueStart fsize (log.take (i + 1))).val m.size.val p.rawData) :=
    if_pos (.inr ⟨hroom.2.1, by rw [ha.size]; exact hroom.2.2⟩)
  have hwp := ha.writePos
  unfold read
  rw [if_neg (by omega : ¬ p.header.writePos = 0), if_neg (by omega : ¬ p.header.writePos ≤ i), hout, hrec]
  simp only [bind, Except.bind, pure, Except.pure, InternalMeas.ofBytes_toBytes, internal]
  split
  · rfl
  · rw [hout', hval]

theorem read_none {p : Page} {i : Nat} (h : p.header.writePos ≤ i) (result : Meas) : p.read result i = .ok none := by
  unfold read
  by_cases hzero : p.header.writePos = 0
  · rw [if_pos hzero]
    rfl
  · rw [if_neg hzero, if_pos h]
    rfl

/-- Where the areas are apart the page reads back what is stored. -/
theorem Stored.readsBack {fsize : U64} {log : List Meas} {p : Page} (h : Stored fsize log p.rawData)
    (ha : Areas fsize log p) (hf : Fits fsize log) (hsize : ∀ m, m ∈ log → m.size.val ≤ 8) : ReadsBack log p := by
  intro result i
  cases hi : log[i]? with
  | none =>
    have hle : p.header.writePos ≤ i := by
      rw [ha.writePos]
      exact List.getElem?_eq_none_iff.mp hi
    exact read_none hle result
  | some m =>
    have hm : m.size.val ≤ 8 := hsize m (List.mem_of_getElem? hi)
    have hread := read_eq ha h hf hi result
    rw [if_neg (not_lt.mpr hm)] at hread
    exact ⟨_, hread, rfl, rfl, rfl, rfl, rfl, setValue_take m.value result.value hm⟩

theorem Holding.readsBack {fsize : U64} {log : List Meas} {p : Page} (h : Holding fsize log p)
    (hf : Fits fsize log) (hsize : ∀ m, m ∈ log → m.size.val ≤ 8) : ReadsBack log p :=
  h.stored.readsBack h.areas hf hsize

end Nkvdb.Page
