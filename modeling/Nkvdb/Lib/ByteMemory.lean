import Mathlib

/-! Byte memories.

A memory gives a byte at every address. `store` writes a block of bytes and `load`
reads one; `words` and `ofWords` lay out a record of 64-bit words, each with its
low byte first. -/

abbrev ByteMemory := Nat → UInt8

namespace ByteMemory

/-- `memcpy` to address `i`. -/
def store (i : Nat) (bs : List UInt8) (m : ByteMemory) : ByteMemory :=
  fun j => if i ≤ j then bs.getD (j - i) (m j) else m j

/-- `memcpy` of `n` bytes from address `i`. -/
def load (i n : Nat) (m : ByteMemory) : List UInt8 := (List.range n).map fun k => m (i + k)

@[simp] theorem length_load (i n : Nat) (m : ByteMemory) : (load i n m).length = n := by
  simp [load]

theorem store_outside {i j : Nat} {bs : List UInt8} (m : ByteMemory) (h : j < i ∨ i + bs.length ≤ j) :
    store i bs m j = m j := by
  unfold store
  split
  · rw [List.getD_eq_getElem?_getD, List.getElem?_eq_none (by omega), Option.getD_none]
  · rfl

theorem store_inside {i k : Nat} {bs : List UInt8} (m : ByteMemory) (h : k < bs.length) :
    store i bs m (i + k) = bs[k] := by
  have he : i + k - i = k := by omega
  simp [store, he, h]

theorem load_congr {m m' : ByteMemory} {i n : Nat} (h : ∀ k, k < n → m' (i + k) = m (i + k)) :
    load i n m' = load i n m :=
  List.map_congr_left fun k hk => h k (List.mem_range.mp hk)

/-- What was stored is read back. -/
theorem load_store (i : Nat) (bs : List UInt8) (m : ByteMemory) : load i bs.length (store i bs m) = bs := by
  apply List.ext_getElem
  · exact length_load ..
  · intro k _ hk
    simp [load, store_inside m hk]

/-- A store elsewhere is not seen. -/
theorem load_store_disjoint {i j n : Nat} {bs : List UInt8} (m : ByteMemory)
    (h : j + n ≤ i ∨ i + bs.length ≤ j) : load j n (store i bs m) = load j n m := by
  apply load_congr
  intro k hk
  exact store_outside m (by omega)

/-! ### Words -/

/-- The low `n` bytes of a number, low byte first. -/
def bytes : Nat → Nat → List UInt8
  | 0, _ => []
  | n + 1, w => UInt8.ofNat w :: bytes n (w / 256)

/-- The number some bytes stand for. -/
def ofBytes : List UInt8 → Nat
  | [] => 0
  | b :: bs => b.toNat + 256 * ofBytes bs

@[simp] theorem length_bytes (n w : Nat) : (bytes n w).length = n := by
  induction n generalizing w with
  | zero => rfl
  | succ n ih => simp [bytes, ih]

theorem ofBytes_bytes {n w : Nat} (h : w < 256 ^ n) : ofBytes (bytes n w) = w := by
  induction n generalizing w with
  | zero =>
    have : w = 0 := by simpa using h
    simp [bytes, ofBytes, this]
  | succ n ih =>
    have hdiv : w / 256 < 256 ^ n := by
      rw [Nat.div_lt_iff_lt_mul (by decide)]
      simpa [Nat.pow_succ] using h
    have hlow : (UInt8.ofNat w).toNat = w % 256 := UInt8.toNat_ofNat'
    rw [bytes, ofBytes, ih hdiv, hlow]
    exact Nat.mod_add_div w 256

instance neZero_word : NeZero (2 ^ 64) := ⟨by decide⟩

/-- A record of 64-bit words. -/
def words (ws : List (Fin (2 ^ 64))) : List UInt8 := ws.flatMap fun w => bytes 8 w.val

/-- Word `k` of a record. -/
def ofWords (k : Nat) (bs : List UInt8) : Fin (2 ^ 64) := Fin.ofNat _ (ofBytes ((bs.drop (8 * k)).take 8))

@[simp] theorem length_words (ws : List (Fin (2 ^ 64))) : (words ws).length = 8 * ws.length := by
  induction ws with
  | nil => rfl
  | cons w ws ih =>
    simp only [words, List.flatMap_cons, List.length_append, length_bytes, List.length_cons] at ih ⊢
    omega

theorem ofWords_words {k : Nat} {ws : List (Fin (2 ^ 64))} (h : k < ws.length) :
    ofWords k (words ws) = ws[k] := by
  induction ws generalizing k with
  | nil => exact absurd h (Nat.not_lt_zero k)
  | cons w ws ih =>
    have hw : words (w :: ws) = bytes 8 w.val ++ words ws := rfl
    cases k with
    | zero =>
      have hlt : w.val < 256 ^ 8 := w.isLt
      rw [ofWords, hw, Nat.mul_zero, List.drop_zero, List.take_left' (length_bytes ..), ofBytes_bytes hlt]
      exact Fin.ofNat_val_eq_self w
    | succ k =>
      have hd : (words (w :: ws)).drop (8 * (k + 1)) = (words ws).drop (8 * k) := by
        rw [hw, Nat.mul_succ, Nat.add_comm, ← List.drop_drop, List.drop_left' (length_bytes ..)]
      have := ih (k := k) (Nat.lt_of_succ_lt_succ h)
      rw [ofWords, hd]
      exact this

end ByteMemory
