import Nkvdb.Lib.ByteMemory

/-! Machine words, sizes and measurements (`meas.h`, `common.h`).

Times, ids and flags are `uint64_t`; arithmetic on them wraps as it does there.
Sizes of structures are those of the 64-bit ABI the page file is written with. -/
namespace Nkvdb

/-- `uint64_t`, and `size_t`. -/
abbrev U64 := Fin (2 ^ 64)

/-- A number as a word. -/
def word (n : Nat) : U64 := Fin.ofNat _ n

theorem word_val {n : Nat} (h : n < 2 ^ 64) : (word n).val = n := Nat.mod_eq_of_lt h

abbrev Time := U64
abbrev Id := U64
abbrev Flag := U64

/-- `typedef uint8_t Value[16]`. -/
abbrev Value := Vector UInt8 16

structure Meas where
  id : Id
  time : Time
  source : Flag
  flag : Flag
  value : Value
  /-- Bytes of `value` in use. -/
  size : U64
  deriving DecidableEq

/-- `Meas::empty`: the constructor zeroes the structure. -/
def Meas.empty : Meas := ⟨0, 0, 0, 0, Vector.replicate 16 0, 0⟩

instance : Inhabited Meas := ⟨Meas.empty⟩

/-- A measurement of an `int64_t`, zero but for its id and time. -/
def Meas.plain (id time : Nat) : Meas := ⟨word id, word time, 0, 0, Vector.replicate 16 0, 8⟩

/-- `sizeof(Meas)`: five words and the 16 value bytes. -/
def sizeofMeas : Nat := 56

/-- `sizeof(InternalMeas)`: six words. -/
def sizeofInternalMeas : Nat := 48

/-- `sizeof(Page::Header)`: 96 bytes of fields and the 128 reserved ones. -/
def sizeofHeader : Nat := 224

/-- `sizeof(Value)`. -/
def sizeofValue : Nat := 16

structure AppendResult where
  writed : Nat := 0
  ignored : Nat := 0
  deriving DecidableEq

/-- `append_result::operator+`. -/
def AppendResult.add (a b : AppendResult) : AppendResult :=
  ⟨a.writed + b.writed, a.ignored + b.ignored⟩

/-- `checkPastTime`, with the clock reading it takes: the distance is an unsigned
difference, and a zero `pastTime` turns the check off. -/
def checkPastTime (now t pastTime : Time) : Bool :=
  pastTime == 0 || decide (now - t ≤ pastTime)

/-- Why a call does not return. Nothing in the library catches any of these. -/
inductive Fault where
  /-- `make_node` threw: the node cache is used up. -/
  | cacheIsFull
  /-- A null node pointer was used. -/
  | nullNode
  /-- A store past the end of a node's array. -/
  | slotOverflow
  /-- An `assert` failed. -/
  | assertion
  /-- `std::vector::at` out of range. -/
  | outOfRange
  /-- `std::vector::resize` past `max_size()`. -/
  | lengthError
  /-- The page file is open already. -/
  | alreadyOpenned
  /-- The page file has another format version. -/
  | pageFormat
  /-- `getOldesPage` found no page. -/
  | pageNotFound
  /-- A read of the stored position failed. -/
  | readError (pos : Nat)
  /-- A copy past the end of a buffer. -/
  | bufferOverflow
  /-- A null reader was used, or the front of an empty list taken. -/
  | nullReader
  /-- The bound on the steps of a loop was used up. -/
  | outOfFuel
  deriving DecidableEq, Repr

/-- A computation in two steps that completes completes both. -/
theorem bind_ok {ε α β : Type} {x : Except ε α} {f : α → Except ε β} {b : β} (h : x >>= f = .ok b) :
    ∃ a, x = .ok a ∧ f a = .ok b := by
  cases x with
  | error e => cases h
  | ok a => exact ⟨a, rfl, h⟩

/-- The value, or else this failure. -/
def orFault {α : Type} (e : Fault) : Option α → Except Fault α
  | some a => .ok a
  | none => .error e

theorem orFault_iff {α : Type} {e : Fault} {x : Option α} {a : α} : orFault e x = .ok a ↔ x = some a := by
  cases x with
  | none => exact ⟨nofun, nofun⟩
  | some b => exact ⟨fun h => congrArg some (Except.ok.inj h), fun h => congrArg _ (Option.some.inj h)⟩

/-- A computation in two steps fails in one of them. -/
theorem bind_error {ε α β : Type} {x : Except ε α} {f : α → Except ε β} {e : ε} (h : x >>= f = .error e) :
    x = .error e ∨ ∃ a, x = .ok a ∧ f a = .error e := by
  cases x with
  | error e' => exact .inl (congrArg _ (Except.error.inj h))
  | ok a => exact .inr ⟨a, rfl, h⟩

theorem toOption_eq_some {ε α : Type} {x : Except ε α} {a : α} : x.toOption = some a ↔ x = .ok a := by
  cases x with
  | error e => exact ⟨nofun, nofun⟩
  | ok b => exact ⟨fun h => congrArg _ (Option.some.inj h), fun h => congrArg _ (Except.ok.inj h)⟩

/-- A computation that is seen to complete with a result that passes a test. -/
theorem exists_ok {ε α : Type} {x : Except ε α} {p : α → Bool} (h : x.toOption.any p = true) :
    ∃ a, x = .ok a ∧ p a = true := by
  cases x with
  | error e => cases h
  | ok a => exact ⟨a, rfl, h⟩

end Nkvdb
