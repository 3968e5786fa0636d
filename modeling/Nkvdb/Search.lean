import Mathlib

/-! Interpolation search (`search.h`).

`find_begin` is a template over the elements, their comparison and their difference.
Positions are integers here, so that a dereference outside of the array shows. The product of a
difference and a number of positions has 64 bits; what it is where it does not fit is not
defined, so nothing is said of it. -/
namespace Nkvdb.Utils

/-- Why a search has no result. -/
inductive Stop where
  /-- A position outside of the array was dereferenced. -/
  | outside
  | divisionByZero
  /-- The bound on the steps of the loop was used up. -/
  | outOfFuel
  deriving DecidableEq

section Search
variable {α : Type}

/-- `*p`. -/
def deref (xs : List α) (p : Int) : Except Stop α :=
  if p < 0 then .error .outside
  else match xs[p.toNat]? with
    | none => .error .outside
    | some x => .ok x

/-- `a / b`. -/
def divide (a b : Int) : Except Stop Int :=
  if b = 0 then .error .divisionByZero else .ok (a.tdiv b)

/-- `a * b` in 64 bits; `overflow` is what comes of a product that does not fit. -/
def times (overflow : Int → Int) (a b : Int) : Int :=
  if -2 ^ 63 ≤ a * b ∧ a * b < 2 ^ 63 then a * b else overflow (a * b)

/-- What two's complement makes of it. -/
def wrap (n : Int) : Int := n.bmod (2 ^ 64)

variable (pred delta : α → α → Int) (xs : List α) (val : α)

/-- The tests after the loop. -/
def pick (low high : Int) : Except Stop Int := do
  let l ← deref xs low
  if pred val l = 0 then return low
  else
    let h ← deref xs high
    if pred val h = 0 then return high else return low

variable (overflow : Int → Int)

/-- The loop and the tests after it. -/
def search : Nat → Int → Int → Except Stop Int
  | 0, _, _ => .error .outOfFuel
  | fuel + 1, low, high => do
    let l ← deref xs low
    if pred l val < 0 then
      let h ← deref xs high
      if pred h val > 0 then
        let step ← divide (times overflow (delta val l) (high - low)) (delta h l)
        let mid := low + step
        let m ← deref xs mid
        if pred m val < 0 then search fuel (mid + 1) high
        else if pred m val > 0 then search fuel low (mid - 1)
        else return mid
      else pick pred xs val low high
    else pick pred xs val low high

/-- `find_begin`, with a bound on the steps of the loop. -/
def findBegin (fuel : Nat) : Except Stop Int := search pred delta xs val overflow fuel 0 (xs.length - 1)

end Search

/-- `pred` is the three-way comparison and `delta` the exact difference of the numbers
that the elements stand for. -/
structure Exact {α : Type} [LinearOrder α] (value : α → Int) (pred delta : α → α → Int) : Prop where
  mono : StrictMono value
  neg : ∀ a b, pred a b < 0 ↔ a < b
  pos : ∀ a b, 0 < pred a b ↔ b < a
  delta : ∀ a b, delta a b = value a - value b

/-- The comparison of the tests. -/
def threeWay (r l : Int) : Int := if r < l then -1 else if r = l then 0 else 1

theorem exact_threeWay : Exact id threeWay (· - ·) := by
  refine ⟨strictMono_id, fun a b => ?_, fun a b => ?_, fun a b => rfl⟩
  · unfold threeWay
    grind
  · unfold threeWay
    grind

/-! ### The probe -/

/-- Where the line through the ends of a bracket passes `v`, rounded down. -/
def probe (low high : Nat) (a b v : Int) : Nat := low + ((v - a) * (high - low) / (b - a)).toNat

section Probe
variable {low high : Nat} {a b v : Int}

theorem le_probe (low high : Nat) (a b v : Int) : low ≤ probe low high a b v := Nat.le_add_right _ _

theorem probe_lt (hlh : low < high) (ha : a < v) (hb : v < b) : probe low high a b v < high := by
  have hd : 0 < b - a := by omega
  have hw : (0 : Int) < high - low := by omega
  have hnum : (v - a) * (high - low) < (high - low) * (b - a) := by
    rw [mul_comm (v - a)]
    exact Int.mul_lt_mul_of_pos_left (by omega) hw
  have hlt : (v - a) * (high - low) / (b - a) < high - low := Int.ediv_lt_of_lt_mul hd hnum
  unfold probe
  omega

/-- The position the loop computes, where it divides by the width of a bracket. -/
theorem add_tdiv (hlh : low < high) (ha : a < v) (hb : v < b) :
    (low : Int) + ((v - a) * (high - low)).tdiv (b - a) = probe low high a b v := by
  have hnum : 0 ≤ (v - a) * (high - low) := Int.mul_nonneg (by omega) (by omega)
  have hquot : 0 ≤ (v - a) * (high - low) / (b - a) := Int.ediv_nonneg hnum (by omega)
  rw [Int.tdiv_eq_ediv_of_nonneg hnum]
  unfold probe
  omega

end Probe

section Parts
variable {α : Type} {xs : List α} {low high i : Nat}

/-- The part of the array that a bracket encloses. -/
def part (xs : List α) (low high : Nat) : List α := (xs.take (high + 1)).drop low

theorem length_part (h : high < xs.length) : (part xs low high).length = high + 1 - low := by
  unfold part
  rw [List.length_drop, List.length_take, Nat.min_eq_left h]

theorem getElem?_part (hi : low + i ≤ high) : (part xs low high)[i]? = xs[low + i]? := by
  unfold part
  rw [List.getElem?_drop, List.getElem?_take_of_lt (Nat.lt_succ_of_le hi)]

theorem part_whole (hne : xs ≠ []) : part xs 0 (xs.length - 1) = xs := by
  have hpos := List.length_pos_of_ne_nil hne
  unfold part
  rw [List.drop_zero, List.take_of_length_le (by omega)]

theorem part_right (xs : List α) (low high i : Nat) : (part xs low high).drop (i + 1) = part xs (low + i + 1) high := by
  unfold part
  rw [List.drop_drop]
  rfl

theorem part_left (hi : 0 < i) (hle : low + i ≤ high) : (part xs low high).take i = part xs low (low + i - 1) := by
  have hsucc : low + i - 1 + 1 = low + i := by omega
  unfold part
  rw [List.take_drop, List.take_take, hsucc, Nat.min_eq_left (by omega)]

end Parts

/-! ### The bracket

`low` and `high` enclose the places where the value can be: before them all is less, behind
them all is greater. -/

theorem deref_eq {α : Type} {xs : List α} {i : Nat} (h : i < xs.length) : deref xs (i : Int) = .ok xs[i] := by
  unfold deref
  rw [if_neg (by omega), Int.toNat_natCast, List.getElem?_eq_getElem h]

section Bracket
variable {α : Type} [LinearOrder α] {value : α → Int} {pred delta : α → α → Int} {xs : List α} {val : α}
  {overflow : Int → Int}

structure Around (xs : List α) (val : α) (low high : Nat) : Prop where
  le : low ≤ high
  lt : high < xs.length
  before : ∀ i (h : i < xs.length), i < low → xs[i] < val
  after : ∀ i (h : i < xs.length), high < i → val < xs[i]

theorem around_whole (hne : xs ≠ []) : Around xs val 0 (xs.length - 1) := by
  have hpos := List.length_pos_of_ne_nil hne
  refine ⟨Nat.zero_le _, by omega, fun i _ hi => absurd hi (Nat.not_lt_zero i), fun _ _ _ => ?_⟩
  omega

theorem getElem_le (hs : xs.Pairwise (· ≤ ·)) {i j : Nat} (hij : i ≤ j) (hj : j < xs.length) :
    xs[i] ≤ xs[j] := by
  rcases Nat.eq_or_lt_of_le hij with rfl | hlt
  · exact le_rfl
  · exact List.pairwise_iff_getElem.mp hs i j (by omega) hj hlt

namespace Around
variable {low high : Nat}

theorem low_lt (h : Around xs val low high) : low < xs.length := h.le.trans_lt h.lt

/-- The bracket above a probe that is less. -/
theorem above (h : Around xs val low high) (hs : xs.Pairwise (· ≤ ·)) {mid : Nat} (hm : mid < high)
    (hless : getElem xs mid (hm.trans h.lt) < val) : Around xs val (mid + 1) high :=
  ⟨hm, h.lt, fun _ _ hlt => (getElem_le hs (Nat.le_of_lt_succ hlt) _).trans_lt hless, h.after⟩

/-- The bracket below a probe that is greater. -/
theorem below (h : Around xs val low high) (hs : xs.Pairwise (· ≤ ·)) {mid : Nat} (hl : low < mid)
    (hm : mid < xs.length) (hgreater : val < xs[mid]) : Around xs val low (mid - 1) :=
  ⟨by omega, by omega, h.before, fun i hi hlt => hgreater.trans_le (getElem_le hs (by omega) hi)⟩

/-- The value is nowhere else. -/
theorem mem (h : Around xs val low high) {i : Nat} (hi : i < xs.length) (heq : xs[i] = val) :
    low ≤ i ∧ i ≤ high := by
  constructor
  · by_contra hlt
    exact absurd heq (h.before i hi (not_le.mp hlt)).ne
  · by_contra hlt
    exact absurd heq (h.after i hi (not_le.mp hlt)).ne'

/-- A bracket whose ends are on either side of the value has width. -/
theorem width (h : Around xs val low high) (hl : getElem xs low h.low_lt < val) (hh : val < getElem xs high h.lt) :
    low < high := by
  rcases Nat.eq_or_lt_of_le h.le with heq | hlt
  · subst heq
    exact absurd hl (lt_asymm hh)
  · exact hlt

end Around

/-- The product of the first round fits in 64 bits, if there is a round. -/
def Narrow (value : α → Int) (xs : List α) (val : α) : Prop :=
  ∀ a b, xs.head? = some a → xs.getLast? = some b → a < val → val < b →
    (value val - value a) * (xs.length - 1) < 2 ^ 63

theorem times_eq {a b : Int} (h0 : 0 ≤ a * b) (h : a * b < 2 ^ 63) : times overflow a b = a * b :=
  if_pos ⟨by omega, h⟩

/-- Then the products of all rounds do: the bracket only gets narrower. -/
theorem Around.fits (hm : StrictMono value) (hn : Narrow value xs val) (hs : xs.Pairwise (· ≤ ·)) {low high : Nat}
    (h : Around xs val low high) (hl : getElem xs low h.low_lt < val) (hh : val < getElem xs high h.lt) :
    times overflow (value val - value (getElem xs low h.low_lt)) (high - low) =
      (value val - value (getElem xs low h.low_lt)) * (high - low) := by
  have hlt := h.lt
  have hw := h.width hl hh
  have hpos : 0 < xs.length := by omega
  have hfirst : xs[0] ≤ getElem xs low h.low_lt := getElem_le hs (Nat.zero_le _) _
  have hlast : getElem xs high h.lt ≤ xs[xs.length - 1] := getElem_le hs (by omega) (by omega)
  have hnarrow := hn xs[0] xs[xs.length - 1] (List.head?_eq_getElem? .. ▸ List.getElem?_eq_getElem hpos)
    (List.getLast?_eq_getElem? .. ▸ List.getElem?_eq_getElem (by omega)) (hfirst.trans_lt hl) (hh.trans_le hlast)
  have hd : 0 < value val - value (getElem xs low h.low_lt) := sub_pos.mpr (hm hl)
  have hle : value val - value (getElem xs low h.low_lt) ≤ value val - value xs[0] :=
    sub_le_sub_left (hm.monotone hfirst) _
  have hwidth : (high : Int) - low ≤ xs.length - 1 := by omega
  refine times_eq (Int.mul_nonneg hd.le (by omega)) (lt_of_le_of_lt ?_ hnarrow)
  exact Int.mul_le_mul hle hwidth (by omega) (hd.le.trans hle)

/-- The loop goes on at a bracket and probes it at `mid`. -/
def IsProbe (value : α → Int) (xs : List α) (val : α) (low high mid : Nat) : Prop :=
  ∃ a b, xs[low]? = some a ∧ xs[high]? = some b ∧ a < val ∧ val < b ∧
    mid = probe low high (value a) (value b) (value val)

theorem Around.isProbe {low high : Nat} (h : Around xs val low high) (hl : getElem xs low h.low_lt < val)
    (hh : val < getElem xs high h.lt) :
    IsProbe value xs val low high
      (probe low high (value (getElem xs low h.low_lt)) (value (getElem xs high h.lt)) (value val)) :=
  ⟨_, _, List.getElem?_eq_getElem _, List.getElem?_eq_getElem _, hl, hh, rfl⟩

theorem IsProbe.inside {low high mid : Nat} (hm : StrictMono value) (h : Around xs val low high)
    (hp : IsProbe value xs val low high mid) : low ≤ mid ∧ mid < high := by
  obtain ⟨a, b, ha, hb, hl, hh, rfl⟩ := hp
  obtain ⟨_, rfl⟩ := List.getElem?_eq_some_iff.mp ha
  obtain ⟨_, rfl⟩ := List.getElem?_eq_some_iff.mp hb
  exact ⟨le_probe _ _ _ _ _, probe_lt (h.width hl hh) (hm hl) (hm hh)⟩

theorem IsProbe.low_lt {low high mid : Nat} {m : α} (hmono : StrictMono value) (h : Around xs val low high)
    (hp : IsProbe value xs val low high mid) (hm : xs[mid]? = some m) (hgreater : val < m) : low < mid := by
  obtain ⟨hle, -⟩ := hp.inside hmono h
  obtain ⟨a, -, ha, -, hless, -⟩ := hp
  refine lt_of_le_of_ne hle ?_
  rintro rfl
  rw [ha] at hm
  exact hless.not_gt (Option.some.inj hm ▸ hgreater)

/-- The loop stops at a bracket, and `i` is returned. -/
def Stops (xs : List α) (val : α) (low high i : Nat) : Prop :=
  ∃ a b, xs[low]? = some a ∧ xs[high]? = some b ∧ ¬ (a < val ∧ val < b) ∧
    i = if val = a then low else if val = b then high else low

section Steps
variable (hx : Exact value pred delta) {low high : Nat}
include hx

theorem Exact.eq_zero_iff (a b : α) : pred a b = 0 ↔ a = b := by
  have h1 := hx.neg a b
  have h2 := hx.pos a b
  rcases lt_trichotomy a b with h | h | h
  · have := h1.mpr h
    exact ⟨fun he => by omega, fun he => absurd he h.ne⟩
  · have hn := mt h1.mp h.not_lt
    have hp := mt h2.mp h.not_gt
    exact ⟨fun _ => h, fun _ => by omega⟩
  · have := h2.mpr h
    exact ⟨fun he => by omega, fun he => absurd he h.ne'⟩

theorem search_stop {i : Nat} (h : Stops xs val low high i) (fuel : Nat) :
    search pred delta xs val overflow (fuel + 1) low high = .ok (i : Int) := by
  obtain ⟨a, b, ha, hb, hend, hi⟩ := h
  obtain ⟨hl, rfl⟩ := List.getElem?_eq_some_iff.mp ha
  obtain ⟨hh, rfl⟩ := List.getElem?_eq_some_iff.mp hb
  have hpick : pick pred xs val low high = .ok (i : Int) := by
    unfold pick
    rw [deref_eq hl, deref_eq hh, hi]
    simp only [bind, Except.bind, pure, Except.pure, hx.eq_zero_iff]
    by_cases hvl : val = xs[low]
    · rw [if_pos hvl, if_pos hvl]
    · rw [if_neg hvl, if_neg hvl]
      by_cases hvh : val = xs[high]
      · rw [if_pos hvh, if_pos hvh]
      · rw [if_neg hvh, if_neg hvh]
  rw [search, deref_eq hl, deref_eq hh]
  simp only [bind, Except.bind, hx.neg, gt_iff_lt, hx.pos]
  by_cases hlow : xs[low] < val
  · rw [if_pos hlow, if_neg fun hhigh => hend ⟨hlow, hhigh⟩, hpick]
  · rw [if_neg hlow, hpick]

/-- One round of the loop. -/
theorem search_step (hn : Narrow value xs val) (hs : xs.Pairwise (· ≤ ·)) (h : Around xs val low high) {mid : Nat}
    (hp : IsProbe value xs val low high mid) (fuel : Nat) :
    mid < high ∧ ∃ hm : mid < xs.length,
      (xs[mid] < val ∧ search pred delta xs val overflow (fuel + 1) low high =
        search pred delta xs val overflow fuel (mid + 1 : Nat) high) ∨
      (val < xs[mid] ∧ low < mid ∧ search pred delta xs val overflow (fuel + 1) low high =
        search pred delta xs val overflow fuel low (mid - 1 : Nat)) ∨
      (xs[mid] = val ∧ search pred delta xs val overflow (fuel + 1) low high = .ok (mid : Int)) := by
  obtain ⟨a, b, ha, hb, hl, hh, hmid⟩ := hp
  obtain ⟨_, rfl⟩ := List.getElem?_eq_some_iff.mp ha
  obtain ⟨_, rfl⟩ := List.getElem?_eq_some_iff.mp hb
  have hw := h.width hl hh
  have hle : low ≤ mid := hmid ▸ le_probe _ _ _ _ _
  have hlt : mid < high := hmid ▸ probe_lt hw (hx.mono hl) (hx.mono hh)
  have hm : mid < xs.length := hlt.trans h.lt
  have hgap := hx.mono (hl.trans hh)
  have hdiv : divide (times overflow (delta val (getElem xs low h.low_lt)) (high - low))
      (delta (getElem xs high h.lt) (getElem xs low h.low_lt)) =
      .ok ((mid : Int) - low) := by
    have hpos := add_tdiv hw (hx.mono hl) (hx.mono hh)
    rw [← hmid] at hpos
    unfold divide
    rw [hx.delta, hx.delta, h.fits hx.mono hn hs hl hh, if_neg (by omega), ← hpos, add_sub_cancel_left]
  have hround : search pred delta xs val overflow (fuel + 1) low high =
      if xs[mid] < val then search pred delta xs val overflow fuel ((mid : Int) + 1) high
      else if val < xs[mid] then search pred delta xs val overflow fuel low ((mid : Int) - 1) else .ok (mid : Int) := by
    rw [search, deref_eq h.low_lt, deref_eq h.lt]
    simp only [bind, Except.bind, pure, Except.pure, hx.neg, gt_iff_lt, hx.pos]
    rw [if_pos hl, if_pos hh, hdiv]
    dsimp only
    rw [add_sub_cancel, deref_eq hm]
  refine ⟨hlt, hm, ?_⟩
  rcases lt_trichotomy xs[mid] val with hless | heq | hgreater
  · rw [if_pos hless] at hround
    exact .inl ⟨hless, hround⟩
  · rw [if_neg heq.not_lt, if_neg heq.not_gt] at hround
    exact .inr (.inr ⟨heq, hround⟩)
  · have hne : low ≠ mid := by
      rintro rfl
      exact hl.not_gt hgreater
    rw [if_neg hgreater.not_gt, if_pos hgreater] at hround
    refine .inr (.inl ⟨hgreater, by omega, ?_⟩)
    rw [hround, Int.natCast_sub (by omega)]
    rfl

end Steps

/-! ### The brackets of a search -/

/-- The brackets that the search for `val` comes to. -/
inductive Comes (value : α → Int) (xs : List α) (val : α) : Nat → Nat → Prop
  | whole : Comes value xs val 0 (xs.length - 1)
  | right {low high mid : Nat} {m : α} (h : Comes value xs val low high) (hp : IsProbe value xs val low high mid)
      (hm : xs[mid]? = some m) (hless : m < val) : Comes value xs val (mid + 1) high
  | left {low high mid : Nat} {m : α} (h : Comes value xs val low high) (hp : IsProbe value xs val low high mid)
      (hm : xs[mid]? = some m) (hgreater : val < m) : Comes value xs val low (mid - 1)

/-- The search that is at a bracket returns `i`, with as many rounds left as the bracket is wide. -/
def Returns (overflow : Int → Int) (pred delta : α → α → Int) (xs : List α) (val : α) (low high i : Nat) : Prop :=
  ∀ fuel, high - low < fuel → search pred delta xs val overflow fuel low high = .ok (i : Int)

/-- Where the search stops it has an element, and the value if that is in the array. -/
theorem Stops.finds {low high i : Nat} (hs : xs.Pairwise (· ≤ ·)) (h : Stops xs val low high i)
    (ha : Around xs val low high) : ∃ hi : i < xs.length, val ∈ xs → xs[i] = val := by
  obtain ⟨a, b, hlow, hhigh, hend, hi⟩ := h
  obtain ⟨hl, rfl⟩ := List.getElem?_eq_some_iff.mp hlow
  obtain ⟨hh, rfl⟩ := List.getElem?_eq_some_iff.mp hhigh
  by_cases hvl : val = xs[low]
  · rw [if_pos hvl] at hi
    exact ⟨hi ▸ hl, fun _ => by simp only [hi, ← hvl]⟩
  · rw [if_neg hvl] at hi
    by_cases hvh : val = xs[high]
    · rw [if_pos hvh] at hi
      exact ⟨hi ▸ hh, fun _ => by simp only [hi, ← hvh]⟩
    · rw [if_neg hvh] at hi
      refine ⟨hi ▸ hl, fun hmem => ?_⟩
      obtain ⟨j, hj, heq⟩ := List.getElem_of_mem hmem
      obtain ⟨hlj, hjh⟩ := ha.mem hj heq
      have hle : xs[low] ≤ val := heq ▸ getElem_le hs hlj hj
      have hge : val ≤ xs[high] := heq ▸ getElem_le hs hjh hh
      exact absurd ⟨lt_of_le_of_ne hle (Ne.symm hvl), lt_of_le_of_ne hge hvh⟩ hend

section Brackets
variable (hmono : StrictMono value) (hne : xs ≠ []) (hs : xs.Pairwise (· ≤ ·)) {low high : Nat}
include hmono hne hs

theorem Comes.around (h : Comes value xs val low high) : Around xs val low high := by
  induction h with
  | whole => exact around_whole hne
  | right _ hp hm hless ih =>
    obtain ⟨_, rfl⟩ := List.getElem?_eq_some_iff.mp hm
    exact ih.above hs (hp.inside hmono ih).2 hless
  | left _ hp hm hgreater ih =>
    have hlow := hp.low_lt hmono ih hm hgreater
    obtain ⟨hmid, rfl⟩ := List.getElem?_eq_some_iff.mp hm
    exact ih.below hs hlow hmid hgreater

/-- Of the brackets that the search comes to there is a last one: there it stops, or has the
value under its probe. -/
theorem Comes.exists_last (h : Comes value xs val low high) :
    ∃ l r i, Comes value xs val l r ∧ (Stops xs val l r i ∨ IsProbe value xs val l r i ∧ xs[i]? = some val) := by
  induction hw : high - low using Nat.strong_induction_on generalizing low high with
  | h w ih =>
    have ha := h.around hmono hne hs
    by_cases hopen : getElem xs low ha.low_lt < val ∧ val < getElem xs high ha.lt
    · obtain ⟨mid, hp⟩ : ∃ mid, IsProbe value xs val low high mid := ⟨_, ha.isProbe hopen.1 hopen.2⟩
      obtain ⟨hle, hlt⟩ := hp.inside hmono ha
      have hm := List.getElem?_eq_getElem (hlt.trans ha.lt)
      rcases lt_trichotomy (getElem xs mid (hlt.trans ha.lt)) val with hless | heq | hgreater
      · exact ih _ (by omega) (h.right hp hm hless) rfl
      · exact ⟨low, high, mid, h, .inr ⟨hp, heq ▸ hm⟩⟩
      · have hlow := hp.low_lt hmono ha hm hgreater
        exact ih _ (by omega) (h.left hp hm hgreater) rfl
    · exact ⟨low, high, _, h,
        .inl ⟨_, _, List.getElem?_eq_getElem ha.low_lt, List.getElem?_eq_getElem ha.lt, hopen, rfl⟩⟩

end Brackets

section Run
variable (hx : Exact value pred delta) (hn : Narrow value xs val) (hs : xs.Pairwise (· ≤ ·)) {low high mid i : Nat}
  {m : α}
include hx

theorem Returns.stop (h : Stops xs val low high i) : Returns overflow pred delta xs val low high i := by
  intro fuel hf
  cases fuel with
  | zero => omega
  | succ fuel => exact search_stop hx h fuel

include hn hs

theorem Returns.right (h : Around xs val low high) (hp : IsProbe value xs val low high mid)
    (hm : xs[mid]? = some m) (hless : m < val) (hr : Returns overflow pred delta xs val (mid + 1) high i) :
    Returns overflow pred delta xs val low high i := by
  intro fuel hf
  obtain ⟨_, rfl⟩ := List.getElem?_eq_some_iff.mp hm
  cases fuel with
  | zero => omega
  | succ fuel =>
    obtain ⟨hlt, _, ⟨-, hround⟩ | ⟨hgreater, -⟩ | ⟨heq, -⟩⟩ := search_step hx hn hs h hp fuel
    · have hle : low ≤ mid := by
        obtain ⟨_, _, -, -, -, -, rfl⟩ := hp
        exact le_probe _ _ _ _ _
      rw [hround]
      exact hr fuel (by omega)
    · exact absurd hgreater hless.not_gt
    · exact absurd heq hless.ne

theorem Returns.left (h : Around xs val low high) (hp : IsProbe value xs val low high mid)
    (hm : xs[mid]? = some m) (hgreater : val < m) (hr : Returns overflow pred delta xs val low (mid - 1) i) :
    Returns overflow pred delta xs val low high i := by
  intro fuel hf
  obtain ⟨_, rfl⟩ := List.getElem?_eq_some_iff.mp hm
  cases fuel with
  | zero => omega
  | succ fuel =>
    obtain ⟨hlt, _, ⟨hless, -⟩ | ⟨-, hlow, hround⟩ | ⟨heq, -⟩⟩ := search_step hx hn hs h hp fuel
    · exact absurd hgreater hless.not_gt
    · rw [hround]
      exact hr fuel (by omega)
    · exact absurd heq hgreater.ne'

theorem Returns.found (h : Around xs val low high) (hp : IsProbe value xs val low high mid)
    (hm : xs[mid]? = some val) : Returns overflow pred delta xs val low high mid := by
  intro fuel hf
  obtain ⟨_, heq⟩ := List.getElem?_eq_some_iff.mp hm
  cases fuel with
  | zero => omega
  | succ fuel =>
    obtain ⟨-, _, ⟨hless, -⟩ | ⟨hgreater, -⟩ | ⟨-, hround⟩⟩ := search_step hx hn hs h hp fuel
    · exact absurd heq hless.ne
    · exact absurd heq hgreater.ne'
    · exact hround

/-- What the search returns from a bracket it comes to, it returns. -/
theorem Comes.returns (hne : xs ≠ []) (h : Comes value xs val low high)
    (hr : Returns overflow pred delta xs val low high i) : Returns overflow pred delta xs val 0 (xs.length - 1) i := by
  induction h with
  | whole => exact hr
  | right h hp hm hless ih => exact ih (Returns.right hx hn hs (h.around hx.mono hne hs) hp hm hless hr)
  | left h hp hm hgreater ih => exact ih (Returns.left hx hn hs (h.around hx.mono hne hs) hp hm hgreater hr)

/-- What the search returns from one of its brackets, it returns within as many rounds as the
array has elements. -/
theorem Comes.findBegin_eq (hne : xs ≠ []) (h : Comes value xs val low high)
    (hr : Returns overflow pred delta xs val low high i) {fuel : Nat} (hf : xs.length ≤ fuel) :
    findBegin pred delta xs val overflow fuel = .ok (i : Int) := by
  have hpos := List.length_pos_of_ne_nil hne
  have hrun := h.returns hx hn hs hne hr fuel (by omega)
  rwa [Int.natCast_sub hpos] at hrun

/-- The search ends at the last of its brackets. -/
theorem exists_returns (hne : xs ≠ []) :
    ∃ i low high : Nat, (∀ fuel, xs.length ≤ fuel → findBegin pred delta xs val overflow fuel = .ok (i : Int)) ∧
      Comes value xs val low high ∧ (Stops xs val low high i ∨ xs[i]? = some val) := by
  obtain ⟨low, high, i, h, hlast⟩ := Comes.whole.exists_last hx.mono hne hs
  refine ⟨i, low, high, fun fuel hf => ?_, h, hlast.imp_right And.right⟩
  rcases hlast with hstop | ⟨hp, hfound⟩
  · exact h.findBegin_eq hx hn hs hne (Returns.stop hx hstop) hf
  · exact h.findBegin_eq hx hn hs hne (Returns.found hx hn hs (h.around hx.mono hne hs) hp hfound) hf

end Run

/-- A product that does not fit may send the probe out of the array. -/
theorem search_outside (hx : Exact value pred delta) {a b : α} (ha : xs.head? = some a) (hb : xs.getLast? = some b)
    (hl : a < val) (hh : val < b) (hwide : 2 ^ 63 ≤ (value val - value a) * (xs.length - 1)) (fuel : Nat) :
    findBegin pred delta xs val (fun _ => value a - value b) (fuel + 1) = .error .outside := by
  have hne : xs ≠ [] := by
    rintro rfl
    cases ha
  have hpos := List.length_pos_of_ne_nil hne
  have hlow : deref xs 0 = .ok a := by
    rw [List.head?_eq_getElem?] at ha
    obtain ⟨_, rfl⟩ := List.getElem?_eq_some_iff.mp ha
    exact deref_eq hpos
  have hhigh : deref xs (xs.length - 1 : Int) = .ok b := by
    rw [List.getLast?_eq_getElem?] at hb
    obtain ⟨h, rfl⟩ := List.getElem?_eq_some_iff.mp hb
    rw [← deref_eq h, Int.natCast_sub hpos]
    rfl
  have hd : 0 < value b - value a := sub_pos.mpr (hx.mono (hl.trans hh))
  have hprobe : divide (times (fun _ => value a - value b) (delta val a) (xs.length - 1 - 0)) (delta b a) =
      .ok (-1) := by
    unfold divide times
    rw [hx.delta, hx.delta, sub_zero, if_neg hd.ne', if_neg fun hfit => (not_lt.mpr hwide) hfit.2]
    have hneg : value a - value b = -(value b - value a) := by ring
    show Except.ok ((value a - value b).tdiv (value b - value a)) = _
    rw [hneg, Int.neg_tdiv, Int.tdiv_self hd.ne']
  unfold findBegin
  rw [search, hlow, hhigh]
  simp only [bind, Except.bind, hx.neg, gt_iff_lt, hx.pos]
  rw [if_pos hl, if_pos hh, hprobe]
  rfl

/-- The search ends, in no more rounds than the array has elements, divides by no zero and
dereferences nothing outside of it; what it returns holds the value if anything does. -/
def Finds (pred delta : α → α → Int) (xs : List α) (val : α) (overflow : Int → Int) : Prop :=
  ∃ i : Nat, (∀ fuel, xs.length ≤ fuel → findBegin pred delta xs val overflow fuel = .ok (i : Int)) ∧
    ∃ hi : i < xs.length, val ∈ xs → xs[i] = val

/-- The search of a sorted array does so, whatever comes of a product that does not fit, exactly
when the value is not between the first and the last element or the product of the first round
fits. -/
theorem findBegin_finds_iff (hx : Exact value pred delta) (hne : xs ≠ []) (hs : xs.Pairwise (· ≤ ·)) (val : α) :
    (∀ overflow, Finds pred delta xs val overflow) ↔ Narrow value xs val := by
  constructor
  · intro hall a b ha hb hl hh
    by_contra hwide
    obtain ⟨i, hrun, -⟩ := hall fun _ => value a - value b
    have hout := search_outside hx ha hb hl hh (not_lt.mp hwide) xs.length
    rw [hrun _ (Nat.le_succ _)] at hout
    cases hout
  · intro hn overflow
    obtain ⟨i, low, high, hrun, h, hstop | hfound⟩ := exists_returns hx hn hs hne
    · exact ⟨i, hrun, hstop.finds hs (h.around hx.mono hne hs)⟩
    · obtain ⟨hi, heq⟩ := List.getElem?_eq_some_iff.mp hfound
      exact ⟨i, hrun, hi, fun _ => heq⟩

/-- Three equal elements among others. -/
theorem findBegin_finds_iff_repeated : Finds threeWay (· - ·) [0, 4, 4, 4, 9] (4 : Int) wrap := by
  have hne : [(0 : Int), 4, 4, 4, 9] ≠ [] := List.cons_ne_nil _ _
  refine (findBegin_finds_iff exact_threeWay hne (by decide) 4).mpr (fun a b ha hb _ _ => ?_) wrap
  obtain rfl := Option.some.inj ha
  decide

/-- `2^62 - 1` in `0, 1, 2, 2^62`: three times the difference does not fit, and the probe of two's
complement lies before the array. -/
theorem findBegin_leaves : [0, 1, 2, 2 ^ 62].Pairwise (· ≤ ·) ∧
    ¬ Finds threeWay (· - ·) [0, 1, 2, 2 ^ 62] (2 ^ 62 - 1 : Int) wrap := by
  refine ⟨by decide, ?_⟩
  rintro ⟨i, hrun, -⟩
  have hout : findBegin threeWay (· - ·) [0, 1, 2, 2 ^ 62] (2 ^ 62 - 1 : Int) wrap 4 = .error .outside := by
    decide +kernel
  rw [hrun 4 le_rfl] at hout
  cases hout

/-! ### The first element that is not less -/

/-- `i` is where the first element not less than `val` stands. -/
def FirstFrom (xs : List α) (val : α) (i : Nat) : Prop :=
  ∃ x, xs[i]? = some x ∧ val ≤ x ∧ ∀ j y, j < i → xs[j]? = some y → y < val

/-- `i` is where the first element above `val` stands, and all before it are less. -/
def FirstAbove (xs : List α) (val : α) (i : Nat) : Prop :=
  ∃ x, xs[i]? = some x ∧ val < x ∧ ∀ j y, j < i → xs[j]? = some y → y < val

/-- A search that probes no first element above the value keeps one that is not less. -/
theorem Comes.le_high {low high : Nat} {b : α} (hne : xs ≠ []) (hs : xs.Pairwise (· ≤ ·))
    (hval : val ≤ xs.getLast hne) (h : Comes value xs val low high)
    (hmiss : ∀ low high mid, Comes value xs val low high → IsProbe value xs val low high mid →
      ¬ FirstAbove xs val mid) (hb : xs[high]? = some b) : val ≤ b := by
  induction h generalizing b with
  | whole =>
    rw [← List.getLast?_eq_getElem?, List.getLast?_eq_getLast_of_ne_nil hne] at hb
    exact Option.some.inj hb ▸ hval
  | right _ _ _ _ ih => exact ih hb
  | @left low high mid m h hp hm hgreater ih =>
    by_contra hless
    refine hmiss low high mid h hp ⟨m, hm, hgreater, fun j y hj hy => ?_⟩
    obtain ⟨_, rfl⟩ := List.getElem?_eq_some_iff.mp hy
    obtain ⟨_, rfl⟩ := List.getElem?_eq_some_iff.mp hb
    exact (getElem_le hs (by omega) _).trans_lt (not_le.mp hless)

/-- A place of the value is the first that is not less, where values are distinct. -/
theorem firstFrom_of_eq (hs : xs.Pairwise (· < ·)) {i : Nat} (hi : xs[i]? = some val) : FirstFrom xs val i := by
  refine ⟨val, hi, le_rfl, fun j y hj hy => ?_⟩
  obtain ⟨_, rfl⟩ := List.getElem?_eq_some_iff.mp hi
  obtain ⟨_, rfl⟩ := List.getElem?_eq_some_iff.mp hy
  exact List.pairwise_iff_getElem.mp hs j i _ _ hj

theorem Stops.firstFrom {low high i : Nat} (hs : xs.Pairwise (· < ·)) (h : Stops xs val low high i)
    (ha : Around xs val low high) (hhigh : ∀ b, xs[high]? = some b → val ≤ b) : FirstFrom xs val i := by
  obtain ⟨a, b, hl, hh, hend, hi⟩ := h
  have hle := hhigh b hh
  by_cases hva : val = a
  · rw [if_pos hva] at hi
    exact firstFrom_of_eq hs (hi ▸ hva ▸ hl)
  · rw [if_neg hva] at hi
    by_cases hvb : val = b
    · rw [if_pos hvb] at hi
      exact firstFrom_of_eq hs (hi ▸ hvb ▸ hh)
    · rw [if_neg hvb] at hi
      have hlow : val ≤ a := not_lt.mp fun hless => hend ⟨hless, lt_of_le_of_ne hle hvb⟩
      refine hi ▸ ⟨a, hl, hlow, fun j y hj hy => ?_⟩
      obtain ⟨hjl, rfl⟩ := List.getElem?_eq_some_iff.mp hy
      exact ha.before j hjl hj

/-- With the first element above the value under its probe, the search returns one that is less. -/
theorem FirstAbove.returns_low (hx : Exact value pred delta) (hn : Narrow value xs val) (hs : xs.Pairwise (· ≤ ·))
    {low high mid : Nat} (h : Around xs val low high) (hp : IsProbe value xs val low high mid)
    (hf : FirstAbove xs val mid) : Returns overflow pred delta xs val low high low := by
  obtain ⟨m, hm, hgreater, hbefore⟩ := hf
  obtain ⟨a, -, ha, -, hless, -⟩ := id hp
  have hlow := hp.low_lt hx.mono h hm hgreater
  have hmid := (hp.inside hx.mono h).2.trans h.lt
  have hprev : mid - 1 < xs.length := by omega
  have hlast := hbefore (mid - 1) _ (by omega) (List.getElem?_eq_getElem hprev)
  refine Returns.left hx hn hs h hp hm hgreater (Returns.stop hx ⟨a, _, ha, List.getElem?_eq_getElem hprev, ?_, ?_⟩)
  · exact fun hopen => hopen.2.not_gt hlast
  · rw [if_neg hless.ne', if_neg hlast.ne']

/-- The straight line from the first to the last element passes `val` at the position `i`, rounded down. -/
def Crosses (value : α → Int) (xs : List α) (val : α) (i : Nat) : Prop :=
  ∃ a b, xs.head? = some a ∧ xs.getLast? = some b ∧ a < val ∧ val < b ∧
    i = ((value val - value a) * (xs.length - 1) / (value b - value a)).toNat

/-- The line of an array, or of a part of it, passes the value at the first element above that. A part is what is
left on the side of the value of an element at which the line of the part before passed it. -/
inductive HitsAbove (value : α → Int) (val : α) : List α → Prop
  | here {xs : List α} {i : Nat} (h : Crosses value xs val i) (hf : FirstAbove xs val i) : HitsAbove value val xs
  | right {xs : List α} {i : Nat} {m : α} (h : Crosses value xs val i) (hm : xs[i]? = some m) (hless : m < val)
      (hrest : HitsAbove value val (xs.drop (i + 1))) : HitsAbove value val xs
  | left {xs : List α} {i : Nat} {m : α} (h : Crosses value xs val i) (hm : xs[i]? = some m) (hgreater : val < m)
      (hrest : HitsAbove value val (xs.take i)) : HitsAbove value val xs

section Lines
variable {low high i : Nat}

/-- The line of the part is what the search probes with. -/
theorem crosses_part (h : Around xs val low high) :
    Crosses value (part xs low high) val i ↔ IsProbe value xs val low high (low + i) := by
  have hlen : (part xs low high).length = high + 1 - low := length_part h.lt
  have hle := h.le
  have hhead : (part xs low high).head? = xs[low]? := by
    rw [List.head?_eq_getElem?, getElem?_part hle]
    rfl
  have hlast : (part xs low high).getLast? = xs[high]? := by
    rw [List.getLast?_eq_getElem?, hlen, getElem?_part (by omega)]
    congr 1
    omega
  have hwidth : ((part xs low high).length : Int) - 1 = high - low := by
    rw [hlen]
    omega
  unfold Crosses IsProbe probe
  rw [hhead, hlast, hwidth]
  simp only [Nat.add_left_cancel_iff]

theorem firstAbove_part (h : Around xs val low high) (hi : low + i ≤ high) :
    FirstAbove (part xs low high) val i ↔ FirstAbove xs val (low + i) := by
  unfold FirstAbove
  rw [getElem?_part hi]
  refine exists_congr fun x => and_congr_right fun hx => and_congr_right fun hgreater => ?_
  constructor
  · intro hall j y hj hy
    by_cases hlow : j < low
    · obtain ⟨hjl, rfl⟩ := List.getElem?_eq_some_iff.mp hy
      exact h.before j hjl hlow
    · refine hall (j - low) y (by omega) ?_
      rw [getElem?_part (by omega), Nat.add_sub_cancel' (not_lt.mp hlow)]
      exact hy
  · intro hall j y hj hy
    rw [getElem?_part (by omega)] at hy
    exact hall (low + j) y (by omega) hy

end Lines

section Brackets
variable (hmono : StrictMono value) (hne : xs ≠ []) (hs : xs.Pairwise (· ≤ ·)) {low high mid : Nat}
include hmono hne hs

/-- What a line of the part does that a bracket encloses, one of the array does. -/
theorem Comes.hitsAbove (h : Comes value xs val low high) (hhit : HitsAbove value val (part xs low high)) :
    HitsAbove value val xs := by
  induction h with
  | whole => rwa [part_whole hne] at hhit
  | @right low high mid m h hp hm hless ih =>
    have ha := h.around hmono hne hs
    obtain ⟨hle, hlt⟩ := hp.inside hmono ha
    obtain ⟨i, rfl⟩ := Nat.exists_eq_add_of_le hle
    refine ih (.right ((crosses_part ha).mpr hp) ?_ hless ?_)
    · rwa [getElem?_part hlt.le]
    · rwa [part_right]
  | @left low high mid m h hp hm hgreater ih =>
    have ha := h.around hmono hne hs
    obtain ⟨hle, hlt⟩ := hp.inside hmono ha
    have hlow := hp.low_lt hmono ha hm hgreater
    obtain ⟨i, rfl⟩ := Nat.exists_eq_add_of_le hle
    refine ih (.left ((crosses_part ha).mpr hp) ?_ hgreater ?_)
    · rwa [getElem?_part hlt.le]
    · rwa [part_left (by omega) hlt.le]

/-- Such a line is what one of the brackets is probed with. -/
theorem HitsAbove.exists_probe {ys : List α} (hhit : HitsAbove value val ys) (h : Comes value xs val low high)
    (hys : ys = part xs low high) :
    ∃ low high mid, Comes value xs val low high ∧ IsProbe value xs val low high mid ∧ FirstAbove xs val mid := by
  induction hhit generalizing low high with
  | @here ys i hc hf =>
    subst hys
    have ha := h.around hmono hne hs
    have hp := (crosses_part ha).mp hc
    have hlt := (hp.inside hmono ha).2
    exact ⟨low, high, low + i, h, hp, (firstAbove_part ha hlt.le).mp hf⟩
  | @right ys i m hc hm hless _ ih =>
    subst hys
    have ha := h.around hmono hne hs
    have hp := (crosses_part ha).mp hc
    have hlt := (hp.inside hmono ha).2
    rw [getElem?_part hlt.le] at hm
    exact ih (h.right hp hm hless) (part_right ..)
  | @left ys i m hc hm hgreater _ ih =>
    subst hys
    have ha := h.around hmono hne hs
    have hp := (crosses_part ha).mp hc
    have hlt := (hp.inside hmono ha).2
    rw [getElem?_part hlt.le] at hm
    have hlow := hp.low_lt hmono ha hm hgreater
    exact ih (h.left hp hm hgreater) (part_left (by omega) hlt.le)

end Brackets

/-- The search returns the place of the first element not less than the value. -/
def FindsFirst (pred delta : α → α → Int) (xs : List α) (val : α) (overflow : Int → Int) : Prop :=
  ∃ i : Nat, (∀ fuel, xs.length ≤ fuel → findBegin pred delta xs val overflow fuel = .ok (i : Int)) ∧
    FirstFrom xs val i

/-- Of an array of distinct values and a value that is not above them all it does so, whatever comes of a product
that does not fit, exactly when the product of the first round fits and no line passes the value at the first
element above it: that one is dropped from the bracket. -/
theorem findBegin_firstFrom_iff (hx : Exact value pred delta) (hne : xs ≠ []) (hs : xs.Pairwise (· < ·))
    (hval : val ≤ xs.getLast hne) :
    (∀ overflow, FindsFirst pred delta xs val overflow) ↔ Narrow value xs val ∧ ¬ HitsAbove value val xs := by
  have hle : xs.Pairwise (· ≤ ·) := hs.imp le_of_lt
  constructor
  · intro hall
    have hn : Narrow value xs val := by
      intro a b ha hb hl hh
      by_contra hwide
      obtain ⟨i, hrun, -⟩ := hall fun _ => value a - value b
      have hout := search_outside hx ha hb hl hh (not_lt.mp hwide) xs.length
      rw [hrun _ (Nat.le_succ _)] at hout
      cases hout
    refine ⟨hn, fun hhit => ?_⟩
    obtain ⟨low, high, mid, h, hp, hf⟩ := hhit.exists_probe hx.mono hne hle .whole (part_whole hne).symm
    obtain ⟨i, hrun, x, hxi, hge, -⟩ := hall id
    obtain ⟨a, -, ha, -, hless, -⟩ := id hp
    have hlow : findBegin pred delta xs val id xs.length = .ok (low : Int) :=
      h.findBegin_eq hx hn hle hne (hf.returns_low hx hn hle (h.around hx.mono hne hle) hp) le_rfl
    rw [hrun _ le_rfl] at hlow
    obtain rfl : i = low := by exact_mod_cast Except.ok.inj hlow
    exact absurd hge (not_le.mpr (Option.some.inj (ha.symm.trans hxi) ▸ hless))
  · rintro ⟨hn, hmiss⟩ overflow
    have hprobe : ∀ low high mid, Comes value xs val low high → IsProbe value xs val low high mid →
        ¬ FirstAbove xs val mid := by
      intro low high mid h hp hf
      have ha := h.around hx.mono hne hle
      obtain ⟨hlow, hlt⟩ := hp.inside hx.mono ha
      obtain ⟨i, rfl⟩ := Nat.exists_eq_add_of_le hlow
      exact hmiss (h.hitsAbove hx.mono hne hle
        (.here ((crosses_part ha).mpr hp) ((firstAbove_part ha hlt.le).mpr hf)))
    obtain ⟨i, low, high, hrun, h, hstop | hfound⟩ := exists_returns hx hn hle hne
    · exact ⟨i, hrun, hstop.firstFrom hs (h.around hx.mono hne hle) fun b => h.le_high hne hle hval hprobe⟩
    · exact ⟨i, hrun, firstFrom_of_eq hs hfound⟩

/-- `3` in `0, 2, 4, 6, 7`: the line passes at `2`, and that of `4, 6, 7` does not. -/
theorem findBegin_firstFrom_iff_uneven : FindsFirst threeWay (· - ·) [0, 2, 4, 6, 7] (3 : Int) wrap := by
  have hne : [(0 : Int), 2, 4, 6, 7] ≠ [] := List.cons_ne_nil _ _
  have hval : (3 : Int) ≤ [0, 2, 4, 6, 7].getLast hne := show (3 : Int) ≤ 7 by decide
  refine (findBegin_firstFrom_iff exact_threeWay hne (by decide) hval).mpr ⟨fun a b ha _ _ _ => ?_, ?_⟩ wrap
  · obtain rfl := Option.some.inj ha
    decide
  have hcross : ∀ i, Crosses id [(0 : Int), 2, 4, 6, 7] 3 i → i = 1 := by
    rintro i ⟨a, b, ha, hb, -, -, rfl⟩
    obtain rfl := Option.some.inj ha
    obtain rfl := Option.some.inj hb
    rfl
  rintro (⟨hc, x, hx, hgreater, -⟩ | ⟨hc, hm, -, hrest⟩ | ⟨hc, hm, hgreater, -⟩)
  · obtain rfl := hcross _ hc
    obtain rfl := Option.some.inj hx
    exact absurd hgreater (by decide)
  · obtain rfl := hcross _ hc
    have hend : ∀ i, ¬ Crosses id [(4 : Int), 6, 7] 3 i := by
      rintro i ⟨a, b, ha, -, hl, -⟩
      obtain rfl := Option.some.inj ha
      exact absurd hl (by decide)
    rcases hrest with ⟨h, -⟩ | ⟨h, -⟩ | ⟨h, -⟩
    · exact hend _ h
    · exact hend _ h
    · exact hend _ h
  · obtain rfl := hcross _ hc
    obtain rfl := Option.some.inj hm
    exact absurd hgreater (by decide)

/-- `9` in `0, 1, 10, 11`: the probe falls on `10`, and the search returns the place of `0`. -/
theorem findBegin_returns_less : [0, 1, 10, 11].Pairwise (· < ·) ∧ (9 : Int) ≤ [0, 1, 10, 11].getLast (by decide) ∧
    ¬ FindsFirst threeWay (· - ·) [0, 1, 10, 11] (9 : Int) wrap := by
  refine ⟨by decide, by decide, ?_⟩
  rintro ⟨i, hrun, x, hx, hle, -⟩
  have hzero : findBegin threeWay (· - ·) [0, 1, 10, 11] (9 : Int) wrap 4 = .ok 0 := by decide +kernel
  rw [hrun 4 le_rfl] at hzero
  obtain rfl : i = 0 := by exact_mod_cast Except.ok.inj hzero
  obtain rfl : 0 = x := Option.some.inj hx
  exact absurd hle (by decide)

end Bracket
end Nkvdb.Utils
