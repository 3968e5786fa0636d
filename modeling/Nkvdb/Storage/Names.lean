import Mathlib

/-! The names of page files (`PageManager::getNewPageUniqueName`, `utils::ls`).

A page file is named by the time it is made at and a number, and its index and window files by its name
and a letter. The number is the first one whose name no file has; the clock may say what it likes. -/
namespace Nkvdb

/-- The name tried at the time `now`, relative to `m_path`. -/
def pageName (now : Int) (suffix : Fin (2 ^ 32)) : String :=
  toString now ++ "_" ++ toString suffix.val ++ ".page"

/-- `Page::index_fileName`. -/
def indexFileName (fname : String) : String := fname ++ "i"

/-- `Page::writewindow_fileName`. -/
def writewindowFileName (fname : String) : String := fname ++ "w"

/-- `path::extension`, of a name that is not all dots: from the last dot on. -/
def extension (fname : String) : String :=
  if '.' ∈ fname.toList then String.ofList ('.' :: (fname.toList.reverse.takeWhile (· ≠ '.')).reverse) else ""

/-- The loop of `getNewPageUniqueName`. The clock is read in each turn. -/
def nameLoop (clock : Nat → Int) (taken : String → Bool) : Nat → Nat → Fin (2 ^ 32) → String → Option String
  | 0, _, _, _ => none
  | fuel + 1, turn, suffix, pagePath =>
    if pagePath.length ≠ 0 ∧ taken pagePath = false then some pagePath
    else nameLoop clock taken fuel (turn + 1) (suffix + 1) (pageName (clock turn) suffix)

/-- The loop from its start, among the names of a directory. A turn more than there are names is enough. -/
def freeName (clock : Nat → Int) (entries : List String) : Option String :=
  nameLoop clock (fun n => decide (n ∈ entries)) (entries.length + 2) 0 0 ""

/-! ### Names apart -/

theorem toList_pageName (now : Int) (suffix : Fin (2 ^ 32)) : (pageName now suffix).toList =
    (toString now).toList ++ '_' :: (Nat.toDigits 10 suffix.val ++ ".page".toList) := by
  simp [pageName, Nat.toString_eq_repr, Nat.toList_repr]

theorem underscore_not_in_time (now : Int) : '_' ∉ (toString now).toList := by
  cases now with
  | ofNat n =>
    show '_' ∉ (toString n).toList
    rw [Nat.toString_eq_repr, Nat.toList_repr]
    exact Nat.underscore_not_in_toDigits
  | negSucc n =>
    show '_' ∉ ("-" ++ toString (n + 1)).toList
    rw [String.toList_append, Nat.toString_eq_repr, Nat.toList_repr]
    intro h
    rcases List.mem_append.mp h with h | h
    · exact absurd h (by decide)
    · exact Nat.underscore_not_in_toDigits h

/-- What stands before the first mark, and after it. -/
theorem append_cons_inj {α : Type} {a a' b b' : List α} {x : α} (ha : x ∉ a) (ha' : x ∉ a')
    (h : a ++ x :: b = a' ++ x :: b') : a = a' ∧ b = b' := by
  induction a generalizing a' with
  | nil =>
    cases a' with
    | nil => exact ⟨rfl, (List.cons.inj h).2⟩
    | cons y a' => exact absurd ((List.cons.inj h).1 ▸ List.mem_cons_self) ha'
  | cons z a ih =>
    cases a' with
    | nil => exact absurd ((List.cons.inj h).1 ▸ List.mem_cons_self) ha
    | cons y a' =>
      obtain ⟨rfl, htail⟩ := List.cons.inj h
      obtain ⟨rfl, rfl⟩ := ih (fun hm => ha (List.mem_cons_of_mem _ hm))
        (fun hm => ha' (List.mem_cons_of_mem _ hm)) htail
      exact ⟨rfl, rfl⟩

/-- Names with different numbers differ, at whatever times they are made. -/
theorem pageName_suffix {now now' : Int} {suffix suffix' : Fin (2 ^ 32)}
    (h : pageName now suffix = pageName now' suffix') : suffix = suffix' := by
  have hlist := congrArg String.toList h
  rw [toList_pageName, toList_pageName] at hlist
  obtain ⟨-, hlist⟩ := append_cons_inj (underscore_not_in_time now) (underscore_not_in_time now') hlist
  have hdigits := congrArg (fun digits => Nat.ofDigitChars 10 digits 0) (List.append_cancel_right hlist)
  simp only [Nat.ofDigitChars_ten_toDigits] at hdigits
  exact Fin.ext hdigits

theorem pageName_ne_empty (now : Int) (suffix : Fin (2 ^ 32)) : pageName now suffix ≠ "" := by
  intro h
  have hlist := congrArg String.toList h
  rw [toList_pageName] at hlist
  exact List.cons_ne_nil _ _ (List.append_eq_nil_iff.mp hlist).2

/-! ### What is listed -/

theorem extension_of_append {fname : String} {a b : List Char} (h : fname.toList = a ++ '.' :: b) (hb : '.' ∉ b) :
    extension fname = String.ofList ('.' :: b) := by
  have hmem : '.' ∈ fname.toList := by
    rw [h]
    exact List.mem_append_right _ List.mem_cons_self
  have hlast : fname.toList.reverse.takeWhile (· ≠ '.') = b.reverse := by
    have hall : ∀ c, c ∈ b.reverse → decide (c ≠ '.') = true := by
      intro c hc
      refine decide_eq_true ?_
      rintro rfl
      exact hb (List.mem_reverse.mp hc)
    rw [h, List.reverse_append, List.reverse_cons, List.append_assoc, List.singleton_append,
      List.takeWhile_append_of_pos hall, List.takeWhile_cons_of_neg (by decide), List.append_nil]
  unfold extension
  rw [if_pos hmem, hlast, List.reverse_reverse]

/-- A name of a page file. -/
def IsPageName (fname : String) : Prop := ∃ now suffix, fname = pageName now suffix

section
variable {fname fname' : String}

theorem IsPageName.toList (h : IsPageName fname) : ∃ a, fname.toList = a ++ ".page".toList := by
  obtain ⟨now, suffix, rfl⟩ := h
  exact ⟨_, by rw [toList_pageName, List.append_cons, ← List.append_assoc]⟩

/-- Page files are listed, and the files that belong to them are not. -/
theorem IsPageName.extension (h : IsPageName fname) : extension fname = ".page" ∧
    extension (indexFileName fname) ≠ ".page" ∧ extension (writewindowFileName fname) ≠ ".page" := by
  obtain ⟨a, ha⟩ := h.toList
  refine ⟨(extension_of_append ha (by decide)).trans (by decide), ?_, ?_⟩
  · have hi : (indexFileName fname).toList = a ++ '.' :: "pagei".toList := by
      rw [indexFileName, String.toList_append, ha, List.append_assoc]
      rfl
    rw [extension_of_append hi (by decide)]
    decide
  · have hw : (writewindowFileName fname).toList = a ++ '.' :: "pagew".toList := by
      rw [writewindowFileName, String.toList_append, ha, List.append_assoc]
      rfl
    rw [extension_of_append hw (by decide)]
    decide

end

/-! ### The name found -/

/-- Of more names than are used, one is not. -/
theorem exists_unused {α : Type} [DecidableEq α] (used : List α) (name : Nat → α)
    (hinj : ∀ i j, i ≤ used.length → j ≤ used.length → name i = name j → i = j) :
    ∃ k, k ≤ used.length ∧ name k ∉ used := by
  by_contra hall
  have hmem : ∀ k, k ≤ used.length → name k ∈ used := by
    intro k hk
    by_contra hne
    exact hall ⟨k, hk, hne⟩
  have hnodup : ((List.range (used.length + 1)).map name).Nodup :=
    (List.nodup_range).map_on fun i hi j hj he => hinj i j (by rw [List.mem_range] at hi; omega)
      (by rw [List.mem_range] at hj; omega) he
  have hsub : ((List.range (used.length + 1)).map name) ⊆ used := by
    intro x hx
    obtain ⟨k, hk, rfl⟩ := List.mem_map.mp hx
    rw [List.mem_range] at hk
    exact hmem k (by omega)
  have hlen := (hnodup.subperm hsub).length_le
  rw [List.length_map, List.length_range] at hlen
  omega

section
variable {clock : Nat → Int} {taken : String → Bool} {fuel turn : Nat} {suffix : Fin (2 ^ 32)} {pagePath name : String}

theorem nameLoop_ok (h : nameLoop clock taken fuel turn suffix pagePath = some name)
    (hp : pagePath = "" ∨ IsPageName pagePath) : IsPageName name ∧ taken name = false := by
  induction fuel generalizing turn suffix pagePath with
  | zero => cases h
  | succ fuel ih =>
    unfold nameLoop at h
    split at h
    · next hfree =>
      obtain rfl := Option.some.inj h
      rcases hp with rfl | hp
      · exact absurd rfl hfree.1
      · exact ⟨hp, hfree.2⟩
    · exact ih h (.inr ⟨_, _, rfl⟩)

/-- The loop comes to a name that is not taken if there is one within its turns. -/
theorem nameLoop_finds (k : Nat) (hk : turn + k < 2 ^ 32) (hs : suffix.val = turn) (hf : k + 1 < fuel)
    (hfree : taken (pageName (clock (turn + k)) (Fin.ofNat (2 ^ 32) (turn + k))) = false) :
    ∃ name, nameLoop clock taken fuel turn suffix pagePath = some name := by
  induction k generalizing fuel turn suffix pagePath with
  | zero =>
    obtain ⟨fuel, rfl⟩ : ∃ n, fuel = n + 2 := ⟨fuel - 2, by omega⟩
    have hsuffix : suffix = Fin.ofNat (2 ^ 32) turn := Fin.ext (hs.trans (Nat.mod_eq_of_lt hk).symm)
    rw [Nat.add_zero, ← hsuffix] at hfree
    unfold nameLoop
    split
    · exact ⟨_, rfl⟩
    · unfold nameLoop
      have hne : (pageName (clock turn) suffix).length ≠ 0 := fun h0 =>
        pageName_ne_empty _ _ (String.length_eq_zero_iff.mp h0)
      rw [if_pos ⟨hne, hfree⟩]
      exact ⟨_, rfl⟩
  | succ k ih =>
    obtain ⟨fuel, rfl⟩ : ∃ n, fuel = n + 1 := ⟨fuel - 1, by omega⟩
    have hnext : (suffix + 1).val = turn + 1 := by
      rw [Fin.val_add, hs]
      show (turn + 1) % 2 ^ 32 = turn + 1
      exact Nat.mod_eq_of_lt (by omega)
    have hsum : turn + (k + 1) = turn + 1 + k := by omega
    unfold nameLoop
    split
    · exact ⟨_, rfl⟩
    · rw [hsum] at hfree hk
      exact ih hk hnext (by omega) hfree

end

theorem freeName_ok {clock : Nat → Int} {entries : List String} {name : String}
    (h : freeName clock entries = some name) : IsPageName name ∧ name ∉ entries := by
  obtain ⟨hpage, hnot⟩ := nameLoop_ok h (.inl rfl)
  exact ⟨hpage, of_decide_eq_false hnot⟩

/-- Fewer files than there are numbers leave a name, and the loop comes to it. -/
theorem freeName_finds (clock : Nat → Int) {entries : List String} (hlt : entries.length < 2 ^ 32) :
    ∃ name, freeName clock entries = some name := by
  obtain ⟨k, hk, hfree⟩ := exists_unused entries (fun k => pageName (clock k) (Fin.ofNat (2 ^ 32) k)) (by
    intro i j hi hj he
    have hval := congrArg Fin.val (pageName_suffix he)
    rwa [Fin.val_ofNat, Fin.val_ofNat, Nat.mod_eq_of_lt (by omega), Nat.mod_eq_of_lt (by omega)] at hval)
  unfold freeName
  exact nameLoop_finds k (by omega) rfl (by omega) (decide_eq_false (by rwa [Nat.zero_add]))

end Nkvdb
