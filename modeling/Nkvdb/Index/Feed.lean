import Nkvdb.Index

/-! Writing records to an index.

The buffer is flushed by the record that finds it full, so which records are in the tree
depends on their number alone: `lastFlush` counts them, and writing completes when the
tree takes those (`feed_iff`). -/
namespace Nkvdb.Index

/-- Write records one after the other. -/
def feed : List IndexRecord → Index → Except Fault Index
  | [], ix => .ok ix
  | r :: rs, ix => do
    let ix ← ix.writeIndexRec r
    feed rs ix

theorem feed_append (a b : List IndexRecord) (ix : Index) : ix.feed (a ++ b) = ix.feed a >>= feed b := by
  induction a generalizing ix with
  | nil => rfl
  | cons r a ih =>
    simp only [List.cons_append, feed, bind, Except.bind]
    cases ix.writeIndexRec r with
    | error e => rfl
    | ok ix => exact ih ix

theorem feed_one (r : IndexRecord) (ix : Index) : ix.feed [r] = ix.writeIndexRec r := by
  simp only [feed, bind, Except.bind]
  cases ix.writeIndexRec r <;> rfl

theorem Logged.feed_fault {size : Nat} {recs new : List IndexRecord} {ix : Index} {e : Fault}
    (h : Logged size recs ix) (hf : ix.feed new = .error e) : e = .cacheIsFull ∨ e = .nullNode := by
  induction new generalizing recs ix with
  | nil => cases hf
  | cons r new ih =>
    cases hw : ix.writeIndexRec r with
    | error e' =>
      simp only [Index.feed, hw, bind, Except.bind, Except.error.injEq] at hf
      exact hf ▸ h.writeIndexRec_fault hw
    | ok ix₁ =>
      simp only [Index.feed, hw, bind, Except.bind] at hf
      exact ih (h.writeIndexRec hw).1 hf

theorem Logged.feed {size : Nat} {recs new : List IndexRecord} {ix ix' : Index} (h : Logged size recs ix)
    (hf : ix.feed new = .ok ix') : Logged size (recs ++ new) ix' ∧ ix'.cacheSize = ix.cacheSize := by
  induction new generalizing recs ix with
  | nil =>
    obtain rfl : ix = ix' := by simpa [Index.feed] using hf
    rw [List.append_nil]
    exact ⟨h, rfl⟩
  | cons r new ih =>
    obtain ⟨ix₁, h₁, h₂⟩ := bind_ok hf
    obtain ⟨hl, hc⟩ := h.writeIndexRec h₁
    obtain ⟨hl', hc'⟩ := ih hl h₂
    rw [List.append_assoc] at hl'
    exact ⟨hl', hc'.trans hc⟩

/-! ### Writing, then flushing -/

theorem flush_ok_iff {ix ix' : Index} :
    ix.flush = .ok ix' ↔ ∃ t, ix.tree.insertAll (keyed ix.cache) = .ok t ∧ ix' = ⟨ix.cacheSize, [], t⟩ := by
  unfold Index.flush
  split
  next hnil =>
    constructor
    · intro h
      obtain rfl := Except.ok.inj h
      exact ⟨ix.tree, by rw [hnil]; rfl, by rw [← hnil]⟩
    · rintro ⟨t, ht, rfl⟩
      rw [hnil] at ht
      obtain rfl := Except.ok.inj ht
      rw [← hnil]
  next =>
    cases ht : ix.tree.insertAll (keyed ix.cache) with
    | error e => simp
    | ok t => simp [eq_comm]

/-- However often the buffer is flushed on the way, the tree takes what was buffered and then
the records. -/
theorem feed_flush_iff {recs : List IndexRecord} {ix ix' : Index} : ix.feed recs >>= Index.flush = .ok ix' ↔
    ∃ t, ix.tree.insertAll (keyed (ix.cache ++ recs)) = .ok t ∧ ix' = ⟨ix.cacheSize, [], t⟩ := by
  induction recs generalizing ix with
  | nil =>
    rw [List.append_nil]
    exact flush_ok_iff
  | cons r recs ih =>
    have hpush : ∀ ix₁ : Index, ({ix₁ with cache := ix₁.cache ++ [r]} : Index).feed recs >>= Index.flush = .ok ix' ↔
        ∃ t, ix₁.tree.insertAll (keyed (ix₁.cache ++ r :: recs)) = .ok t ∧ ix' = ⟨ix₁.cacheSize, [], t⟩ := by
      intro ix₁
      rw [ih, List.append_assoc]
      rfl
    show ((ix.writeIndexRec r >>= feed recs) >>= Index.flush) = _ ↔ _
    unfold Index.writeIndexRec
    by_cases hfull : ix.cache.length = ix.cacheSize
    · rw [if_pos hfull, keyed_append, insertAll_append]
      cases hf : ix.flush with
      | error e =>
        have hbad : ∀ t, ix.tree.insertAll (keyed ix.cache) ≠ .ok t := by
          intro t ht
          rw [flush_ok_iff.mpr ⟨t, ht, rfl⟩] at hf
          cases hf
        constructor
        · intro h
          cases h
        · rintro ⟨t, ht, -⟩
          obtain ⟨t₁, ht₁, -⟩ := bind_ok ht
          exact absurd ht₁ (hbad t₁)
      | ok ix₁ =>
        obtain ⟨t₁, ht₁, rfl⟩ := flush_ok_iff.mp hf
        rw [ht₁]
        exact hpush ⟨ix.cacheSize, [], t₁⟩
    · rw [if_neg hfull]
      exact hpush ix

/-! ### Which records are in the tree -/

/-- The tree of an index file of `size` nodes takes the first `done` of the records. -/
def Takes (size : Nat) (recs : List IndexRecord) (done : Nat) : Prop :=
  ∃ t, (BTree.init size : IndexTree).insertAll (keyed (recs.take done)) = .ok t

theorem Takes.zero (size : Nat) (recs : List IndexRecord) : Takes size recs 0 := ⟨BTree.init size, rfl⟩

/-- A tree that takes records takes fewer of them. -/
theorem Takes.le {size d e : Nat} {recs new : List IndexRecord} (h : Takes size (recs ++ new) e) (hd : d ≤ e)
    (hr : d ≤ recs.length) : Takes size recs d := by
  obtain ⟨t, ht⟩ := h
  have htake : recs.take d = ((recs ++ new).take e).take d := by
    rw [List.take_take, Nat.min_eq_left hd, List.take_append_of_le_length hr]
  have hsplit := List.take_append_drop d ((recs ++ new).take e)
  rw [← hsplit, keyed_append, insertAll_append] at ht
  obtain ⟨t₁, h₁, -⟩ := bind_ok ht
  exact ⟨t₁, by rw [htake]; exact h₁⟩

/-- `recs` are the records written to an index that began with a file of `size` nodes:
the first `done` of them are in the tree, the others are buffered. -/
structure Kept (cacheSize size : Nat) (recs : List IndexRecord) (done : Nat) (ix : Index) : Prop where
  cacheSize : ix.cacheSize = cacheSize
  le : done ≤ recs.length
  tree : (BTree.init size : IndexTree).insertAll (keyed (recs.take done)) = .ok ix.tree
  cache : ix.cache = recs.drop done

/-- How many records are in the tree after `k` more, with `total` written before and
`done` of them in the tree. -/
def lastFlush (cacheSize : Nat) : Nat → Nat → Nat → Nat
  | _, done, 0 => done
  | total, done, k + 1 => lastFlush cacheSize (total + 1) (if total - done = cacheSize then total else done) k

theorem lastFlush_bounds (cacheSize : Nat) {total done : Nat} (k : Nat) (h : done ≤ total) :
    done ≤ lastFlush cacheSize total done k ∧ lastFlush cacheSize total done k ≤ total + k := by
  induction k generalizing total done with
  | zero => exact ⟨le_rfl, h⟩
  | succ k ih =>
    have hstep : done ≤ (if total - done = cacheSize then total else done) ∧
        (if total - done = cacheSize then total else done) ≤ total := by
      split
      · exact ⟨h, le_rfl⟩
      · exact ⟨le_rfl, h⟩
    have hle : (if total - done = cacheSize then total else done) ≤ total + 1 := Nat.le_succ_of_le hstep.2
    have := ih hle
    rw [lastFlush]
    omega

theorem lastFlush_add (cacheSize : Nat) (total done a b : Nat) :
    lastFlush cacheSize total done (a + b) =
      lastFlush cacheSize (total + a) (lastFlush cacheSize total done a) b := by
  induction a generalizing total done with
  | zero => rw [Nat.zero_add, Nat.add_zero, lastFlush]
  | succ a ih => rw [Nat.succ_add, lastFlush, lastFlush, ih, Nat.add_assoc, Nat.add_comm 1 a]

namespace Kept
variable {cacheSize size done : Nat} {recs : List IndexRecord} {ix ix' : Index}

theorem create (cacheSize fsize : Nat) :
    Kept cacheSize (fsize / (treeN * treeN)) [] 0 (Index.create cacheSize fsize) :=
  ⟨rfl, le_rfl, rfl, rfl⟩

theorem logged (h : Kept cacheSize size recs done ix) : Logged size recs ix :=
  ⟨recs.take done, h.tree, by rw [h.cache, List.take_append_drop]⟩

theorem takes (h : Kept cacheSize size recs done ix) : Takes size recs done := ⟨ix.tree, h.tree⟩

/-- The records and their number in the tree determine the index. -/
theorem unique (h : Kept cacheSize size recs done ix) (h' : Kept cacheSize size recs done ix') : ix = ix' := by
  have htree : ix.tree = ix'.tree := Except.ok.inj (h.tree.symm.trans h'.tree)
  cases ix
  cases ix'
  have hs := h.cacheSize.trans h'.cacheSize.symm
  have hc := h.cache.trans h'.cache.symm
  simp only at htree hs hc
  rw [htree, hs, hc]

theorem exists_of_takes (cacheSize : Nat) (hd : done ≤ recs.length) (h : Takes size recs done) :
    ∃ ix, Kept cacheSize size recs done ix := by
  obtain ⟨t, ht⟩ := h
  exact ⟨⟨cacheSize, recs.drop done, t⟩, rfl, hd, ht, rfl⟩

theorem flush_iff (h : Kept cacheSize size recs done ix) :
    ix.flush = .ok ix' ↔ Kept cacheSize size recs recs.length ix' := by
  have hok : ∀ ix₁, ix.flush = .ok ix₁ → Kept cacheSize size recs recs.length ix₁ := by
    intro ix₁ hf
    obtain ⟨ht, hc, hs⟩ := h.logged.flush_ok hf
    exact ⟨hs.trans h.cacheSize, le_rfl, by rw [List.take_length]; exact ht, by rw [hc, List.drop_length]⟩
  constructor
  · exact hok ix'
  · intro h'
    have ht := h'.tree
    rw [List.take_length] at ht
    obtain ⟨ix₁, hf⟩ := h.logged.flush_iff.mpr ⟨ix'.tree, ht⟩
    rw [hf, (hok ix₁ hf).unique h']

theorem push_iff (r : IndexRecord) (hd : done ≤ recs.length) :
    Kept cacheSize size recs done ix ↔
      Kept cacheSize size (recs ++ [r]) done {ix with cache := ix.cache ++ [r]} := by
  constructor
  · intro h
    refine ⟨h.cacheSize, ?_, ?_, ?_⟩
    · rw [List.length_append]
      omega
    · rw [List.take_append_of_le_length hd]
      exact h.tree
    · rw [List.drop_append_of_le_length hd]
      exact congrArg (· ++ [r]) h.cache
  · intro h
    have ht := h.tree
    have hc := h.cache
    rw [List.take_append_of_le_length hd] at ht
    rw [List.drop_append_of_le_length hd] at hc
    exact ⟨h.cacheSize, hd, ht, List.append_cancel_right hc⟩

theorem writeIndexRec_iff (h : Kept cacheSize size recs done ix) (r : IndexRecord) :
    ix.writeIndexRec r = .ok ix' ↔
      Kept cacheSize size (recs ++ [r]) (if recs.length - done = cacheSize then recs.length else done) ix' := by
  have hlen : ix.cache.length = recs.length - done := by rw [h.cache, List.length_drop]
  -- the index that the record is pushed to
  have hpush : ∀ {d : Nat} {x : Except Fault Index}, d ≤ recs.length →
      (∀ ix₁, x = .ok ix₁ ↔ Kept cacheSize size recs d ix₁) →
      ((x.bind fun ix₁ => .ok {ix₁ with cache := ix₁.cache ++ [r]}) = .ok ix' ↔
        Kept cacheSize size (recs ++ [r]) d ix') := by
    intro d x hd hx
    constructor
    · intro hb
      obtain ⟨ix₁, h₁, h₂⟩ := bind_ok hb
      rw [← Except.ok.inj h₂]
      exact (push_iff r hd).mp ((hx ix₁).mp h₁)
    · intro hk
      obtain ⟨ix₁, hk₁⟩ : ∃ ix₁, Kept cacheSize size recs d ix₁ :=
        exists_of_takes cacheSize hd (hk.takes.le le_rfl hd)
      rw [(hx ix₁).mpr hk₁, hk.unique ((push_iff r hd).mp hk₁)]
      rfl
  unfold Index.writeIndexRec
  rw [hlen, h.cacheSize]
  by_cases hfull : recs.length - done = cacheSize
  · rw [if_pos hfull, if_pos hfull]
    exact hpush le_rfl fun ix₁ => h.flush_iff
  · rw [if_neg hfull, if_neg hfull]
    refine hpush h.le fun ix₁ => ⟨fun he => ?_, fun hk => ?_⟩
    · rw [← Except.ok.inj he]
      exact h
    · rw [h.unique hk]

theorem feed_iff (h : Kept cacheSize size recs done ix) (new : List IndexRecord) :
    ix.feed new = .ok ix' ↔
      Kept cacheSize size (recs ++ new) (lastFlush cacheSize recs.length done new.length) ix' := by
  induction new generalizing recs done ix with
  | nil =>
    rw [List.append_nil]
    constructor
    · intro he
      rw [← Except.ok.inj he]
      exact h
    · intro hk
      exact congrArg _ (h.unique hk)
  | cons r new ih =>
    have hd : (if recs.length - done = cacheSize then recs.length else done) ≤ recs.length := by
      split
      · exact le_rfl
      · exact h.le
    have hnext : ∀ {ix₁}, ix.writeIndexRec r = .ok ix₁ → (ix₁.feed new = .ok ix' ↔
        Kept cacheSize size (recs ++ r :: new) (lastFlush cacheSize recs.length done (r :: new).length) ix') := by
      intro ix₁ hw
      rw [ih ((h.writeIndexRec_iff r).mp hw), List.append_assoc, List.length_append]
      rfl
    constructor
    · intro hf
      obtain ⟨ix₁, hw, hf⟩ := bind_ok hf
      exact (hnext hw).mp hf
    · intro hk
      have hle := (lastFlush_bounds cacheSize new.length (Nat.le_succ_of_le hd)).1
      have hlen : (if recs.length - done = cacheSize then recs.length else done) ≤ (recs ++ [r]).length := by
        rw [List.length_append]
        omega
      have hall : Takes size ((recs ++ [r]) ++ new) (lastFlush cacheSize recs.length done (r :: new).length) := by
        rw [List.append_assoc]
        exact hk.takes
      obtain ⟨ix₁, hk₁⟩ := exists_of_takes cacheSize hlen (hall.le hle hlen)
      have hw := (h.writeIndexRec_iff r).mpr hk₁
      show (ix.writeIndexRec r >>= feed new) = _
      rw [hw]
      exact (hnext hw).mpr hk

end Kept
end Nkvdb.Index
