import Nkvdb.BTree.Growth
import Nkvdb.BTree.Sequence

/-! Where the leaves of a tree begin.

After inserts of distinct keys the leaves are cut apart at the keys that the levels raise, so
which pairs a search has before it, in the leaf it ends at and behind the links of that, depends
on these keys alone (`insertAll_reaches`). -/
namespace Nkvdb.BTree
variable {K V : Type} {N : Nat} [LinearOrder K] [Inhabited K] [Inhabited V]

/-- No cut lies above `x` and not above `k`. -/
def NoCut (cuts : List K) (x k : K) : Prop := ∀ c, c ∈ cuts → x < c → k < c

instance (cuts : List K) (x k : K) : Decidable (NoCut cuts x k) := List.decidableBAll _ cuts

omit [Inhabited K] [Inhabited V] in
theorem NoCut.of_le {cuts : List K} {x k : K} (h : k ≤ x) : NoCut cuts x k :=
  fun _ _ hx => lt_of_le_of_lt h hx

/-- What a search for `k` comes by: the leaf it ends at and those linked behind it. -/
structure Reaches (kvs : List (K × V)) (cuts : List K) (k : K) (leaf : Nat) (rest : List Nat) (t : BTree K V N) :
    Prop where
  found : t.findNode k = .ok leaf
  leaves : Leaves t leaf (leaf :: rest)
  reached : ∀ kv, kv ∈ t.records (leaf :: rest) ↔ kv ∈ kvs ∧ NoCut cuts kv.1 k
  above : ∀ kv, kv ∈ t.records rest → k < kv.1

section
variable {ht : Nat → Nat} {lo : Nat → WithBot K} {hi : Nat → WithTop K} {level : Nat → List K} {t : BTree K V N}
  {kvs : List (K × V)} {l : List Nat}

omit [Inhabited K] [Inhabited V] in
/-- No cut separates the keys that one leaf answers for. -/
theorem Refines.noCut (hr : Refines ht lo hi level t) {i : Nat} (hi' : t.Made i) (h0 : ht i = 0) {x k : K}
    (hx : Answers lo hi x i) (hk : Answers lo hi k i) : NoCut (level 1) x k := by
  intro c hc hlt
  rcases hr.cut i hi' c (by rwa [h0]) with hle | hle
  · have hcx : (c : WithBot K) ≤ x := hle.trans hx.1
    exact absurd hlt (not_lt.mpr (WithBot.coe_le_coe.mp hcx))
  · exact WithTop.coe_lt_coe.mp (lt_of_lt_of_le hk.2 hle)

/-- The search of a tree whose levels are known. -/
theorem Refines.reaches (hr : Refines ht lo hi level t) (ho : Ordered lo hi t) (h : Shape ht 0 t) (hN : 2 ≤ N)
    (hc : Chain t l) (hp : (t.records l).Perm kvs) (k : K) :
    ∃ leaf rest, Reaches kvs (level 1) k leaf rest t ∧ leaf :: rest <:+ l := by
  obtain ⟨leaf, he, hm, hl, hans⟩ := ho.arranged.findNode h hN k
  obtain ⟨xs, ys, rfl⟩ := List.append_of_mem ((hc.leaves leaf).mpr ⟨hm, hl⟩)
  have hlinks : Leaves t leaf (leaf :: ys) := hc.leavesOf.suffix
  have hsplit : t.records (xs ++ leaf :: ys) = t.records xs ++ t.records (leaf :: ys) := List.flatMap_append
  have hkvs : ∀ kv, kv ∈ kvs ↔ kv ∈ t.records xs ∨ kv ∈ t.records (leaf :: ys) := by
    intro kv
    rw [← hp.mem_iff, hsplit, List.mem_append]
  -- what is linked behind the leaf begins where the leaf ends
  have habove : ∀ kv, kv ∈ t.records ys → k < kv.1 := by
    intro kv hkv
    obtain ⟨y, hy, j, hj, rfl⟩ := mem_records.mp hkv
    obtain ⟨c, hc', hle⟩ := hlinks.apart ho.arranged h hN hy
    have hlo := (ho.range y (hlinks.leaves y (List.mem_cons_of_mem _ hy)).1).above j hj
    have hkc := hans.2
    rw [hc'] at hkc
    exact lt_of_lt_of_le (WithTop.coe_lt_coe.mp hkc) (WithBot.coe_le_coe.mp (hle.trans hlo))
  -- and a leaf before it ends at a cut
  have hbefore : ∀ kv, kv ∈ t.records xs → ¬ NoCut (level 1) kv.1 k := by
    intro kv hkv hno
    obtain ⟨x, hx, j, hj, rfl⟩ := mem_records.mp hkv
    obtain ⟨as, bs, rfl⟩ := List.append_of_mem hx
    have hlx : Leaves t x (x :: (bs ++ leaf :: ys)) := by
      have := hc.leavesOf
      rw [List.append_assoc] at this
      exact this.suffix
    obtain ⟨hmx, hleaf⟩ := hlx.leaves x List.mem_cons_self
    obtain ⟨c, hc', hle⟩ := hlx.apart ho.arranged h hN (List.mem_append_right _ List.mem_cons_self)
    have hbelow := (ho.range x hmx).below j hj
    rw [hc'] at hbelow
    have hcut : c ∈ level 1 := by
      rcases hr.ends x hmx with htop | ⟨c', hmem, he'⟩
      · rw [htop] at hc'
        cases hc'
      · rw [(h.leaf x hmx).mp hleaf] at hmem
        rw [he'] at hc'
        rwa [← WithTop.coe_inj.mp hc']
    have hck : c ≤ k := WithBot.coe_le_coe.mp (hle.trans hans.1)
    exact absurd (hno c hcut (WithTop.coe_lt_coe.mp hbelow)) (not_lt.mpr hck)
  refine ⟨leaf, ys, ⟨he, hlinks, fun kv => ⟨fun hkv => ⟨(hkvs kv).mpr (.inr hkv), ?_⟩, ?_⟩, habove⟩,
    List.suffix_append ..⟩
  · have hcons : t.records (leaf :: ys) = (t.cache leaf).live ++ t.records ys := rfl
    rw [hcons] at hkv
    rcases List.mem_append.mp hkv with hmem | hmem
    · obtain ⟨j, hj, rfl⟩ := Slots.mem_live.mp hmem
      exact hr.noCut hm ((h.leaf leaf hm).mp hl) (ho.arranged.answers_slot hm hj) hans
    · exact NoCut.of_le (habove kv hmem).le
  · rintro ⟨hkv, hno⟩
    exact ((hkvs kv).mp hkv).resolve_left fun hmem => hbefore kv hmem hno

end

/-- What a search comes by after any inserts of distinct keys: the pairs that no cut separates
from its key. -/
theorem insertAll_reaches (hN : 2 ≤ N) (cacheSize : Nat) {kvs : List (K × V)} (hd : (kvs.map Prod.fst).Nodup)
    {t : BTree K V N} (hok : (BTree.init cacheSize : BTree K V N).insertAll kvs = .ok t) :
    ∃ l, (t.records l).Perm kvs ∧ ∀ k, ∃ leaf rest,
      Reaches kvs (KeyLevels.cutsFor N (kvs.map Prod.fst)) k leaf rest t ∧ leaf :: rest <:+ l := by
  have hends := (Counts.init (V := V) (by omega) cacheSize).insertAll hN
    (show ([] ++ kvs.map Prod.fst).Nodup from hd)
  rw [hok] at hends
  obtain ⟨-, ht, lo, hi, hcounts⟩ := hends
  obtain ⟨-, l, hc, hp⟩ := insertAll_holds hN (Shape.init cacheSize (by omega)) (Holds.init cacheSize) hok
  have hlevel : KeyLevels.cutsFor N (kvs.map Prod.fst) =
      ((KeyLevels.insertAll N (kvs.map Prod.fst) ([], [])).1 ::
        (KeyLevels.insertAll N (kvs.map Prod.fst) ([], [])).2).getD 1 [] := by
    rw [KeyLevels.cutsFor]
    cases (KeyLevels.insertAll N (kvs.map Prod.fst) ([], [])).2 <;> rfl
  rw [hlevel]
  exact ⟨l, hp, hcounts.refines.reaches hcounts.ordered hcounts.shape hN hc hp⟩

end Nkvdb.BTree
