import Nkvdb.BTree.Cuts
import Nkvdb.Index.Find

/-! What a search of the index gives, and where it starts.

The ranges found are the wanted records, each at most once, joined where they follow each other.
The search starts at the leaf of the lower bound, and the tree knows a record by its first time
alone: a record that began before that leaf is not come by, however late it ends. -/
namespace Nkvdb.Index

/-- An index that `recs` were written to, with searches in between, and opened again or not. -/
inductive Written (cacheSize fsize : Nat) : List IndexRecord → Index → Prop
  | create : Written cacheSize fsize [] (create cacheSize fsize)
  | write {recs : List IndexRecord} {r : IndexRecord} {ix ix' : Index} :
    Written cacheSize fsize recs ix → ix.writeIndexRec r = .ok ix' → Written cacheSize fsize (recs ++ [r]) ix'
  | search {recs found : List IndexRecord} {ids : List Id} {fromTime toTime : Time} {flag source : Flag}
    {ix ix' : Index} : Written cacheSize fsize recs ix →
    ix.findInIndex ids fromTime toTime flag source = .ok (found, ix') → Written cacheSize fsize recs ix'
  | reopen {recs : List IndexRecord} {ix ix' : Index} : Written cacheSize fsize recs ix → ix.flush = .ok ix' →
    Written cacheSize fsize recs (openFile cacheSize ix'.tree)

section
variable {cacheSize fsize : Nat} {recs : List IndexRecord} {ix ix' : Index}

theorem Written.logged (h : Written cacheSize fsize recs ix) : Logged (fsize / (treeN * treeN)) recs ix := by
  induction h with
  | create => exact Logged.create cacheSize fsize
  | write _ hw ih => exact (ih.writeIndexRec hw).1
  | search _ hf ih => exact ih.flush (findInIndex_flush hf)
  | reopen _ hf ih =>
    refine ⟨_, (ih.flush_ok hf).1, ?_⟩
    simp [openFile]

theorem Written.feed {new : List IndexRecord} (h : Written cacheSize fsize recs ix) (hf : ix.feed new = .ok ix') :
    Written cacheSize fsize (recs ++ new) ix' := by
  induction new generalizing recs ix with
  | nil =>
    obtain rfl := Except.ok.inj hf
    simpa using h
  | cons r new ih =>
    obtain ⟨ix₁, hw, hf⟩ := bind_ok hf
    simpa using ih (h.write hw) hf

end

/-! ### The ranges found -/

/-- The records begin at `pos` and each where the one before it ends. -/
def Consecutive : Nat → List IndexRecord → Prop
  | _, [] => True
  | pos, r :: rs => r.pos = pos ∧ Consecutive (pos + r.count) rs

/-- `x` counts what the records of `group` count, which follow each other. -/
structure Joins (group : List IndexRecord) (x : IndexRecord) : Prop where
  nonempty : group ≠ []
  consecutive : Consecutive x.pos group
  count : x.count = (group.map IndexRecord.count).sum

theorem Joins.single (r : IndexRecord) : Joins [r] r :=
  ⟨List.cons_ne_nil _ _, ⟨rfl, trivial⟩, by simp⟩

theorem consecutive_append (pos : Nat) (group : List IndexRecord) (r : IndexRecord) :
    Consecutive pos (group ++ [r]) ↔
      Consecutive pos group ∧ r.pos = pos + (group.map IndexRecord.count).sum := by
  induction group generalizing pos with
  | nil => simp [Consecutive]
  | cons x group ih => simp [Consecutive, ih, and_assoc, Nat.add_assoc]

theorem Joins.push {group : List IndexRecord} {x r : IndexRecord} (h : Joins group x) (hr : x.pos + x.count = r.pos) :
    Joins (group ++ [r]) {x with count := x.count + r.count} := by
  refine ⟨by simp, (consecutive_append _ _ _).mpr ⟨h.consecutive, ?_⟩, ?_⟩
  · rw [← hr, h.count]
  · simp [h.count]

/-- What the loop has found of `rs`: groups that are closed, and the one `prev_value` stands for. -/
def Grouped (rs : List IndexRecord) (found : Found) : Prop :=
  ∃ groups last, List.Forall₂ Joins groups found.1 ∧ groups.flatten ++ last = rs ∧
    match found.2 with
    | none => last = []
    | some prev => Joins last prev

theorem Grouped.merge {rs : List IndexRecord} {found : Found} (h : Grouped rs found) (r : IndexRecord) :
    Grouped (rs ++ [r]) (merge found r) := by
  obtain ⟨result, prev⟩ := found
  obtain ⟨groups, last, hgroups, hrs, hlast⟩ := h
  cases prev with
  | none =>
    obtain rfl : last = [] := hlast
    exact ⟨groups, [r], hgroups, by simp [← hrs], Joins.single r⟩
  | some prev =>
    have hlast : Joins last prev := hlast
    unfold Index.merge
    by_cases hjoin : prev.pos + prev.count = r.pos
    · simp only [if_pos hjoin]
      exact ⟨groups, last ++ [r], hgroups, by simp [← hrs], hlast.push hjoin⟩
    · simp only [if_neg hjoin]
      refine ⟨groups ++ [last], [r], ?_, by simp [← hrs], Joins.single r⟩
      exact List.rel_append hgroups (.cons hlast .nil)

theorem Grouped.foldl {rs : List IndexRecord} {found : Found} (h : Grouped rs found) (new : List IndexRecord) :
    Grouped (rs ++ new) (new.foldl Index.merge found) := by
  induction new generalizing rs found with
  | nil => simpa using h
  | cons r new ih => simpa using ih (h.merge r)

/-- The records found are groups of records that follow each other. -/
theorem joined_groups (rs : List IndexRecord) :
    ∃ groups, List.Forall₂ Joins groups (joined rs) ∧ groups.flatten = rs := by
  have hstart : Grouped [] ([], none) := ⟨[], [], .nil, rfl, rfl⟩
  obtain ⟨groups, last, hgroups, hrs, hlast⟩ := hstart.foldl rs
  unfold joined
  cases hprev : (rs.foldl Index.merge ([], none)).2 with
  | none =>
    rw [hprev] at hlast
    obtain rfl : last = [] := hlast
    exact ⟨groups, by simpa [hprev] using hgroups, by simpa using hrs⟩
  | some prev =>
    rw [hprev] at hlast
    refine ⟨groups ++ [last], ?_, by simpa using hrs⟩
    simpa [hprev] using List.rel_append hgroups (.cons hlast .nil)

/-- The ranges found are apart, and each is put together of adjacent ranges of wanted records, no
record twice. -/
structure Sifted (want : IndexRecord → Bool) (recs found : List IndexRecord) : Prop where
  nonempty : ∀ x, x ∈ found → 0 < x.count
  apart : found.Pairwise fun x y => List.Disjoint x.positions y.positions
  groups : ∃ groups, List.Forall₂ Joins groups found ∧ groups.flatten.Subperm recs ∧
    ∀ r, r ∈ groups.flatten → want r = true

section
variable {recs : List IndexRecord}

theorem Sifted.of_joined {want : IndexRecord → Bool} {rs : List IndexRecord} (hsome : ∀ r, r ∈ recs → 0 < r.count)
    (hapart : recs.Pairwise fun r r' => List.Disjoint r.positions r'.positions) (hrs : rs.Subperm recs)
    (hwant : ∀ r, r ∈ rs → want r = true) : Sifted want recs (joined rs) := by
  obtain ⟨groups, hgroups, rfl⟩ := joined_groups rs
  have hnodup : (positions recs).Nodup :=
    List.nodup_flatMap.mpr ⟨fun r _ => List.nodup_range', hapart⟩
  constructor
  case nonempty => exact joined_some fun r hr => hsome r (hrs.subset hr)
  case apart =>
    have hfound : (positions (joined groups.flatten)).Nodup := by
      obtain ⟨l, hl, hsub⟩ := hrs
      rw [positions_joined]
      exact (hl.flatMap_right _).nodup_iff.mp (hnodup.sublist (hsub.flatMap _))
    exact (List.nodup_flatMap.mp hfound).2
  case groups => exact ⟨groups, hgroups, hrs, hwant⟩

end

/-! ### The leaf a search starts at -/

/-- A record by the leaf that the search for a time ends at, in it or in one linked behind it. -/
def Reachable (t : IndexTree) (time : Time) (r : IndexRecord) : Prop :=
  ∃ start nodes, t.findNode time = .ok start ∧ Linked (fun i => (t.cache i).next) 0 start nodes ∧
    ∃ i, i ∈ nodes ∧ (t.cache i).isLeaf = true ∧ (r.minTime, r) ∈ (t.cache i).live

/-- The times at which the leaves are cut apart. -/
def leafTimes (recs : List IndexRecord) : List Time := KeyLevels.cutsFor treeN (recs.map IndexRecord.minTime)

section
variable {size : Nat} {recs : List IndexRecord} {ix ix' : Index} {r : IndexRecord}

theorem keyed_fst (recs : List IndexRecord) : (keyed recs).map Prod.fst = recs.map IndexRecord.minTime := List.map_map

theorem mem_keyed {recs : List IndexRecord} {kv : Time × IndexRecord} :
    kv ∈ keyed recs ↔ kv.2 ∈ recs ∧ kv.1 = kv.2.minTime := by
  obtain ⟨k, r⟩ := kv
  simp only [keyed, List.mem_map, Prod.mk.injEq]
  constructor
  · rintro ⟨r', hr, rfl, rfl⟩
    exact ⟨hr, rfl⟩
  · rintro ⟨hr, rfl⟩
    exact ⟨r, hr, rfl, rfl⟩

/-- What a search of the flushed index comes by, for any time. -/
theorem Logged.reaches (h : Logged size recs ix) (hf : ix.flush = .ok ix') (hd : (recs.map IndexRecord.minTime).Nodup) :
    ∃ l, (ix'.tree.records l).Perm (keyed recs) ∧ ∀ time, ∃ leaf rest,
      BTree.Reaches (keyed recs) (leafTimes recs) time leaf rest ix'.tree ∧ leaf :: rest <:+ l := by
  rw [← keyed_fst] at hd
  have hreach := BTree.insertAll_reaches (by decide) _ hd (h.flush_ok hf).1
  rwa [keyed_fst] at hreach

/-- It comes by the records that no leaf begins behind and not behind the time. -/
theorem Logged.reachable_iff (h : Logged size recs ix) (hf : ix.flush = .ok ix')
    (hd : (recs.map IndexRecord.minTime).Nodup) (hr : r ∈ recs) (time : Time) :
    Reachable ix'.tree time r ↔ BTree.NoCut (leafTimes recs) r.minTime time := by
  obtain ⟨l, -, hreaches⟩ := h.reaches hf hd
  obtain ⟨leaf, rest, hreach, -⟩ := hreaches time
  have hmem := hreach.reached (r.minTime, r)
  rw [mem_keyed] at hmem
  constructor
  · rintro ⟨start, nodes, hs, hl, i, hi, -, hlive⟩
    obtain rfl : leaf = start := Except.ok.inj (hreach.found.symm.trans hs)
    obtain rfl := hreach.leaves.linked.unique hl
    exact (hmem.mp (List.mem_flatMap.mpr ⟨i, hi, hlive⟩)).2
  · intro hno
    obtain ⟨i, hi, hlive⟩ := List.mem_flatMap.mp (hmem.mpr ⟨⟨hr, rfl⟩, hno⟩)
    exact ⟨leaf, leaf :: rest, hreach.found, hreach.leaves.linked, i, hi, (hreach.leaves.leaves i hi).2, hlive⟩

/-- A record that the walk comes by, where `reaches` says which records lie in the leaf of a time or behind it: one
it wants, from the leaf of the lower bound on. Those from the leaf of the upper bound on are left out if there
is another one before. -/
structure Met (reaches : Time → IndexRecord → Prop) (want : IndexRecord → Bool) (fromTime toTime : Time)
    (r : IndexRecord) : Prop where
  wanted : want r = true
  reached : reaches fromTime r
  scanned : reaches toTime r → ∀ r', want r' = true → reaches fromTime r' → reaches toTime r'

theorem Met.congr {reaches reaches' : Time → IndexRecord → Prop} {want : IndexRecord → Bool} {fromTime toTime : Time}
    (h : ∀ time r, reaches time r ↔ reaches' time r) :
    Met reaches want fromTime toTime r ↔ Met reaches' want fromTime toTime r := by
  have heq : reaches = reaches' := funext fun time => funext fun r => propext (h time r)
  rw [heq]

/-- A walk that does not come to the leaf of the upper bound scans all. -/
theorem scanned_all {want : IndexRecord → Bool} {t : IndexTree} {last : Nat} {nodes : List Nat} (h : last ∉ nodes) :
    scanned want t last nodes = nodes := by
  have htake : nodes.takeWhile (· ≠ last) = nodes := by
    apply List.takeWhile_eq_self_iff.mpr
    intro i hi
    exact decide_eq_true fun he => h (he ▸ hi)
  unfold scanned
  rw [htake, ite_self]

section
variable {t : IndexTree} {l nodes : List Nat} {ht : Nat → Nat} {want : IndexRecord → Bool} {x : IndexRecord}
  {time fromTime toTime : Time}

theorem mem_selected_keyed (hperm : (t.records l).Perm (keyed recs)) (h : ∀ i, i ∈ nodes → i ∈ l) :
    x ∈ selected want t nodes ↔ (x.minTime, x) ∈ t.records nodes ∧ want x = true := by
  unfold selected
  rw [List.mem_filter, List.mem_map]
  refine and_congr_left fun _ => ⟨?_, fun hx => ⟨_, hx, rfl⟩⟩
  rintro ⟨⟨k, y⟩, hkv, rfl⟩
  obtain ⟨i, hi, hlive⟩ := List.mem_flatMap.mp hkv
  have hkeyed := mem_keyed.mp (hperm.mem_iff.mp (List.mem_flatMap.mpr ⟨i, h i hi, hlive⟩))
  rwa [← show k = y.minTime from hkeyed.2]

/-- A search that ends at a leaf reaches the records of this one and of those linked behind it. -/
theorem EndsAtLeaf.reaches (hs : BTree.Shape ht 0 t) (hc : BTree.Chain t l) (h : EndsAtLeaf t time) :
    ∃ leaf rest, t.findNode time = .ok leaf ∧ Linked (fun i => (t.cache i).next) 0 leaf (leaf :: rest) ∧
      leaf :: rest <:+ l ∧ ∀ x, Reachable t time x ↔ (x.minTime, x) ∈ t.records (leaf :: rest) := by
  obtain ⟨leaf, hfind, hleaf⟩ := h
  obtain ⟨i, hi, hm, hend⟩ := hs.findNode_made (by decide) time
  obtain rfl : leaf = i := Except.ok.inj (hfind.symm.trans hi)
  obtain ⟨rest, hl, -, -, hcase⟩ := linked_from hs hc hm hend
  have hsuf : leaf :: rest <:+ l := by
    rcases hcase with ⟨-, hsuf⟩ | ⟨hnot, -⟩
    · exact hsuf
    · rw [hleaf] at hnot
      cases hnot
  refine ⟨leaf, rest, hfind, hl, hsuf, fun x => ⟨?_, fun hx => ?_⟩⟩
  · rintro ⟨start, nodes, hstart, hlinked, i, hi, -, hlive⟩
    obtain rfl : leaf = start := Except.ok.inj (hfind.symm.trans hstart)
    obtain rfl := hl.unique hlinked
    exact List.mem_flatMap.mpr ⟨i, hi, hlive⟩
  · obtain ⟨i, hi, hlive⟩ := List.mem_flatMap.mp hx
    exact ⟨leaf, leaf :: rest, hfind, hl, i, hi, ((hc.leaves i).mp (hsuf.subset hi)).2, hlive⟩

/-- A search that ends at no leaf ends at the root, and reaches nothing. -/
theorem not_endsAtLeaf (hs : BTree.Shape ht 0 t) (hc : BTree.Chain t l) (h : ¬ EndsAtLeaf t time) :
    t.findNode time = .ok t.root ∧ t.root ∉ l ∧ ∀ x, ¬ Reachable t time x := by
  obtain ⟨i, hi, hm, hend⟩ := hs.findNode_made (by decide) time
  have hnot : ¬ (t.cache i).isLeaf = true := fun hleaf => h ⟨i, hi, hleaf⟩
  obtain rfl := hend.resolve_left hnot
  refine ⟨hi, fun hin => hnot ((hc.leaves _).mp hin).2, ?_⟩
  rintro x ⟨start, nodes, hstart, hlinked, j, hj, hleaf, -⟩
  obtain rfl : t.root = start := Except.ok.inj (hi.symm.trans hstart)
  have hone : Linked (fun i => (t.cache i).next) 0 t.root [t.root] := ⟨rfl, hm.ne_zero, hs.rootNext⟩
  obtain rfl := hone.unique hlinked
  obtain rfl := List.mem_singleton.mp hj
  exact hnot hleaf

/-- The leaves before that of the upper bound have what it does not reach. -/
theorem mem_selected_before (hperm : (t.records l).Perm (keyed recs)) (hnd : recs.Nodup)
    {linked first behind : List Nat}
    (hsuf : linked <:+ l) (hsplit : linked = first ++ behind) : x ∈ selected want t first ↔
      ((x.minTime, x) ∈ t.records linked ∧ want x = true) ∧ (x.minTime, x) ∉ t.records behind := by
  have happ : t.records linked = t.records first ++ t.records behind := by
    rw [hsplit]
    exact List.flatMap_append
  have hnodup : (t.records first ++ t.records behind).Nodup := by
    have hl : (t.records l).Nodup := by
      rw [hperm.nodup_iff]
      exact List.Nodup.of_map Prod.snd (by simpa [keyed, Function.comp_def] using hnd)
    rw [← happ]
    exact hl.sublist (hsuf.sublist.flatMap fun i => (t.cache i).live)
  rw [mem_selected_keyed hperm fun i hi => hsuf.subset (by rw [hsplit]; exact List.mem_append_left _ hi), happ,
    List.mem_append]
  constructor
  · rintro ⟨hx, hwant⟩
    exact ⟨⟨.inl hx, hwant⟩, fun hb => List.disjoint_of_nodup_append hnodup hx hb⟩
  · rintro ⟨⟨hx, hwant⟩, hb⟩
    exact ⟨hx.resolve_right hb, hwant⟩

/-- What the walk of a search that ends at a leaf comes by. -/
theorem Walked.mem_selected (hs : BTree.Shape ht 0 t) (hc : BTree.Chain t l)
    (hperm : (t.records l).Perm (keyed recs)) (hnd : recs.Nodup) (he : EndsAtLeaf t fromTime)
    (hw : Walked t fromTime toTime want nodes) :
    x ∈ selected want t nodes ↔ Met (Reachable t) want fromTime toTime x := by
  obtain ⟨leaf, rest, hfrom, hl, hsuf, hreach⟩ := he.reaches hs hc
  obtain ⟨start, stop, linked, hstart, hstop, hlinked, rfl⟩ := hw
  obtain rfl : leaf = start := Except.ok.inj (hfrom.symm.trans hstart)
  obtain rfl := hl.unique hlinked
  have hall : x ∈ selected want t (leaf :: rest) ↔ Reachable t fromTime x ∧ want x = true := by
    rw [mem_selected_keyed hperm fun i hi => hsuf.subset hi, hreach]
  -- the upper bound reaches all, or nothing, where its leaf is not come to
  have hwhole : stop ∉ leaf :: rest → ((∀ y, Reachable t fromTime y → Reachable t toTime y) ∨
      ∀ y, ¬ Reachable t toTime y) → (x ∈ selected want t (scanned want t stop (leaf :: rest)) ↔
        Met (Reachable t) want fromTime toTime x) := by
    intro hout hlater
    rw [scanned_all hout, hall]
    constructor
    · rintro ⟨hx, hwant⟩
      refine ⟨hwant, hx, fun hto y _ hy => ?_⟩
      rcases hlater with hlater | hnone
      · exact hlater y hy
      · exact absurd hto (hnone x)
    · exact fun hm => ⟨hm.reached, hm.wanted⟩
  by_cases hto : EndsAtLeaf t toTime
  swap
  · obtain ⟨hroot, hout, hnone⟩ := not_endsAtLeaf hs hc hto
    obtain rfl : t.root = stop := Except.ok.inj (hroot.symm.trans hstop)
    exact hwhole (fun hin => hout (hsuf.subset hin)) (.inr hnone)
  obtain ⟨last, rest', hfind, hl', hsuf', hreach'⟩ := hto.reaches hs hc
  obtain rfl : last = stop := Except.ok.inj (hfind.symm.trans hstop)
  by_cases hin : last ∈ leaf :: rest
  swap
  -- the leaf of the upper bound comes first
  · have hsub : leaf :: rest <:+ last :: rest' :=
      (List.suffix_or_suffix_of_suffix hsuf hsuf').resolve_right fun hs => hin (hs.subset List.mem_cons_self)
    refine hwhole hin (.inl fun y hy => ?_)
    rw [hreach] at hy
    rw [hreach']
    exact (hsub.sublist.flatMap _).subset hy
  -- the leaves before that of the upper bound
  obtain ⟨first, hfirst⟩ : ∃ first, (leaf :: rest).takeWhile (· ≠ last) = first := ⟨_, rfl⟩
  have hsplit : leaf :: rest = first ++ last :: rest' := by
    rw [← hfirst]
    exact (hl.takeWhile_append hin hl').symm
  have hbefore : ∀ y, y ∈ selected want t first ↔
      (Reachable t fromTime y ∧ want y = true) ∧ ¬ Reachable t toTime y := by
    intro y
    rw [mem_selected_before hperm hnd hsuf hsplit, hreach, hreach']
  unfold scanned
  rw [hfirst]
  by_cases hsel : selected want t first ≠ []
  · rw [if_pos hsel, hbefore]
    constructor
    · rintro ⟨⟨hx, hwant⟩, hcut⟩
      exact ⟨hwant, hx, fun hto => absurd hto hcut⟩
    · intro hm
      refine ⟨⟨hm.reached, hm.wanted⟩, fun hto => ?_⟩
      obtain ⟨y, hy⟩ := List.exists_mem_of_ne_nil _ hsel
      obtain ⟨⟨hy, hwant⟩, hcut⟩ := (hbefore y).mp hy
      exact hcut (hm.scanned hto y hwant hy)
  · rw [if_neg hsel, hall]
    constructor
    · rintro ⟨hx, hwant⟩
      refine ⟨hwant, hx, fun _ y hwy hy => ?_⟩
      by_contra hcut
      have := (hbefore y).mpr ⟨⟨hy, hwy⟩, hcut⟩
      rw [not_not.mp hsel] at this
      cases this
    · exact fun hm => ⟨hm.reached, hm.wanted⟩

end

/-! ### At distinct times -/

/-- The leaves of the flushed index hold the records by their times. -/
theorem Logged.leaves (h : Logged size recs ix) (hf : ix.flush = .ok ix') : ∃ ht l, BTree.Shape ht 0 ix'.tree ∧
    BTree.Chain ix'.tree l ∧ (ix'.tree.records l).Perm (keyed recs) := by
  have hinit : BTree.Shape (fun _ => 0) 0 (BTree.init size : IndexTree) := BTree.Shape.init size (by decide)
  obtain ⟨⟨ht, hs⟩, l, hc, hp⟩ :=
    BTree.insertAll_holds (by decide) hinit (BTree.Holds.init size) (h.flush_ok hf).1
  exact ⟨ht, l, hs, hc, hp⟩

theorem Logged.endsAtLeaf (h : Logged size recs ix) (hf : ix.flush = .ok ix')
    (hd : (recs.map IndexRecord.minTime).Nodup) (time : Time) : EndsAtLeaf ix'.tree time := by
  obtain ⟨l, -, hreaches⟩ := h.reaches hf hd
  obtain ⟨leaf, rest, hreach, -⟩ := hreaches time
  exact ⟨leaf, hreach.found, (hreach.leaves.leaves leaf List.mem_cons_self).2⟩

/-- What the walk scans are leaves where the times of the records are distinct, so it meets each
record at most once. -/
theorem Logged.selected_subperm (h : Logged size recs ix) (hf : ix.flush = .ok ix')
    (hd : (recs.map IndexRecord.minTime).Nodup) {fromTime toTime : Time} {want : IndexRecord → Bool} {nodes : List Nat}
    (hw : Walked ix'.tree fromTime toTime want nodes) : (selected want ix'.tree nodes).Subperm recs := by
  obtain ⟨ht, l, hs, hc, hp, -⟩ := (h.flush hf).records (h.flush_ok hf).2.1
  rcases hw.cases hs hc with ⟨-, hsub, -⟩ | ⟨hno, -⟩
  · have hlist : ((ix'.tree.records nodes).map Prod.snd).Sublist ((ix'.tree.records l).map Prod.snd) :=
      (hsub.flatMap _).map _
    exact ((List.filter_sublist.trans hlist).subperm).trans hp.subperm
  · exact absurd (h.endsAtLeaf hf hd fromTime) hno

/-- A record that the walk comes by: one it wants that no leaf begins behind, at the lower bound or
before it. Those in the leaf of the upper bound are left out if there is another one before. -/
structure Visited (want : IndexRecord → Bool) (fromTime toTime : Time) (recs : List IndexRecord) (r : IndexRecord) :
    Prop where
  mem : r ∈ recs
  wanted : want r = true
  reached : BTree.NoCut (leafTimes recs) r.minTime fromTime
  scanned : BTree.NoCut (leafTimes recs) r.minTime toTime → ∀ r', r' ∈ recs → want r' = true →
    BTree.NoCut (leafTimes recs) r'.minTime fromTime → BTree.NoCut (leafTimes recs) r'.minTime toTime

/-- What is reachable are the records that no leaf begins behind. -/
theorem Logged.reachable_mem (h : Logged size recs ix) (hf : ix.flush = .ok ix')
    (hd : (recs.map IndexRecord.minTime).Nodup) {time : Time} :
    Reachable ix'.tree time r ↔ r ∈ recs ∧ BTree.NoCut (leafTimes recs) r.minTime time := by
  obtain ⟨ht, l, hs, hc, hperm⟩ := h.leaves hf
  obtain ⟨leaf, rest, -, -, hsuf, hreach⟩ := (h.endsAtLeaf hf hd time).reaches hs hc
  constructor
  · intro hx
    have hmem := (hsuf.sublist.flatMap fun i => (ix'.tree.cache i).live).subset ((hreach r).mp hx)
    have hr := (mem_keyed.mp (hperm.mem_iff.mp hmem)).1
    exact ⟨hr, (h.reachable_iff hf hd hr time).mp hx⟩
  · rintro ⟨hr, hno⟩
    exact (h.reachable_iff hf hd hr time).mpr hno

theorem Logged.met_iff (h : Logged size recs ix) (hf : ix.flush = .ok ix') (hd : (recs.map IndexRecord.minTime).Nodup)
    {fromTime toTime : Time} {want : IndexRecord → Bool} :
    Met (Reachable ix'.tree) want fromTime toTime r ↔ Visited want fromTime toTime recs r := by
  have hreach : ∀ {time x}, Reachable ix'.tree time x ↔ _ := h.reachable_mem hf hd
  constructor
  · rintro ⟨hwant, hr, hscan⟩
    obtain ⟨hmem, hno⟩ := hreach.mp hr
    exact ⟨hmem, hwant, hno, fun hto x hx hwx hnox =>
      (hreach.mp (hscan (hreach.mpr ⟨hmem, hto⟩) x hwx (hreach.mpr ⟨hx, hnox⟩))).2⟩
  · rintro ⟨hmem, hwant, hno, hscan⟩
    refine ⟨hwant, hreach.mpr ⟨hmem, hno⟩, fun hto x hwx hx => ?_⟩
    obtain ⟨hx, hnox⟩ := hreach.mp hx
    exact hreach.mpr ⟨hx, hscan (hreach.mp hto).2 x hx hwx hnox⟩

/-- The walk comes by just these. -/
theorem Logged.mem_selected (h : Logged size recs ix) (hf : ix.flush = .ok ix')
    (hd : (recs.map IndexRecord.minTime).Nodup) {fromTime toTime : Time} {want : IndexRecord → Bool} {nodes : List Nat}
    (hw : Walked ix'.tree fromTime toTime want nodes) :
    r ∈ selected want ix'.tree nodes ↔ Visited want fromTime toTime recs r := by
  obtain ⟨ht, l, hs, hc, hperm⟩ := h.leaves hf
  rw [hw.mem_selected hs hc hperm (List.Nodup.of_map _ hd) (h.endsAtLeaf hf hd fromTime), h.met_iff hf hd]

end

/-- A search of an index whose records count positions apart, and at distinct times, ends; and the
ranges it gives are apart, each of them put together of adjacent ranges of records that pass the
interval test and the filters. It fails where the flush before it does. -/
theorem findInIndex_sound (cacheSize fsize : Nat) {recs : List IndexRecord} {ix : Index}
    (h : Written cacheSize fsize recs ix) (hsome : ∀ r, r ∈ recs → 0 < r.count)
    (hapart : recs.Pairwise fun r r' => List.Disjoint r.positions r'.positions)
    (hd : (recs.map IndexRecord.minTime).Nodup) (ids : List Id) (fromTime toTime : Time) (flag source : Flag) :
    match ix.findInIndex ids fromTime toTime flag source with
    | .ok (found, _) => Sifted (wanted ids fromTime toTime flag source) recs found
    | .error e => ix.flush = .error e ∧ e ≠ .outOfFuel := by
  cases hf : ix.flush with
  | error e =>
    have hrun : ix.findInIndex ids fromTime toTime flag source = .error e := by
      simp only [findInIndex, hf, bind, Except.bind]
    rw [hrun]
    refine ⟨rfl, ?_⟩
    rcases h.logged.flush_fault hf with rfl | rfl <;> simp
  | ok ix' =>
    obtain ⟨nodes, hw, hrun⟩ := h.logged.findInIndex hf ids fromTime toTime flag source
    rw [hrun]
    exact Sifted.of_joined hsome hapart (h.logged.selected_subperm hf hd hw) fun r hr => (List.mem_filter.mp hr).2

/-- Three records written out of the order of their positions; two of them are joined. -/
theorem findInIndex_sound_three : ∃ ix found ix',
    (create 2 400).feed [⟨5, 2, 40, 50, 1, 1, 0, 0⟩, ⟨0, 2, 10, 20, 1, 1, 0, 0⟩, ⟨2, 3, 21, 30, 1, 1, 0, 0⟩] = .ok ix ∧
    ix.findInIndex [] 15 25 0 0 = .ok (found, ix') ∧ found.length = 1 ∧
    Sifted (wanted [] 15 25 0 0)
      [⟨5, 2, 40, 50, 1, 1, 0, 0⟩, ⟨0, 2, 10, 20, 1, 1, 0, 0⟩, ⟨2, 3, 21, 30, 1, 1, 0, 0⟩] found := by
  obtain ⟨ix, hfeed, hok⟩ := exists_ok
    (x := (create 2 400).feed [⟨5, 2, 40, 50, 1, 1, 0, 0⟩, ⟨0, 2, 10, 20, 1, 1, 0, 0⟩, ⟨2, 3, 21, 30, 1, 1, 0, 0⟩])
    (p := fun ix : Index => (ix.findInIndex [] 15 25 0 0).toOption.any fun x : List IndexRecord × Index =>
      decide (x.1.length = 1)) (by decide +kernel)
  obtain ⟨⟨found, ix'⟩, hfind, hlen⟩ := exists_ok hok
  have hnodup : (positions
      [⟨5, 2, 40, 50, 1, 1, 0, 0⟩, ⟨0, 2, 10, 20, 1, 1, 0, 0⟩, ⟨2, 3, 21, 30, 1, 1, 0, 0⟩]).Nodup := by decide
  have hsound := findInIndex_sound 2 400 (Written.create.feed hfeed) (by decide) (List.nodup_flatMap.mp hnodup).2
    (by decide) [] 15 25 0 0
  rw [hfind] at hsound
  exact ⟨ix, found, ix', hfeed, hfind, of_decide_eq_true hlen, hsound⟩

/-- The interval of the record meets `[fromTime, toTime]`. -/
def Meets (r : IndexRecord) (fromTime toTime : Time) : Prop := r.minTime ≤ toTime ∧ fromTime ≤ r.maxTime

instance (r : IndexRecord) (fromTime toTime : Time) : Decidable (Meets r fromTime toTime) := by
  unfold Meets
  infer_instance

/-- The walk can come by every record whose interval meets the one searched for if and only if no
leaf begins behind a record, at the lower bound or before it, that lasts till there. -/
theorem scan_starts_iff (cacheSize fsize : Nat) {recs : List IndexRecord} {ix ix' : Index}
    (h : Written cacheSize fsize recs ix) (hd : (recs.map IndexRecord.minTime).Nodup)
    (hf : ix.flush = .ok ix') {fromTime toTime : Time}
    (hft : fromTime ≤ toTime) :
    (∀ r, r ∈ recs → Meets r fromTime toTime → Reachable ix'.tree fromTime r) ↔
      ∀ r, r ∈ recs → fromTime ≤ r.maxTime → BTree.NoCut (leafTimes recs) r.minTime fromTime := by
  constructor
  · intro hall r hr hmax
    rcases le_total fromTime r.minTime with hge | hge
    · exact BTree.NoCut.of_le hge
    · exact (h.logged.reachable_iff hf hd hr fromTime).mp (hall r hr ⟨hge.trans hft, hmax⟩)
  · intro hall r hr hmeets
    exact (h.logged.reachable_iff hf hd hr fromTime).mpr (hall r hr hmeets.2)

/-- Records that overlap, in one leaf. -/
theorem scan_starts_iff_two : ∃ ix ix', (create 4 400).feed [⟨0, 9, 1, 90, 1, 1, 0, 0⟩, ⟨9, 1, 40, 60, 1, 1, 0, 0⟩] =
      .ok ix ∧ ix.flush = .ok ix' ∧
    ∀ r, r ∈ ([⟨0, 9, 1, 90, 1, 1, 0, 0⟩, ⟨9, 1, 40, 60, 1, 1, 0, 0⟩] : List IndexRecord) → Meets r 50 70 →
      Reachable ix'.tree 50 r := by
  obtain ⟨ix, hfeed, hok⟩ := exists_ok
    (x := (create 4 400).feed [⟨0, 9, 1, 90, 1, 1, 0, 0⟩, ⟨9, 1, 40, 60, 1, 1, 0, 0⟩])
    (p := fun ix => ix.flush.toOption.isSome) (by decide +kernel)
  obtain ⟨ix', hf⟩ := Option.isSome_iff_exists.mp hok
  rw [toOption_eq_some] at hf
  exact ⟨ix, ix', hfeed, hf, (scan_starts_iff 4 400 (Written.create.feed hfeed) (by decide) hf
    (by decide)).mpr (by decide)⟩

/-- Twenty records, the first of which lasts beyond all others: they fill two leaves, and a search for
a time in the second does not come by the first record. -/
def lasting : List IndexRecord :=
  ⟨0, 1, 1, 100, 1, 1, 0, 0⟩ ::
    (List.range 19).map fun i => ⟨i + 1, 1, Fin.ofNat _ (i + 2), Fin.ofNat _ (i + 2), 1, 1, 0, 0⟩

theorem scan_starts_late : ∃ ix ix', (create 30 400).feed lasting = .ok ix ∧ ix.flush = .ok ix' ∧
    (lasting.map IndexRecord.minTime).Nodup ∧ (∀ r, r ∈ lasting → r.minTime ≤ r.maxTime) ∧
    ∃ r, r ∈ lasting ∧ Meets r 50 60 ∧ ¬ Reachable ix'.tree 50 r := by
  obtain ⟨ix, hfeed, hok⟩ := exists_ok (x := (create 30 400).feed lasting)
    (p := fun ix => ix.flush.toOption.isSome) (by decide +kernel)
  obtain ⟨ix', hf⟩ := Option.isSome_iff_exists.mp hok
  rw [toOption_eq_some] at hf
  have hd : (lasting.map IndexRecord.minTime).Nodup := by decide
  have hmem : (⟨0, 1, 1, 100, 1, 1, 0, 0⟩ : IndexRecord) ∈ lasting := List.mem_cons_self
  refine ⟨ix, ix', hfeed, hf, hd, by decide, _, hmem, by decide, ?_⟩
  rw [(Written.create.feed hfeed).logged.reachable_iff hf hd hmem]
  decide +kernel

end Nkvdb.Index
