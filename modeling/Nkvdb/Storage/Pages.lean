import Nkvdb.Page.Chunks
import Nkvdb.Storage.Reader

/-! The pages a storage reads one after the other.

`StorageReader` asks for the next page when the reader of the last one is at its end, which may be
at any call of `readNext`. In all it puts out what the readers of the pages do, each once and in the
order the pages were added (`StorageReader.delivers_iff`). -/
namespace Nkvdb

namespace CurrentReader

/-- `Reader::readAll`, with `size` for `ReadSize`. -/
def readAllBy (size : U64) : Nat → CurrentReader → Except Fault (List Meas)
  | 0, _ => .error .outOfFuel
  | fuel + 1, c =>
    if c.isEnd then .ok []
    else do
      let (out, c) ← c.readNextBy size
      let rest ← readAllBy size fuel c
      return out ++ rest

/-- With enough calls of `readNext` the reader delivers `out`, and is at its end. -/
def Delivers (size : U64) (c : CurrentReader) (out : List Meas) : Prop :=
  ∃ steps, ∀ fuel, steps ≤ fuel → c.readAllBy size fuel = .ok out

section
variable {size : U64} {c c' : CurrentReader} {out rest : List Meas} {fuel fuel' : Nat}

theorem readAll_more (h : c.readAllBy size fuel = .ok out) (hle : fuel ≤ fuel') : c.readAllBy size fuel' = .ok out := by
  induction fuel generalizing c out fuel' with
  | zero => cases h
  | succ fuel ih =>
    obtain ⟨fuel', rfl⟩ : ∃ n, fuel' = n + 1 := ⟨fuel' - 1, by omega⟩
    unfold readAllBy at h ⊢
    by_cases he : c.isEnd = true
    · rwa [if_pos he] at h ⊢
    · rw [if_neg he] at h ⊢
      obtain ⟨⟨first, c'⟩, hnext, h⟩ := bind_ok h
      obtain ⟨rest, hrest, h⟩ := bind_ok h
      rw [← h, hnext]
      simp only [ih hrest (Nat.le_of_succ_le_succ hle), bind, Except.bind, pure, Except.pure]

theorem delivers_iff : c.Delivers size out ↔ ∃ fuel, c.readAllBy size fuel = .ok out := by
  constructor
  · rintro ⟨steps, h⟩
    exact ⟨steps, h steps le_rfl⟩
  · rintro ⟨steps, h⟩
    exact ⟨steps, fun fuel hle => readAll_more h hle⟩

theorem Delivers.of_end (he : c.isEnd = true) : c.Delivers size [] := by
  refine delivers_iff.mpr ⟨1, ?_⟩
  unfold readAllBy
  rw [if_pos he]

/-- At its end a reader reads nothing. -/
theorem readNext_end (he : c.isEnd = true) : c.readNextBy size = .ok ([], c) := by
  cases c with
  | interval r p =>
    have he : r.isEnd = true := he
    simp only [readNextBy, PageReaderInterval.readNextBy, if_pos he, bind, Except.bind, pure, Except.pure]
  | timePoint r p =>
    have he : r.isEnd = true := he
    simp only [readNextBy, PageReaderTimePoint.readNext, if_pos he, bind, Except.bind, pure, Except.pure]

theorem Delivers.step (hnext : c.readNextBy size = .ok (out, c')) (h : c'.Delivers size rest) :
    c.Delivers size (out ++ rest) := by
  by_cases he : c.isEnd = true
  · rw [readNext_end he] at hnext
    obtain ⟨rfl, rfl⟩ := Prod.mk.inj (Except.ok.inj hnext)
    exact h
  · obtain ⟨fuel, h⟩ := delivers_iff.mp h
    refine delivers_iff.mpr ⟨fuel + 1, ?_⟩
    unfold readAllBy
    rw [if_neg he, hnext]
    simp only [h, bind, Except.bind, pure, Except.pure]

end
end CurrentReader

namespace StorageReader
open CurrentReader

/-- With enough calls of `readNext` the reader delivers `out`, and is at its end. -/
def Delivers (size : U64) (disk : String → PageFile) (r : StorageReader) (out : List Meas) : Prop :=
  ∃ steps, ∀ fuel, steps ≤ fuel → r.readAllBy size disk fuel = .ok out

/-- The reader of one page delivers `out`. -/
def PageDelivers (size : U64) (disk : String → PageFile) (r : StorageReader) (name : String) (out : List Meas) : Prop :=
  ∃ c, r.openPage disk name = .ok c ∧ c.Delivers size out

/-- The reader as it goes on, with `pages` to come. -/
def goOn (r : StorageReader) (pages : List String) (c : Option CurrentReader) : StorageReader :=
  {r with pages := pages, currentReader := c}

section
variable {size : U64} {disk : String → PageFile} {r r₁ : StorageReader} {c c' : CurrentReader} {out rest : List Meas}
  {pages : List String} {fuel fuel' : Nat}

theorem readAll_more (h : r.readAllBy size disk fuel = .ok out) (hle : fuel ≤ fuel') :
    r.readAllBy size disk fuel' = .ok out := by
  induction fuel generalizing r out fuel' with
  | zero => cases h
  | succ fuel ih =>
    obtain ⟨fuel', rfl⟩ : ∃ n, fuel' = n + 1 := ⟨fuel' - 1, by omega⟩
    unfold readAllBy at h ⊢
    by_cases he : r.isEnd = true
    · rwa [if_pos he] at h ⊢
    · rw [if_neg he] at h ⊢
      obtain ⟨⟨first, r'⟩, hnext, h⟩ := bind_ok h
      obtain ⟨rest, hrest, h⟩ := bind_ok h
      rw [← h, hnext]
      simp only [ih hrest (Nat.le_of_succ_le_succ hle), bind, Except.bind, pure, Except.pure]

/-- A call of `readNext`, with the reader of a page in use. -/
theorem readNext_current (he : r.isEnd = false) (hcur : r.current disk = .ok (c, r₁))
    (hnext : c.readNextBy size = .ok (out, c')) : r.readNextBy size disk =
      .ok (out, {r₁ with currentReader := if c'.isEnd then none else some c'}) := by
  unfold readNextBy
  rw [he]
  simp only [hcur, hnext, bind, Except.bind, pure, Except.pure, Bool.false_eq_true, if_false]

/-- What the reader in use still delivers comes before what is delivered without it. -/
theorem readAll_current (hc : c.readAllBy size fuel = .ok out) (he : r.isEnd = false)
    (hcur : r.current disk = .ok (c, r₁)) (hrest : (r₁.goOn r₁.pages none).readAllBy size disk fuel' = .ok rest) :
    ∃ n, r.readAllBy size disk n = .ok (out ++ rest) := by
  induction fuel generalizing r c r₁ out with
  | zero => cases hc
  | succ fuel ih =>
    -- the calls to come, after one that leaves `c'` in use
    have hstep : ∀ {first later : List Meas} {c' : CurrentReader} {n : Nat}, c.readNextBy size = .ok (first, c') →
        (r₁.goOn r₁.pages (if c'.isEnd then none else some c')).readAllBy size disk n = .ok later →
        ∃ n, r.readAllBy size disk n = .ok (first ++ later) := by
      intro first later c' n hnext hlater
      refine ⟨n + 1, ?_⟩
      unfold readAllBy
      rw [he, readNext_current he hcur hnext]
      simp only [bind, Except.bind, pure, Except.pure, Bool.false_eq_true, if_false]
      unfold goOn at hlater
      simp only [hlater]
    unfold CurrentReader.readAllBy at hc
    by_cases hend : c.isEnd = true
    · rw [if_pos hend] at hc
      obtain rfl := Except.ok.inj hc
      exact hstep (readNext_end hend) (by rw [if_pos hend]; exact hrest)
    · rw [if_neg hend] at hc
      obtain ⟨⟨first, c'⟩, hnext, hc⟩ := bind_ok hc
      obtain ⟨later, hlater, hc⟩ := bind_ok hc
      obtain rfl := Except.ok.inj hc
      rw [List.append_assoc]
      by_cases hend' : c'.isEnd = true
      · obtain rfl : later = [] := by
          cases fuel with
          | zero => cases hlater
          | succ fuel =>
            unfold CurrentReader.readAllBy at hlater
            rw [if_pos hend'] at hlater
            exact (Except.ok.inj hlater).symm
        exact hstep hnext (by rw [if_pos hend']; exact hrest)
      · have hin : (r₁.goOn r₁.pages (some c')).isEnd = false := by
          unfold isEnd goOn
          simp [hend']
        obtain ⟨n, hn⟩ := ih hlater hin rfl hrest
        exact hstep hnext (by rw [if_neg hend']; exact hn)

/-- The pages to come, where no reader is in use. -/
theorem delivers_pages {outs : List (List Meas)} (h : List.Forall₂ (r.PageDelivers size disk) pages outs) :
    ∃ n, (r.goOn pages none).readAllBy size disk n = .ok outs.flatten := by
  induction h with
  | nil => exact ⟨1, rfl⟩
  | @cons name out pages outs hpage _ ih =>
    obtain ⟨c, hopen, hc⟩ := hpage
    obtain ⟨k, hk⟩ := CurrentReader.delivers_iff.mp hc
    obtain ⟨n, hn⟩ := ih
    have hcur : (r.goOn (name :: pages) none).current disk = .ok (c, r.goOn pages none) := by
      show (r.openPage disk name >>= fun c => pure (c, r.goOn pages none)) = _
      rw [hopen]
      rfl
    exact readAll_current hk rfl hcur hn

/-- A call of `readNext` that returned, and the calls after it. -/
theorem readAll_turn (he : ¬ r.isEnd = true) (h : r.readAllBy size disk (fuel + 1) = .ok out) :
    ∃ c r₁ c' first later, r.current disk = .ok (c, r₁) ∧ c.readNextBy size = .ok (first, c') ∧
      (r₁.goOn r₁.pages (if c'.isEnd then none else some c')).readAllBy size disk fuel = .ok later ∧
      out = first ++ later := by
  unfold readAllBy at h
  rw [if_neg he] at h
  obtain ⟨⟨first, r'⟩, hnext, h⟩ := bind_ok h
  obtain ⟨later, hlater, h⟩ := bind_ok h
  obtain rfl := Except.ok.inj h
  unfold readNextBy at hnext
  rw [if_neg he] at hnext
  obtain ⟨⟨c, r₁⟩, hcur, hnext⟩ := bind_ok hnext
  obtain ⟨⟨first', c'⟩, hread, hnext⟩ := bind_ok hnext
  obtain ⟨rfl, rfl⟩ := Prod.mk.inj (Except.ok.inj hnext)
  exact ⟨c, r₁, c', first', later, hcur, hread, hlater, rfl⟩

/-- What the reader in use has still to deliver. -/
def Remaining (size : U64) : Option CurrentReader → List Meas → Prop
  | none, out => out = []
  | some c, out => c.Delivers size out

theorem Remaining.step (hnext : c.readNextBy size = .ok (out, c'))
    (h : Remaining size (if c'.isEnd then none else some c') rest) : c.Delivers size (out ++ rest) := by
  by_cases hend : c'.isEnd = true
  · rw [if_pos hend] at h
    rw [show rest = [] from h]
    exact .step hnext (.of_end hend)
  · rw [if_neg hend] at h
    exact .step hnext h

/-- What a reader delivers comes from the reader in use, and then from the pages. -/
theorem pages_delivered {cur : Option CurrentReader} (hcur : ∀ c, cur = some c → c.isEnd = false)
    (h : (r.goOn pages cur).readAllBy size disk fuel = .ok out) :
    ∃ first outs, Remaining size cur first ∧ List.Forall₂ (r.PageDelivers size disk) pages outs ∧
      out = first ++ outs.flatten := by
  induction fuel generalizing pages cur out with
  | zero => cases h
  | succ fuel ih =>
    by_cases he : (r.goOn pages cur).isEnd = true
    · cases cur with
      | some c =>
        refine absurd he ?_
        unfold isEnd goOn
        simp [hcur c rfl]
      | none =>
        cases pages with
        | nil =>
          obtain rfl := Except.ok.inj h
          exact ⟨[], [], rfl, .nil, rfl⟩
        | cons name pages => cases he
    obtain ⟨c, r₁, c', first, later, hopen, hnext, hlater, rfl⟩ := readAll_turn he h
    -- the calls after this one are those of a reader with the pages of `r₁` to come
    have hrest : ∀ ps, r₁ = r.goOn ps r₁.currentReader → ∃ mine outs, c.Delivers size mine ∧
        List.Forall₂ (r.PageDelivers size disk) ps outs ∧ first ++ later = mine ++ outs.flatten := by
      intro ps hr₁
      rw [hr₁] at hlater
      have hin : ∀ c₁, (if c'.isEnd then none else some c') = some c₁ → c₁.isEnd = false := by
        intro c₁ hc₁
        by_cases hend : c'.isEnd = true
        · rw [if_pos hend] at hc₁
          cases hc₁
        · rw [if_neg hend] at hc₁
          rw [← Option.some.inj hc₁]
          exact Bool.eq_false_iff.mpr hend
      obtain ⟨mine, outs, hmine, houts, rfl⟩ := ih hin hlater
      exact ⟨first ++ mine, outs, Remaining.step hnext hmine, houts, (List.append_assoc ..).symm⟩
    cases cur with
    | some c₁ =>
      obtain ⟨rfl, rfl⟩ := Prod.mk.inj (Except.ok.inj hopen)
      exact hrest pages rfl
    | none =>
      cases pages with
      | nil => exact absurd rfl he
      | cons name pages =>
        obtain ⟨c₁, hpage, hopen⟩ := bind_ok hopen
        obtain ⟨rfl, rfl⟩ := Prod.mk.inj (Except.ok.inj hopen)
        obtain ⟨mine, outs, hmine, houts, heq⟩ := hrest pages rfl
        exact ⟨[], mine :: outs, rfl, .cons ⟨c₁, hpage, hmine⟩ houts, heq⟩

/-- The reader delivers what the readers of its pages do, one after the other. -/
theorem delivers_iff (hcur : r.currentReader = none) : r.Delivers size disk out ↔
    ∃ outs, List.Forall₂ (r.PageDelivers size disk) r.pages outs ∧ out = outs.flatten := by
  have hself : r.goOn r.pages none = r := by
    rw [← hcur]
    rfl
  constructor
  · rintro ⟨steps, h⟩
    have hrun := h steps le_rfl
    rw [← hself] at hrun
    have hin : ∀ c : CurrentReader, none = some c → c.isEnd = false := fun _ hc => by cases hc
    obtain ⟨first, outs, rfl, houts, heq⟩ := pages_delivered hin hrun
    exact ⟨outs, houts, heq⟩
  · rintro ⟨outs, houts, rfl⟩
    obtain ⟨n, hn⟩ := delivers_pages houts
    rw [hself] at hn
    exact ⟨n, fun fuel hle => readAll_more hn hle⟩

end
end StorageReader

namespace Storage
open Page PageReaderInterval

/-- In chunks of any size, a reader of ranges of a page that is not empty delivers the values at the
beginning of the interval and then what it lets through of the ranges if and only if the positions of
the ranges can be read, the page can be read backwards where these values are due, and `read_to` wraps
at the beginning of no range that is not empty; and a reader of a storage delivers what the readers of
its pages do, each once, in order, and ends only if these do. -/
theorem chunkedRead_iff (size : U64) (hsize : 0 < size.val) :
    (∀ (fsize : U64) (log : List Meas) (p : Page), Used fsize log p → log ≠ [] →
      ∀ (q : PageReader) (fromTime toTime : Time) (ranges : List (Nat × Nat)), fromTime ≤ p.header.maxTime →
        (∀ x, x ∈ ranges → x.1 ≤ x.2 ∧ x.2 ≤ p.header.writePos) →
        (ReadsRanges size q fromTime toTime ranges p ↔
          (∀ i, i ∈ rangePositions ranges → p.Readable i) ∧
          (PointDue p fromTime ranges → PointLegible q.ids q.source q.flag fromTime p) ∧
          ∀ x, x ∈ ranges → x.1 < x.2 → x.1 + size.val < 2 ^ 64)) ∧
    ∀ (disk : String → PageFile) (r : StorageReader), r.currentReader = none → ∀ out,
      r.Delivers size disk out ↔
        ∃ outs, List.Forall₂ (r.PageDelivers size disk) r.pages outs ∧ out = outs.flatten := by
  refine ⟨fun fsize log p hu hne q fromTime toTime ranges hfrom hranges => ?_, fun disk r hcur out => ?_⟩
  · obtain ⟨recs, h⟩ := hu.posted
    exact ofRanges_reads_iff h (h.areas.writePos ▸ List.length_pos_iff.mpr hne) hsize hfrom hranges
  · exact StorageReader.delivers_iff hcur

/-- A storage of one page, read for the times 10 to 20. -/
def onePage : StorageReader := ⟨["page"], none, "", [], 0, 0, 10, 20, 0⟩

/-- One position at a time: three ranges of a page, and the page as a file. -/
theorem chunkedRead_iff_one : ∃ log p f out,
    appendAll [.array [.plain 1 10, .plain 2 20, .plain 1 30]] (create (calcSize 3)) = .ok (log, p) ∧
    ReadsRanges 1 ⟨[], 0, 0, []⟩ 10 20 [(0, 2), (2, 2), (2, 3)] p ∧
    p.close = .ok f ∧ out.length = 2 ∧ onePage.Delivers 1 (fun _ => f) out := by
  obtain ⟨⟨log, p⟩, hrun, hok⟩ := exists_ok
    (x := appendAll [.array [.plain 1 10, .plain 2 20, .plain 1 30]] (create (calcSize 3)))
    (p := fun x : List Meas × Page =>
      decide (x.1 ≠ [] ∧ 10 = x.2.header.minTime ∧ 10 ≤ x.2.header.maxTime ∧ x.2.header.writePos = 3) &&
      x.2.contents.toOption.isSome &&
      x.2.close.toOption.any fun f : PageFile => (onePage.openPage (fun _ => f) "page").toOption.any
        fun c : CurrentReader => (c.readAllBy 1 9).toOption.any fun out : List Meas => decide (out.length = 2))
    (by decide +kernel)
  obtain ⟨hread, hstore⟩ := Bool.and_eq_true_iff.mp hok
  obtain ⟨hpage, hall⟩ := Bool.and_eq_true_iff.mp hread
  obtain ⟨hne, hmin, hmax, hpos⟩ := of_decide_eq_true hpage
  obtain ⟨all, hall⟩ := Option.isSome_iff_exists.mp hall
  rw [toOption_eq_some] at hall
  obtain ⟨f, hclose, hstore⟩ := exists_ok hstore
  obtain ⟨c, hopen, hc⟩ := exists_ok hstore
  obtain ⟨out, hout, hlen⟩ := exists_ok hc
  have hranges : ∀ x : Nat × Nat, x ∈ [(0, 2), (2, 2), (2, 3)] → x.1 ≤ x.2 ∧ x.2 ≤ p.header.writePos := by
    rw [hpos]
    decide
  refine ⟨log, p, f, out, hrun, ?_, hclose, of_decide_eq_true hlen, ?_⟩
  · have hr := contents_iff.mp hall
    have hused := Used.create.appendAll hrun
    obtain ⟨recs, h⟩ := hused.posted
    exact ((chunkedRead_iff 1 (by decide)).1 _ log p hused hne ⟨[], 0, 0, []⟩ 10 20 _ hmax hranges).mpr
      ⟨ranges_readable hr hranges, fun _ => h.pointLegible (by rw [hpos]; decide) hr (.inl hmin), by decide⟩
  · have hpage : onePage.PageDelivers 1 (fun _ => f) "page" out :=
      ⟨c, hopen, CurrentReader.delivers_iff.mpr ⟨9, hout⟩⟩
    exact ((chunkedRead_iff 1 (by decide)).2 (fun _ => f) onePage rfl out).mpr
      ⟨[out], .cons hpage .nil, (List.append_nil out).symm⟩

/-- With the greatest `ReadSize` the sum wraps at position 1, and the reader stays there. -/
theorem chunkedRead_stays : ∃ log p,
    appendAll [.array [.plain 1 10, .plain 2 20]] (create (calcSize 2)) = .ok (log, p) ∧ 5 ≤ p.header.maxTime ∧
    p.header.writePos = 2 ∧
    ∀ fuel, (ofRanges ⟨[], 0, 0, []⟩ 5 30 [(1, 2)]).readAllBy (word (2 ^ 64 - 1)) fuel p = .error .outOfFuel := by
  obtain ⟨⟨log, p⟩, hrun, hok⟩ := exists_ok
    (x := appendAll [.array [.plain 1 10, .plain 2 20]] (create (calcSize 2)))
    (p := fun x : List Meas × Page =>
      decide (5 < x.2.header.minTime ∧ 5 ≤ x.2.header.maxTime ∧ x.2.header.writePos = 2) &&
      x.2.contents.toOption.isSome) (by decide +kernel)
  obtain ⟨hpage, hall⟩ := Bool.and_eq_true_iff.mp hok
  obtain ⟨hmin, hmax, hpos⟩ := of_decide_eq_true hpage
  obtain ⟨all, hall⟩ := Option.isSome_iff_exists.mp hall
  rw [toOption_eq_some] at hall
  refine ⟨log, p, hrun, hmax, hpos, fun fuel => ?_⟩
  have hranges : ∀ x : Nat × Nat, x ∈ [(1, 2)] → x.1 ≤ x.2 ∧ x.2 ≤ p.header.writePos := by
    rw [hpos]
    decide
  have hs : (ofRanges ⟨[], 0, 0, []⟩ 5 30 [(1, 2)]).Sound p := ofRanges_sound hmax hranges (by rw [hpos]; decide)
  have hstuck : (ofRanges ⟨[], 0, 0, []⟩ 5 30 [(1, 2)]).Stuck (word (2 ^ 64 - 1)) :=
    .inr ⟨(1, 2), List.mem_cons_self, by decide⟩
  have hr := contents_iff.mp hall
  exact hstuck.readAll hs (.inr hmin) (ranges_readable hr hranges) fuel

end Storage
end Nkvdb
