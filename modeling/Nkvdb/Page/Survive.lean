import Nkvdb.Page.Chunks

/-! A reader whose page is appended to.

`readInterval` chooses by the greatest time of the page whether a reader is one of the window, and
`readNext` looks at that time again. Appends only raise it, so that a reader of positions goes on as it
began. A reader of the window that was overtaken looks for positions, and has none
(`survives_iff`). -/
namespace Nkvdb

/-- What ends a call, other than taking the front of an empty list. -/
def Fault.Thrown (e : Fault) : Prop := e ≠ .nullReader ∧ e ≠ .outOfFuel

instance : DecidablePred Fault.Thrown := fun e => by
  unfold Fault.Thrown
  infer_instance

theorem Fault.thrown_readError (i : Nat) : (Fault.readError i).Thrown := ⟨nofun, nofun⟩

namespace Page

/-! ### What a read throws -/

section
variable {p : Page} {e : Fault}

theorem copyOut_fault {i n : Nat} (h : p.copyOut i n = .error e) : e = .bufferOverflow := by
  unfold copyOut at h
  split at h
  · cases h
  · exact (Except.error.inj h).symm

theorem read_fault {m : Meas} {i : Nat} (h : p.read m i = .error e) : e = .bufferOverflow := by
  unfold read at h
  split at h
  · cases h
  split at h
  · cases h
  rcases bind_error h with h | ⟨bs, -, h⟩
  · exact copyOut_fault h
  dsimp only at h
  split at h
  · exact (Except.error.inj h).symm
  rcases bind_error h with h | ⟨bs', -, h⟩
  · exact copyOut_fault h
  · cases h

theorem readAt_thrown {i : Nat} (h : p.readAt i = .error e) : e.Thrown := by
  rcases bind_error h with h | ⟨x, -, h⟩
  · rw [read_fault h]
    decide
  · cases x with
    | none =>
      rw [← Except.error.inj h]
      exact Fault.thrown_readError _
    | some m => cases h

theorem backwardLoop_thrown {check : Meas → Bool} {tp : Time} {pos n : Nat} {vs : MeasMap}
    (h : backwardLoop check tp p pos n vs = .error e) : e.Thrown := by
  induction n generalizing vs with
  | zero => cases h
  | succ n ih =>
    rcases bind_error h with h | ⟨m, -, h⟩
    · exact readAt_thrown h
    · exact ih h

theorem backwardRecords_thrown {check : Meas → Bool} {tp : Time} {irecords : List (Nat × Nat)} {vs : MeasMap}
    (h : backwardRecords check tp p irecords vs = .error e) : e.Thrown := by
  induction irecords generalizing vs with
  | nil => cases h
  | cons x irecords ih =>
    unfold backwardRecords at h
    by_cases hzero : x.1 = 0 ∧ x.2 = 0
    · rw [if_pos hzero] at h
      rw [← Except.error.inj h]
      exact Fault.thrown_readError _
    · rw [if_neg hzero] at h
      rcases bind_error h with h | ⟨vs', -, h⟩
      · exact backwardLoop_thrown h
      · exact ih h

theorem findInIndex_thrown {ix : Index} {size : Nat} {recs : List IndexRecord} (hl : ix.Logged size recs)
    {ids : List Id} {fromTime toTime : Time} {flag source : Flag}
    (h : ix.findInIndex ids fromTime toTime flag source = .error e) : e.Thrown := by
  cases hf : ix.flush with
  | error e' =>
    simp only [Index.findInIndex, hf, bind, Except.bind] at h
    obtain rfl := Except.error.inj h
    rcases hl.flush_fault hf with rfl | rfl <;> decide
  | ok ix' =>
    obtain ⟨nodes, -, hok⟩ := hl.findInIndex hf ids fromTime toTime flag source
    rw [hok] at h
    cases h

theorem backwardRead_thrown {size : Nat} {recs : List IndexRecord} (hl : p.index.Logged size recs) {ids : List Id}
    {source flag : Flag} {tp : Time} (h : p.backwardRead ids source flag tp = .error e) : e.Thrown := by
  rw [backwardRead_eq] at h
  rcases bind_error h with h | ⟨x, -, h⟩
  · unfold backwardRanges at h
    split at h
    · cases h
    · rcases bind_error h with h | ⟨y, -, h⟩
      · exact findInIndex_thrown hl h
      · cases h
  · cases hrec : backwardRecords (backwardCheck ids source flag) tp x.2 x.1 [] with
    | error e' =>
      rw [hrec] at h
      obtain rfl : e' = e := Except.error.inj h
      exact backwardRecords_thrown hrec
    | ok vs =>
      rw [hrec] at h
      cases h

theorem timePointRead_thrown {size : Nat} {recs : List IndexRecord} (hl : p.index.Logged size recs) {q : PageReader}
    {tp : Time} (h : q.timePointRead tp p = .error e) : e.Thrown := by
  by_cases htp : p.header.maxTime < tp
  · rw [PageReader.timePointRead_behind htp] at h
    cases h
  · rw [PageReader.timePointRead_back (not_lt.mp htp)] at h
    rcases bind_error h with h | ⟨x, -, h⟩
    · exact backwardRead_thrown hl h
    · cases h

end

/-! ### What appends do -/

/-- A page that is searched has what it had, its index flushed or not. -/
theorem Posted.searched {fsize : U64} {log : List Meas} {recs : List IndexRecord} {p : Page} {ix : Index}
    (h : Posted fsize log recs p) (hix : ix = p.index ∨ p.index.flush = .ok ix) :
    Posted fsize log recs {p with index := ix} := by
  rcases hix with rfl | hf
  · exact h
  · exact h.flush hf

theorem appendAll_thrown {fsize : U64} {log : List Meas} {recs : List IndexRecord} {ops : List Op} {p : Page}
    {e : Fault} (h : Posted fsize log recs p) (herr : appendAll ops p = .error e) : e.Thrown := by
  induction ops generalizing log recs p with
  | nil => cases herr
  | cons op ops ih =>
    rcases bind_error herr with herr | ⟨x, hop, herr⟩
    · rcases Op.run_fault h.logged herr with rfl | (rfl | rfl) | hacc
      · decide
      · decide
      · decide
      · rcases acceptAll_fault hacc with rfl | rfl | rfl <;> decide
    · rcases bind_error herr with herr | ⟨y, -, herr⟩
      · exact ih (h.append hop) herr
      · cases herr

/-- The page has begun to keep the bounds of its times, and goes on with those of `p`. -/
structure Grown (p p' : Page) : Prop where
  init : p'.header.minMaxInit = true
  maxTime : p.header.maxTime ≤ p'.header.maxTime
  writePos : p.header.writePos ≤ p'.header.writePos

theorem updateMinMax_maxTime {h : Header} (hinit : h.minMaxInit = true) (m : Meas) :
    h.maxTime ≤ (updateMinMax m h).maxTime := by
  unfold updateMinMax
  rw [if_pos hinit]
  exact le_max_right ..

theorem updateMinMax_init (m : Meas) (h : Header) : (updateMinMax m h).minMaxInit = true := by
  unfold updateMinMax
  by_cases hinit : h.minMaxInit = true
  · rw [if_pos hinit]
    exact hinit
  · rw [if_neg hinit]

/-- The bounds are kept from the first measurement accepted on. -/
theorem Op.minMax_init (op : Op) {k : Nat} {h : Header} (hinit : h.minMaxInit = true ∨ k ≠ 0) :
    (op.minMax k h).minMaxInit = true := by
  by_cases hk : k = 0
  · have hh := hinit.resolve_right fun hne => hne hk
    cases op with
    | single m junk => exact (congrArg Header.minMaxInit (if_pos hk)).trans hh
    | array ms => exact (congrArg Header.minMaxInit (if_pos hk)).trans hh
  · cases op with
    | single m junk => exact (congrArg Header.minMaxInit (if_neg hk)).trans (updateMinMax_init ..)
    | array ms => exact (congrArg Header.minMaxInit (if_neg hk)).trans (updateMinMax_init ..)

theorem Op.minMax_maxTime (op : Op) (k : Nat) {h : Header} (hinit : h.minMaxInit = true) :
    h.maxTime ≤ (op.minMax k h).maxTime := by
  by_cases hk : k = 0
  · cases op with
    | single m junk => exact (congrArg Header.maxTime (if_pos hk)).ge
    | array ms => exact (congrArg Header.maxTime (if_pos hk)).ge
  · cases op with
    | single m junk => exact (updateMinMax_maxTime hinit m).trans (congrArg Header.maxTime (if_neg hk)).ge
    | array ms =>
      have hfirst := updateMinMax_maxTime hinit (nth ms 0)
      have hlast := updateMinMax_maxTime (updateMinMax_init (nth ms 0) h) (nth ms (k - 1))
      exact (hfirst.trans hlast).trans (congrArg Header.maxTime (if_neg hk)).ge

/-- What is accepted leaves the bounds alone. -/
theorem acceptAll_header {ms : List Meas} {p q : Page} {k : Nat} (h : acceptAll ms p = .ok (k, q)) :
    q.header.minMaxInit = p.header.minMaxInit ∧ q.header.maxTime = p.header.maxTime ∧
      p.header.writePos ≤ q.header.writePos :=
  acceptAll_keeps (P := fun q => q.header.minMaxInit = p.header.minMaxInit ∧ q.header.maxTime = p.header.maxTime ∧
      p.header.writePos ≤ q.header.writePos)
    (fun _ _ _ _ hp => ⟨hp.1, hp.2.1, hp.2.2.trans (Nat.le_succ _)⟩) h ⟨rfl, rfl, le_rfl⟩

theorem Grown.append {p p' p'' : Page} {op : Op} {r : AppendResult} (h : Grown p p') (hrun : op.run p' = .ok (r, p'')) :
    Grown p p'' := by
  obtain ⟨-, k, q, ix, ha, -, -, rfl⟩ := Op.run_iff.mp hrun
  obtain ⟨hinit, hmax, hpos⟩ := acceptAll_header ha
  rw [h.init] at hinit
  constructor
  case init => exact op.minMax_init (.inl hinit)
  case maxTime => exact h.maxTime.trans (hmax.ge.trans (op.minMax_maxTime k hinit))
  case writePos =>
    obtain ⟨init, lo, hi, he⟩ := op.minMax_eq k q.header
    show p.header.writePos ≤ (op.minMax k q.header).writePos
    rw [he]
    exact h.writePos.trans hpos

theorem Grown.appendAll {new : List Meas} {ops : List Op} {p p' p'' : Page} (h : Grown p p')
    (hrun : appendAll ops p' = .ok (new, p'')) : Grown p p'' := by
  have hstep : ∀ op, op ∈ ops → ∀ (_ : List Meas) q r q', Grown p q → op.run q = .ok (r, q') → Grown p q' :=
    fun _ _ _ _ _ _ hq hop => hq.append hop
  exact @appendAll_keeps (fun _ q => Grown p q) ops hstep [] new p' p'' h hrun

/-- A page that holds something keeps the bounds of its times. -/
theorem Used.init {fsize : U64} {log : List Meas} {p : Page} (h : Used fsize log p) (hne : log ≠ []) :
    p.header.minMaxInit = true := by
  induction h with
  | create => exact absurd rfl hne
  | @append log p p' op r _ hrun ih =>
    obtain ⟨-, k, q, ix, ha, -, rfl, rfl⟩ := Op.run_iff.mp hrun
    obtain ⟨hinit, -, -⟩ := acceptAll_header ha
    refine op.minMax_init ?_
    by_cases hlog : log = []
    · refine .inr fun hk => hne ?_
      rw [hlog, hk]
      rfl
    · exact .inl (hinit.trans (ih hlog))
  | flush _ _ ih => exact ih hne
  | setWriteWindow w _ ih => exact ih hne
  | reopen _ hclose hopen ih =>
    obtain ⟨ix, -, rfl⟩ := close_iff.mp hclose
    obtain ⟨-, -, w, -, rfl⟩ := openFile_iff.mp hopen
    exact ih hne

end Page

namespace PageReaderInterval
open Page

/-! ### A reader of positions -/

section
variable {r : PageReaderInterval} {p p' : Page} {e : Fault}

theorem Sound.grown (hs : r.Sound p) (hg : Grown p p') (hshort : p'.header.writePos < 2 ^ 59) : r.Sound p' :=
  ⟨hs.window, hs.inside.trans hg.maxTime, ⟨hs.cur.1, hs.cur.2.trans hg.writePos⟩,
    fun x hx => ⟨(hs.list x hx).1, (hs.list x hx).2.trans hg.writePos⟩, hshort⟩

theorem readLoop_thrown {n i : Nat} (h : r.readLoop p n i = .error e) : e.Thrown := by
  induction n generalizing i with
  | zero => cases h
  | succ n ih =>
    unfold readLoop at h
    split at h
    · cases h
    · rcases bind_error h with h | ⟨m, -, h⟩
      · exact readAt_thrown h
      · rcases bind_error h with h | ⟨x, -, h⟩
        · exact ih h
        · cases h

/-- The loop stops at the end of the positions, or when its turns are used up. -/
theorem readLoop_stop {n i j : Nat} {out : List Meas} (h : r.readLoop p n i = .ok (out, j)) (hi : i ≤ r.curPosEnd) :
    j = i + min n (r.curPosEnd - i) := by
  induction n generalizing i out with
  | zero =>
    obtain ⟨-, rfl⟩ := Prod.mk.inj (Except.ok.inj h)
    omega
  | succ n ih =>
    unfold readLoop at h
    split at h
    next he =>
      obtain ⟨-, rfl⟩ := Prod.mk.inj (Except.ok.inj h)
      omega
    next hne =>
      obtain ⟨m, -, h⟩ := bind_ok h
      obtain ⟨⟨rest, k⟩, hrest, h⟩ := bind_ok h
      obtain ⟨-, rfl⟩ := Prod.mk.inj (Except.ok.inj h)
      have := ih hrest (by omega)
      omega

/-- The values at the beginning of the interval leave the positions alone. -/
theorem readInPoint_index {r₁ : PageReaderInterval} {first : List Meas} (h : r.readInPoint p = .ok (first, r₁, p')) :
    (r₁ = r ∨ r₁ = r.pastPoint) ∧ ∃ ix, p' = {p with index := ix} ∧ (ix = p.index ∨ p.index.flush = .ok ix) := by
  unfold readInPoint at h
  split at h
  · obtain ⟨⟨out, p₁⟩, hpoint, h⟩ := bind_ok h
    obtain ⟨-, h⟩ := Prod.mk.inj (Except.ok.inj h)
    obtain ⟨rfl, rfl⟩ := Prod.mk.inj h
    exact ⟨.inr rfl, timePointRead_index hpoint⟩
  · obtain ⟨-, h⟩ := Prod.mk.inj (Except.ok.inj h)
    obtain ⟨rfl, rfl⟩ := Prod.mk.inj h
    exact ⟨.inl rfl, p.index, rfl, .inl rfl⟩

theorem readInPoint_thrown {size : Nat} {recs : List IndexRecord} (hl : p.index.Logged size recs)
    (h : r.readInPoint p = .error e) : e.Thrown := by
  unfold readInPoint at h
  split at h
  · rcases bind_error h with h | ⟨x, -, h⟩
    · exact timePointRead_thrown hl h
    · cases h
  · cases h

/-- A call of `readNext` on positions throws, or reads on. -/
theorem readNext_cases {size : Nat} {recs : List IndexRecord} (hl : p.index.Logged size recs) (hs : r.Sound p)
    (he : ¬ r.isEnd = true) : (∃ e, r.readNext p = .error e ∧ e.Thrown) ∨
      ∃ out r' ix, r.readNext p = .ok (out, r', {p with index := ix}) ∧ (ix = p.index ∨ p.index.flush = .ok ix) ∧
        r'.Sound {p with index := ix} ∧ r'.work < r.work := by
  unfold readNext readNextBy
  rw [if_neg he, if_neg (not_lt.mpr hs.inside)]
  cases hpoint : r.readInPoint p with
  | error e => exact .inl ⟨e, rfl, readInPoint_thrown hl hpoint⟩
  | ok x =>
    obtain ⟨first, r₁, p₁⟩ := x
    obtain ⟨hsame, ix, rfl, hix⟩ := readInPoint_index hpoint
    have hs₁ : r₁.Sound {p with index := ix} ∧ ¬ r₁.isEnd = true ∧ r₁.work = r.work := by
      rcases hsame with rfl | rfl
      · exact ⟨hs.of_header rfl, he, rfl⟩
      · exact ⟨hs.pastPoint ix, he, rfl⟩
    obtain ⟨hs₁, he₁, hwork₁⟩ := hs₁
    obtain ⟨r₂, h₂, hs₂, -, -, hwork, -⟩ := nextPos_spec hs₁ he₁
    simp only [h₂, bind, Except.bind]
    cases hloop : r₂.readLoop {p with index := ix} (r₂.readTo readSize - r₂.curPosBegin) r₂.curPosBegin with
    | error e => exact .inl ⟨e, rfl, readLoop_thrown hloop⟩
    | ok y =>
      obtain ⟨out, j⟩ := y
      obtain rfl := readLoop_stop hloop hs₂.cur.1
      obtain ⟨hs', -, hwork'⟩ := hs₂.advance hs₂.steps hwork rfl
      rw [hwork₁] at hwork'
      exact .inr ⟨first ++ out, _, ix, rfl, hix, hs', hwork'⟩

end

/-! ### Appends between the calls -/

/-- `Reader::readAll`, with the appends `ops i` before call `i` of `readNext`. -/
def readAllAmid (ops : Nat → List Op) : Nat → PageReaderInterval → Page → Except Fault (List Meas × Page)
  | 0, _, _ => .error .outOfFuel
  | fuel + 1, r, p =>
    if r.isEnd then .ok ([], p)
    else do
      let (_, p) ← appendAll (ops 0) p
      let (out, r, p) ← r.readNext p
      let (rest, p) ← readAllAmid (fun i => ops (i + 1)) fuel r p
      return (out ++ rest, p)

/-- `readNext` never takes the front of an empty list, and some number of calls is enough. -/
structure Survives (ops : Nat → List Op) (r : PageReaderInterval) (p : Page) : Prop where
  front : ∀ fuel, r.readAllAmid ops fuel p ≠ .error .nullReader
  ends : ∃ steps, ∀ fuel, steps ≤ fuel → r.readAllAmid ops fuel p ≠ .error .outOfFuel

section
variable {fsize : U64} {log : List Meas} {recs : List IndexRecord} {r : PageReaderInterval} {p : Page} {e : Fault}
  {ops : Nat → List Op} {fuel : Nat}

/-- Where it goes wrong: in the appends, in the call of `readNext`, or after it. -/
theorem readAllAmid_error (he : ¬ r.isEnd = true) (h : r.readAllAmid ops (fuel + 1) p = .error e) :
    appendAll (ops 0) p = .error e ∨ ∃ new p₁, appendAll (ops 0) p = .ok (new, p₁) ∧
      (r.readNext p₁ = .error e ∨ ∃ out r' p₂, r.readNext p₁ = .ok (out, r', p₂) ∧
        r'.readAllAmid (fun i => ops (i + 1)) fuel p₂ = .error e) := by
  unfold readAllAmid at h
  rw [if_neg he] at h
  rcases bind_error h with h | ⟨⟨new, p₁⟩, happ, h⟩
  · exact .inl h
  refine .inr ⟨new, p₁, happ, ?_⟩
  rcases bind_error h with h | ⟨⟨out, r', p₂⟩, hnext, h⟩
  · exact .inl h
  refine .inr ⟨out, r', p₂, hnext, ?_⟩
  rcases bind_error h with h | ⟨y, -, h⟩
  · exact h
  · cases h

/-- At its end it throws nothing. -/
theorem readAllAmid_end (he : r.isEnd = true) : r.readAllAmid ops (fuel + 1) p = .ok ([], p) := by
  unfold readAllAmid
  exact if_pos he

/-- A reader of positions throws, or ends when its positions are read. -/
theorem Sound.readAllAmid (hs : r.Sound p) (hp : Posted fsize log recs p) (hinit : p.header.minMaxInit = true)
    (h : r.readAllAmid ops fuel p = .error e) : e ≠ .nullReader ∧ (e = .outOfFuel → fuel ≤ r.work) := by
  induction fuel generalizing ops log recs r p with
  | zero =>
    obtain rfl := Except.error.inj h
    exact ⟨nofun, fun _ => Nat.zero_le _⟩
  | succ fuel ih =>
    have hthrown : e.Thrown → e ≠ .nullReader ∧ (e = .outOfFuel → fuel + 1 ≤ r.work) :=
      fun ht => ⟨ht.1, fun he => absurd he ht.2⟩
    by_cases he : r.isEnd = true
    · rw [readAllAmid_end he] at h
      cases h
    rcases readAllAmid_error he h with h | ⟨new, p₁, happ, h⟩
    · exact hthrown (appendAll_thrown hp h)
    obtain ⟨recs₁, hp₁⟩ := hp.appendAll happ
    have hg := Grown.appendAll ⟨hinit, le_rfl, le_rfl⟩ happ
    have hs₁ := hs.grown hg hp₁.areas.short
    rcases readNext_cases hp₁.logged hs₁ he with ⟨e', herr, ht⟩ | ⟨out, r', ix, hok, hix, hs', hwork⟩
    · rcases h with h | ⟨out, r', p₂, hok, -⟩
      · rw [herr] at h
        obtain rfl := Except.error.inj h
        exact hthrown ht
      · rw [herr] at hok
        cases hok
    · rcases h with h | ⟨out', r'', p₂, hnext, h⟩
      · rw [hok] at h
        cases h
      rw [hok] at hnext
      cases hnext
      obtain ⟨hfront, hends⟩ := ih hs' (hp₁.searched hix) hg.init h
      exact ⟨hfront, fun he => by have := hends he; omega⟩

theorem Sound.survives (hs : r.Sound p) (hp : Posted fsize log recs p) (hinit : p.header.minMaxInit = true) :
    r.Survives ops p := by
  constructor
  case front => exact fun fuel h => (hs.readAllAmid hp hinit h).1 rfl
  case ends =>
    refine ⟨r.work + 1, fun fuel hle h => ?_⟩
    have := (hs.readAllAmid hp hinit h).2 rfl
    omega

end

/-! ### A reader of the window -/

/-- A reader of the window, before it has read. -/
structure Watches (r : PageReaderInterval) : Prop where
  window : r.isWindowReader = true
  list : r.readPosList = []
  cur : r.curPosBegin = r.curPosEnd
  unread : r.wwWindowReaderReadEnd = false
  first : r.valuesInPointReader = false

/-- The page still lies before the interval, or it has the beginning of the interval in it and cannot be
read backwards from there. -/
def Spared (r : PageReaderInterval) (p : Page) : Prop :=
  p.header.maxTime < r.fromTime ∨
    p.header.minTime ≤ r.fromTime ∧ ¬ PointLegible r.ids r.source r.flag r.fromTime p

section
variable {fsize : U64} {log : List Meas} {recs : List IndexRecord} {r : PageReaderInterval} {p : Page}
  {ops : Nat → List Op}

/-- Within the page a read at the time point throws where the page cannot be read backwards. -/
theorem timePointRead_error (hp : Posted fsize log recs p) (hpos : 0 < p.header.writePos) {q : PageReader} {tp : Time}
    (htp : tp ≤ p.header.maxTime) :
    (∃ e, q.timePointRead tp p = .error e) ↔ ¬ PointLegible q.ids q.source q.flag tp p := by
  rw [← hp.timePointRead_iff hpos htp]
  cases q.timePointRead tp p with
  | ok x => simp
  | error e => simp

theorem Watches.isEnd (hw : r.Watches) : ¬ r.isEnd = true := by
  unfold PageReaderInterval.isEnd
  rw [if_pos hw.window, hw.unread]
  exact Bool.false_ne_true

/-- Once overtaken, it takes the front of its empty list. -/
theorem Watches.readNext (hw : r.Watches) (hp : Posted fsize log recs p) (hpos : 0 < p.header.writePos)
    (hs : ¬ r.Spared p) : r.readNext p = .error .nullReader := by
  obtain ⟨hmax, hpoint⟩ := not_or.mp hs
  unfold PageReaderInterval.readNext readNextBy
  rw [if_neg hw.isEnd, if_neg hmax]
  have hnext : ∀ r₁ : PageReaderInterval, (r₁ = r ∨ r₁ = r.pastPoint) → r₁.nextPos = .error .nullReader := by
    rintro r₁ (rfl | rfl)
    · unfold nextPos
      rw [if_pos hw.cur, hw.list]
    · unfold nextPos
      rw [if_pos (show r.pastPoint.curPosBegin = r.pastPoint.curPosEnd from hw.cur),
        show r.pastPoint.readPosList = [] from hw.list]
  cases hin : r.readInPoint p with
  | error e =>
    refine absurd ?_ hpoint
    unfold readInPoint at hin
    split at hin
    next hmin =>
      refine ⟨hmin.1, ?_⟩
      rcases bind_error hin with hin | ⟨x, -, hin⟩
      · exact (timePointRead_error hp hpos (not_lt.mp hmax)).mp ⟨e, hin⟩
      · cases hin
    next => cases hin
  | ok x =>
    simp only [bind, Except.bind, hnext x.2.1 (readInPoint_index hin).1]

/-- Otherwise it ends with this call. -/
theorem Watches.readNext_spared (hw : r.Watches) (hp : Posted fsize log recs p) (hpos : 0 < p.header.writePos)
    (hs : r.Spared p) :
    (∃ e, r.readNext p = .error e ∧ e.Thrown) ∨ ∃ out r', r.readNext p = .ok (out, r', p) ∧ r'.isEnd = true := by
  by_cases hmax : p.header.maxTime < r.fromTime
  · refine .inr ⟨_, _, (readNext_window hw.window hw.unread hmax).1, ?_⟩
    unfold PageReaderInterval.isEnd
    exact if_pos hw.window
  · obtain ⟨hmin, hunread⟩ := hs.resolve_left hmax
    obtain ⟨e, he⟩ := (timePointRead_error hp hpos (not_lt.mp hmax)).mpr hunread
    refine .inl ⟨e, ?_, timePointRead_thrown hp.logged he⟩
    unfold PageReaderInterval.readNext readNextBy readInPoint
    rw [if_neg hw.isEnd, if_neg hmax, if_pos ⟨hmin, hw.first⟩, he]
    rfl

theorem Watches.spared_iff (hw : r.Watches) (hp : Posted fsize log recs p) (hpos : 0 < p.header.writePos) :
    r.Survives ops p ↔ ∀ new p', appendAll (ops 0) p = .ok (new, p') → r.Spared p' := by
  have hgrown : ∀ {new p'}, appendAll (ops 0) p = .ok (new, p') →
      (∃ recs', Posted fsize (log ++ new) recs' p') ∧ 0 < p'.header.writePos := by
    intro new p' happ
    obtain ⟨recs', hp'⟩ := hp.appendAll happ
    refine ⟨⟨recs', hp'⟩, ?_⟩
    rw [hp.areas.writePos] at hpos
    rw [hp'.areas.writePos, List.length_append]
    omega
  constructor
  · intro h new p' happ
    by_contra hs
    obtain ⟨⟨recs', hp'⟩, hpos'⟩ := hgrown happ
    refine h.front 1 ?_
    unfold readAllAmid
    rw [if_neg hw.isEnd, happ]
    simp only [bind, Except.bind, hw.readNext hp' hpos' hs]
  · intro h
    have hall : ∀ fuel e, r.readAllAmid ops fuel p = .error e → e ≠ .nullReader ∧ (e = .outOfFuel → fuel ≤ 1) := by
      intro fuel e herr
      cases fuel with
      | zero =>
        obtain rfl := Except.error.inj herr
        exact ⟨nofun, fun _ => Nat.zero_le _⟩
      | succ fuel =>
        have hthrown : e.Thrown → e ≠ .nullReader ∧ (e = .outOfFuel → fuel + 1 ≤ 1) :=
          fun ht => ⟨ht.1, fun he => absurd he ht.2⟩
        rcases readAllAmid_error hw.isEnd herr with herr | ⟨new, p₁, happ, herr⟩
        · exact hthrown (appendAll_thrown hp herr)
        obtain ⟨⟨recs₁, hp₁⟩, hpos₁⟩ := hgrown happ
        rcases hw.readNext_spared hp₁ hpos₁ (h new p₁ happ) with ⟨e', hnext, ht⟩ | ⟨out, r', hnext, hend⟩
        · rcases herr with herr | ⟨out, r', p₂, hok, -⟩
          · rw [hnext] at herr
            obtain rfl := Except.error.inj herr
            exact hthrown ht
          · rw [hnext] at hok
            cases hok
        · rcases herr with herr | ⟨out', r'', p₂, hok, herr⟩
          · rw [hnext] at herr
            cases herr
          rw [hnext] at hok
          cases hok
          cases fuel with
          | zero =>
            obtain rfl := Except.error.inj herr
            exact ⟨nofun, fun _ => le_rfl⟩
          | succ fuel =>
            rw [readAllAmid_end hend] at herr
            cases herr
    constructor
    case front => exact fun fuel herr => (hall fuel _ herr).1 rfl
    case ends =>
      refine ⟨2, fun fuel hle herr => ?_⟩
      have := (hall fuel _ herr).2 rfl
      omega

end
end PageReaderInterval

namespace Page
open PageReaderInterval

/-- The two kinds of readers of an interval. -/
theorem readInterval_kinds {fsize : U64} {log : List Meas} {recs : List IndexRecord} {p p' : Page} {ids : List Id}
    {source flag : Flag} {fromTime toTime : Time} {r : PageReaderInterval} (h : Posted fsize log recs p)
    (hopen : p.readInterval ids source flag fromTime toTime = .ok (some r, p')) :
    (r.Watches ∧ p.header.maxTime < fromTime ∧ p' = p) ∨
      r.Sound p' ∧ ∃ ix, p' = {p with index := ix} ∧ (ix = p.index ∨ p.index.flush = .ok ix) := by
  have hshort := h.areas.short
  unfold readInterval at hopen
  by_cases hpos : p.header.writePos = 0
  · simp only [if_pos hpos] at hopen
    cases hopen
  simp only [if_neg hpos] at hopen
  by_cases hmax : p.header.maxTime < fromTime
  · rw [if_pos hmax] at hopen
    obtain ⟨hr, rfl⟩ := Prod.mk.inj (Except.ok.inj hopen)
    obtain rfl := Option.some.inj hr
    exact .inl ⟨⟨rfl, rfl, rfl, rfl, rfl⟩, hmax, rfl⟩
  rw [if_neg hmax] at hopen
  refine .inr ?_
  have hinside := not_lt.mp hmax
  have hwhole : ∀ x : Nat × Nat, x ∈ [(0, p.header.writePos)] → x.1 ≤ x.2 ∧ x.2 ≤ p.header.writePos := by
    intro x hx
    obtain rfl := List.mem_singleton.mp hx
    exact ⟨Nat.zero_le _, le_rfl⟩
  split at hopen
  · split at hopen
    · obtain ⟨hr, rfl⟩ := Prod.mk.inj (Except.ok.inj hopen)
      unfold Page.readAll at hr
      rw [if_neg hpos] at hr
      obtain rfl := Option.some.inj hr
      exact ⟨⟨rfl, hinside, ⟨le_rfl, Nat.zero_le _⟩, hwhole, hshort⟩, p.index, rfl, .inl rfl⟩
    · obtain ⟨hr, rfl⟩ := Prod.mk.inj (Except.ok.inj hopen)
      unfold readFromToPos at hr
      rw [if_neg hpos] at hr
      obtain rfl := Option.some.inj hr
      exact ⟨⟨rfl, hinside, ⟨le_rfl, Nat.zero_le _⟩, hwhole, hshort⟩, p.index, rfl, .inl rfl⟩
  · obtain ⟨⟨irecords, ix⟩, hfind, hopen⟩ := bind_ok hopen
    obtain ⟨hr, rfl⟩ := Prod.mk.inj (Except.ok.inj hopen)
    obtain rfl := Option.some.inj hr
    have hf := Index.findInIndex_flush hfind
    obtain ⟨nodes, hw, hfound⟩ := h.logged.findInIndex hf ids fromTime toTime flag source
    obtain ⟨rfl, -⟩ := Prod.mk.inj (Except.ok.inj (hfind.symm.trans hfound))
    refine ⟨?_, ix, rfl, .inr hf⟩
    rw [foldl_addReadPos]
    refine ⟨rfl, hinside, ⟨le_rfl, Nat.zero_le _⟩, fun x hx => ?_, hshort⟩
    obtain ⟨rec, hrec, rfl⟩ := List.mem_map.mp hx
    exact ⟨Nat.le_add_right .., (h.joined hf hw hrec).2⟩

/-- What making a reader of an interval throws. -/
theorem readInterval_thrown {size : Nat} {recs : List IndexRecord} {p : Page} (hl : p.index.Logged size recs)
    {ids : List Id} {source flag : Flag} {fromTime toTime : Time} {e : Fault}
    (h : p.readInterval ids source flag fromTime toTime = .error e) : e.Thrown := by
  unfold readInterval at h
  by_cases hpos : p.header.writePos = 0
  · simp only [if_pos hpos] at h
    cases h
  simp only [if_neg hpos] at h
  split at h
  · cases h
  split at h
  · split at h
    · cases h
    · cases h
  rcases bind_error h with h | ⟨x, -, h⟩
  · exact findInIndex_thrown hl h
  · cases h

/-- There is one of every page with a measurement. -/
theorem readInterval_some {p p' : Page} (hpos : p.header.writePos ≠ 0) {ids : List Id} {source flag : Flag}
    {fromTime toTime : Time} {preader : Option PageReaderInterval}
    (h : p.readInterval ids source flag fromTime toTime = .ok (preader, p')) : ∃ r, preader = some r := by
  unfold readInterval Page.readAll readFromToPos at h
  simp only [if_neg hpos] at h
  split at h
  · exact ⟨_, (Prod.mk.inj (Except.ok.inj h)).1.symm⟩
  split at h
  · split at h
    · exact ⟨_, (Prod.mk.inj (Except.ok.inj h)).1.symm⟩
    · exact ⟨_, (Prod.mk.inj (Except.ok.inj h)).1.symm⟩
  obtain ⟨x, -, h⟩ := bind_ok h
  exact ⟨_, (Prod.mk.inj (Except.ok.inj h)).1.symm⟩

/-- A reader of an interval survives appends between its calls if and only if it is one of positions, or
the appends before its first call leave the page before the interval: or else the page cannot be read
backwards from the beginning of it, which comes before the list is looked at. -/
theorem survives_iff {fsize : U64} {log : List Meas} {p p' : Page} (h : Used fsize log p) {ids : List Id}
    {source flag : Flag} {fromTime toTime : Time} {r : PageReaderInterval}
    (hopen : p.readInterval ids source flag fromTime toTime = .ok (some r, p')) (ops : Nat → List Op) :
    r.Survives ops p' ↔
      (r.isWindowReader = true → ∀ new p'', appendAll (ops 0) p' = .ok (new, p'') → r.Spared p'') := by
  obtain ⟨recs, hp⟩ := h.posted
  rcases readInterval_kinds hp hopen with ⟨hw, -, rfl⟩ | ⟨hs, ix, rfl, hix⟩
  · rw [hw.spared_iff hp (Nat.pos_of_ne_zero (readInterval_reader hopen).1)]
    exact (imp_iff_right hw.window).symm
  · have hne : log ≠ [] := by
      rintro rfl
      exact (readInterval_reader hopen).1 hp.areas.writePos
    refine iff_of_true (hs.survives (hp.searched hix) (h.init hne)) fun hw => ?_
    rw [hs.window] at hw
    cases hw

/-- A reader of positions, and a newer measurement before its first call. -/
theorem survives_iff_late : ∃ log p r p',
    appendAll [.array [.plain 1 10, .plain 1 20]] (create (calcSize 3)) = .ok (log, p) ∧
    p.readInterval [] 0 0 5 30 = .ok (some r, p') ∧
    r.Survives (fun i => if i = 0 then [.single (.plain 1 40) (0, 0)] else []) p' := by
  obtain ⟨⟨log, p⟩, hrun, hok⟩ := exists_ok
    (x := appendAll [.array [.plain 1 10, .plain 1 20]] (create (calcSize 3)))
    (p := fun x : List Meas × Page => (x.2.readInterval [] 0 0 5 30).toOption.any
      fun y : Option PageReaderInterval × Page => y.1.any fun r => !r.isWindowReader) (by decide +kernel)
  obtain ⟨⟨preader, p'⟩, hopen, hok⟩ := exists_ok hok
  cases preader with
  | none => cases hok
  | some r =>
    refine ⟨log, p, r, p', hrun, hopen, (survives_iff (Used.create.appendAll hrun) hopen _).mpr fun hw => ?_⟩
    simp [hw] at hok

/-- A reader of the window, and a measurement of its interval before its first call. -/
theorem survives_not : ∃ log p r p', appendAll [.single (.plain 1 10) (0, 0)] (create (calcSize 2)) = .ok (log, p) ∧
    p.readInterval [] 0 0 20 30 = .ok (some r, p') ∧
    r.readAllAmid (fun i => if i = 0 then [.single (.plain 1 25) (0, 0)] else []) 1 p' = .error .nullReader := by
  obtain ⟨⟨log, p⟩, hrun, hok⟩ := exists_ok
    (x := appendAll [.single (.plain 1 10) (0, 0)] (create (calcSize 2)))
    (p := fun x : List Meas × Page => (x.2.readInterval [] 0 0 20 30).toOption.any
      fun y : Option PageReaderInterval × Page => y.1.any fun r =>
        match r.readAllAmid (fun i => if i = 0 then [.single (.plain 1 25) (0, 0)] else []) 1 y.2 with
        | .error e => decide (e = .nullReader)
        | .ok _ => false) (by decide +kernel)
  obtain ⟨⟨preader, p'⟩, hopen, hok⟩ := exists_ok hok
  cases preader with
  | none => cases hok
  | some r =>
    refine ⟨log, p, r, p', hrun, hopen, ?_⟩
    cases hread : r.readAllAmid (fun i => if i = 0 then [.single (.plain 1 25) (0, 0)] else []) 1 p' with
    | ok x => simp [hread] at hok
    | error e =>
      simp only [Option.any_some, hread, decide_eq_true_eq] at hok
      rw [hok]

end Page
end Nkvdb
