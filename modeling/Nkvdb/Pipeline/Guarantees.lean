import Nkvdb.Pipeline.Invariant

/-! What the pipeline promises: nothing is lost or doubled on the way to the pages, the
loop over the pages ends, and a read that has paused the writer sees what was accepted
before it began. -/
namespace Nkvdb.Pipeline
variable {P : PageStore} {S : TimeSort} {poolSize cacheSize : Nat} {s s' : Sys P}

/-! ### The loop over the pages -/

/-- The writer is in the loop of `AsyncWriter::call`. -/
def Writer.inLoop : Writer → Bool
  | .call _ _ | .createNewPage _ _ => true
  | _ => false

/-- A bound on the steps left in the loop: a page that takes nothing costs two more. -/
def Sys.turns (s : Sys P) : Nat :=
  match s.writer with
  | .call _ output =>
    if output = [] then 1
    else if 0 < (P.append output s.curpage).1 then 2 * output.length + 1 else 2 * output.length + 3
  | .createNewPage _ output => 2 * output.length + 2
  | _ => 0

/-- A run with `n` steps of the loop in it. -/
inductive LoopRun (S : TimeSort) : Nat → Sys P → Sys P → Prop
  | refl (s : Sys P) : LoopRun S 0 s s
  | client {n : Nat} {s s' s'' : Sys P} (h : LoopRun S n s s') (hs : ClientStep s' s'') : LoopRun S n s s''
  | writer {n : Nat} {s s' s'' : Sys P} (h : LoopRun S n s s') (hl : s'.writer.inLoop = true)
      (hs : WriterStep S s' s'') : LoopRun S (n + 1) s s''

/-- Clients change neither the loop nor its page. -/
theorem ClientStep.turns (h : ClientStep s s') : s'.turns = s.turns := by
  cases h <;> rfl

theorem WriterStep.turns_lt (hfresh : ∀ ms, ms ≠ [] → 0 < (P.append ms P.fresh).1) (hl : s.writer.inLoop = true)
    (h : WriterStep S s s') : s'.turns < s.turns := by
  cases h with
  | append i output hw hne =>
    have hle := P.append_le output s.curpage
    have hpos : 0 < output.length := List.length_pos_of_ne_nil hne
    have hold : s.turns =
        if 0 < (P.append output s.curpage).1 then 2 * output.length + 1 else 2 * output.length + 3 := by
      unfold Sys.turns
      rw [hw]
      exact if_neg hne
    rw [hold]
    by_cases hall : (P.append output s.curpage).1 = output.length
    · have hnew : Writer.afterAppend i output (P.append output s.curpage).1 = .call i [] := by
        unfold Writer.afterAppend
        rw [if_neg (not_not.mpr hall), hall, List.drop_length]
      unfold Sys.turns
      simp only [hnew, if_true]
      split
      · omega
      · omega
    · have hnew : Writer.afterAppend i output (P.append output s.curpage).1 =
          .createNewPage i (output.drop (P.append output s.curpage).1) := if_pos hall
      unfold Sys.turns
      simp only [hnew, List.length_drop]
      split
      · omega
      · omega
  | createNewPage i output hw =>
    have hold : s.turns = 2 * output.length + 2 := by
      unfold Sys.turns
      rw [hw]
    rw [hold]
    show (if output = [] then 1
      else if 0 < (P.append output P.fresh).1 then 2 * output.length + 1 else 2 * output.length + 3) < _
    by_cases hne : output = []
    · rw [if_pos hne]
      omega
    · rw [if_neg hne, if_pos (hfresh output hne)]
      omega
  | written i hw =>
    have hold : s.turns = 1 := by
      unfold Sys.turns
      rw [hw]
      rfl
    rw [hold]
    exact Nat.zero_lt_one
  | start hw _ | empty hw _ | haveData hw _ | wake hw _ | lock hw _ =>
    rw [hw] at hl
    cases hl
  | wait hw =>
    rw [hw] at hl
    cases hl
  | pop i rest hw _ =>
    rw [hw] at hl
    cases hl
  | unlock i hw | sort i hw | clear i hw | syncComplete i hw =>
    rw [hw] at hl
    cases hl

theorem LoopRun.turns_le (hfresh : ∀ ms, ms ≠ [] → 0 < (P.append ms P.fresh).1) {n : Nat}
    (h : LoopRun S n s s') : n + s'.turns ≤ s.turns := by
  induction h with
  | refl => exact (Nat.zero_add _).le
  | client _ hs ih => rwa [hs.turns]
  | writer _ hl hs ih =>
    have := hs.turns_lt hfresh hl
    omega

/-- The writer is never stuck in the loop. -/
theorem WriterStep.of_inLoop (S : TimeSort) (hl : s.writer.inLoop = true) : ∃ s', WriterStep S s s' := by
  cases hw : s.writer with
  | call i output =>
    cases output with
    | nil => exact ⟨_, .written s i hw⟩
    | cons m output => exact ⟨_, .append s i (m :: output) hw (List.cons_ne_nil m output)⟩
  | createNewPage i output => exact ⟨_, .createNewPage s i output hw⟩
  | _ =>
    rw [hw] at hl
    cases hl

theorem Sys.turns_call {i : Nat} {output : List Meas} (h : s.writer = .call i output) :
    s.turns ≤ 2 * output.length + 3 := by
  unfold Sys.turns
  rw [h]
  show (if output = [] then 1 else _) ≤ _
  split
  · omega
  · split
    · omega
    · omega

/-! ### Nothing is lost -/

/-- A page that takes `n` measurements. -/
def PageStore.bounded (n : Nat) : PageStore where
  Page := List Meas
  fresh := []
  contents := id
  append := fun ms p => (min (n - p.length) ms.length, p ++ ms.take (n - p.length))
  fresh_contents := rfl
  append_le := fun _ _ => Nat.min_le_right _ _
  append_contents := fun ms p => by
    show p ++ ms.take (n - p.length) = p ++ ms.take (min (n - p.length) ms.length)
    rw [List.take_eq_take_min]

/-- In every state of every interleaving the pages, what is left of the cache in the
writer's hands, the queued caches and the current one hold together what was accepted,
nothing lost and nothing doubled. A queued cache is in sync and never the current one.
And where a fresh page takes something of whatever it is given, the writer makes at most
`2 * output.length + 3` steps in the loop over the pages, and always has a next one. -/
theorem nothing_lost (h : Reachable S poolSize cacheSize s) :
    (s.stored ++ s.left ++ s.queued ++ s.current).Perm s.accepted ∧ (s.writer.held = none → s.left = []) ∧
      (∀ i, i ∈ s.data → (s.pool.cacheAt i).sync = true ∧ s.cache ≠ some i) ∧
      ((∀ ms, ms ≠ [] → 0 < (P.append ms P.fresh).1) → ∀ i output, s.writer = .call i output →
        ∀ n s', LoopRun S n s s' →
          n ≤ 2 * output.length + 3 ∧ (s'.writer.inLoop = true → ∃ s'', WriterStep S s' s'')) := by
  have hi := h.inv
  refine ⟨hi.ledger.perm, fun hw => ?_, fun i hd => ⟨?_, fun hc => ?_⟩, ?_⟩
  · unfold Sys.left
    cases hwr : s.writer with
    | unlock i | sort i | clear i | syncComplete i =>
      rw [hwr] at hw
      cases hw
    | call i output | createNewPage i output =>
      rw [hwr] at hw
      cases hw
    | _ => rfl
  · exact hi.owned.sync i (List.mem_append_right _ hd)
  · have ho := hi.owned
    rw [hc] at ho
    exact ho.cache_not_queued (List.mem_append_right _ hd)
  · intro hfresh i output hw n s' hrun
    have h1 := hrun.turns_le hfresh
    have h2 := Sys.turns_call hw
    exact ⟨by omega, WriterStep.of_inLoop S⟩

theorem nothing_lost_one : ∃ s : Sys (PageStore.bounded 1), Reachable TimeSort.insertion 2 1 s ∧
    s.accepted = [.plain 7 5] ∧ (s.stored ++ s.left ++ s.queued ++ s.current).Perm s.accepted := by
  have h : Reachable TimeSort.insertion 2 1 (Sys.init (PageStore.bounded 1) 2 1) := .init
  have h₁ := h.step (.client (.callAppend _ (.plain 7 5)))
  have h₂ := h₁.step (.client (.enter _ [] [] (.append (.plain 7 5)) rfl rfl))
  have h₃ := h₂.step (.client (.append _ (.plain 7 5) 1 0 0 rfl rfl))
  exact ⟨_, h₃, rfl, (nothing_lost h₃).1⟩

/-! ### Reads -/

/-- While a read is paused, nothing is on its way to the pages. -/
theorem Inv.paused {seen : List Meas} (h : Inv s) (hp : s.client = some (.paused seen)) :
    s.data = [] ∧ s.writer.held = none ∧ s.left = [] ∧ s.queued = [] ∧ s.current = [] := by
  obtain ⟨-, hcur, hd, hlock⟩ := h.client _ hp
  have hidle : s.writer.held = none ∧ s.left = [] := by
    have hrun : ¬ s.writer.running = true := by
      intro hr
      have := h.thread.mpr hr
      rw [hlock] at this
      cases this
    unfold Sys.left
    cases hw : s.writer with
    | start => exact ⟨rfl, rfl⟩
    | waiting => exact ⟨rfl, rfl⟩
    | _ =>
      rw [hw] at hrun
      exact absurd rfl hrun
  have hq : s.queued = [] := by
    unfold Sys.queued
    rw [hd]
    rfl
  exact ⟨hd, hidle.1, hidle.2, hq, hcur⟩

theorem Reachable.paused {seen : List Meas} (h : Reachable S poolSize cacheSize s)
    (hp : s.client = some (.paused seen)) : s.data = [] ∧ s.writer.held = none ∧ s.left = [] ∧ s.queued = [] ∧
      s.current = [] :=
  h.inv.paused hp

/-- When `pause_work` has returned to a read, no cache is queued or in the writer's hands,
and all that was accepted is in the pages, what was accepted before the read began with it. -/
theorem paused_sees {seen : List Meas} (h : Reachable S poolSize cacheSize s) (hp : s.client = some (.paused seen)) :
    s.data = [] ∧ s.writer.held = none ∧ s.left = [] ∧ s.stored.Perm s.accepted ∧ seen.Subperm s.stored := by
  obtain ⟨hd, hheld, hl, hq, hcur⟩ := h.paused hp
  obtain ⟨hseen, -⟩ := h.inv.client _ hp
  have hperm := h.inv.ledger.perm
  rw [hl, hq, hcur, List.append_nil, List.append_nil, List.append_nil] at hperm
  exact ⟨hd, hheld, hl, hperm, hseen.sublist.subperm.trans hperm.symm.subperm⟩

theorem paused_sees_one : ∃ s : Sys (PageStore.bounded 1), Reachable TimeSort.insertion 2 1 s ∧
    s.client = some (.paused [.plain 7 5]) ∧ List.Subperm [.plain 7 5] s.stored := by
  have h : Reachable TimeSort.insertion 2 1 (Sys.init (PageStore.bounded 1) 2 1) := .init
  -- an append
  have h := h.step (.client (.callAppend _ (.plain 7 5)))
  have h := h.step (.client (.enter _ [] [] (.append (.plain 7 5)) rfl rfl))
  have h := h.step (.client (.append _ (.plain 7 5) 1 0 0 rfl rfl))
  have h := h.step (.client (.leave _ rfl))
  -- a read hands the cache over
  have h := h.step (.client (.callRead _))
  have h := h.step (.client (.enter _ [] [] (.read [.plain 7 5]) rfl rfl))
  have h := h.step (.client (.syncBegin _ (.read [.plain 7 5]) 1 rfl rfl (by decide)))
  have h := h.step (.client (.addLock _ _ rfl rfl))
  have h := h.step (.client (.push _ _ 1 rfl rfl))
  have h := h.step (.client (.addUnlock _ _ rfl))
  have h := h.step (.client (.getCache _ _ 0 rfl rfl))
  -- the writer takes it to the page and waits
  have h := h.step (.writer (.start _ rfl rfl))
  have h := h.step (.writer (.haveData _ rfl (by decide)))
  have h := h.step (.writer (.lock _ rfl rfl))
  have h := h.step (.writer (.pop _ 1 [] rfl rfl))
  have h := h.step (.writer (.unlock _ 1 rfl))
  have h := h.step (.writer (.sort _ 1 rfl))
  have h := h.step (.writer (.append _ 1 [.plain 7 5] rfl (by decide)))
  have h := h.step (.writer (.written _ 1 rfl))
  have h := h.step (.writer (.clear _ 1 rfl))
  have h := h.step (.writer (.syncComplete _ 1 rfl))
  have h := h.step (.writer (.empty _ rfl rfl))
  have h := h.step (.writer (.wait _ rfl))
  have h := h.step (.client (.notBusy _ _ rfl rfl))
  have h := h.step (.client (.pauseWork _ _ rfl rfl))
  exact ⟨_, h, rfl, (paused_sees h rfl).2.2.2.2⟩

end Nkvdb.Pipeline
