import Nkvdb.AsyncWorker

/-! The wake-up of the worker.

`_thread_func` tests `m_data.empty()` and `add` pushes under different mutexes, so a
notification may fall between the test and the wait, where it reaches nobody. The worker
then sleeps on a queue that is not empty until another `add` or `kill`. -/
namespace Nkvdb.AsyncWorker
variable {ι T : Type} {s s' : Sys ι T}

/-- The client is inside `add`. -/
def Client.Adding : Client T → Prop
  | .add _ | .push _ | .notify _ | .unlock _ => True
  | _ => False

/-- The worker waits, nothing is on its way to wake it, and there are items. -/
structure Stuck (s : Sys ι T) : Prop where
  waiting : s.worker = .waiting
  unnotified : s.notified = false
  data : s.data ≠ []
  returned : ∀ i, ¬ (s.client i).Adding

theorem Stuck.returned_update [DecidableEq ι] (h : Stuck s) (i : ι) {c : Client T} (hc : ¬ c.Adding) :
    ∀ j, ¬ (Function.update s.client i c j).Adding := by
  intro j
  by_cases hj : j = i
  · rwa [hj, Function.update_self]
  · rw [Function.update_of_ne hj]
    exact h.returned j

/-- The event is no notification between the worker's test and its wait, or there is nothing
to notify it of. -/
def Timely (e : Event ι T) (s : Sys ι T) : Prop :=
  ∀ i n, e = .client i → s.client i = .notify n → s.worker = .wait → s.data = []

/-- A worker that goes to sleep, or sleeps unnotified, on a queue that is not empty will be
notified by an `add` under way. -/
def Announced (s : Sys ι T) : Prop :=
  (s.worker = .wait ∨ s.worker = .waiting ∧ s.notified = false) → s.data ≠ [] → ∃ i n, s.client i = .notify n

theorem Announced.not_stuck (h : Announced s) : ¬ Stuck s := by
  intro hs
  obtain ⟨i, n, hn⟩ := h (.inr ⟨hs.waiting, hs.unnotified⟩) hs.data
  have := hs.returned i
  rw [hn] at this
  exact this trivial

section
variable [DecidableEq ι]

/-- The step of a client that does not notify. -/
theorem Announced.client (h : Announced s) {i : ι} (c : Client T) (hn : ∀ n, s.client i ≠ .notify n)
    (hw : s'.worker = s.worker) (hno : s'.notified = s.notified) (hd : s'.data = s.data)
    (hc : s'.client = Function.update s.client i c) : Announced s' := by
  intro hwait hdata
  rw [hw, hno] at hwait
  rw [hd] at hdata
  obtain ⟨j, n, hj⟩ := h hwait hdata
  refine ⟨j, n, ?_⟩
  have hji : j ≠ i := by
    intro he
    rw [he] at hj
    exact hn n hj
  rw [hc, Function.update_of_ne hji, hj]

theorem Announced.clientStep {i : ι} (h : Announced s) (ht : Timely (.client i) s) (hs : clientStep i s = some s') :
    Announced s' := by
  unfold AsyncWorker.clientStep at hs
  cases hc : s.client i with
  | idle =>
    rw [hc] at hs
    cases hs
  | add data =>
    simp only [hc, Option.ite_none_right_eq_some, Option.some.injEq] at hs
    obtain ⟨-, rfl⟩ := hs
    exact h.client (.push data) (by rw [hc]; nofun) rfl rfl rfl rfl
  | push data =>
    simp only [hc, Option.some.injEq] at hs
    subst hs
    exact fun _ _ => ⟨i, s.pushed.length, Function.update_self ..⟩
  | notify n =>
    simp only [hc, Option.some.injEq] at hs
    subst hs
    rintro (hw | ⟨hw, hnot⟩) hdata
    · exact absurd (ht i n rfl hc hw) hdata
    -- the notification reaches the worker
    · have hnot : (s.notified || s.worker.isWaiting) = false := hnot
      rw [show s.worker = .waiting from hw] at hnot
      simp [Worker.isWaiting] at hnot
  | unlock n =>
    simp only [hc, Option.some.injEq] at hs
    subst hs
    exact h.client .idle (by rw [hc]; nofun) rfl rfl rfl rfl
  | pauseWork =>
    simp only [hc, Option.ite_none_right_eq_some, Option.some.injEq] at hs
    obtain ⟨-, rfl⟩ := hs
    exact h.client .idle (by rw [hc]; nofun) rfl rfl rfl rfl

omit [DecidableEq ι] in
/-- The worker goes to sleep only when it found the queue empty. -/
theorem Announced.workerStep (h : Announced s) (hs : workerStep s = some s') : Announced s' := by
  unfold AsyncWorker.workerStep at hs
  cases hw : s.worker with
  | empty =>
    simp only [hw, Option.some.injEq] at hs
    subst hs
    intro hwait hdata
    have hempty : s.data.isEmpty = true := by
      by_contra hne
      simp [hne] at hwait
    exact absurd (List.isEmpty_iff.mp hempty) hdata
  | wait =>
    simp only [hw, Option.some.injEq] at hs
    subst hs
    exact fun _ hdata => h (.inl hw) hdata
  | ended =>
    rw [hw] at hs
    cases hs
  | _ =>
    -- after the other steps it neither waits nor is about to
    refine fun hwait => absurd hwait ?_
    simp only [hw] at hs
    first
      | cases hs
      | (split at hs <;> cases hs)
    first
      | (rintro (h | ⟨h, -⟩) <;> cases h)
      | (show ¬ ((if s.stopFlag = true then _ else _) = Worker.wait ∨ (if s.stopFlag = true then _ else _) = _ ∧ _)
         split <;> rintro (h | ⟨h, -⟩) <;> cases h)

omit [DecidableEq ι] in
theorem Announced.stopStep (h : Announced s) (hs : stopStep s = some s') : Announced s' := by
  unfold AsyncWorker.stopStep at hs
  cases hst : s.stop with
  | notify =>
    simp only [hst, Option.some.injEq] at hs
    subst hs
    intro hwait hdata
    have hwait : s.worker = .wait ∨ s.worker = .waiting ∧ (s.notified || s.worker.isWaiting) = false := hwait
    rw [Bool.or_eq_false_iff] at hwait
    exact h (hwait.imp_right fun hw => ⟨hw.1, hw.2.1⟩) hdata
  | isBusy =>
    simp only [hst, Option.ite_none_right_eq_some, Option.some.injEq] at hs
    obtain ⟨-, rfl⟩ := hs
    exact h
  | join =>
    simp only [hst] at hs
    split at hs
    · obtain rfl := Option.some.inj hs
      exact h
    · cases hs
  | returned =>
    rw [hst] at hs
    cases hs
  | _ =>
    simp only [hst, Option.some.injEq] at hs
    subst hs
    exact h

theorem Announced.step {e : Event ι T} (h : Announced s) (ht : Timely e s) (hs : step e s = some s') :
    Announced s' := by
  cases e with
  | client i => exact h.clientStep ht hs
  | stop => exact h.stopStep hs
  | worker => exact h.workerStep hs
  | spurious =>
    unfold AsyncWorker.step at hs
    simp only at hs
    split at hs
    · split at hs
      · obtain rfl := Option.some.inj hs
        rintro (h | ⟨h, -⟩) <;> cases h
      · cases hs
    · cases hs
  | add i data =>
    unfold AsyncWorker.step at hs
    simp only at hs
    split at hs
    next hc =>
      obtain rfl := Option.some.inj hs
      exact h.client (.add data) (by rw [hc]; nofun) rfl rfl rfl rfl
    next => cases hs
  | pauseWork i =>
    unfold AsyncWorker.step at hs
    simp only at hs
    split at hs
    next hc =>
      split at hs
      · cases hs
      · obtain rfl := Option.some.inj hs
        exact h.client .pauseWork (by rw [hc]; nofun) rfl rfl rfl rfl
    next => cases hs
  | continueWork i =>
    unfold AsyncWorker.step at hs
    simp only at hs
    split at hs
    · split at hs
      · obtain rfl := Option.some.inj hs
        exact h
      · cases hs
    · cases hs

end

/-- The worker found the queue empty; an `add` pushes, notifies and returns; the worker waits. -/
theorem wakeup_lost : ¬ ∀ s : Sys Unit Nat, Runs.Reachable step (init false) s → ¬ Stuck s := by
  intro h
  obtain ⟨s, hrun, hs⟩ : ∃ s : Sys Unit Nat, Runs.run step
      (List.flatten [.replicate 3 .worker, [.add () 7], .replicate 4 (.client ()), [.worker]]) (init false) = some s ∧
      Stuck s := ⟨_, rfl, rfl, rfl, by decide, fun _ => id⟩
  exact h s (Runs.reachable_run hrun) hs

variable [DecidableEq ι]

/-- Each such notification with no other `add` under way is lost: two steps on the worker is stuck. -/
theorem lost_wakeup {s s₁ : Sys ι T} {e : Event ι T} (ht : ¬ Timely e s) (hs : step e s = some s₁)
    (hother : ∀ i, e ≠ .client i → ¬ (s.client i).Adding) :
    ∃ s', Runs.run step [e, .worker] s₁ = some s' ∧ Stuck s' := by
  obtain ⟨i, n, rfl, hc, hw, hd⟩ : ∃ i n, e = .client i ∧ s.client i = .notify n ∧ s.worker = .wait ∧ s.data ≠ [] := by
    unfold Timely at ht
    push Not at ht
    exact ht
  obtain rfl : {notifyOne s with client := Function.update s.client i (.unlock n)} = s₁ := by
    simpa only [step, clientStep, hc, Option.some.injEq] using hs
  refine ⟨{s with
    notified := false
    addLock := none
    returned := n :: s.returned
    client := Function.update (Function.update s.client i (.unlock n)) i .idle
    threadLock := none
    worker := .waiting}, ?_, rfl, rfl, hd, fun j => ?_⟩
  · simp only [Runs.run, step, clientStep, workerStep, notifyOne, Function.update_self, hw, Option.bind_some]
  · show ¬ (Function.update (Function.update s.client i (.unlock n)) i .idle j).Adding
    by_cases hj : j = i
    · rw [hj, Function.update_self]
      exact id
    · rw [Function.update_of_ne hj, Function.update_of_ne hj]
      refine hother j fun he => hj ?_
      cases he
      rfl

/-- Without another call of `add` or `stop` the worker stays so. -/
theorem Stuck.stays (h : Stuck s) {e : Event ι T} (hadd : ∀ i data, e ≠ .add i data) (hstop : e ≠ .stop)
    (hspurious : e ≠ .spurious) (hs : step e s = some s') : Stuck s' := by
  cases e with
  | add i data => exact absurd rfl (hadd i data)
  | stop => exact absurd rfl hstop
  | spurious => exact absurd rfl hspurious
  | worker => simp [step, workerStep, h.waiting, h.unnotified] at hs
  | client i =>
    have hret := h.returned i
    unfold step clientStep at hs
    cases hc : s.client i with
    | pauseWork =>
      simp only [hc, Option.ite_none_right_eq_some, Option.some.injEq] at hs
      obtain ⟨-, rfl⟩ := hs
      exact {h with returned := h.returned_update i (fun h => h)}
    | idle =>
      simp only [hc] at hs
      cases hs
    | _ =>
      rw [hc] at hret
      exact absurd trivial hret
  | pauseWork i =>
    unfold step at hs
    simp only at hs
    split at hs
    · split at hs
      · cases hs
      · obtain rfl := Option.some.inj hs
        exact {h with returned := h.returned_update i (fun h => h)}
    · cases hs
  | continueWork i =>
    unfold step at hs
    simp only at hs
    split at hs
    · split at hs
      · obtain rfl := Option.some.inj hs
        exact {h with}
      · cases hs
    · cases hs

/-- In a run with no notification between the test and the wait of a worker that has items,
the worker never sleeps on a queue that is not empty. -/
theorem never_stuck (threadWork : Bool) {s : Sys ι T} (h : Runs.Reach step Timely (init threadWork) s) : ¬ Stuck s := by
  have h₀ : Announced (init threadWork : Sys ι T) := fun _ hdata => absurd rfl hdata
  exact (h.inv h₀ fun _ _ _ h ht hs => h.step ht hs).not_stuck

/-- The notification comes when the worker waits. -/
theorem never_stuck_one : ∃ s : Sys Unit Nat, Runs.Reach step Timely (init false) s ∧ s.worker = .waiting ∧
    s.data = [7] ∧ ¬ Stuck s := by
  have hstart : Runs.Reach step Timely (init false : Sys Unit Nat) _ := .init
  have hasleep := ((hstart.step .worker nofun rfl).step .worker nofun rfl).step .worker nofun rfl
  have hadd := (hasleep.step .worker nofun rfl).step (.add () 7) nofun rfl
  have hsent := ((hadd.step (.client ()) (fun _ _ _ _ => nofun) rfl).step (.client ()) (fun _ _ _ _ => nofun) rfl).step
    (.client ()) (fun _ _ _ _ => nofun) rfl
  exact ⟨_, hsent, rfl, rfl, never_stuck false hsent⟩

end Nkvdb.AsyncWorker
