import Nkvdb.Lib.Runs

/-! The worker thread (`asyncworker.h`).

Clients, any number of them, add items and pause the worker; one thread calls `stop` once.
An event is a call or the next step of a thread: one lock, unlock, test, push, pop,
notification, or the beginning or end of `call`. -/
namespace Nkvdb.AsyncWorker
variable {ι T : Type}

/-- Who holds a mutex. -/
inductive Party (ι : Type) where
  | client (i : ι)
  | worker
  deriving DecidableEq

/-- What a client does next. An item that was pushed goes by the number of those before it. -/
inductive Client (T : Type) where
  | idle
  /-- `add`: `m_add_lock`. -/
  | add (data : T)
  | push (data : T)
  | notify (n : Nat)
  | unlock (n : Nat)
  | pauseWork

/-- What the worker does next: `_thread_func`. -/
inductive Worker (T : Type) where
  /-- `m_thread_lock`. -/
  | start
  /-- `m_thread_work = true`. -/
  | threadWork
  /-- `while (m_data.empty())`. -/
  | empty
  | wait
  /-- In the wait, without the lock. -/
  | waiting
  /-- The test of `m_stop_flag` in the inner loop. -/
  | woken
  | stopFlag
  | lock
  | pop
  | unlock (d : T)
  | call (d : T)
  /-- Inside `call`. -/
  | calling (d : T)
  /-- `m_thread_work = false`. -/
  | finish
  | exit
  | ended

def Worker.isWaiting : Worker T → Bool
  | .waiting => true
  | _ => false

/-- What the thread that calls `stop` does next. -/
inductive Stop where
  | notCalled
  /-- `if (!stoped())`. -/
  | stoped
  /-- `if (!isBusy())`. -/
  | isBusy
  | kill
  /-- `while (m_thread_work)`. -/
  | threadWork
  | notify
  | join
  | returned
  deriving DecidableEq

structure Sys (ι T : Type) where
  /-- `m_data`. -/
  data : List T
  addLock : Option (Party ι)
  threadLock : Option (Party ι)
  stopFlag : Bool
  threadWork : Bool
  worker : Worker T
  /-- A notification that the worker has not woken for. -/
  notified : Bool
  client : ι → Client T
  stop : Stop
  /-- The items pushed so far. -/
  pushed : List T
  /-- Those that `call` was begun on. -/
  called : List T
  /-- Those that `call` has returned from. -/
  processed : List T
  /-- The items whose `add` has returned. -/
  returned : List Nat
  /-- Those that had when `stop` was called. -/
  due : List Nat

/-- `start` has returned. Nothing has set `m_thread_work` before the thread does. -/
def init (threadWork : Bool) : Sys ι T where
  data := []
  addLock := none
  threadLock := none
  stopFlag := false
  threadWork := threadWork
  worker := .start
  notified := false
  client := fun _ => .idle
  stop := .notCalled
  pushed := []
  called := []
  processed := []
  returned := []
  due := []

inductive Event (ι T : Type) where
  | add (i : ι) (data : T)
  | pauseWork (i : ι)
  | continueWork (i : ι)
  /-- The next step of the call that client `i` is in. -/
  | client (i : ι)
  /-- The call of `stop`, and its next step. -/
  | stop
  | worker
  /-- The wait returns unnotified. -/
  | spurious

/-- `notify_one` reaches the worker if it waits. -/
def notifyOne (s : Sys ι T) : Sys ι T := {s with notified := s.notified || s.worker.isWaiting}

section Steps
variable [DecidableEq ι]

def clientStep (i : ι) (s : Sys ι T) : Option (Sys ι T) :=
  match s.client i with
  | .idle => none
  | .add data =>
    if s.addLock = none then
      some {s with addLock := some (.client i), client := Function.update s.client i (.push data)}
    else none
  | .push data => some {s with
      data := s.data ++ [data]
      pushed := s.pushed ++ [data]
      client := Function.update s.client i (.notify s.pushed.length)}
  | .notify n => some {notifyOne s with client := Function.update s.client i (.unlock n)}
  | .unlock n => some {s with
      addLock := none
      returned := n :: s.returned
      client := Function.update s.client i .idle}
  | .pauseWork =>
    if s.threadLock = none then
      some {s with threadLock := some (.client i), client := Function.update s.client i .idle}
    else none

def workerStep (s : Sys ι T) : Option (Sys ι T) :=
  match s.worker with
  | .start =>
    if s.threadLock = none then some {s with threadLock := some .worker, worker := .threadWork} else none
  | .threadWork => some {s with threadWork := true, worker := .empty}
  | .empty => some {s with worker := if s.data.isEmpty then .wait else .stopFlag}
  | .wait => some {s with threadLock := none, notified := false, worker := .waiting}
  | .waiting =>
    if s.notified = true ∧ s.threadLock = none then
      some {s with threadLock := some .worker, notified := false, worker := .woken}
    else none
  | .woken => some {s with worker := if s.stopFlag then .stopFlag else .empty}
  | .stopFlag => some {s with worker := if s.stopFlag then .finish else .lock}
  | .lock => if s.addLock = none then some {s with addLock := some .worker, worker := .pop} else none
  | .pop =>
    match s.data with
    | [] => none
    | d :: rest => some {s with data := rest, worker := .unlock d}
  | .unlock d => some {s with addLock := none, worker := .call d}
  | .call d => some {s with called := s.called ++ [d], worker := .calling d}
  | .calling d => some {s with processed := s.processed ++ [d], worker := .empty}
  | .finish => some {s with threadWork := false, worker := .exit}
  | .exit => some {s with threadLock := none, worker := .ended}
  | .ended => none

/-- `stop`, and `kill` in it. While the worker is busy `stop` sleeps and tests again. -/
def stopStep (s : Sys ι T) : Option (Sys ι T) :=
  match s.stop with
  | .notCalled => some {s with stop := .stoped, due := s.returned}
  | .stoped => some {s with stop := if s.stopFlag then .returned else .isBusy}
  | .isBusy => if s.data.isEmpty then some {s with stop := .kill} else none
  | .kill => some {s with stopFlag := true, stop := .threadWork}
  | .threadWork => some {s with stop := if s.threadWork then .notify else .join}
  | .notify => some {notifyOne s with stop := .threadWork}
  | .join =>
    match s.worker with
    | .ended => some {s with stop := .returned}
    | _ => none
  | .returned => none

def step : Event ι T → Sys ι T → Option (Sys ι T)
  | .add i data, s =>
    match s.client i with
    | .idle => some {s with client := Function.update s.client i (.add data)}
    | _ => none
  | .pauseWork i, s =>
    match s.client i with
    | .idle =>
      if s.threadLock = some (.client i) then none
      else some {s with client := Function.update s.client i .pauseWork}
    | _ => none
  | .continueWork i, s =>
    match s.client i with
    | .idle => if s.threadLock = some (.client i) then some {s with threadLock := none} else none
    | _ => none
  | .client i, s => clientStep i s
  | .stop, s => stopStep s
  | .worker, s => workerStep s
  | .spurious, s =>
    match s.worker with
    | .waiting =>
      if s.threadLock = none then
        some {s with threadLock := some .worker, notified := false, worker := .woken}
      else none
    | _ => none

end Steps

/-! ### Where the items are -/

/-- The item popped and not yet handed to `call`. -/
def Worker.inHand : Worker T → List T
  | .unlock d | .call d => [d]
  | _ => []

def Worker.inCall : Worker T → List T
  | .calling d => [d]
  | _ => []

/-- `stop` has found the queue empty. -/
def Stop.Drained : Stop → Prop
  | .kill | .threadWork | .notify | .join | .returned => True
  | _ => False

/-- `kill` has raised the flag. -/
def Stop.Killing : Stop → Prop
  | .threadWork | .notify | .join | .returned => True
  | _ => False

/-- The client has pushed item `n` and has not returned. -/
def Client.Sent (n : Nat) (c : Client T) : Prop := c = .notify n ∨ c = .unlock n

structure Inv (s : Sys ι T) : Prop where
  order : s.pushed = s.called ++ s.worker.inHand ++ s.data
  done : s.called = s.processed ++ s.worker.inCall
  sent : ∀ i n, (s.client i).Sent n → n < s.pushed.length
  returned : ∀ n, n ∈ s.returned → n < s.pushed.length
  due : ∀ n, n ∈ s.due → n < s.pushed.length
  flag : s.stopFlag = true → s.stop.Killing
  drained : s.stop.Drained → ∀ n, n ∈ s.due → n < s.called.length + s.worker.inHand.length
  ended : s.stop = .returned → s.worker = .ended

theorem inv_init (threadWork : Bool) : Inv (init threadWork : Sys ι T) := by
  refine ⟨rfl, rfl, ?_, ?_, ?_, ?_, ?_, ?_⟩
  · rintro i n (h | h) <;> cases h
  · exact fun n h => absurd h List.not_mem_nil
  · exact fun n h => absurd h List.not_mem_nil
  · exact fun h => absurd h Bool.false_ne_true
  · exact fun h => h.elim
  · exact fun h => by cases h

namespace Inv
variable {s s' : Sys ι T} [DecidableEq ι]

/-- A client that goes on has sent what it had sent, unless it goes on to an item just pushed. -/
theorem sent_update (h : Inv s) {i : ι} {c : Client T} {k : Nat} (hk : s.pushed.length ≤ k)
    (hc : ∀ n, c.Sent n → n < k) : ∀ j n, (Function.update s.client i c j).Sent n → n < k := by
  intro j n hj
  by_cases hji : j = i
  · subst hji
    rw [Function.update_self] at hj
    exact hc n hj
  · rw [Function.update_of_ne hji] at hj
    exact lt_of_lt_of_le (h.sent j n hj) hk

theorem clientStep (h : Inv s) {i : ι} (hs : clientStep i s = some s') : Inv s' := by
  unfold AsyncWorker.clientStep at hs
  cases hc : s.client i with
  | idle =>
    rw [hc] at hs
    cases hs
  | add data =>
    simp only [hc, Option.ite_none_right_eq_some, Option.some.injEq] at hs
    obtain ⟨-, rfl⟩ := hs
    exact {h with sent := h.sent_update le_rfl (by rintro n (h | h) <;> cases h)}
  | push data =>
    simp only [hc, Option.some.injEq] at hs
    subst hs
    have hlen : (s.pushed ++ [data]).length = s.pushed.length + 1 := by simp
    have hmore : ∀ n, n < s.pushed.length → n < (s.pushed ++ [data]).length := fun n hn => by omega
    refine {h with order := ?_, sent := ?_, returned := ?_, due := ?_}
    · rw [h.order]
      simp only [List.append_assoc]
    · refine h.sent_update (hlen ▸ Nat.le_succ _) ?_
      rintro n (hn | hn)
      · obtain rfl : s.pushed.length = n := by simpa using hn
        exact hlen ▸ Nat.lt_succ_self _
      · cases hn
    · exact fun n hn => hmore n (h.returned n hn)
    · exact fun n hn => hmore n (h.due n hn)
  | notify n =>
    simp only [hc, Option.some.injEq] at hs
    subst hs
    refine {h with sent := h.sent_update le_rfl ?_}
    rintro k (hk | hk)
    · cases hk
    · obtain rfl : n = k := by simpa using hk
      exact h.sent i n (.inl hc)
  | unlock n =>
    simp only [hc, Option.some.injEq] at hs
    subst hs
    refine {h with
      sent := h.sent_update le_rfl (by rintro n (h | h) <;> cases h)
      returned := fun k hk => ?_}
    rcases List.mem_cons.mp hk with rfl | hk
    · exact h.sent i k (.inr hc)
    · exact h.returned k hk
  | pauseWork =>
    simp only [hc, Option.ite_none_right_eq_some, Option.some.injEq] at hs
    obtain ⟨-, rfl⟩ := hs
    exact {h with sent := h.sent_update le_rfl (by rintro n (h | h) <;> cases h)}

omit [DecidableEq ι] in
/-- The worker's own steps that move no item. -/
theorem moved (h : Inv s) {w : Worker T} (hhand : w.inHand = s.worker.inHand) (hcall : w.inCall = s.worker.inCall)
    (he : s.worker ≠ .ended) (addLock threadLock : Option (Party ι)) (threadWork notified : Bool) :
    Inv {s with
      worker := w
      addLock := addLock
      threadLock := threadLock
      threadWork := threadWork
      notified := notified} := by
  refine {h with order := ?_, done := ?_, drained := ?_, ended := ?_}
  · rw [h.order, ← hhand]
  · rw [h.done, ← hcall]
  · intro hd n hn
    show n < s.called.length + w.inHand.length
    rw [hhand]
    exact h.drained hd n hn
  · exact fun hr => absurd (h.ended hr) he

omit [DecidableEq ι] in
theorem workerStep (h : Inv s) (hs : workerStep s = some s') : Inv s' := by
  unfold AsyncWorker.workerStep at hs
  cases hw : s.worker with
  | start =>
    simp only [hw, Option.ite_none_right_eq_some, Option.some.injEq] at hs
    obtain ⟨-, rfl⟩ := hs
    exact h.moved (by rw [hw]; rfl) (by rw [hw]; rfl) (by rw [hw]; nofun) ..
  | threadWork =>
    simp only [hw, Option.some.injEq] at hs
    subst hs
    exact h.moved (by rw [hw]; rfl) (by rw [hw]; rfl) (by rw [hw]; nofun) ..
  | empty =>
    simp only [hw, Option.some.injEq] at hs
    subst hs
    exact h.moved (by rw [hw]; split <;> rfl) (by rw [hw]; split <;> rfl) (by rw [hw]; nofun) ..
  | wait =>
    simp only [hw, Option.some.injEq] at hs
    subst hs
    exact h.moved (by rw [hw]; rfl) (by rw [hw]; rfl) (by rw [hw]; nofun) ..
  | waiting =>
    simp only [hw, Option.ite_none_right_eq_some, Option.some.injEq] at hs
    obtain ⟨-, rfl⟩ := hs
    exact h.moved (by rw [hw]; rfl) (by rw [hw]; rfl) (by rw [hw]; nofun) ..
  | woken =>
    simp only [hw, Option.some.injEq] at hs
    subst hs
    exact h.moved (by rw [hw]; split <;> rfl) (by rw [hw]; split <;> rfl) (by rw [hw]; nofun) ..
  | stopFlag =>
    simp only [hw, Option.some.injEq] at hs
    subst hs
    exact h.moved (by rw [hw]; split <;> rfl) (by rw [hw]; split <;> rfl) (by rw [hw]; nofun) ..
  | lock =>
    simp only [hw, Option.ite_none_right_eq_some, Option.some.injEq] at hs
    obtain ⟨-, rfl⟩ := hs
    exact h.moved (by rw [hw]; rfl) (by rw [hw]; rfl) (by rw [hw]; nofun) ..
  | pop =>
    cases hd : s.data with
    | nil =>
      simp only [hw, hd] at hs
      cases hs
    | cons d rest =>
      simp only [hw, hd, Option.some.injEq] at hs
      subst hs
      have horder := h.order
      rw [hw, hd] at horder
      refine {h with order := ?_, done := ?_, drained := ?_, ended := ?_}
      · rw [horder]
        simp [Worker.inHand]
      · rw [h.done, hw]
        rfl
      · intro hdr n hn
        have := h.drained hdr n hn
        rw [hw] at this
        exact Nat.lt_succ_of_lt this
      · exact fun hr => absurd (h.ended hr) (by rw [hw]; nofun)
  | unlock d =>
    simp only [hw, Option.some.injEq] at hs
    subst hs
    exact h.moved (by rw [hw]; rfl) (by rw [hw]; rfl) (by rw [hw]; nofun) ..
  | call d =>
    simp only [hw, Option.some.injEq] at hs
    subst hs
    refine {h with order := ?_, done := ?_, drained := ?_, ended := ?_}
    · rw [h.order, hw]
      simp [Worker.inHand]
    · rw [h.done, hw]
      simp [Worker.inCall]
    · intro hdr n hn
      have := h.drained hdr n hn
      rw [hw] at this
      show n < (s.called ++ [d]).length + 0
      rw [List.length_append]
      exact this
    · exact fun hr => absurd (h.ended hr) (by rw [hw]; nofun)
  | calling d =>
    simp only [hw, Option.some.injEq] at hs
    subst hs
    refine {h with order := ?_, done := ?_, drained := ?_, ended := ?_}
    · rw [h.order, hw]
      rfl
    · rw [h.done, hw]
      simp [Worker.inCall]
    · intro hdr n hn
      have := h.drained hdr n hn
      rwa [hw] at this
    · exact fun hr => absurd (h.ended hr) (by rw [hw]; nofun)
  | finish =>
    simp only [hw, Option.some.injEq] at hs
    subst hs
    exact h.moved (by rw [hw]; rfl) (by rw [hw]; rfl) (by rw [hw]; nofun) ..
  | exit =>
    simp only [hw, Option.some.injEq] at hs
    subst hs
    exact h.moved (by rw [hw]; rfl) (by rw [hw]; rfl) (by rw [hw]; nofun) ..
  | ended =>
    rw [hw] at hs
    cases hs

omit [DecidableEq ι] in
theorem stopStep (h : Inv s) (hs : stopStep s = some s') : Inv s' := by
  unfold AsyncWorker.stopStep at hs
  cases hst : s.stop with
  | notCalled =>
    simp only [hst, Option.some.injEq] at hs
    subst hs
    refine {h with due := h.returned, flag := ?_, drained := fun hd => hd.elim, ended := nofun}
    intro hf
    have := h.flag hf
    rw [hst] at this
    exact this
  | stoped =>
    simp only [hst, Option.some.injEq] at hs
    subst hs
    have hflag : s.stopFlag = false := by
      by_contra hf
      have := h.flag (by simpa using hf)
      rw [hst] at this
      exact this
    refine {h with flag := fun hf => ?_, drained := fun hd => ?_, ended := fun hr => ?_}
    · rw [show s.stopFlag = true from hf] at hflag
      cases hflag
    · have hd : (if s.stopFlag then Stop.returned else .isBusy).Drained := hd
      rw [hflag] at hd
      exact hd.elim
    · have hr : (if s.stopFlag then Stop.returned else .isBusy) = .returned := hr
      rw [hflag] at hr
      cases hr
  | isBusy =>
    simp only [hst, Option.ite_none_right_eq_some, Option.some.injEq] at hs
    obtain ⟨hempty, rfl⟩ := hs
    refine {h with flag := ?_, drained := ?_, ended := nofun}
    · intro hf
      have := h.flag hf
      rw [hst] at this
      exact this.elim
    -- all that was pushed has been popped
    · intro _ n hn
      have hlt := h.due n hn
      rw [h.order, List.isEmpty_iff.mp hempty, List.append_nil, List.length_append] at hlt
      exact hlt
  | kill =>
    simp only [hst, Option.some.injEq] at hs
    subst hs
    refine {h with flag := fun _ => trivial, drained := fun _ => h.drained ?_, ended := nofun}
    rw [hst]
    trivial
  | threadWork =>
    simp only [hst, Option.some.injEq] at hs
    subst hs
    refine {h with flag := fun _ => ?_, drained := fun _ => h.drained ?_, ended := fun hr => ?_}
    · show Stop.Killing (if s.threadWork then .notify else .join)
      split <;> trivial
    · rw [hst]
      trivial
    · have hr : (if s.threadWork then Stop.notify else .join) = .returned := hr
      split at hr <;> cases hr
  | notify =>
    simp only [hst, Option.some.injEq] at hs
    subst hs
    refine {h with flag := fun _ => trivial, drained := fun _ => h.drained ?_, ended := nofun}
    rw [hst]
    trivial
  | join =>
    simp only [hst] at hs
    split at hs
    next hw =>
      obtain rfl := Option.some.inj hs
      refine {h with flag := fun _ => trivial, drained := fun _ => h.drained ?_, ended := fun _ => hw}
      rw [hst]
      trivial
    next => cases hs
  | returned =>
    rw [hst] at hs
    cases hs

theorem step (h : Inv s) {e : Event ι T} (hs : step e s = some s') : Inv s' := by
  cases e with
  | add i data =>
    unfold AsyncWorker.step at hs
    cases hc : s.client i with
    | idle =>
      simp only [hc, Option.some.injEq] at hs
      subst hs
      exact {h with sent := h.sent_update le_rfl (by rintro n (h | h) <;> cases h)}
    | _ =>
      simp only [hc] at hs
      cases hs
  | pauseWork i =>
    unfold AsyncWorker.step at hs
    cases hc : s.client i with
    | idle =>
      simp only [hc, Option.ite_none_left_eq_some, Option.some.injEq] at hs
      obtain ⟨-, rfl⟩ := hs
      exact {h with sent := h.sent_update le_rfl (by rintro n (h | h) <;> cases h)}
    | _ =>
      simp only [hc] at hs
      cases hs
  | continueWork i =>
    unfold AsyncWorker.step at hs
    cases hc : s.client i with
    | idle =>
      simp only [hc, Option.ite_none_right_eq_some, Option.some.injEq] at hs
      obtain ⟨-, rfl⟩ := hs
      exact {h with}
    | _ =>
      simp only [hc] at hs
      cases hs
  | client i => exact h.clientStep hs
  | stop => exact h.stopStep hs
  | worker => exact h.workerStep hs
  | spurious =>
    unfold AsyncWorker.step at hs
    cases hw : s.worker with
    | waiting =>
      simp only [hw, Option.ite_none_right_eq_some, Option.some.injEq] at hs
      obtain ⟨-, rfl⟩ := hs
      exact h.moved (by rw [hw]; rfl) (by rw [hw]; rfl) (by rw [hw]; nofun) ..
    | _ =>
      simp only [hw] at hs
      cases hs

end Inv

variable [DecidableEq ι]

/-- Whatever the clients, the worker and `stop` do, and in whatever order: `call` is given
the items in the order they were pushed, each once, and when `stop` has returned every item
whose `add` had returned before it was called is processed. -/
theorem called_in_order (threadWork : Bool) {s : Sys ι T} (h : Runs.Reachable step (init threadWork) s) :
    s.called <+: s.pushed ∧ s.processed <+: s.called ∧
      (s.stop = .returned → ∀ n, n ∈ s.due → n < s.processed.length) := by
  have hinv : Inv s := h.inv (inv_init threadWork) fun _ _ _ h _ hs => h.step hs
  refine ⟨?_, ?_, fun hr n hn => ?_⟩
  · rw [hinv.order, List.append_assoc]
    exact List.prefix_append ..
  · rw [hinv.done]
    exact List.prefix_append ..
  · have hlt := hinv.drained (by rw [hr]; trivial) n hn
    have hdone := hinv.done
    rw [hinv.ended hr] at hlt hdone
    rw [hdone, List.length_append] at hlt
    exact hlt

/-- `stop` is called inside `call` on the one item, and returns when it is processed. -/
theorem called_in_order_one : ∃ (events : List (Event Unit Nat)) (s : Sys Unit Nat),
    Runs.run step events (init false) = some s ∧ s.stop = .returned ∧ s.due = [0] ∧
    s.called <+: s.pushed ∧ s.processed <+: s.called ∧ 0 < s.processed.length := by
  have hfacts : (Runs.run step (List.flatten [[.add () 7], .replicate 4 (.client ()), .replicate 8 .worker,
      .replicate 6 .stop, .replicate 3 .worker, .replicate 2 .stop, .replicate 5 .worker, .replicate 2 .stop])
      (init false : Sys Unit Nat)).any (fun s => s.stop = .returned ∧ s.due = [0]) = true := by decide +kernel
  obtain ⟨s, hrun, hs⟩ := (Option.any_eq_true _ _).mp hfacts
  obtain ⟨hstop, hdue⟩ := of_decide_eq_true hs
  obtain ⟨hcalled, hprocessed, hall⟩ := called_in_order false (Runs.reachable_run hrun)
  exact ⟨_, s, hrun, hstop, hdue, hcalled, hprocessed, hall hstop 0 (hdue ▸ List.mem_singleton_self 0)⟩

end Nkvdb.AsyncWorker
