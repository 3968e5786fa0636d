import Nkvdb.Page.Handles

/-! The window file while read-only handles come and go.

`Open` loads the window file into the handle, and `close` writes the handle's window back,
whether it was opened for writing or not. -/
namespace Nkvdb.Handles

/-- The handles of a page file with one writer, and the window that it flushed last, if it
has not appended since. -/
structure Watched where
  sys : Sys
  flushed : Option WriteWindow

/-- What the writer has flushed last when handle `i` has closed or not. -/
def flushedBy (i : Nat) (w : Watched) (s : Sys) : Option WriteWindow :=
  if (w.sys.handle i).writing ∧ (w.sys.handle i).mapped ∧ ¬ (s.handle i).mapped then some (w.sys.handle i).writeWindow
  else w.flushed

/-- The steps with no second writer. -/
def watch (e : Event) (w : Watched) : Option Watched :=
  match e with
  | .create _ | .openFile false => none
  | .openFile true => (step (.openFile true) w.sys).map fun s => ⟨s, w.flushed⟩
  | .append i op => (step (.append i op) w.sys).map fun s => ⟨s, none⟩
  | .flushWriteWindow i => (step (.flushWriteWindow i) w.sys).map fun s => ⟨s, some (w.sys.handle i).writeWindow⟩
  | .readComplete i => (step (.readComplete i) w.sys).map fun s => ⟨s, flushedBy i w s⟩
  | .close i => (step (.close i) w.sys).map fun s => ⟨s, flushedBy i w s⟩

/-- The window file holds what the writer flushed last. -/
def Current (w : Watched) : Prop := ∀ fw, w.flushed = some fw → w.sys.windowFile.getD [] = fw

/-- Handle `i` has an empty window only where the file has none either. -/
def Nonempty (i : Nat) (s : Sys) : Prop := (s.handle i).writeWindow = [] → s.windowFile.getD [] = []

/-- Handle `i` may close: a reader has loaded no window, or the one flushed last. -/
def Ends (i : Nat) (w : Watched) : Prop :=
  if (w.sys.handle i).writing then Nonempty i w.sys
  else ∀ fw, w.flushed = some fw → (w.sys.handle i).writeWindow = [] ∨ (w.sys.handle i).writeWindow = fw

/-- The event is no close of a reader with a window other than the one flushed last, and no
flush of an empty window over one. -/
def Harmless (e : Event) (w : Watched) : Prop :=
  match e with
  | .flushWriteWindow i => Nonempty i w.sys
  | .readComplete i => (w.sys.header (w.sys.handle i).file).readersCount = 1 → Ends i w
  | .close i => (w.sys.handle i).mapped = true → Ends i w
  | _ => True

/-- A flush leaves its window in the file, but an empty one. -/
theorem flush_iff {win : WriteWindow} {file : Option (List Meas)} :
    (if win.length ≠ 0 then some win else file).getD [] = win ↔ (win = [] → file.getD [] = []) := by
  cases win with
  | nil => exact ⟨fun h _ => h, fun h => h rfl⟩
  | cons m ms => exact ⟨fun _ => nofun, fun _ => rfl⟩

theorem flush_same_iff {win fw : WriteWindow} {file : Option (List Meas)} (h : file.getD [] = fw) :
    (if win.length ≠ 0 then some win else file).getD [] = fw ↔ win = [] ∨ win = fw := by
  cases win with
  | nil => exact ⟨fun _ => .inl rfl, fun _ => h⟩
  | cons m ms => exact ⟨.inr, fun h => h.resolve_left nofun⟩

variable {w w' : Watched} {s' : Sys}

/-- What a close of handle `i` leaves. -/
theorem close_window {s : Sys} {i : Nat} (hm : (s.handle i).mapped = true) (hs : s.close i = some s') :
    (s'.handle i).mapped = false ∧ s'.windowFile =
      if (s.handle i).writeWindow.length ≠ 0 then some (s.handle i).writeWindow else s.windowFile := by
  unfold Sys.close at hs
  rw [if_pos hm] at hs
  obtain ⟨g, hg, rfl⟩ := Option.map_eq_some_iff.mp hs
  obtain ⟨ix, -, rfl⟩ := Page.close_iff.mp (toOption_eq_some.mp hg)
  refine ⟨?_, rfl⟩
  show (Function.update s.handle i _ i).mapped = false
  rw [Function.update_self]

theorem current_close_iff {s : Sys} {i : Nat} (hp : Current w) (hh : s.handle i = w.sys.handle i)
    (hf : s.windowFile = w.sys.windowFile) (hm : (s.handle i).mapped = true) (hs : s.close i = some s') :
    Current ⟨s', flushedBy i w s'⟩ ↔ Ends i w := by
  obtain ⟨hclosed, hfile⟩ := close_window hm hs
  rw [hh] at hm hfile
  rw [hf] at hfile
  cases hw : (w.sys.handle i).writing with
  | true =>
    have hflushed : flushedBy i w s' = some (w.sys.handle i).writeWindow :=
      if_pos ⟨hw, hm, by rw [hclosed]; exact nofun⟩
    have hends : Ends i w ↔ Nonempty i w.sys := by rw [Ends, if_pos hw]
    rw [hends, Nonempty, ← flush_iff, ← hfile]
    constructor
    · exact fun h => h _ hflushed
    · intro h fw hfw
      obtain rfl := Option.some.inj (hflushed.symm.trans hfw)
      exact h
  | false =>
    have hflushed : flushedBy i w s' = w.flushed := if_neg fun h => by rw [hw] at h; cases h.1
    have hends : Ends i w ↔ ∀ fw, w.flushed = some fw →
        (w.sys.handle i).writeWindow = [] ∨ (w.sys.handle i).writeWindow = fw := by
      rw [Ends, if_neg (by rw [hw]; exact nofun)]
    rw [hends, Current, hflushed]
    refine forall₂_congr fun fw hfw => ?_
    rw [hfile]
    exact flush_same_iff (hp fw hfw)

/-- An event keeps the file current exactly if it is harmless. -/
theorem current_iff {e : Event} (hp : Current w) (hs : watch e w = some w') : Current w' ↔ Harmless e w := by
  cases e with
  | create fsize => cases hs
  | openFile readOnly =>
    cases readOnly with
    | false => cases hs
    | true =>
      obtain ⟨s', hstep, rfl⟩ := Option.map_eq_some_iff.mp hs
      obtain ⟨p, hopen, rfl⟩ := Option.map_eq_some_iff.mp hstep
      obtain ⟨-, -, -, -, rfl⟩ := Page.openFile_iff.mp (toOption_eq_some.mp hopen)
      exact ⟨fun _ => trivial, fun _ => hp⟩
  | append i op =>
    obtain ⟨s', -, rfl⟩ := Option.map_eq_some_iff.mp hs
    exact ⟨fun _ => trivial, fun _ => nofun⟩
  | flushWriteWindow i =>
    obtain ⟨s', hstep, rfl⟩ := Option.map_eq_some_iff.mp hs
    unfold step at hstep
    simp only [Option.ite_none_right_eq_some, Option.some.injEq] at hstep
    obtain ⟨-, rfl⟩ := hstep
    refine Iff.trans ?_ flush_iff
    constructor
    · exact fun h => h _ rfl
    · intro h fw hfw
      obtain rfl := Option.some.inj hfw
      exact h
  | readComplete i =>
    obtain ⟨s', hstep, rfl⟩ := Option.map_eq_some_iff.mp hs
    unfold step at hstep
    simp only [Option.ite_none_right_eq_some] at hstep
    obtain ⟨hm, hstep⟩ := hstep
    rcases readComplete_cases hstep with ⟨h1, hclose⟩ | ⟨h1, hkept⟩
    · exact (current_close_iff (s := w.sys.release i) hp rfl rfl hm hclose).trans ⟨fun h _ => h, fun h => h h1⟩
    · -- nothing closes
      have hsame : (s'.handle i).mapped = true ∧ s'.windowFile = w.sys.windowFile := by
        rcases hkept with rfl | rfl
        · exact ⟨hm, rfl⟩
        · exact ⟨hm, rfl⟩
      have hflushed : flushedBy i w s' = w.flushed := if_neg fun h => h.2.2 hsame.1
      refine ⟨fun _ h => absurd h h1, fun _ => ?_⟩
      rw [Current, hflushed, hsame.2]
      exact hp
  | close i =>
    obtain ⟨s', hstep, rfl⟩ := Option.map_eq_some_iff.mp hs
    by_cases hm : (w.sys.handle i).mapped = true
    · exact (current_close_iff hp rfl rfl hm hstep).trans ⟨fun h _ => h, fun h => h hm⟩
    · have hsame : w.sys = s' := by simpa [step, Sys.close, hm] using hstep
      have hflushed : flushedBy i w s' = w.flushed := if_neg fun h => hm h.2.1
      refine ⟨fun _ h => absurd h hm, fun _ => ?_⟩
      rw [Current, hflushed, ← hsame]
      exact hp

/-- A reader that opened before the last append closes after its flush. -/
theorem window_undone : ¬ ∀ (fsize : U64) (es : List Event),
    Runs.Always watch Current es ⟨Sys.start (Page.create fsize), none⟩ := by
  intro h
  let es : List Event := [.append 0 (.array [.plain 1 1]), .flushWriteWindow 0, .openFile true,
    .append 0 (.array [.plain 1 2]), .flushWriteWindow 0, .close 1]
  have hrun : (Runs.run watch es ⟨Sys.start (Page.create (Page.calcSize 4)), none⟩).any (fun w =>
    decide (w.flushed = some [.empty, .plain 1 2] ∧ w.sys.windowFile.getD [] = [.empty, .plain 1 1])) = true := by
    decide +kernel
  obtain ⟨w, hw, hbad⟩ := (Option.any_eq_true _ _).mp hrun
  obtain ⟨hflushed, hfile⟩ := of_decide_eq_true hbad
  have hcurrent := (h (Page.calcSize 4) es).run hw _ hflushed
  rw [hfile] at hcurrent
  exact absurd hcurrent (by decide)

/-- From any page open for writing, a run keeps the window file at what the writer flushed
last, as long as that has not appended since, if and only if every event in it is harmless. -/
theorem window_current_iff (p : Page) (es : List Event) :
    Runs.Always watch Current es ⟨Sys.start p, none⟩ ↔ Runs.Each watch Harmless es ⟨Sys.start p, none⟩ :=
  Runs.always_iff_each (I := fun _ => True) (fun _ _ _ _ hp hs => current_iff hp hs) (fun _ _ _ _ _ _ _ => trivial)
    trivial nofun

end Nkvdb.Handles
