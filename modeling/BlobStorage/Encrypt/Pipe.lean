import BlobStorage.Encrypt.Provider
import BlobStorage.Library.Transition

/-!
# The decryption pipe

`decrypt_stream` and `ErrorAwareReader`. A spawned task lets the provider write into a pipe of
64 KiB while the caller reads from its other end. An error of the provider travels through a
slot that the reader looks at when the pipe has ended; the pipe ends when the task drops its
end or when the provider shuts it down.
-/

namespace BlobStorage

namespace DecryptPipe

open Transition

/-- `tokio::io::duplex(64 * 1024)`. -/
def capacity : Nat := 64 * 1024

/-- A call of the provider on its output. -/
inductive Action where
  | write (chunk : Bytes)
  | shutdown
  deriving DecidableEq, Repr

/-- What a provider does in one `decrypt_stream`: its calls in order, and how it ends. -/
structure Behaviour where
  script : List Action
  ending : DecryptOutcome
  deriving DecidableEq, Repr

/-- Where the spawned task stands. -/
inductive Task where
  | running (script : List Action)
  /-- The provider returned an error that is not in the slot yet. -/
  | recording (e : EncryptionError)
  /-- Everything is done but to drop the task's end of the pipe. -/
  | finishing
  | done
  deriving DecidableEq, Repr

/-- Where `poll_read` stands between two polls, or between the end of the pipe and the slot. -/
inductive Polling where
  | idle
  | checking
  deriving DecidableEq, Repr

structure State where
  task : Task
  buffer : Bytes
  closed : Bool
  /-- `decryption_error`. -/
  slot : Option EncryptionError
  reader : Polling
  deriving DecidableEq, Repr

/-- What a step shows, to the provider (`wrote`) or to the caller. -/
inductive Event where
  | quiet
  | wrote (chunk : Bytes)
  | delivered (chunk : Bytes)
  | pending
  | ended
  | failed (e : IoError)
  deriving DecidableEq, Repr

/-- The bytes that the pipe accepted. -/
def written (events : List Event) : Bytes :=
  events.flatMap fun
    | .wrote chunk => chunk
    | _ => []

/-- The bytes that the caller read. -/
def delivered (events : List Event) : Bytes :=
  events.flatMap fun
    | .delivered chunk => chunk
    | _ => []

/-- The `std::io::Error` that the reader makes of a recorded error. -/
def decryptionFailure (key : Key) : IoError :=
  { kind := .other
    message := s!"encryption error: decryption failed for key '{String.ofList key}'" }

def start (behaviour : Behaviour) : State :=
  { task := .running behaviour.script, buffer := [], closed := false, slot := none,
    reader := .idle }

/-- One step of the task or of the reader. -/
inductive Step (key : Key) (ending : DecryptOutcome) : State → Event → State → Prop where
  /-- A write goes as far as there is room; the rest of the chunk is written next. -/
  | write {s : State} {chunk : Bytes} {rest : List Action} {n : Nat}
      (task : s.task = .running (.write chunk :: rest)) (opened : s.closed = false)
      (room : s.buffer.length < capacity)
      (some : n = min (capacity - s.buffer.length) chunk.length) :
      Step key ending s (.wrote (chunk.take n))
        { s with
          task := .running (if chunk.drop n = [] then rest else .write (chunk.drop n) :: rest)
          buffer := s.buffer ++ chunk.take n }
  /-- A write into a closed pipe fails, and the provider goes on as it will. -/
  | refuse {s : State} {chunk : Bytes} {rest : List Action}
      (task : s.task = .running (.write chunk :: rest)) (closed : s.closed = true) :
      Step key ending s .quiet { s with task := .running rest }
  | shutdown {s : State} {rest : List Action} (task : s.task = .running (.shutdown :: rest)) :
      Step key ending s .quiet { s with task := .running rest, closed := true }
  | returned {s : State} (task : s.task = .running []) (ok : ending = .done) :
      Step key ending s .quiet { s with task := .finishing }
  | returnedError {s : State} {e : EncryptionError} (task : s.task = .running [])
      (error : ending = .failed e) : Step key ending s .quiet { s with task := .recording e }
  /-- Unwinding drops the end of the pipe and leaves the slot as it is. -/
  | panicked {s : State} (task : s.task = .running []) (panic : ending = .panicked) :
      Step key ending s .quiet { s with task := .finishing }
  | record {s : State} {e : EncryptionError} (task : s.task = .recording e) :
      Step key ending s .quiet { s with task := .finishing, slot := some e }
  | drop {s : State} (task : s.task = .finishing) :
      Step key ending s .quiet { s with task := .done, closed := true }
  /-- A poll with a buffer of `room` bytes. -/
  | deliver {s : State} {room : Nat} (reader : s.reader = .idle) (buffer : s.buffer ≠ [])
      (nonempty : 0 < room) :
      Step key ending s (.delivered (s.buffer.take room)) { s with buffer := s.buffer.drop room }
  | wait {s : State} (reader : s.reader = .idle) (buffer : s.buffer = [])
      (opened : s.closed = false) : Step key ending s .pending s
  | endOfPipe {s : State} (reader : s.reader = .idle) (buffer : s.buffer = [])
      (closed : s.closed = true) : Step key ending s .quiet { s with reader := .checking }
  /-- `take()` empties the slot. -/
  | surface {s : State} {e : EncryptionError} (reader : s.reader = .checking)
      (slot : s.slot = some e) :
      Step key ending s (.failed (decryptionFailure key))
        { s with reader := .idle, slot := none }
  | finish {s : State} (reader : s.reader = .checking) (slot : s.slot = none) :
      Step key ending s .ended { s with reader := .idle }

/-- The runs of the task and the reader for one provider behaviour. -/
abbrev Runs (key : Key) (behaviour : Behaviour) : List Event → State → Prop :=
  Run (Step key behaviour.ending) (start behaviour)

/-- Whenever the caller reads the end of the stream and has seen no error, the provider is one
that returns `Ok`, and the caller has read all that it wrote. -/
def Truthful (key : Key) (behaviour : Behaviour) : Prop :=
  ∀ {earlier later : List Event} {s : State}, Runs key behaviour (earlier ++ .ended :: later) s →
    (∀ e, .failed e ∉ earlier) →
    behaviour.ending = .done ∧ delivered earlier = written (earlier ++ .ended :: later)

@[simp] theorem written_append (events later : List Event) :
    written (events ++ later) = written events ++ written later := List.flatMap_append

@[simp] theorem delivered_append (events later : List Event) :
    delivered (events ++ later) = delivered events ++ delivered later := List.flatMap_append

@[simp] theorem written_cons_ended (events : List Event) :
    written (.ended :: events) = written events := rfl

variable {key : Key} {ending : DecryptOutcome} {s t : State} {e : Event} {events : List Event}

/-- Between the end of the pipe and the look at the slot there is nothing left to read. -/
def Settled (s : State) : Prop := s.reader = .checking → s.closed = true ∧ s.buffer = []

theorem Settled.step (h : Settled s) (hstep : Step key ending s e t) : Settled t := by
  unfold Settled at h ⊢
  cases hstep with
  | write _ opened =>
      intro hreader
      have hclosed := (h hreader).1
      rw [opened] at hclosed
      cases hclosed
  | refuse => exact h
  | shutdown => exact fun hreader => ⟨rfl, (h hreader).2⟩
  | returned => exact h
  | returnedError => exact h
  | panicked => exact h
  | record => exact h
  | drop => exact fun hreader => ⟨rfl, (h hreader).2⟩
  | deliver reader =>
      intro hreader
      rw [reader] at hreader
      cases hreader
  | wait => exact h
  | endOfPipe _ buffer closed => exact fun _ => ⟨closed, buffer⟩
  | surface => exact fun hreader => nomatch hreader
  | finish => exact fun hreader => nomatch hreader

/-- What was written has been read or is still in the pipe. -/
theorem written_eq (h : Run (Step key ending) s events t) :
    s.buffer ++ written events = delivered events ++ t.buffer := by
  induction h with
  | start => simp [written, delivered]
  | step before next ih =>
      rw [written_append, delivered_append, ← List.append_assoc, ih]
      cases next <;> simp [written, delivered]

/-- Nothing is written into a closed pipe, and it stays closed. -/
theorem closed_step (hclosed : s.closed = true) (hstep : Step key ending s e t) :
    t.closed = true ∧ written [e] = [] := by
  cases hstep with
  | write _ opened =>
      rw [opened] at hclosed
      cases hclosed
  | shutdown => exact ⟨rfl, rfl⟩
  | drop => exact ⟨rfl, rfl⟩
  | _ => exact ⟨hclosed, rfl⟩

theorem closed_run (h : Run (Step key ending) s events t) (hclosed : s.closed = true) :
    t.closed = true ∧ written events = [] := by
  induction h with
  | start => exact ⟨hclosed, rfl⟩
  | step before next ih =>
      obtain ⟨hbefore, hnone⟩ := ih
      obtain ⟨hafter, hstep⟩ := closed_step hbefore next
      exact ⟨hafter, by rw [written_append, hnone, hstep]; rfl⟩

/-- The end of the stream is only shown after everything that is ever written was read. -/
theorem delivered_at_end {behaviour : Behaviour} {earlier later : List Event}
    (h : Runs key behaviour (earlier ++ .ended :: later) s) :
    delivered earlier = written (earlier ++ .ended :: later) := by
  obtain ⟨t, t', before, hend, after⟩ := h.split_at
  have hsettled : Settled t :=
    before.invariant Settled (fun _ _ _ hs hstep => hs.step hstep) fun h => nomatch h
  have hread := written_eq before
  cases hend with
  | finish reader slot =>
      obtain ⟨hclosed, hbuffer⟩ := hsettled reader
      rw [hbuffer, List.append_nil] at hread
      have hnone := (closed_run after hclosed).2
      rw [written_append, written_cons_ended, hnone, List.append_nil, ← hread]
      rfl

/-- The error of a task that ended with one. -/
def recorded : DecryptOutcome → Option EncryptionError
  | .failed e => some e
  | _ => none

/-- The slot while the task is where it is, as long as the reader leaves it alone. -/
def expectedSlot (ending : DecryptOutcome) : Task → Option EncryptionError
  | .running _ => none
  | .recording _ => none
  | .finishing => recorded ending
  | .done => recorded ending

/-- Until the reader takes it, the slot holds the error of a task that failed and recorded it. -/
structure Slotted (ending : DecryptOutcome) (s : State) : Prop where
  recording : ∀ {e}, s.task = .recording e → ending = .failed e
  slot : s.slot = expectedSlot ending s.task

theorem Slotted.step (h : Slotted ending s) (hstep : Step key ending s e t)
    (hnot : ∀ err, e ≠ .failed err) : Slotted ending t := by
  obtain ⟨hrecording, hslot⟩ := h
  cases hstep with
  | write task =>
      rw [task] at hslot
      exact ⟨by simp, hslot⟩
  | refuse task =>
      rw [task] at hslot
      exact ⟨by simp, hslot⟩
  | shutdown task =>
      rw [task] at hslot
      exact ⟨by simp, hslot⟩
  | returned task ok =>
      rw [task] at hslot
      exact ⟨by simp, by rw [hslot, ok]; rfl⟩
  | returnedError task error =>
      rw [task] at hslot
      exact ⟨by simp [error], hslot⟩
  | panicked task panic =>
      rw [task] at hslot
      exact ⟨by simp, by rw [hslot, panic]; rfl⟩
  | record task => exact ⟨by simp, by rw [hrecording task]; rfl⟩
  | drop task =>
      rw [task] at hslot
      exact ⟨by simp, hslot⟩
  | deliver => exact ⟨hrecording, hslot⟩
  | wait => exact ⟨hrecording, hslot⟩
  | endOfPipe => exact ⟨hrecording, hslot⟩
  | surface => exact absurd rfl (hnot _)
  | finish => exact ⟨hrecording, hslot⟩

theorem slotted_of_run (h : Run (Step key ending) s events t) (hstart : Slotted ending s)
    (hnot : ∀ err, .failed err ∉ events) : Slotted ending t := by
  induction h with
  | start => exact hstart
  | step before next ih =>
      refine (ih fun err hmem => hnot err ?_).step next ?_
      · exact List.mem_append_left _ hmem
      · rintro err rfl
        exact hnot err (List.mem_append_right _ (List.mem_singleton_self _))

theorem slotted_start (behaviour : Behaviour) : Slotted behaviour.ending (start behaviour) :=
  ⟨nofun, rfl⟩

/-- Without a call of `shutdown`, only a task that is done has closed the pipe. -/
structure Unclosed (s : State) : Prop where
  script : ∀ {script}, s.task = .running script → .shutdown ∉ script
  closed : s.closed = true → s.task = .done

theorem Unclosed.step (h : Unclosed s) (hstep : Step key ending s e t) : Unclosed t := by
  obtain ⟨hscript, hclosed⟩ := h
  have hopened : ∀ {task}, s.task = task → task ≠ .done → ¬s.closed = true :=
    fun htask hne h => hne (htask ▸ hclosed h)
  cases hstep with
  | @write chunk rest n task opened =>
      have hrest : .shutdown ∉ rest := fun hmem => hscript task (List.mem_cons_of_mem _ hmem)
      refine ⟨?_, fun h => absurd h (hopened task nofun)⟩
      rintro script ⟨⟩
      split
      · exact hrest
      · simpa using hrest
  | refuse task closed => exact absurd closed (hopened task nofun)
  | shutdown task => exact absurd List.mem_cons_self (hscript task)
  | returned task => exact ⟨nofun, fun h => absurd h (hopened task nofun)⟩
  | returnedError task => exact ⟨nofun, fun h => absurd h (hopened task nofun)⟩
  | panicked task => exact ⟨nofun, fun h => absurd h (hopened task nofun)⟩
  | record task => exact ⟨nofun, fun h => absurd h (hopened task nofun)⟩
  | drop => exact ⟨nofun, fun _ => rfl⟩
  | deliver => exact ⟨hscript, hclosed⟩
  | wait => exact ⟨hscript, hclosed⟩
  | endOfPipe => exact ⟨hscript, hclosed⟩
  | surface => exact ⟨hscript, hclosed⟩
  | finish => exact ⟨hscript, hclosed⟩

/-- Where the provider fails without closing the pipe itself, its error comes before the end of
the stream. -/
theorem ended_not_of_failed {behaviour : Behaviour} {failure : EncryptionError}
    (hfailed : behaviour.ending = .failed failure) (hscript : .shutdown ∉ behaviour.script)
    {earlier : List Event} (hearlier : ∀ err, .failed err ∉ earlier)
    (h : Runs key behaviour earlier s) : ¬Step key behaviour.ending s .ended t := by
  intro hend
  have hsettled : Settled s :=
    h.invariant Settled (fun _ _ _ hs hstep => hs.step hstep) nofun
  have hunclosed : Unclosed s := by
    refine h.invariant Unclosed (fun _ _ _ hs hstep => hs.step hstep) ⟨?_, nofun⟩
    rintro script ⟨⟩
    exact hscript
  have hslotted := slotted_of_run h (slotted_start behaviour) hearlier
  cases hend with
  | finish reader slot =>
      have htask := hunclosed.closed (hsettled reader).1
      have hslot := hslotted.slot
      rw [htask, slot, hfailed] at hslot
      cases hslot

section Reading

/-- A state in which the caller has read all that was written so far. -/
def upToDate (script : List Action) : State :=
  { task := .running script, buffer := [], closed := false, slot := none, reader := .idle }

/-- The reader keeps up with a write, however much longer than the pipe the chunk is. -/
theorem exists_run_write (chunk : Bytes) (rest : List Action) :
    ∃ events, Run (Step key ending) (upToDate (.write chunk :: rest)) events (upToDate rest) ∧
      ∀ err, .failed err ∉ events := by
  generalize hlength : chunk.length = length
  induction length using Nat.strong_induction_on generalizing chunk with
  | _ length ih =>
      subst hlength
      let n := min capacity chunk.length
      let next : List Action := if chunk.drop n = [] then rest else .write (chunk.drop n) :: rest
      have hwrite : Step key ending (upToDate (.write chunk :: rest)) (.wrote (chunk.take n))
          { upToDate next with buffer := chunk.take n } :=
        .write rfl rfl (show 0 < capacity by decide) rfl
      by_cases hempty : chunk = []
      · subst hempty
        exact ⟨_, .single hwrite, by simp⟩
      have hpositive : 0 < n := by
        have hchunk : 0 < chunk.length := List.length_pos_iff.mpr hempty
        have hcapacity : 0 < capacity := by decide
        omega
      have hdeliver : ∀ script, Step key ending { upToDate script with buffer := chunk.take n }
          (.delivered ((chunk.take n).take n)) (upToDate script) := by
        intro script
        have hread : upToDate script =
            { upToDate script with buffer := (chunk.take n).drop n } := by
          rw [List.drop_take_self]
          rfl
        rw [hread]
        refine .deliver rfl ?_ hpositive
        intro hnil
        obtain hzero | hchunk := List.take_eq_nil_iff.mp hnil
        · omega
        · exact hempty hchunk
      by_cases hdrop : chunk.drop n = []
      · have hnext : next = rest := if_pos hdrop
        rw [hnext] at hwrite
        exact ⟨_, .head hwrite (.single (hdeliver rest)), by simp⟩
      · have hnext : next = .write (chunk.drop n) :: rest := if_neg hdrop
        have hshorter : (chunk.drop n).length < chunk.length := by
          have hlong : 0 < (chunk.drop n).length := List.length_pos_iff.mpr hdrop
          rw [List.length_drop] at hlong ⊢
          omega
        obtain ⟨events, hrun, hnot⟩ := ih _ hshorter (chunk.drop n) rfl
        rw [hnext] at hwrite
        exact ⟨_, .head hwrite (.head (hdeliver _) hrun), by simpa using hnot⟩

/-- The reader keeps up with everything a provider does before it shuts the pipe down. -/
theorem exists_run_script {script : List Action} (hscript : .shutdown ∉ script)
    (rest : List Action) :
    ∃ events, Run (Step key ending) (upToDate (script ++ rest)) events (upToDate rest) ∧
      ∀ err, .failed err ∉ events := by
  induction script with
  | nil => exact ⟨[], .start, by simp⟩
  | cons action script ih =>
      rw [List.mem_cons, not_or] at hscript
      obtain ⟨later, hlater, hnotLater⟩ := ih hscript.2
      cases action with
      | shutdown => exact absurd rfl hscript.1
      | write chunk =>
          obtain ⟨first, hfirst, hnotFirst⟩ := exists_run_write chunk (script ++ rest)
          refine ⟨first ++ later, hfirst.append hlater, fun err hmem => ?_⟩
          obtain hmem | hmem := List.mem_append.mp hmem
          · exact hnotFirst err hmem
          · exact hnotLater err hmem

/-- The pipe is closed, everything is read, and there is no error in the slot. -/
def readOut (task : Task) : State :=
  { task, buffer := [], closed := true, slot := none, reader := .idle }

theorem run_readOut (task : Task) :
    Run (Step key ending) (readOut task) [.quiet, .ended] (readOut task) :=
  .head (.endOfPipe rfl rfl rfl) (.single (.finish rfl rfl))

/-- A provider that fails after it shut the pipe down, or that panics, is read to a clean end
in some run. -/
theorem exists_run_ended (key : Key) {behaviour : Behaviour}
    (h : behaviour.ending = .panicked ∨ .shutdown ∈ behaviour.script) :
    ∃ earlier s, Runs key behaviour (earlier ++ [.ended]) s ∧ ∀ err, .failed err ∉ earlier := by
  by_cases hshutdown : .shutdown ∈ behaviour.script
  · obtain ⟨script, rest, hscript, hfirst⟩ := List.eq_append_cons_of_mem hshutdown
    obtain ⟨events, hrun, hnot⟩ :=
      @exists_run_script key behaviour.ending script hfirst (.shutdown :: rest)
    rw [← hscript] at hrun
    refine ⟨events ++ [.quiet, .quiet], readOut (.running rest), ?_, by simpa using hnot⟩
    rw [List.append_assoc]
    exact hrun.append (.head (.shutdown rfl) (run_readOut (.running rest)))
  · have hpanic := h.resolve_right hshutdown
    obtain ⟨events, hrun, hnot⟩ := @exists_run_script key behaviour.ending _ hshutdown []
    rw [List.append_nil] at hrun
    refine ⟨events ++ [.quiet, .quiet, .quiet], readOut .done, ?_, by simpa using hnot⟩
    rw [List.append_assoc]
    exact hrun.append (.head (.panicked rfl hpanic) (.head (.drop rfl) (run_readOut .done)))

end Reading

/-- A clean end never stands for incomplete data exactly where the provider returns `Ok`, or
returns an error without having shut the pipe down. -/
theorem truthful_iff (key : Key) (behaviour : Behaviour) :
    Truthful key behaviour ↔
      behaviour.ending = .done ∨
        (∃ e, behaviour.ending = .failed e) ∧ .shutdown ∉ behaviour.script := by
  constructor
  · intro h
    cases hending : behaviour.ending with
    | done => exact .inl rfl
    | failed e =>
        refine .inr ⟨⟨e, rfl⟩, fun hshutdown => ?_⟩
        obtain ⟨earlier, s, hrun, hnot⟩ := exists_run_ended key (.inr hshutdown)
        have hdone := (h hrun hnot).1
        rw [hending] at hdone
        cases hdone
    | panicked =>
        obtain ⟨earlier, s, hrun, hnot⟩ := exists_run_ended key (.inl hending)
        have hdone := (h hrun hnot).1
        rw [hending] at hdone
        cases hdone
  · intro h earlier later s hrun hnot
    refine ⟨?_, delivered_at_end hrun⟩
    obtain hdone | ⟨⟨e, hfailed⟩, hscript⟩ := h
    · exact hdone
    · obtain ⟨t, t', before, hend, _⟩ := hrun.split_at
      exact absurd hend (ended_not_of_failed hfailed hscript hnot before)

/-- The provider writes one byte of its output and panics. -/
def interrupted : Behaviour := { script := [.write [1]], ending := .panicked }

theorem not_truthful_interrupted : ¬Truthful [] interrupted := by
  intro h
  obtain ⟨earlier, s, hrun, hnot⟩ :=
    exists_run_ended [] (show interrupted.ending = .panicked ∨ _ from .inl rfl)
  have hdone := (h hrun hnot).1
  cases hdone

/-- Read to its end once the task is done, the stream is what `DecryptRun.reader` says. -/
theorem reader_of_done {behaviour : Behaviour} (h : Runs key behaviour events s)
    (hnot : ∀ err, .failed err ∉ events) (htask : s.task = .done)
    (hstep : Step key behaviour.ending s e t) (hlast : e = .ended ∨ ∃ err, e = .failed err) :
    delivered events = ((DecryptRun.mk (written events) behaviour.ending).reader key).bytes ∧
      e = (((DecryptRun.mk (written events) behaviour.ending).reader key).failure).elim
        .ended .failed := by
  have hsettled : Settled s :=
    h.invariant Settled (fun _ _ _ hs hstep => hs.step hstep) nofun
  have hslot := (slotted_of_run h (slotted_start behaviour) hnot).slot
  have hread : written events = delivered events ++ s.buffer := written_eq h
  rw [htask] at hslot
  cases hstep with
  | surface reader slot =>
      rw [(hsettled reader).2, List.append_nil] at hread
      refine ⟨hread.symm, ?_⟩
      rw [slot] at hslot
      cases hending : behaviour.ending with
      | failed err => rfl
      | done =>
          rw [hending] at hslot
          cases hslot
      | panicked =>
          rw [hending] at hslot
          cases hslot
  | finish reader slot =>
      rw [(hsettled reader).2, List.append_nil] at hread
      refine ⟨hread.symm, ?_⟩
      rw [slot] at hslot
      cases hending : behaviour.ending with
      | failed err =>
          rw [hending] at hslot
          cases hslot
      | done => rfl
      | panicked => rfl
  | _ => simp at hlast

end DecryptPipe

end BlobStorage
