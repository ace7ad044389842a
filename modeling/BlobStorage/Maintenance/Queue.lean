import BlobStorage.Maintenance.Shutdown

/-!
# The queue of maintenance tasks

What the worker makes of the tasks that the strategies send, over whole runs: it takes them in
the order in which they entered the queue, one at a time, and while the store has a handle it
starts every one of them.
-/

namespace BlobStorage

namespace Maintenance

open Transition Ownership

namespace Event

/-- The task that enters the queue. -/
def enqueued : Event → Option Nat
  | .send i => some i
  | .unblock i => some i
  | _ => none

/-- The task that is taken up, for its body or because its store is gone. -/
def taken : Event → Option Nat
  | .start i => some i
  | .skip i => some i
  | _ => none

def started : Event → Option Nat
  | .start i => some i
  | _ => none

def finished : Event → Option Nat
  | .finish i => some i
  | _ => none

end Event

/-- The task that the worker has received and not yet taken up. -/
def Worker.pending : Worker → List Nat
  | .received i => [i]
  | _ => []

/-- The task whose body runs. -/
def Worker.body : Worker → List Nat
  | .running i => [i]
  | _ => []

/-- The tasks that the worker has before it. -/
def State.waiting (s : State) : List Nat := s.worker.pending ++ s.queue

theorem Worker.pending_next (below : Option Nat) : (Worker.next below).pending = [] := by
  cases below <;> rfl

theorem Worker.body_next (below : Option Nat) : (Worker.next below).body = [] := by
  cases below <;> rfl

theorem Worker.next_ne_stopped (below : Option Nat) : Worker.next below ≠ .stopped := by
  cases below <;> simp [Worker.next]

/-- What is known of the tasks after a history. -/
structure InOrder (history : List Event) (s : State) : Prop where
  order : history.filterMap Event.taken ++ s.worker.pending <+: history.filterMap Event.enqueued
  kept : s.worker ≠ .stopped →
    history.filterMap Event.enqueued = history.filterMap Event.taken ++ s.waiting
  bounded : s.queue.length ≤ queueCapacity
  oneByOne : history.filterMap Event.started =
    history.filterMap Event.finished ++ s.worker.body

section Order

variable {top : Nat} {history : List Event} {s t : State} {e : Event}

theorem filterMap_concat (f : Event → Option Nat) (history : List Event) (e : Event) :
    (history ++ [e]).filterMap f = history.filterMap f ++ (f e).toList := by
  rw [List.filterMap_append]
  cases h : f e <;> simp [h]

/-- A step that moves no task, of a worker that has none to take up or to finish either before
or after it, or else is left alone. -/
theorem InOrder.renewed (h : InOrder history s) (henqueued : e.enqueued = none)
    (htaken : e.taken = none) (hstarted : e.started = none) (hfinished : e.finished = none)
    (hpending : t.worker.pending = s.worker.pending) (hbody : t.worker.body = s.worker.body)
    (hopen : t.worker ≠ .stopped → s.worker ≠ .stopped) (hqueue : t.queue = s.queue) :
    InOrder (history ++ [e]) t := by
  have hwaiting : t.waiting = s.waiting := by
    rw [State.waiting, State.waiting, hpending, hqueue]
  constructor
  · rw [filterMap_concat, filterMap_concat, henqueued, htaken, hpending, Option.toList_none,
      List.append_nil, List.append_nil]
    exact h.order
  · intro hworker
    rw [filterMap_concat, filterMap_concat, henqueued, htaken, hwaiting, Option.toList_none,
      List.append_nil, List.append_nil]
    exact h.kept (hopen hworker)
  · rw [hqueue]
    exact h.bounded
  · rw [filterMap_concat, filterMap_concat, hstarted, hfinished, hbody, Option.toList_none,
      List.append_nil, List.append_nil]
    exact h.oneByOne

/-- A task enters the queue, behind those that are there. -/
theorem InOrder.enqueue (h : InOrder history s) {i : Nat} (henqueued : e.enqueued = some i)
    (htaken : e.taken = none) (hstarted : e.started = none) (hfinished : e.finished = none)
    (hworker : t.worker = s.worker) (hqueue : t.queue = s.queue ++ [i])
    (hopen : s.worker ≠ .stopped) (hroom : s.queue.length < queueCapacity) :
    InOrder (history ++ [e]) t := by
  constructor
  · rw [filterMap_concat, filterMap_concat, henqueued, htaken, hworker, Option.toList_none,
      List.append_nil]
    exact h.order.trans (List.prefix_append _ _)
  · intro _
    rw [filterMap_concat, filterMap_concat, henqueued, htaken, Option.toList_none,
      List.append_nil, h.kept hopen, State.waiting, State.waiting, hworker, hqueue,
      List.append_assoc, List.append_assoc]
    rfl
  · rw [hqueue, List.length_append]
    exact hroom
  · rw [filterMap_concat, filterMap_concat, hstarted, hfinished, hworker, Option.toList_none,
      List.append_nil, List.append_nil]
    exact h.oneByOne

/-- The worker takes up the task that it has received. -/
theorem InOrder.take (h : InOrder history s) {i : Nat} (henqueued : e.enqueued = none)
    (htaken : e.taken = some i) (hfinished : e.finished = none)
    (hbody : t.worker.body = e.started.toList) (hworker : s.worker = .received i)
    (hpending : t.worker.pending = []) (hqueue : t.queue = s.queue) :
    InOrder (history ++ [e]) t := by
  have hkept : history.filterMap Event.enqueued =
      history.filterMap Event.taken ++ [i] ++ s.queue := by
    rw [h.kept (by simp [hworker]), State.waiting, hworker, List.append_assoc]
    rfl
  constructor
  · rw [filterMap_concat, filterMap_concat, henqueued, htaken, hpending, hkept]
    simp
  · intro _
    rw [filterMap_concat, filterMap_concat, henqueued, htaken, State.waiting, hpending, hqueue,
      hkept]
    simp
  · rw [hqueue]
    exact h.bounded
  · rw [filterMap_concat, filterMap_concat, hfinished, hbody, h.oneByOne, hworker]
    simp [Worker.body]

/-- The worker stops between two tasks. -/
theorem InOrder.stop (h : InOrder history s) (henqueued : e.enqueued = none)
    (htaken : e.taken = none) (hstarted : e.started = none) (hfinished : e.finished = none)
    (hidle : s.worker = .idle) (hworker : t.worker = .stopped)
    (hqueue : t.queue.length ≤ s.queue.length) : InOrder (history ++ [e]) t := by
  have horder := h.order
  have honeByOne := h.oneByOne
  rw [hidle] at horder honeByOne
  constructor
  · rw [filterMap_concat, filterMap_concat, henqueued, htaken, hworker, Option.toList_none,
      List.append_nil, List.append_nil]
    exact horder
  · exact fun hopen => absurd hworker hopen
  · exact Nat.le_trans hqueue h.bounded
  · rw [filterMap_concat, filterMap_concat, hstarted, hfinished, hworker, Option.toList_none,
      List.append_nil, List.append_nil]
    exact honeByOne

/-- Every step keeps the tasks in order. -/
theorem InOrder.step (h : InOrder history s) (hstep : Step top s e t) :
    InOrder (history ++ [e]) t := by
  cases hstep with
  | send context open_ room => exact h.enqueue rfl rfl rfl rfl rfl rfl open_ room
  | unblock waits open_ room => exact h.enqueue rfl rfl rfl rfl rfl rfl open_ room
  | @receive i rest worker queue =>
      have hkept := h.kept (by simp [worker])
      have hbounded := h.bounded
      have honeByOne := h.oneByOne
      rw [State.waiting, worker, queue] at hkept
      rw [queue, List.length_cons] at hbounded
      rw [worker] at honeByOne
      constructor
      · rw [filterMap_concat, filterMap_concat, hkept]
        exact ⟨rest, by simp [Event.enqueued, Event.taken, Worker.pending]⟩
      · intro _
        rw [filterMap_concat, filterMap_concat, hkept]
        simp [Event.enqueued, Event.taken, State.waiting, Worker.pending]
      · exact Nat.le_of_succ_le hbounded
      · rw [filterMap_concat, filterMap_concat, honeByOne]
        simp [Event.started, Event.finished, Worker.body]
  | start worker alive => exact h.take rfl rfl rfl rfl worker rfl rfl
  | skip worker gone => exact h.take rfl rfl rfl rfl worker rfl rfl
  | @finish i worker =>
      have horder := h.order
      have hkept := h.kept (by simp [worker])
      have honeByOne := h.oneByOne
      rw [State.waiting, worker] at hkept
      rw [worker] at horder honeByOne
      constructor
      · rw [filterMap_concat, filterMap_concat]
        simpa [Event.enqueued, Event.taken, Worker.pending] using horder
      · intro _
        rw [filterMap_concat, filterMap_concat, hkept]
        simp [Event.enqueued, Event.taken, State.waiting, Worker.pending]
      · exact h.bounded
      · rw [filterMap_concat, filterMap_concat, honeByOne]
        simp [Event.started, Event.finished, Worker.body]
  | releaseBody worker =>
      refine h.renewed rfl rfl rfl rfl ?_ ?_ (fun _ => by simp [worker]) rfl
      · rw [worker]
        exact Worker.pending_next _
      · rw [worker]
        exact Worker.body_next _
  | stopCancelled worker cancelled => exact h.stop rfl rfl rfl rfl worker rfl (Nat.zero_le _)
  | stopClosed worker queue contexts blocked phase =>
      exact h.stop rfl rfl rfl rfl worker rfl (Nat.le_refl _)
  | _ => exact h.renewed rfl rfl rfl rfl rfl rfl id rfl

end Order

/-- In every run, the tasks are taken up in the order in which they entered the queue, none of
them twice; none is lost until the worker stops; the queue never has more than its slots; and a
body starts when the one before it has finished. -/
theorem tasks_run_in_order (layers : List LayerKind) {history : List Event} {s : State}
    (h : Run (Step layers.length) (start layers) history s) :
    history.filterMap Event.taken <+: history.filterMap Event.enqueued ∧
      (s.worker ≠ .stopped →
        history.filterMap Event.enqueued = history.filterMap Event.taken ++ s.waiting) ∧
      s.queue.length ≤ queueCapacity ∧
      history.filterMap Event.started = history.filterMap Event.finished ++ s.worker.body := by
  have horder : InOrder history s := by
    refine h.history InOrder (fun _ _ _ _ => InOrder.step) ?_
    constructor
    · unfold start
      dsimp only
      split <;> exact List.nil_prefix
    · intro hworker
      unfold start at hworker ⊢
      dsimp only at hworker
      unfold State.waiting
      dsimp only
      split
      · next hnil => exact absurd (if_pos hnil) hworker
      · rfl
    · exact Nat.zero_le _
    · unfold start
      dsimp only
      split <;> rfl
  exact ⟨(List.prefix_append _ _).trans horder.order, horder.kept, horder.bounded,
    horder.oneByOne⟩

/-- Two tasks of a cleanup layer are sent, and the body of the first one runs. -/
def sampleEvents : List Event :=
  [.schedule 1, .scheduled, .built, .send 1, .send 1, .receive 1, .start 1]

theorem sample_run :
    ∃ s, Run (Step 1) (start [.cleanup true]) sampleEvents s ∧ s.worker = .running 1 ∧
      s.queue = [1] ∧ 0 < s.handles := by
  refine ⟨_, .head (.schedule rfl) <| .head (.scheduled rfl) <| .head (.built rfl) <|
    .head (.send (List.mem_singleton_self 1) (by decide) (by decide)) <|
    .head (.send (List.mem_singleton_self 1) (by decide) (by decide)) <|
    .head (.receive rfl rfl) <| .single (.start rfl (by decide)), rfl, rfl, ?_⟩
  exact Nat.one_pos

theorem tasks_run_in_order_sample :
    ∃ s, Run (Step 1) (start [.cleanup true]) sampleEvents s ∧ s.worker ≠ .stopped ∧
      sampleEvents.filterMap Event.taken <+: sampleEvents.filterMap Event.enqueued ∧
      (s.worker ≠ .stopped →
        sampleEvents.filterMap Event.enqueued =
          sampleEvents.filterMap Event.taken ++ s.waiting) ∧
      s.queue.length ≤ queueCapacity ∧
      sampleEvents.filterMap Event.started =
        sampleEvents.filterMap Event.finished ++ s.worker.body := by
  obtain ⟨s, hrun, hworker, _⟩ := sample_run
  exact ⟨s, hrun, by simp [hworker], tasks_run_in_order [.cleanup true] hrun⟩

section InUse

/-- The tasks that `do_build` has not come to yet. -/
def Phase.rest : Phase → List Nat
  | .scheduling rest => rest
  | .calling rest => rest
  | _ => []

/-- The task that the worker has to do with. -/
def Worker.task : Worker → List Nat
  | .received i => [i]
  | .running i => [i]
  | _ => []

/-- Every task that is named anywhere is one of the builder's. -/
structure Known (tasks : List Nat) (s : State) : Prop where
  phase : ∀ i ∈ s.phase.rest, i ∈ tasks
  contexts : ∀ i ∈ s.contexts, i ∈ tasks
  blocked : ∀ i ∈ s.blocked, i ∈ tasks
  queue : ∀ i ∈ s.queue, i ∈ tasks
  worker : ∀ i ∈ s.worker.task, i ∈ tasks

theorem Worker.task_next (below : Option Nat) : (Worker.next below).task = [] := by
  cases below <;> rfl

variable {top : Nat} {tasks : List Nat} {history : List Event} {s t : State} {e : Event}

theorem Known.step (h : Known tasks s) (hstep : Step top s e t) : Known tasks t := by
  obtain ⟨hphase, hcontexts, hblocked, hqueue, hworker⟩ := h
  cases hstep with
  | @schedule i rest phase =>
      rw [phase, Phase.rest, List.forall_mem_cons] at hphase
      exact ⟨hphase.2, List.forall_mem_cons.mpr ⟨hphase.1, hcontexts⟩, hblocked, hqueue, hworker⟩
  | scheduled phase =>
      rw [phase] at hphase
      exact ⟨hphase, hcontexts, hblocked, hqueue, hworker⟩
  | scheduleFailed phase => exact ⟨List.forall_mem_nil _, hcontexts, hblocked, hqueue, hworker⟩
  | built phase => exact ⟨List.forall_mem_nil _, hcontexts, hblocked, hqueue, hworker⟩
  | cloneContext context =>
      refine ⟨hphase, ?_, hblocked, hqueue, hworker⟩
      exact List.forall_mem_cons.mpr ⟨hcontexts _ context, hcontexts⟩
  | dropContext context =>
      exact ⟨hphase, fun j hj => hcontexts j (List.mem_of_mem_erase hj), hblocked, hqueue,
        hworker⟩
  | send context open_ room =>
      refine ⟨hphase, hcontexts, hblocked, ?_, hworker⟩
      exact List.forall_mem_append.mpr ⟨hqueue, List.forall_mem_singleton.mpr
        (hcontexts _ context)⟩
  | block context open_ full =>
      refine ⟨hphase, hcontexts, ?_, hqueue, hworker⟩
      exact List.forall_mem_append.mpr ⟨hblocked, List.forall_mem_singleton.mpr
        (hcontexts _ context)⟩
  | unblock waits open_ room =>
      refine ⟨hphase, hcontexts, fun j hj => hblocked j (List.mem_of_mem_erase hj), ?_, hworker⟩
      exact List.forall_mem_append.mpr ⟨hqueue, List.forall_mem_singleton.mpr (hblocked _ waits)⟩
  | giveUp waits =>
      exact ⟨hphase, hcontexts, fun j hj => hblocked j (List.mem_of_mem_erase hj), hqueue,
        hworker⟩
  | receive worker queue =>
      rw [queue, List.forall_mem_cons] at hqueue
      exact ⟨hphase, hcontexts, hblocked, hqueue.2, List.forall_mem_singleton.mpr hqueue.1⟩
  | start worker alive =>
      rw [worker] at hworker
      exact ⟨hphase, hcontexts, hblocked, hqueue, hworker⟩
  | releaseBody worker =>
      refine ⟨hphase, hcontexts, hblocked, hqueue, fun i hi => ?_⟩
      have hnone : i ∈ (Worker.next _).task := hi
      rw [Worker.task_next] at hnone
      cases hnone
  | stopCancelled worker cancelled =>
      exact ⟨hphase, hcontexts, hblocked, List.forall_mem_nil _, List.forall_mem_nil _⟩
  | skip worker gone => exact ⟨hphase, hcontexts, hblocked, hqueue, List.forall_mem_nil _⟩
  | finish worker => exact ⟨hphase, hcontexts, hblocked, hqueue, List.forall_mem_nil _⟩
  | stopClosed worker queue contexts blocked phase =>
      exact ⟨hphase, hcontexts, hblocked, hqueue, List.forall_mem_nil _⟩
  | _ => exact ⟨hphase, hcontexts, hblocked, hqueue, hworker⟩

/-- The tasks are known by the objects above the backend. -/
theorem mem_collectTasks_le {layers : List LayerKind} {first i : Nat}
    (h : i ∈ collectTasks first layers) : first ≤ i ∧ i < first + layers.length := by
  induction layers generalizing first with
  | nil => cases h
  | cons layer layers ih =>
      rw [collectTasks, List.mem_append] at h
      obtain hlayer | hrest := h
      · have hfirst : i = first := by
          cases layer <;> simp_all [LayerKind.tasks]
        rw [List.length_cons]
        omega
      · have hbounds := ih hrest
        rw [List.length_cons]
        omega

/-- A layer is alive as long as the store has a handle. -/
theorem Sound.alive (h : Sound top s) (hdropping : s.dropping = .not) {i : Nat} (hi : i ≤ top) :
    0 < s.strong i := by
  have hbalanced := h.balanced
  rw [hdropping] at hbalanced
  exact hbalanced.alive_of_owned hi

/-- The token is cancelled when the guard goes, and not before. -/
def CancelledByGuard (s : State) : Prop :=
  s.cancelled = true → s.dropping ≠ .not ∧ s.dropping ≠ .cancelling

theorem CancelledByGuard.step (hsound : Sound top s) (h : CancelledByGuard s)
    (hstep : Step top s e t) : CancelledByGuard t := by
  cases hstep with
  | scheduleFailed phase =>
      intro hcancelled
      exact absurd (hsound.early ⟨_, .inr phase⟩) (h hcancelled).1
  | dropLastHandle phase handles =>
      intro hcancelled
      exact absurd (hsound.handles.mp (by omega)) (h hcancelled).1
  | cancel dropping => exact fun _ => ⟨by simp, by simp⟩
  | @release i dropping =>
      refine fun _ => ⟨Dropping.next_ne_not _, ?_⟩
      change Dropping.next _ ≠ _
      cases ownedBelow s.strong i <;> simp [Dropping.next]
  | _ => exact h

/-- A worker that has stopped has left nothing in the queue, and nothing enters it any more. -/
theorem drained_step (h : s.worker = .stopped → s.queue = []) (hstep : Step top s e t) :
    t.worker = .stopped → t.queue = [] := by
  cases hstep with
  | send context open_ room => exact fun hstopped => absurd hstopped open_
  | unblock waits open_ room => exact fun hstopped => absurd hstopped open_
  | releaseBody worker => exact fun hstopped => absurd hstopped (Worker.next_ne_stopped _)
  | receive worker queue => exact fun hstopped => by cases hstopped
  | start worker alive => exact fun hstopped => by cases hstopped
  | skip worker gone => exact fun hstopped => by cases hstopped
  | finish worker => exact fun hstopped => by cases hstopped
  | stopCancelled worker cancelled => exact fun _ => rfl
  | stopClosed worker queue contexts blocked phase => exact fun _ => queue
  | _ => exact h

/-- What is known while the store has a handle: each task that entered the queue was started or
still waits. -/
structure InUse (tasks : List Nat) (top : Nat) (history : List Event) (s : State) : Prop where
  sound : Sound top s
  known : Known tasks s
  uncancelled : CancelledByGuard s
  started : s.dropping = .not →
    history.filterMap Event.enqueued = history.filterMap Event.started ++ s.waiting

theorem InUse.step (hlow : ∀ i ∈ tasks, i ≤ top) (h : InUse tasks top history s)
    (hstep : Step top s e t) : InUse tasks top (history ++ [e]) t := by
  refine ⟨h.sound.step hstep, h.known.step hstep, h.uncancelled.step h.sound hstep, ?_⟩
  have hstarted := h.started
  rw [filterMap_concat, filterMap_concat]
  cases hstep with
  | scheduleFailed phase =>
      intro hdropping
      cases hdropping
  | dropLastHandle phase handles =>
      intro hdropping
      cases hdropping
  | cancel dropping =>
      intro hdropping
      cases hdropping
  | release dropping =>
      intro hdropping
      exact absurd hdropping (Dropping.next_ne_not _)
  | send context open_ room =>
      intro hdropping
      rw [hstarted hdropping]
      simp [Event.enqueued, Event.started, State.waiting]
  | unblock waits open_ room =>
      intro hdropping
      rw [hstarted hdropping]
      simp [Event.enqueued, Event.started, State.waiting]
  | receive worker queue =>
      intro hdropping
      rw [hstarted hdropping, State.waiting, worker, queue]
      simp [Event.enqueued, Event.started, State.waiting, Worker.pending]
  | start worker alive =>
      intro hdropping
      rw [hstarted hdropping, State.waiting, worker]
      simp [Event.enqueued, Event.started, State.waiting, Worker.pending]
  | @skip i worker gone =>
      -- The store that the task refers to is there.
      intro hdropping
      have hknown := h.known.worker i (by rw [worker]; exact List.mem_singleton_self i)
      have halive := h.sound.alive hdropping (hlow i hknown)
      omega
  | finish worker =>
      intro hdropping
      rw [hstarted hdropping, State.waiting, worker]
      simp [Event.enqueued, Event.started, State.waiting, Worker.pending]
  | releaseBody worker =>
      intro hdropping
      rw [hstarted hdropping, State.waiting, State.waiting, Worker.pending_next, worker]
      simp [Event.enqueued, Event.started, Worker.pending]
  | stopCancelled worker cancelled =>
      intro hdropping
      exact absurd hdropping (h.uncancelled cancelled).1
  | stopClosed worker queue contexts blocked phase =>
      intro hdropping
      rw [hstarted hdropping, State.waiting, State.waiting, worker]
      simp [Event.enqueued, Event.started, Worker.pending]
  | _ =>
      intro hdropping
      change _ ++ [] = _ ++ [] ++ s.waiting
      rw [List.append_nil, List.append_nil]
      exact hstarted hdropping

end InUse

theorem known_start (layers : List LayerKind) :
    Known (collectTasks 1 layers) (start layers) := by
  refine ⟨fun _ hi => hi, List.forall_mem_nil _, List.forall_mem_nil _, List.forall_mem_nil _, ?_⟩
  unfold start
  dsimp only
  split <;> exact List.forall_mem_nil _

theorem le_of_mem_collectTasks {layers : List LayerKind} {i : Nat}
    (hi : i ∈ collectTasks 1 layers) : i ≤ layers.length := by
  have hbounds := mem_collectTasks_le hi
  omega

theorem inUse_of_run {layers : List LayerKind} {history : List Event} {s : State}
    (h : Run (Step layers.length) (start layers) history s) :
    InUse (collectTasks 1 layers) layers.length history s := by
  refine h.history (InUse _ _)
    (fun _ _ _ _ => InUse.step fun _ => le_of_mem_collectTasks)
    ⟨sound_start layers, known_start layers, ?_, ?_⟩
  · intro hcancelled
    cases hcancelled
  · intro _
    unfold State.waiting start
    dsimp only
    split <;> rfl

/-- As long as the store has a handle, no task is passed over: each one that entered the queue
was started, or still waits. And whenever a body runs, its layer and everything below it are
there. -/
theorem tasks_run_while_in_use (layers : List LayerKind) {history : List Event} {s : State}
    (h : Run (Step layers.length) (start layers) history s) :
    (0 < s.handles →
        history.filterMap Event.enqueued = history.filterMap Event.started ++ s.waiting) ∧
      ∀ i, s.worker = .running i → i ∈ collectTasks 1 layers ∧ ∀ j ≤ i, 0 < s.strong j := by
  have hinUse := inUse_of_run h
  refine ⟨fun hhandles => hinUse.started (hinUse.sound.handles.mp hhandles), fun i hrunning => ?_⟩
  refine ⟨hinUse.known.worker i (by rw [hrunning]; exact List.mem_singleton_self i), ?_⟩
  have hbalanced := hinUse.sound.balanced
  rw [hrunning] at hbalanced
  have halive := hbalanced.pos_of_mem (List.mem_append_right _ (List.mem_singleton_self i))
  exact fun j hj => hbalanced.alive_below halive hj

theorem tasks_run_while_in_use_sample :
    ∃ s, Run (Step 1) (start [.cleanup true]) sampleEvents s ∧ 0 < s.handles ∧
      s.worker = .running 1 ∧
      (0 < s.handles → sampleEvents.filterMap Event.enqueued =
        sampleEvents.filterMap Event.started ++ s.waiting) ∧
      ∀ i, s.worker = .running i →
        i ∈ collectTasks 1 [.cleanup true] ∧ ∀ j ≤ i, 0 < s.strong j := by
  obtain ⟨s, hrun, hworker, _, hhandles⟩ := sample_run
  exact ⟨s, hrun, hhandles, hworker, tasks_run_while_in_use [.cleanup true] hrun⟩

end Maintenance

end BlobStorage
