import BlobStorage.Library.Ownership
import BlobStorage.Library.Transition

/-!
# Background maintenance

`do_build`, `spawn_tasks` and the life of the store they make, as steps of one system: the
thread that builds, the owners of handles, the loops of the strategies, and the worker. A
strategy is user code, so that its loop may send whenever it holds its context, may leave its
context in other threads, and need not listen to the cancellation.

The stores are a chain of reference-counted objects: the backend is object `0`, layer `i` is
object `i + 1`, and the shutdown guard owns the topmost. A task refers weakly to its layer, and
holds it while its body runs. No body panics: nothing would catch it, and the worker would end.
-/

namespace BlobStorage

namespace Maintenance

/-- `LayerKind`, as far as it decides which layers ask for maintenance. -/
inductive LayerKind where
  | keyPrefix
  | encryption (hasRekeyStrategy : Bool)
  | cleanup (hasStrategy : Bool)
  | custom
  deriving DecidableEq, Repr

/-- The tasks that `LayerKind::wrap` returns for the layer that becomes object `i`, each of
which is known by that object. -/
def LayerKind.tasks (i : Nat) : LayerKind → List Nat
  | .keyPrefix => []
  | .encryption hasRekeyStrategy => if hasRekeyStrategy then [i] else []
  | .cleanup hasStrategy => if hasStrategy then [i] else []
  | .custom => []

/-- The tasks that the loop of `do_build` collects, where the next layer becomes object `i`. -/
def collectTasks : Nat → List LayerKind → List Nat
  | _, [] => []
  | i, layer :: layers => layer.tasks i ++ collectTasks (i + 1) layers

/-- Where `do_build` is: between two strategies, inside `schedule` of one, or past them. -/
inductive Phase where
  | scheduling (rest : List Nat)
  | calling (rest : List Nat)
  | built
  | failed
  deriving DecidableEq, Repr

/-- The thread that gives up the last handle: `Drop` of the guard cancels the token, then the
guard's own reference goes, and those of the layers that die with it. -/
inductive Dropping where
  | not
  | cancelling
  | releasing (i : Nat)
  | finished
  deriving DecidableEq, Repr

/-- The worker has received a task, whose body it polls for the first time next; runs the body,
which holds its layer; or gives the layer up at the end of the body. -/
inductive Worker where
  | idle
  | received (i : Nat)
  | running (i : Nat)
  | releasing (i : Nat)
  | stopped
  deriving DecidableEq, Repr

structure State where
  phase : Phase
  /-- The strong count of the guard. -/
  handles : Nat
  cancelled : Bool
  /-- The strong counts of the stores. -/
  strong : Nat → Nat
  dropping : Dropping
  /-- The contexts that strategies hold, each known by its task. -/
  contexts : List Nat
  queue : List Nat
  /-- The tasks whose senders wait for a free slot. -/
  blocked : List Nat
  worker : Worker

/-- The number of slots of the queue. -/
def queueCapacity : Nat := 16

/-- The state after the loop over the layers, with the guard made and the worker spawned. -/
def start (layers : List LayerKind) : State where
  phase := .scheduling (collectTasks 1 layers)
  handles := 1
  cancelled := false
  strong i := if i ≤ layers.length then 1 else 0
  dropping := .not
  contexts := []
  queue := []
  blocked := []
  worker := if collectTasks 1 layers = [] then .stopped else .idle

/-- A thread gives up a reference to object `i`. -/
def decrement (strong : Nat → Nat) (i : Nat) : Nat → Nat :=
  Function.update strong i (strong i - 1)

/-- The reference that dies with object `i`, where the one given up was its last. -/
def ownedBelow (strong : Nat → Nat) (i : Nat) : Option Nat :=
  if strong i = 1 ∧ i ≠ 0 then some (i - 1) else none

def Dropping.next : Option Nat → Dropping
  | some i => .releasing i
  | none => .finished

def Worker.next : Option Nat → Worker
  | some i => .releasing i
  | none => .idle

inductive Event where
  /-- `do_build` hands a context to the strategy of the next task, and comes out of `schedule`
  with `Ok` or with `Err`. -/
  | schedule (i : Nat)
  | scheduled
  | scheduleFailed
  | built
  | cloneHandle
  | dropHandle
  | dropLastHandle
  | cancel
  | release (i : Nat)
  | cloneContext (i : Nat)
  | dropContext (i : Nat)
  | send (i : Nat)
  | block (i : Nat)
  | unblock (i : Nat)
  /-- A blocked sender gives up, for instance because its strategy was cancelled. -/
  | giveUp (i : Nat)
  | receive (i : Nat)
  /-- The body of a task starts, or the task finds its store gone. -/
  | start (i : Nat)
  | skip (i : Nat)
  | finish (i : Nat)
  | releaseBody (i : Nat)
  | stopCancelled
  | stopClosed
  deriving DecidableEq, Repr

/-- One step of one of the threads, over a chain whose topmost object is `top`. -/
inductive Step (top : Nat) : State → Event → State → Prop where
  | schedule {s : State} {i : Nat} {rest : List Nat} (phase : s.phase = .scheduling (i :: rest)) :
      Step top s (.schedule i) { s with phase := .calling rest, contexts := i :: s.contexts }
  | scheduled {s : State} {rest : List Nat} (phase : s.phase = .calling rest) :
      Step top s .scheduled { s with phase := .scheduling rest }
  -- The guard is a local of `do_build`, and dropped before it returns the error.
  | scheduleFailed {s : State} {rest : List Nat} (phase : s.phase = .calling rest) :
      Step top s .scheduleFailed { s with phase := .failed, handles := 0, dropping := .cancelling }
  | built {s : State} (phase : s.phase = .scheduling []) :
      Step top s .built { s with phase := .built }
  | cloneHandle {s : State} (phase : s.phase = .built) (handles : 0 < s.handles) :
      Step top s .cloneHandle { s with handles := s.handles + 1 }
  | dropHandle {s : State} (phase : s.phase = .built) (handles : 1 < s.handles) :
      Step top s .dropHandle { s with handles := s.handles - 1 }
  | dropLastHandle {s : State} (phase : s.phase = .built) (handles : s.handles = 1) :
      Step top s .dropLastHandle { s with handles := 0, dropping := .cancelling }
  | cancel {s : State} (dropping : s.dropping = .cancelling) :
      Step top s .cancel { s with cancelled := true, dropping := .releasing top }
  | release {s : State} {i : Nat} (dropping : s.dropping = .releasing i) :
      Step top s (.release i) { s with
        strong := decrement s.strong i
        dropping := .next (ownedBelow s.strong i) }
  | cloneContext {s : State} {i : Nat} (context : i ∈ s.contexts) :
      Step top s (.cloneContext i) { s with contexts := i :: s.contexts }
  | dropContext {s : State} {i : Nat} (context : i ∈ s.contexts) :
      Step top s (.dropContext i) { s with contexts := s.contexts.erase i }
  | send {s : State} {i : Nat} (context : i ∈ s.contexts) (open_ : s.worker ≠ .stopped)
      (room : s.queue.length < queueCapacity) :
      Step top s (.send i) { s with queue := s.queue ++ [i] }
  | block {s : State} {i : Nat} (context : i ∈ s.contexts) (open_ : s.worker ≠ .stopped)
      (full : queueCapacity ≤ s.queue.length) :
      Step top s (.block i) { s with blocked := s.blocked ++ [i] }
  | unblock {s : State} {i : Nat} (waits : i ∈ s.blocked) (open_ : s.worker ≠ .stopped)
      (room : s.queue.length < queueCapacity) :
      Step top s (.unblock i) { s with queue := s.queue ++ [i], blocked := s.blocked.erase i }
  | giveUp {s : State} {i : Nat} (waits : i ∈ s.blocked) :
      Step top s (.giveUp i) { s with blocked := s.blocked.erase i }
  | receive {s : State} {i : Nat} {rest : List Nat} (worker : s.worker = .idle)
      (queue : s.queue = i :: rest) :
      Step top s (.receive i) { s with queue := rest, worker := .received i }
  | start {s : State} {i : Nat} (worker : s.worker = .received i) (alive : 0 < s.strong i) :
      Step top s (.start i) { s with
        strong := Function.update s.strong i (s.strong i + 1)
        worker := .running i }
  | skip {s : State} {i : Nat} (worker : s.worker = .received i) (gone : s.strong i = 0) :
      Step top s (.skip i) { s with worker := .idle }
  | finish {s : State} {i : Nat} (worker : s.worker = .running i) :
      Step top s (.finish i) { s with worker := .releasing i }
  | releaseBody {s : State} {i : Nat} (worker : s.worker = .releasing i) :
      Step top s (.releaseBody i) { s with
        strong := decrement s.strong i
        worker := .next (ownedBelow s.strong i) }
  -- `select!` may take the next task instead, as long as there is one.
  | stopCancelled {s : State} (worker : s.worker = .idle) (cancelled : s.cancelled = true) :
      Step top s .stopCancelled { s with queue := [], worker := .stopped }
  | stopClosed {s : State} (worker : s.worker = .idle) (queue : s.queue = [])
      (contexts : s.contexts = []) (blocked : s.blocked = [])
      (phase : s.phase = .built ∨ s.phase = .failed) :
      Step top s .stopClosed { s with worker := .stopped }

/-- The last handle to the built store has been dropped. -/
def StoreDropped (s : State) : Prop :=
  s.phase = .built ∧ s.handles = 0 ∧ s.dropping = .finished

/-- `do_build` has returned the error of a `schedule`. -/
def BuildFailed (s : State) : Prop := s.phase = .failed ∧ s.dropping = .finished

end Maintenance

end BlobStorage
