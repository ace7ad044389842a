import BlobStorage.Library.Fallible
import Mathlib.Data.List.Basic
import Mathlib.Data.List.Induction
import Mathlib.Logic.Function.Basic

/-!
# Programs that make requests

A program is the tree of the requests it makes and what it does with each response.
It is a monad, so code written over any monad of effects can be run as a program:
request by request, with other programs taking their turns in between.

`Path` is what one program can have exchanged so far, `Runs` the interleavings of a
pool of programs under a service that answers in the light of the whole history.
`Runs.path` projects an interleaving to what each thread saw: together with the
history it is all that a proof about a pool has to look at.
-/

inductive Program {Q : Type} (R : Q → Type) (α : Type) where
  | done (a : α)
  | request (q : Q) (next : R q → Program R α)

namespace Program

variable {Q : Type} {R : Q → Type} {α β ε : Type}

def bind (x : Program R α) (f : α → Program R β) : Program R β :=
  match x with
  | .done a => f a
  | .request q next => .request q fun r => (next r).bind f

instance : Monad (Program R) where
  pure := .done
  bind := bind

/-- A single request. -/
def ask (q : Q) : Program R (R q) := .request q .done

@[simp] theorem pure_eq (a : α) : (pure a : Program R α) = .done a := rfl

@[simp] theorem done_bind (a : α) (f : α → Program R β) : (.done a >>= f) = f a := rfl

@[simp] theorem request_bind (q : Q) (next : R q → Program R α) (f : α → Program R β) :
    (.request q next >>= f) = .request q fun r => next r >>= f := rfl

@[simp] theorem ask_bind (q : Q) (f : R q → Program R β) : (ask q >>= f) = .request q f := rfl

theorem bind_done (x : Program R α) : (x >>= .done) = x := by
  induction x with
  | done a => rfl
  | request q next ih => exact congrArg (Program.request q) (funext ih)

theorem bind_assoc {γ : Type} (x : Program R α) (f : α → Program R β) (g : β → Program R γ) :
    (x >>= f >>= g) = x >>= fun a => f a >>= g := by
  induction x with
  | done a => rfl
  | request q next ih => exact congrArg (Program.request q) (funext ih)

/-- One request with the response it got. -/
structure Exchange {Q : Type} (R : Q → Type) where
  request : Q
  response : R request

/-- `Path x es y`: after the exchanges `es`, what is left of `x` is `y`. -/
inductive Path : Program R α → List (Exchange R) → Program R α → Prop where
  | nil (x : Program R α) : Path x [] x
  | cons {q : Q} {next : R q → Program R α} {es : List (Exchange R)} {y : Program R α} (r : R q)
      (rest : Path (next r) es y) : Path (.request q next) (⟨q, r⟩ :: es) y

theorem path_nil_iff {x y : Program R α} : Path x [] y ↔ x = y := by
  constructor
  · intro h
    cases h
    rfl
  · rintro rfl
    exact .nil x

theorem path_done_iff {a : α} {es : List (Exchange R)} {y : Program R α} :
    Path (.done a) es y ↔ es = [] ∧ y = .done a := by
  constructor
  · intro h
    cases h
    exact ⟨rfl, rfl⟩
  · rintro ⟨rfl, rfl⟩
    exact .nil _

theorem path_request_iff {q : Q} {next : R q → Program R α} {es : List (Exchange R)}
    {y : Program R α} :
    Path (.request q next) es y ↔
      (es = [] ∧ y = .request q next) ∨
        ∃ r rest, es = ⟨q, r⟩ :: rest ∧ Path (next r) rest y := by
  constructor
  · intro h
    cases h with
    | nil => exact .inl ⟨rfl, rfl⟩
    | cons r rest => exact .inr ⟨r, _, rfl, rest⟩
  · rintro (⟨rfl, rfl⟩ | ⟨r, rest, rfl, h⟩)
    · exact .nil _
    · exact .cons r h

theorem Path.trans {x y z : Program R α} {es fs : List (Exchange R)} (h : Path x es y)
    (h' : Path y fs z) : Path x (es ++ fs) z := by
  induction h with
  | nil => exact h'
  | cons r rest ih => exact .cons r (ih h')

theorem path_append_iff {x z : Program R α} {es fs : List (Exchange R)} :
    Path x (es ++ fs) z ↔ ∃ y, Path x es y ∧ Path y fs z := by
  constructor
  · intro h
    induction es generalizing x with
    | nil => exact ⟨x, .nil x, h⟩
    | cons e es ih =>
        cases h with
        | cons r rest =>
            obtain ⟨y, hfirst, hsecond⟩ := ih rest
            exact ⟨y, .cons r hfirst, hsecond⟩
  · rintro ⟨y, hfirst, hsecond⟩
    exact hfirst.trans hsecond

/-- The exchanges determine where a program is. -/
theorem Path.unique {x y z : Program R α} {es : List (Exchange R)} (h : Path x es y)
    (h' : Path x es z) : y = z := by
  induction h with
  | nil => exact path_nil_iff.mp h'
  | cons r rest ih =>
      cases h' with
      | cons _ rest' => exact ih rest'

/-- A program that is done exchanges nothing more. -/
theorem Path.nothing_after_done {x y : Program R α} {a : α} {es fs : List (Exchange R)}
    (h : Path x es (.done a)) (h' : Path x (es ++ fs) y) : fs = [] := by
  obtain ⟨z, hfirst, hsecond⟩ := path_append_iff.mp h'
  rw [← h.unique hfirst] at hsecond
  exact (path_done_iff.mp hsecond).1

/-- Where a program that only renames a result is, the program itself is. -/
theorem path_map {x : Program R α} {f : α → β} {es : List (Exchange R)} {y : Program R β}
    (h : Path (x >>= fun a => .done (f a)) es y) :
    ∃ z, Path x es z ∧ y = z >>= fun a => .done (f a) := by
  induction x generalizing es with
  | done a =>
      obtain ⟨rfl, rfl⟩ := path_done_iff.mp h
      exact ⟨.done a, .nil _, rfl⟩
  | request q next ih =>
      rcases path_request_iff.mp h with ⟨rfl, rfl⟩ | ⟨r, rest, rfl, hrest⟩
      · exact ⟨.request q next, .nil _, rfl⟩
      · obtain ⟨z, hz, rfl⟩ := ih r hrest
        exact ⟨z, .cons r hz, rfl⟩

theorem map_eq_done_iff {x : Program R α} {f : α → β} {b : β} :
    (x >>= fun a => .done (f a)) = .done b ↔ ∃ a, x = .done a ∧ f a = b := by
  constructor
  · intro h
    cases x with
    | done a => exact ⟨a, rfl, done.inj h⟩
    | request q next => cases h
  · rintro ⟨a, rfl, rfl⟩
    rfl

/-- A finished sequence is a finished first part and a finished second one. -/
theorem path_bind_done_iff {x : Program R α} {f : α → Program R β} {es : List (Exchange R)}
    {b : β} :
    Path (x >>= f) es (.done b) ↔
      ∃ a first second, es = first ++ second ∧ Path x first (.done a) ∧
        Path (f a) second (.done b) := by
  constructor
  · intro h
    induction x generalizing es with
    | done a => exact ⟨a, [], es, rfl, .nil _, h⟩
    | request q next ih =>
        rw [request_bind, path_request_iff] at h
        rcases h with ⟨_, h⟩ | ⟨r, rest, rfl, h⟩
        · cases h
        · obtain ⟨a, first, second, rfl, hfirst, hsecond⟩ := ih r h
          exact ⟨a, ⟨q, r⟩ :: first, second, rfl, .cons r hfirst, hsecond⟩
  · rintro ⟨a, first, second, rfl, hfirst, hsecond⟩
    induction x generalizing first with
    | done a' =>
        obtain ⟨rfl, h⟩ := path_done_iff.mp hfirst
        cases h
        exact hsecond
    | request q next ih =>
        rcases path_request_iff.mp hfirst with ⟨_, h⟩ | ⟨r, rest, rfl, h⟩
        · cases h
        · exact .cons r (ih r rest h)

section Traces

open Fallible

/-- A fallible program that has finished, with all it exchanged. -/
def Traces (x : ExceptT ε (Program R) α) (es : List (Exchange R)) (r : Except ε α) : Prop :=
  Path x.run es (.done r)

theorem traces_pure_iff {a : α} {es : List (Exchange R)} {r : Except ε α} :
    Traces (pure a : ExceptT ε (Program R) α) es r ↔ es = [] ∧ r = .ok a := by
  unfold Traces
  change Path (.done (.ok a)) es (.done r) ↔ _
  rw [path_done_iff, done.injEq]

theorem traces_throw_iff {e : ε} {es : List (Exchange R)} {r : Except ε α} :
    Traces (throw e : ExceptT ε (Program R) α) es r ↔ es = [] ∧ r = .error e := by
  unfold Traces
  change Path (.done (.error e)) es (.done r) ↔ _
  rw [path_done_iff, done.injEq]

/-- `?`: an error of the first part is the error of the whole. -/
theorem traces_bind_iff {x : ExceptT ε (Program R) α} {f : α → ExceptT ε (Program R) β}
    {es : List (Exchange R)} {r : Except ε β} :
    Traces (x >>= f) es r ↔
      (∃ e, r = .error e ∧ Traces x es (.error e)) ∨
        ∃ a first second, es = first ++ second ∧ Traces x first (.ok a) ∧
          Traces (f a) second r := by
  unfold Traces
  change Path (x.run >>= ExceptT.bindCont f) es (.done r) ↔ _
  rw [path_bind_done_iff]
  constructor
  · rintro ⟨a, first, second, rfl, hfirst, hsecond⟩
    cases a with
    | ok a => exact .inr ⟨a, first, second, rfl, hfirst, hsecond⟩
    | error e =>
        obtain ⟨rfl, h⟩ := path_done_iff.mp hsecond
        cases h
        rw [List.append_nil]
        exact .inl ⟨e, rfl, hfirst⟩
  · rintro (⟨e, rfl, h⟩ | ⟨a, first, second, rfl, hfirst, hsecond⟩)
    · exact ⟨.error e, es, [], (List.append_nil es).symm, h, .nil _⟩
    · exact ⟨.ok a, first, second, rfl, hfirst, hsecond⟩

theorem traces_attempt_iff {x : ExceptT ε (Program R) α} {es : List (Exchange R)}
    {r : Except ε (Except ε α)} :
    Traces (attempt x) es r ↔ ∃ result, r = .ok result ∧ Traces x es result := by
  unfold Traces
  change Path (x.run >>= fun a => .done (.ok a)) es (.done r) ↔ _
  rw [path_bind_done_iff]
  constructor
  · rintro ⟨a, first, second, rfl, hfirst, hsecond⟩
    obtain ⟨rfl, h⟩ := path_done_iff.mp hsecond
    cases h
    rw [List.append_nil]
    exact ⟨a, rfl, hfirst⟩
  · rintro ⟨result, rfl, h⟩
    exact ⟨result, es, [], (List.append_nil es).symm, h, .nil _⟩

/-- A request whose response is turned into a result. -/
theorem traces_ask_iff {q : Q} {f : R q → Except ε α} {es : List (Exchange R)}
    {r : Except ε α} :
    Traces (ExceptT.mk (ask q >>= fun response => pure (f response))) es r ↔
      ∃ response, es = [⟨q, response⟩] ∧ r = f response := by
  unfold Traces
  change Path (.request q fun response => .done (f response)) es (.done r) ↔ _
  rw [path_request_iff]
  constructor
  · rintro (⟨_, h⟩ | ⟨response, rest, rfl, h⟩)
    · cases h
    · obtain ⟨rfl, h⟩ := path_done_iff.mp h
      cases h
      exact ⟨response, rfl, rfl⟩
  · rintro ⟨response, rfl, rfl⟩
    exact .inr ⟨response, [], rfl, .nil _⟩

theorem traces_perform_iff {x : Program R α} {es : List (Exchange R)} {r : Except ε α} :
    Traces (perform x : ExceptT ε (Program R) α) es r ↔ ∃ a, r = .ok a ∧ Path x es (.done a) := by
  unfold Traces
  change Path (x >>= fun a => .done (.ok a)) es (.done r) ↔ _
  rw [path_bind_done_iff]
  constructor
  · rintro ⟨a, first, second, rfl, hfirst, hsecond⟩
    obtain ⟨rfl, h⟩ := path_done_iff.mp hsecond
    cases h
    rw [List.append_nil]
    exact ⟨a, rfl, hfirst⟩
  · rintro ⟨a, rfl, h⟩
    exact ⟨a, es, [], (List.append_nil es).symm, h, .nil _⟩

end Traces

section TracesLocal

open Fallible

variable {S : Type} {l : S}

/-- A fallible program with a local state that has finished, with all it exchanged. -/
def TracesLocal (x : ExceptT ε (StateT S (Program R)) α) (l : S) (es : List (Exchange R))
    (r : Except ε α) : Prop :=
  ∃ k, Path (x.run l) es (.done (r, k))

theorem tracesLocal_pure_iff {a : α} {es : List (Exchange R)} {r : Except ε α} :
    TracesLocal (pure a : ExceptT ε (StateT S (Program R)) α) l es r ↔ es = [] ∧ r = .ok a := by
  unfold TracesLocal
  change (∃ k, Path (.done (.ok a, l)) es (.done (r, k))) ↔ _
  constructor
  · rintro ⟨k, h⟩
    obtain ⟨rfl, h⟩ := path_done_iff.mp h
    cases h
    exact ⟨rfl, rfl⟩
  · rintro ⟨rfl, rfl⟩
    exact ⟨l, .nil _⟩

theorem tracesLocal_throw_iff {e : ε} {es : List (Exchange R)} {r : Except ε α} :
    TracesLocal (throw e : ExceptT ε (StateT S (Program R)) α) l es r ↔
      es = [] ∧ r = .error e := by
  unfold TracesLocal
  change (∃ k, Path (.done (.error e, l)) es (.done (r, k))) ↔ _
  constructor
  · rintro ⟨k, h⟩
    obtain ⟨rfl, h⟩ := path_done_iff.mp h
    cases h
    exact ⟨rfl, rfl⟩
  · rintro ⟨rfl, rfl⟩
    exact ⟨l, .nil _⟩

/-- What a sequence exchanged is what its first part exchanged and, unless that failed,
what its second part exchanged from some local state. -/
theorem tracesLocal_bind {x : ExceptT ε (StateT S (Program R)) α}
    {f : α → ExceptT ε (StateT S (Program R)) β} {es : List (Exchange R)} {r : Except ε β}
    (h : TracesLocal (x >>= f) l es r) :
    (∃ e, r = .error e ∧ TracesLocal x l es (.error e)) ∨
      ∃ a k first second, es = first ++ second ∧ TracesLocal x l first (.ok a) ∧
        TracesLocal (f a) k second r := by
  obtain ⟨k, h⟩ := h
  change Path (x.run l >>= fun p => (ExceptT.bindCont f p.1) p.2) es (.done (r, k)) at h
  obtain ⟨⟨result, l'⟩, first, second, rfl, hfirst, hsecond⟩ := path_bind_done_iff.mp h
  cases result with
  | ok a => exact .inr ⟨a, l', first, second, rfl, ⟨l', hfirst⟩, k, hsecond⟩
  | error e =>
      obtain ⟨rfl, hdone⟩ := path_done_iff.mp hsecond
      cases hdone
      rw [List.append_nil]
      exact .inl ⟨e, rfl, l', hfirst⟩

theorem tracesLocal_withLocal {x : ExceptT ε (Program R) α} {es : List (Exchange R)}
    {r : Except ε α} (h : TracesLocal (withLocal x) l es r) : Traces x es r := by
  obtain ⟨k, h⟩ := h
  change Path (x.run >>= fun r => .done (r, l)) es (.done (r, k)) at h
  obtain ⟨a, first, second, rfl, hfirst, hsecond⟩ := path_bind_done_iff.mp h
  obtain ⟨rfl, hdone⟩ := path_done_iff.mp hsecond
  cases hdone
  rw [List.append_nil]
  exact hfirst

theorem tracesLocal_performLocal {x : Program R α} {es : List (Exchange R)} {r : Except ε α}
    (h : TracesLocal (performLocal x : ExceptT ε (StateT S (Program R)) α) l es r) :
    ∃ a, r = .ok a ∧ Path x es (.done a) := by
  obtain ⟨k, h⟩ := h
  change Path (x >>= fun a => .done (.ok a, l)) es (.done (r, k)) at h
  obtain ⟨a, first, second, rfl, hfirst, hsecond⟩ := path_bind_done_iff.mp h
  obtain ⟨rfl, hdone⟩ := path_done_iff.mp hsecond
  cases hdone
  rw [List.append_nil]
  exact ⟨a, rfl, hfirst⟩

/-- Reading and replacing the local state exchanges nothing. -/
theorem tracesLocal_getLocal {es : List (Exchange R)} {r : Except ε S}
    (h : TracesLocal (getLocal : ExceptT ε (StateT S (Program R)) S) l es r) : es = [] := by
  obtain ⟨k, h⟩ := h
  exact (path_done_iff.mp h).1

theorem tracesLocal_setLocal {m : S} {es : List (Exchange R)} {r : Except ε PUnit}
    (h : TracesLocal (setLocal m : ExceptT ε (StateT S (Program R)) PUnit) l es r) : es = [] := by
  obtain ⟨k, h⟩ := h
  exact (path_done_iff.mp h).1

theorem traces_scopeLocal {x : ExceptT ε (StateT S (Program R)) α} {es : List (Exchange R)}
    {r : Except ε (α × S)} (h : Traces (scopeLocal l x) es r) :
    ∃ result, TracesLocal x l es result := by
  unfold Traces at h
  change Path (x.run l >>= fun p => .done (p.1.map fun a => (a, p.2))) es (.done r) at h
  obtain ⟨⟨result, k⟩, first, second, rfl, hfirst, hsecond⟩ := path_bind_done_iff.mp h
  obtain ⟨rfl, _⟩ := path_done_iff.mp hsecond
  rw [List.append_nil]
  exact ⟨result, k, hfirst⟩

end TracesLocal

section Pool

variable {ι : Type} [DecidableEq ι]

/-- An exchange with the thread that made the request. -/
structure Event (ι : Type) {Q : Type} (R : Q → Type) where
  thread : ι
  exchange : Exchange R

/-- What one thread exchanged. -/
def own (i : ι) (history : List (Event ι R)) : List (Exchange R) :=
  (history.filter fun event => decide (event.thread = i)).map Event.exchange

@[simp] theorem own_nil (i : ι) : own i ([] : List (Event ι R)) = [] := rfl

@[simp] theorem own_append (i : ι) (h k : List (Event ι R)) :
    own i (h ++ k) = own i h ++ own i k := by
  simp [own]

@[simp] theorem own_cons_self (i : ι) (x : Exchange R) (h : List (Event ι R)) :
    own i (⟨i, x⟩ :: h) = x :: own i h := by
  simp [own]

theorem own_cons_of_ne {i : ι} {event : Event ι R} (h : event.thread ≠ i)
    (k : List (Event ι R)) : own i (event :: k) = own i k := by
  simp [own, h]

theorem mem_own_iff {i : ι} {x : Exchange R} {history : List (Event ι R)} :
    x ∈ own i history ↔ (⟨i, x⟩ : Event ι R) ∈ history := by
  simp only [own, List.mem_map, List.mem_filter, decide_eq_true_eq]
  constructor
  · rintro ⟨event, ⟨hmem, rfl⟩, rfl⟩
    exact hmem
  · intro h
    exact ⟨_, ⟨h, rfl⟩, rfl⟩

/-- The first exchange of a thread, and where it stands in the history. -/
theorem own_eq_cons {i : ι} {x : Exchange R} {xs : List (Exchange R)} {history : List (Event ι R)}
    (h : own i history = x :: xs) :
    ∃ earlier later, history = earlier ++ ⟨i, x⟩ :: later ∧ own i earlier = [] ∧
      own i later = xs := by
  induction history with
  | nil => cases h
  | cons event history ih =>
      by_cases hthread : event.thread = i
      · obtain ⟨thread, exchange⟩ := event
        cases hthread
        rw [own_cons_self] at h
        cases h
        exact ⟨[], history, rfl, rfl, rfl⟩
      · rw [own_cons_of_ne hthread] at h
        obtain ⟨earlier, later, rfl, hearlier, hlater⟩ := ih h
        exact ⟨event :: earlier, later, rfl, by rw [own_cons_of_ne hthread, hearlier], hlater⟩

/-- An exchange of a thread, and where it stands in the history. -/
theorem own_eq_append_cons {i : ι} {x : Exchange R} {xs ys : List (Exchange R)}
    {history : List (Event ι R)} (h : own i history = xs ++ x :: ys) :
    ∃ earlier later, history = earlier ++ ⟨i, x⟩ :: later ∧ own i earlier = xs ∧
      own i later = ys := by
  induction xs generalizing history with
  | nil => exact own_eq_cons h
  | cons first xs ih =>
      obtain ⟨front, back, rfl, hfront, hback⟩ := own_eq_cons h
      obtain ⟨earlier, later, rfl, hearlier, hlater⟩ := ih hback
      refine ⟨front ++ ⟨i, first⟩ :: earlier, later, by simp, ?_, hlater⟩
      rw [own_append, own_cons_self, hfront, hearlier, List.nil_append]

/-- The interleavings of a pool of programs. A service may answer a request in any
way that `Serves` allows after the history so far; the oldest event comes first. -/
inductive Runs (Serves : List (Event ι R) → Event ι R → Prop) (start : ι → Program R α) :
    List (Event ι R) → (ι → Program R α) → Prop where
  | start : Runs Serves start [] start
  | step {history : List (Event ι R)} {pool : ι → Program R α} {i : ι} {q : Q}
      {next : R q → Program R α} (r : R q) (before : Runs Serves start history pool)
      (turn : pool i = .request q next) (served : Serves history ⟨i, q, r⟩) :
      Runs Serves start (history ++ [⟨i, q, r⟩]) (Function.update pool i (next r))

variable {Serves : List (Event ι R) → Event ι R → Prop} {start : ι → Program R α}
  {history : List (Event ι R)} {pool : ι → Program R α}

/-- Each thread has gone down its own program by its own exchanges. -/
theorem Runs.path (h : Runs Serves start history pool) (i : ι) :
    Path (start i) (own i history) (pool i) := by
  induction h with
  | start => exact .nil _
  | @step history pool j q next r before turn served ih =>
      rw [own_append]
      by_cases hij : j = i
      · subst hij
        rw [own_cons_self, own_nil, Function.update_self]
        rw [turn] at ih
        exact ih.trans (.cons r (.nil _))
      · rw [own_cons_of_ne hij, own_nil, List.append_nil, Function.update_of_ne (Ne.symm hij)]
        exact ih

/-- Every event of a run was served after the run up to it. -/
theorem Runs.split {earlier later : List (Event ι R)} {event : Event ι R}
    (h : Runs Serves start (earlier ++ event :: later) pool) :
    Serves earlier event ∧ ∃ pool', Runs Serves start earlier pool' := by
  generalize hsplit : earlier ++ event :: later = history at h
  induction h generalizing later with
  | start => simp at hsplit
  | @step history pool j q next r before turn served ih =>
      rcases List.eq_nil_or_concat later with rfl | ⟨front, last, rfl⟩
      · obtain ⟨rfl, hevent⟩ := List.append_inj' hsplit rfl
        cases hevent
        exact ⟨served, pool, before⟩
      · rw [List.concat_eq_append, ← List.cons_append, ← List.append_assoc] at hsplit
        exact ih (List.append_inj' hsplit rfl).1

theorem Runs.served_of_mem {event : Event ι R} (h : Runs Serves start history pool)
    (hmem : event ∈ history) :
    ∃ earlier later, history = earlier ++ event :: later ∧ Serves earlier event := by
  obtain ⟨earlier, later, rfl⟩ := List.append_of_mem hmem
  exact ⟨earlier, later, rfl, h.split.1⟩

/-- Every event of a list was served after the ones before it. -/
def ServedFrom (Serves : List (Event ι R) → Event ι R → Prop) (earlier : List (Event ι R)) :
    List (Event ι R) → Prop
  | [] => True
  | event :: rest => Serves earlier event ∧ ServedFrom Serves (earlier ++ [event]) rest

omit [DecidableEq ι] in
theorem servedFrom_append {earlier h k : List (Event ι R)} :
    ServedFrom Serves earlier (h ++ k) ↔
      ServedFrom Serves earlier h ∧ ServedFrom Serves (earlier ++ h) k := by
  induction h generalizing earlier with
  | nil => simp [ServedFrom]
  | cons event h ih => simp [ServedFrom, ih, and_assoc]

/-- An interleaving is paths of its threads and services of its events, no more. -/
theorem runs_of_paths (hpaths : ∀ i, Path (start i) (own i history) (pool i))
    (hserved : ServedFrom Serves [] history) : Runs Serves start history pool := by
  induction history using List.reverseRec generalizing pool with
  | nil =>
      have hpool : pool = start := funext fun i => (path_nil_iff.mp (hpaths i)).symm
      rw [hpool]
      exact .start
  | append_singleton history event ih =>
      obtain ⟨i, q, r⟩ := event
      obtain ⟨hbefore, hlast, _⟩ := servedFrom_append.mp hserved
      have hi := hpaths i
      rw [own_append, own_cons_self, own_nil] at hi
      obtain ⟨y, hfirst, hsecond⟩ := path_append_iff.mp hi
      cases hsecond with
      | @cons _ next _ _ _ rest =>
          have hruns : Runs Serves start history (Function.update pool i (.request q next)) := by
            refine ih (fun j => ?_) hbefore
            by_cases hj : j = i
            · rw [hj, Function.update_self]
              exact hfirst
            · have hpath := hpaths j
              rw [own_append, own_cons_of_ne (Ne.symm hj), own_nil, List.append_nil] at hpath
              rw [Function.update_of_ne hj]
              exact hpath
          have hstep := hruns.step r (Function.update_self ..) hlast
          rwa [Function.update_idem, path_nil_iff.mp rest, Function.update_eq_self] at hstep

/-- What a thread exchanged before one of its events is a path of its program that
ends in the request of that event. -/
theorem Runs.path_before {earlier later : List (Event ι R)} {i : ι} {x : Exchange R}
    (h : Runs Serves start (earlier ++ ⟨i, x⟩ :: later) pool) :
    ∃ next, Path (start i) (own i earlier ++ [x]) next := by
  have hpath := h.path i
  rw [own_append, own_cons_self] at hpath
  clear h
  generalize own i earlier = front at hpath
  generalize own i later = back at hpath
  generalize start i = program at hpath
  induction front generalizing program with
  | nil =>
      rw [List.nil_append] at hpath
      cases hpath with
      | cons r rest => exact ⟨_, .cons r (.nil _)⟩
  | cons first front ih =>
      rw [List.cons_append] at hpath
      cases hpath with
      | cons r rest =>
          obtain ⟨next, hnext⟩ := ih _ rest
          exact ⟨next, .cons r hnext⟩

end Pool

end Program
