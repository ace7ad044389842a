import BlobStorage.Library.Program

/-!
# What a program asks for

A program stays within a set of requests if it makes no other ones, whatever it is answered, as
long as the answers are among those that can come. The rules follow the program: a sequence stays
within the set if its first part does and its second part does from each result that the first
one can have. What holds of the program holds of all that it can have exchanged.
-/

namespace Program

variable {Q : Type} {R : Q → Type} {α β ε S : Type}

/-- If all responses are among the `answers`, the requests are among those that it `asks`, and
the result satisfies `post`. -/
def Within (asks : Q → Prop) (answers : (q : Q) → R q → Prop) (post : α → Prop) :
    Program R α → Prop
  | .done a => post a
  | .request q next => asks q ∧ ∀ r, answers q r → Within asks answers post (next r)

variable {asks : Q → Prop} {answers : (q : Q) → R q → Prop} {post : α → Prop} {post' : β → Prop}

theorem Within.bind {x : Program R α} {f : α → Program R β} (h : Within asks answers post x)
    (hf : ∀ a, post a → Within asks answers post' (f a)) :
    Within asks answers post' (x >>= f) := by
  induction x with
  | done a => exact hf a h
  | request q next ih => exact ⟨h.1, fun r hr => ih r (h.2 r hr)⟩

/-- At every point at which the program can be, it has asked for nothing else. -/
theorem Within.path {x y : Program R α} {es : List (Exchange R)} (h : Within asks answers post x)
    (hpath : Path x es y) (hanswers : ∀ e ∈ es, answers e.request e.response) :
    ∀ e ∈ es, asks e.request := by
  induction hpath with
  | nil => exact List.forall_mem_nil _
  | cons r rest ih =>
      rw [List.forall_mem_cons] at hanswers ⊢
      exact ⟨h.1, ih (h.2 r hanswers.1) hanswers.2⟩

open Fallible

/-- The same for a program that can fail, where `post` is about what it returns if it does not. -/
def TryWithin (asks : Q → Prop) (answers : (q : Q) → R q → Prop) (post : α → Prop)
    (x : ExceptT ε (Program R) α) : Prop :=
  Within asks answers (fun result => ∀ a, result = .ok a → post a) x.run

/-- And for one with a local state. -/
def LocalWithin (asks : Q → Prop) (answers : (q : Q) → R q → Prop) (post : α → Prop)
    (x : ExceptT ε (StateT S (Program R)) α) : Prop :=
  ∀ l, Within asks answers (fun result => ∀ a, result.1 = .ok a → post a) (x.run l)

namespace TryWithin

theorem pure {a : α} (h : post a) :
    TryWithin asks answers post (Pure.pure a : ExceptT ε (Program R) α) := by
  rintro b hb
  cases hb
  exact h

theorem throw (e : ε) :
    TryWithin asks answers post (MonadExcept.throw e : ExceptT ε (Program R) α) := by
  rintro b hb
  cases hb

theorem bind {x : ExceptT ε (Program R) α} {f : α → ExceptT ε (Program R) β}
    (h : TryWithin asks answers post x) (hf : ∀ a, post a → TryWithin asks answers post' (f a)) :
    TryWithin asks answers post' (x >>= f) := by
  refine Within.bind h fun result hresult => ?_
  cases result with
  | ok a => exact hf a (hresult a rfl)
  | error e => exact throw e

theorem ask {q : Q} {post : R q → Prop} (hasks : asks q) (hpost : ∀ r, answers q r → post r) :
    TryWithin asks answers post (perform (Program.ask q) : ExceptT ε (Program R) (R q)) := by
  refine ⟨hasks, fun r hr a ha => ?_⟩
  cases ha
  exact hpost r hr

end TryWithin

namespace LocalWithin

theorem pure {a : α} (h : post a) :
    LocalWithin asks answers post (Pure.pure a : ExceptT ε (StateT S (Program R)) α) := by
  rintro l b hb
  cases hb
  exact h

theorem throw (e : ε) :
    LocalWithin asks answers post (MonadExcept.throw e : ExceptT ε (StateT S (Program R)) α) := by
  rintro l b hb
  cases hb

theorem bind {x : ExceptT ε (StateT S (Program R)) α}
    {f : α → ExceptT ε (StateT S (Program R)) β} (h : LocalWithin asks answers post x)
    (hf : ∀ a, post a → LocalWithin asks answers post' (f a)) :
    LocalWithin asks answers post' (x >>= f) := by
  intro l
  refine Within.bind (h l) fun result hresult => ?_
  obtain ⟨result, k⟩ := result
  cases result with
  | ok a => exact hf a (hresult a rfl) k
  | error e => exact throw e k

theorem withLocal {x : ExceptT ε (Program R) α} (h : TryWithin asks answers post x) :
    LocalWithin asks answers post (withLocal x : ExceptT ε (StateT S (Program R)) α) := by
  intro l
  exact Within.bind h fun result hresult => hresult

theorem ask {q : Q} {post : R q → Prop} (hasks : asks q) (hpost : ∀ r, answers q r → post r) :
    LocalWithin asks answers post
      (performLocal (Program.ask q) : ExceptT ε (StateT S (Program R)) (R q)) := by
  refine fun l => ⟨hasks, fun r hr a ha => ?_⟩
  cases ha
  exact hpost r hr

theorem getLocal :
    LocalWithin asks answers (fun _ => True) (getLocal : ExceptT ε (StateT S (Program R)) S) :=
  fun _ _ _ => trivial

theorem setLocal (k : S) :
    LocalWithin asks answers (fun _ => True)
      (setLocal k : ExceptT ε (StateT S (Program R)) PUnit) :=
  fun _ _ _ => trivial

end LocalWithin

theorem TryWithin.scopeLocal {x : ExceptT ε (StateT S (Program R)) α}
    (h : LocalWithin asks answers post x) (l : S) :
    TryWithin asks answers (fun pair => post pair.1) (scopeLocal l x) := by
  refine Within.bind (h l) fun result hresult => ?_
  obtain ⟨result, k⟩ := result
  cases result with
  | ok a =>
      rintro pair hpair
      cases hpair
      exact hresult a rfl
  | error e =>
      rintro pair hpair
      cases hpair

end Program
