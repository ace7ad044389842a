import BlobStorage.Library.Footprint

/-!
# Programs under interference

A pool of programs over a service that has a state. A program is secure in a state if, whatever
the other threads do in between, each of its requests keeps what is good of the service and does
to the state only what it may. The rules follow the program; a pool of secure programs keeps the
service good along every interleaving.
-/

namespace Program

variable {Q : Type} {R : Q → Type} {ι V α β ε S : Type}

section Pool

variable [DecidableEq ι]

/-- The interleavings of a pool over a service that answers, and moves on, as `Answers` says. -/
inductive Served (Answers : ι → V → (q : Q) → R q → V → Prop) (start : ι → Program R α) (v : V) :
    List (Event ι R) → (ι → Program R α) → V → Prop where
  | start : Served Answers start v [] start v
  | step {history : List (Event ι R)} {pool : ι → Program R α} {w w' : V} {i : ι} {q : Q}
      {next : R q → Program R α} (r : R q) (before : Served Answers start v history pool w)
      (turn : pool i = .request q next) (answer : Answers i w q r w') :
      Served Answers start v (history ++ [⟨i, q, r⟩]) (Function.update pool i (next r)) w'

end Pool

/-- What a thread relies on and what it guarantees: how the service answers it, what is good of
the service, what the others may do to it, and what the thread may do. -/
structure Discipline (Q : Type) (R : Q → Type) (V : Type) where
  answers : V → (q : Q) → R q → V → Prop
  good : V → Prop
  others : V → V → Prop
  allowed : V → V → Prop
  refl : ∀ v, others v v
  trans : ∀ {u v w}, others u v → others v w → others u w

variable {D : Discipline Q R V}

/-- The program keeps to the discipline from the state `v` on, and `post` is about its result. -/
def Secure (D : Discipline Q R V) (post : α → V → Prop) : Program R α → V → Prop
  | .done a, v => ∀ w, D.others v w → D.good w → post a w
  | .request q next, v => ∀ w, D.others v w → D.good w → ∀ r w', D.answers w q r w' →
      D.good w' ∧ D.allowed w w' ∧ Secure D post (next r) w'

namespace Secure

variable {post post' : α → V → Prop} {post₂ : β → V → Prop} {x : Program R α} {v w : V}

/-- What the others do does not matter. -/
theorem after (h : Secure D post x v) (hothers : D.others v w) : Secure D post x w := by
  cases x with
  | done a => exact fun u hu => h u (D.trans hothers hu)
  | request q next => exact fun u hu => h u (D.trans hothers hu)

theorem mono (h : Secure D post x v) (hpost : ∀ a w, D.good w → post a w → post' a w) :
    Secure D post' x v := by
  induction x generalizing v with
  | done a => exact fun w hw hgood => hpost a w hgood (h w hw hgood)
  | request q next ih =>
      intro w hw hgood r w' hanswer
      obtain ⟨hgood', hallowed, hnext⟩ := h w hw hgood r w' hanswer
      exact ⟨hgood', hallowed, ih r hnext⟩

theorem bind {f : α → Program R β} (h : Secure D post x v)
    (hf : ∀ a w, D.good w → post a w → Secure D post₂ (f a) w) (hgood : D.good v) :
    Secure D post₂ (x >>= f) v := by
  induction x generalizing v with
  | done a => exact hf a v hgood (h v (D.refl v) hgood)
  | request q next ih =>
      intro w hw hgood r w' hanswer
      obtain ⟨hgood', hallowed, hnext⟩ := h w hw hgood r w' hanswer
      exact ⟨hgood', hallowed, ih r hnext hgood'⟩

/-- What neither the others nor the thread itself can undo is still there in the end. -/
theorem frame {J : V → Prop} (h : Secure D post x v)
    (hothers : ∀ v w, D.others v w → J v → J w) (hallowed : ∀ v w, D.allowed v w → J v → J w)
    (hJ : J v) : Secure D (fun a w => post a w ∧ J w) x v := by
  induction x generalizing v with
  | done a => exact fun w hw hgood => ⟨h w hw hgood, hothers v w hw hJ⟩
  | request q next ih =>
      intro w hw hgood r w' hanswer
      obtain ⟨hgood', hstep, hnext⟩ := h w hw hgood r w' hanswer
      exact ⟨hgood', hstep, ih r hnext (hallowed w w' hstep (hothers v w hw hJ))⟩

/-- A program that only makes requests which do no harm, and what they can be answered. -/
theorem of_within {asks : Q → Prop} {answers : (q : Q) → R q → Prop} {post : α → Prop}
    (h : Within asks answers post x)
    (hharmless : ∀ q, asks q → ∀ w, D.good w → ∀ r w', D.answers w q r w' →
      D.good w' ∧ D.allowed w w' ∧ answers q r) : Secure D (fun a _ => post a) x v := by
  induction x generalizing v with
  | done a => exact fun _ _ _ => h
  | request q next ih =>
      intro w _ hgood r w' hanswer
      obtain ⟨hgood', hallowed, hanswered⟩ := hharmless q h.1 w hgood r w' hanswer
      exact ⟨hgood', hallowed, ih r (h.2 r hanswered)⟩

end Secure

section Rule

variable [DecidableEq ι] {Answers : ι → V → (q : Q) → R q → V → Prop} {D : ι → Discipline Q R V}
  {start : ι → Program R α} {post : ι → α → V → Prop} {v w : V} {history : List (Event ι R)}
  {pool : ι → Program R α}

/-- The rule of pools: where what each thread may do is what the others count on, every
interleaving keeps the service good and every thread secure. -/
theorem Served.rule {good : V → Prop} (h : Served Answers start v history pool w)
    (hanswers : ∀ i v q r w, Answers i v q r w → (D i).answers v q r w)
    (hgood : ∀ i v, (D i).good v ↔ good v)
    (hothers : ∀ i j v w, i ≠ j → (D i).allowed v w → (D j).others v w)
    (hv : good v) (hstart : ∀ i, Secure (D i) (post i) (start i) v) :
    good w ∧ ∀ i, Secure (D i) (post i) (pool i) w := by
  induction h with
  | start => exact ⟨hv, hstart⟩
  | @step history pool w w' i q next r before turn answer ih =>
      obtain ⟨hw, hsecure⟩ := ih
      have hi := hsecure i
      rw [turn] at hi
      obtain ⟨hw', hallowed, hnext⟩ :=
        hi w ((D i).refl w) ((hgood i w).mpr hw) r w' (hanswers i w q r w' answer)
      refine ⟨(hgood i w').mp hw', fun j => ?_⟩
      by_cases hsame : j = i
      · subst hsame
        rw [Function.update_self]
        exact hnext
      · rw [Function.update_of_ne hsame]
        exact (hsecure j).after (hothers i j w w' (Ne.symm hsame) hallowed)

end Rule

section Fallible

open Fallible

variable {post : α → V → Prop} {post₂ : β → V → Prop} {v : V}

/-- The same for a program that can fail, where `post` is about what it returns if it does not. -/
def TrySecure (D : Discipline Q R V) (post : α → V → Prop) (x : ExceptT ε (Program R) α)
    (v : V) : Prop :=
  Secure D (fun result w => ∀ a, result = .ok a → post a w) x.run v

namespace TrySecure

theorem pure {a : α} (h : ∀ w, D.others v w → D.good w → post a w) :
    TrySecure D post (Pure.pure a : ExceptT ε (Program R) α) v := by
  rintro w hw hgood b hb
  cases hb
  exact h w hw hgood

theorem throw (e : ε) : TrySecure D post (MonadExcept.throw e : ExceptT ε (Program R) α) v := by
  rintro w _ _ b hb
  cases hb

theorem bind {x : ExceptT ε (Program R) α} {f : α → ExceptT ε (Program R) β}
    (h : TrySecure D post x v)
    (hf : ∀ a w, D.good w → post a w → TrySecure D post₂ (f a) w) (hgood : D.good v) :
    TrySecure D post₂ (x >>= f) v := by
  refine Secure.bind h (fun result w hw hresult => ?_) hgood
  cases result with
  | ok a => exact hf a w hw (hresult a rfl)
  | error e => exact throw e

/-- A request and what is done with its response. -/
theorem request {q : Q} {f : R q → ExceptT ε (Program R) α}
    (h : ∀ w, D.others v w → D.good w → ∀ r w', D.answers w q r w' →
      D.good w' ∧ D.allowed w w' ∧ TrySecure D post (f r) w') :
    TrySecure D post (perform (Program.ask q) >>= f) v := h

/-- A request whose response is turned into a result, and what is done with the result. -/
theorem request_map {q : Q} {f : R q → Except ε β} {g : β → ExceptT ε (Program R) α}
    (h : ∀ w, D.others v w → D.good w → ∀ r w', D.answers w q r w' →
      D.good w' ∧ D.allowed w w' ∧ ∀ b, f r = .ok b → TrySecure D post (g b) w') :
    TrySecure D post (ExceptT.mk (Program.ask q >>= fun r => Pure.pure (f r)) >>= g) v := by
  intro w hw hgood r w' hanswer
  obtain ⟨hgood', hallowed, hnext⟩ := h w hw hgood r w' hanswer
  refine ⟨hgood', hallowed, ?_⟩
  change TrySecure D post ((ExceptT.mk (Pure.pure (f r)) : ExceptT ε (Program R) β) >>= g) w'
  cases hresult : f r with
  | ok b => exact hnext b hresult
  | error e => exact throw e

theorem mono {x : ExceptT ε (Program R) α} {post' : α → V → Prop} (h : TrySecure D post x v)
    (hpost : ∀ a w, D.good w → post a w → post' a w) : TrySecure D post' x v :=
  Secure.mono h fun _ w hgood hresult a ha => hpost a w hgood (hresult a ha)

theorem frame {x : ExceptT ε (Program R) α} {J : V → Prop} (h : TrySecure D post x v)
    (hothers : ∀ v w, D.others v w → J v → J w) (hallowed : ∀ v w, D.allowed v w → J v → J w)
    (hJ : J v) : TrySecure D (fun a w => post a w ∧ J w) x v :=
  (Secure.frame h hothers hallowed hJ).mono fun _ _ _ hresult a ha =>
    ⟨hresult.1 a ha, hresult.2⟩

/-- A program that only makes requests which do no harm, and what they can be answered. -/
theorem of_within {x : ExceptT ε (Program R) α} {asks : Q → Prop}
    {answers : (q : Q) → R q → Prop} {post : α → Prop} (h : TryWithin asks answers post x)
    (hharmless : ∀ q, asks q → ∀ w, D.good w → ∀ r w', D.answers w q r w' →
      D.good w' ∧ D.allowed w w' ∧ answers q r) :
    TrySecure D (fun a _ => post a) x v :=
  Secure.of_within h hharmless

end TrySecure

end Fallible

end Program
