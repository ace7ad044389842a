import Mathlib.Data.List.Basic

/-!
# Walks

A walk hands entries, one after another, to a visitor that has a state of its own and acts on
the store that is being walked. Between two calls the store may do something of its own, as long
as it is quiet; the walk can break off on its side, and the visitor can end it.

What a call keeps, a walk keeps: the invariant speaks of the entries that are still to come.
-/

namespace Walking

variable {E R S σ : Type*}

/-- What a call of the visitor says about the rest of the walk. -/
inductive Verdict (R : Type*) where
  | goOn
  | stop
  | fail (e : R)

/-- As a visitor returns it. -/
def Verdict.result : Verdict R → Except R Bool
  | .goOn => .ok true
  | .stop => .ok false
  | .fail e => .error e

/-- How a walk ended. -/
inductive Ending (R : Type*) where
  | complete
  | stopped
  | broke (e : R)
  | failed (e : R)

/-- As a walk returns it. -/
def Ending.result : Ending R → Except R Unit
  | .complete => .ok ()
  | .stopped => .ok ()
  | .broke e => .error e
  | .failed e => .error e

/-- `Walk Quiet Visits entries l s ending left k t`: begun with the visitor in the state `l` and
the store in the state `s`, a walk over `entries` ends in the states `k` and `t`, and has not
come to the entries `left`. -/
inductive Walk (Quiet : σ → σ → Prop) (Visits : E → S → σ → Verdict R → S → σ → Prop) :
    List E → S → σ → Ending R → List E → S → σ → Prop where
  | complete {l : S} {s t : σ} (quiet : Quiet s t) : Walk Quiet Visits [] l s .complete [] l t
  | broke {entries : List E} {l : S} {s t : σ} (e : R) (quiet : Quiet s t) :
      Walk Quiet Visits entries l s (.broke e) entries l t
  | next {entry : E} {rest left : List E} {l k k' : S} {s t u u' : σ} {ending : Ending R}
      (quiet : Quiet s t) (call : Visits entry l t .goOn k u)
      (further : Walk Quiet Visits rest k u ending left k' u') :
      Walk Quiet Visits (entry :: rest) l s ending left k' u'
  | stopped {entry : E} {rest : List E} {l k : S} {s t u : σ} (quiet : Quiet s t)
      (call : Visits entry l t .stop k u) :
      Walk Quiet Visits (entry :: rest) l s .stopped rest k u
  | failed {entry : E} {rest : List E} {l k : S} {s t u : σ} (e : R) (quiet : Quiet s t)
      (call : Visits entry l t (.fail e) k u) :
      Walk Quiet Visits (entry :: rest) l s (.failed e) rest k u

namespace Walk

variable {Quiet : σ → σ → Prop} {Visits : E → S → σ → Verdict R → S → σ → Prop}
variable {entries left : List E} {l k : S} {s t : σ} {ending : Ending R}

/-- The rule of walks. `I` holds before each call, with the entries from that one on, and `Q` is
what each way of ending makes of it. -/
theorem rule (h : Walk Quiet Visits entries l s ending left k t)
    (I : List E → S → σ → Prop) (Q : Ending R → List E → S → σ → Prop)
    (hquiet : ∀ {entries l s t}, I entries l s → Quiet s t → I entries l t)
    (hcomplete : ∀ {l s}, I [] l s → Q .complete [] l s)
    (hbroke : ∀ {entries l s} e, I entries l s → Q (.broke e) entries l s)
    (hnext : ∀ {entry rest l s k t}, I (entry :: rest) l s → Visits entry l s .goOn k t →
      I rest k t)
    (hstopped : ∀ {entry rest l s k t}, I (entry :: rest) l s → Visits entry l s .stop k t →
      Q .stopped rest k t)
    (hfailed : ∀ {entry rest l s k t e}, I (entry :: rest) l s → Visits entry l s (.fail e) k t →
      Q (.failed e) rest k t)
    (hstart : I entries l s) : Q ending left k t := by
  induction h with
  | complete quiet => exact hcomplete (hquiet hstart quiet)
  | broke e quiet => exact hbroke e (hquiet hstart quiet)
  | next quiet call _ ih => exact ih (hnext (hquiet hstart quiet) call)
  | stopped quiet call => exact hstopped (hquiet hstart quiet) call
  | failed e quiet call => exact hfailed (hquiet hstart quiet) call

/-- What a quiet stretch and every call keep, however the call goes on, a walk keeps. -/
theorem keeps (h : Walk Quiet Visits entries l s ending left k t) (I : S → σ → Prop)
    (hquiet : ∀ {l s t}, I l s → Quiet s t → I l t)
    (hcall : ∀ {entry l s verdict k t}, entry ∈ entries → I l s → Visits entry l s verdict k t →
      I k t) (hstart : I l s) : I k t := by
  induction h with
  | complete quiet => exact hquiet hstart quiet
  | broke e quiet => exact hquiet hstart quiet
  | next quiet call _ ih =>
      apply ih fun hmem => hcall (List.mem_cons_of_mem _ hmem)
      exact hcall (List.mem_cons_self ..) (hquiet hstart quiet) call
  | stopped quiet call => exact hcall (List.mem_cons_self ..) (hquiet hstart quiet) call
  | failed e quiet call => exact hcall (List.mem_cons_self ..) (hquiet hstart quiet) call

end Walk

end Walking
