import BlobStorage.Concurrency.Batches

/-!
# Rekey and users, request by request

What a finished `rekey` has exchanged with the inner store, and what the calls of users
have, one call after another.
-/

namespace BlobStorage

open Fallible Program

variable {headerSuffix : Key}

section RekeyTrace

/-- What rekey exchanges for one header. -/
inductive RekeyStep (key : Key) : List StoreExchange → Prop where
  | fetched (response : Except BlobStorageError Reader) :
      RekeyStep key [⟨.get key, response⟩]
  | kept (reader : Reader) (header : Bytes) (response : Except EncryptionError (Option Bytes))
      (nothingNew : ∀ newHeader, response ≠ .ok (some newHeader)) :
      RekeyStep key [⟨.get key, .ok reader⟩, ⟨.rekeyHeader header, response⟩]
  | replaced (reader : Reader) (header newHeader : Bytes)
      (written : Except BlobStorageError PutResult × List (Key × Bytes))
      (read : reader.readToEnd = .ok header) :
      RekeyStep key [⟨.get key, .ok reader⟩, ⟨.rekeyHeader header, .ok (some newHeader)⟩,
        ⟨.put [BlobInput.withSize key (Reader.ofBytes newHeader) header.length], written⟩]

theorem rekeyVisitor_traces {key : Key} {info : Option BlobMeta} {count : Nat}
    {es : List StoreExchange} {r : Except BlobStorageError Bool}
    (h : TracesLocal ((requestLayer headerSuffix).rekeyVisitor.visit key info) count es r) :
    RekeyStep key es := by
  unfold EncryptedBlobStore.rekeyVisitor at h
  obtain ⟨e, rfl, hget⟩ | ⟨fetched, k, es₁, es₂, rfl, hget, hrest⟩ := tracesLocal_bind h
  · obtain ⟨_, he, _⟩ := traces_attempt_iff.mp (tracesLocal_withLocal hget)
    cases he
  obtain ⟨_, he, hask⟩ := traces_attempt_iff.mp (tracesLocal_withLocal hget)
  cases he
  obtain ⟨response, rfl, rfl⟩ := traces_ask_iff.mp hask
  cases fetched with
  | error e =>
      obtain ⟨rfl, _⟩ := tracesLocal_pure_iff.mp hrest
      exact .fetched (.error e)
  | ok reader =>
      dsimp only at hrest
      cases hread : reader.readToEnd with
      | error failure =>
          rw [hread] at hrest
          obtain ⟨rfl, _⟩ := tracesLocal_throw_iff.mp hrest
          exact .fetched (.ok reader)
      | ok header =>
          rw [hread] at hrest
          obtain ⟨e, rfl, hrekey⟩ | ⟨rewrapped, k', es₃, es₄, rfl, hrekey, hput⟩ :=
            tracesLocal_bind hrest
          · obtain ⟨_, he, _⟩ := tracesLocal_performLocal hrekey
            cases he
          obtain ⟨_, he, hpath⟩ := tracesLocal_performLocal hrekey
          cases he
          obtain ⟨_, hnone⟩ | ⟨response, es₅, rfl, hdone⟩ := path_request_iff.mp hpath
          · cases hnone
          obtain ⟨rfl, hresponse⟩ := path_done_iff.mp hdone
          obtain rfl := done.inj hresponse
          obtain _ | _ | newHeader := rewrapped
          · obtain ⟨rfl, _⟩ := tracesLocal_pure_iff.mp hput
            exact .kept reader header _ fun newHeader h => by cases h
          · obtain ⟨rfl, _⟩ := tracesLocal_pure_iff.mp hput
            exact .kept reader header _ fun newHeader h => by cases h
          · obtain ⟨e, rfl, hinner⟩ | ⟨outcome, k₁, es₆, es₇, rfl, hinner, hcount⟩ :=
              tracesLocal_bind hput
            · obtain ⟨_, he, _⟩ := traces_attempt_iff.mp (tracesLocal_withLocal hinner)
              cases he
            obtain ⟨_, he, hask⟩ := traces_attempt_iff.mp (tracesLocal_withLocal hinner)
            cases he
            obtain ⟨written, rfl, rfl⟩ := traces_ask_iff.mp hask
            have hempty : es₇ = [] := by
              obtain ⟨result, objects⟩ := written
              cases result with
              | error e => exact (tracesLocal_pure_iff.mp hcount).1
              | ok result =>
                  obtain ⟨e, rfl, hget⟩ | ⟨n, k₂, es₈, es₉, rfl, hget, hset⟩ :=
                    tracesLocal_bind hcount
                  · exact tracesLocal_getLocal hget
                  obtain rfl := tracesLocal_getLocal hget
                  obtain ⟨e, rfl, hfailed⟩ | ⟨_, k₃, es₁, es₂, rfl, hdone, hpure⟩ :=
                    tracesLocal_bind hset
                  · exact tracesLocal_setLocal hfailed
                  obtain rfl := tracesLocal_setLocal hdone
                  exact (tracesLocal_pure_iff.mp hpure).1
            rw [hempty]
            exact .replaced reader header newHeader written hread

/-- Each write of `es` puts back, re-wrapped, the header that was fetched just before. -/
def WritesBack (es : List StoreExchange) : Prop :=
  ∀ before x after, es = before ++ x :: after → ∀ key, Targets key x →
    ∃ front reader header newHeader written, reader.readToEnd = .ok header ∧
      before = front ++ [⟨.get key, .ok reader⟩, ⟨.rekeyHeader header, .ok (some newHeader)⟩] ∧
      x = ⟨.put [BlobInput.withSize key (Reader.ofBytes newHeader) header.length], written⟩

theorem WritesBack.nil : WritesBack [] := by
  intro before x after hsplit
  simp at hsplit

theorem WritesBack.append {es fs : List StoreExchange} (h : WritesBack es) (h' : WritesBack fs) :
    WritesBack (es ++ fs) := by
  intro before x after hsplit key htarget
  obtain ⟨back, rfl, hback⟩ | ⟨back, rfl, hback⟩ := List.append_eq_append_iff.mp hsplit
  · obtain ⟨front, reader, header, newHeader, written, hread, rfl, hx⟩ :=
      h' back x after hback key htarget
    exact ⟨es ++ front, reader, header, newHeader, written, hread, by simp, hx⟩
  · cases back with
    | nil =>
        obtain ⟨front, reader, header, newHeader, written, hread, hfront, hx⟩ :=
          h' [] x after hback.symm key htarget
        simp at hfront
    | cons y back =>
        cases hback
        exact h before x back rfl key htarget

theorem WritesBack.of_not_targets {es : List StoreExchange}
    (h : ∀ x ∈ es, ∀ key, ¬Targets key x) : WritesBack es := by
  rintro before x after rfl key htarget
  exact absurd htarget (h x (by simp) key)

theorem RekeyStep.writesBack {key : Key} {es : List StoreExchange} (h : RekeyStep key es) :
    WritesBack es := by
  cases h with
  | fetched response => exact .of_not_targets (by simp [Targets])
  | kept reader header response nothingNew => exact .of_not_targets (by simp [Targets])
  | replaced reader header newHeader written read =>
      intro before x after hsplit other htarget
      match before, hsplit with
      | [], hsplit =>
          cases hsplit
          exact htarget.elim
      | [_], hsplit =>
          cases hsplit
          exact htarget.elim
      | [_, _], hsplit =>
          cases hsplit
          obtain rfl : other = key := List.mem_singleton.mp htarget
          exact ⟨[], reader, header, newHeader, written, read, rfl, rfl⟩
      | _ :: _ :: _ :: _, hsplit => simp at hsplit

theorem RekeyStep.targets {key other : Key} {es : List StoreExchange} (h : RekeyStep key es)
    {x : StoreExchange} (hx : x ∈ es) (htarget : Targets other x) : other = key := by
  cases h with
  | fetched response =>
      obtain rfl := List.mem_singleton.mp hx
      exact htarget.elim
  | kept reader header response nothingNew =>
      obtain rfl | rfl := List.mem_pair.mp hx
      · exact htarget.elim
      · exact htarget.elim
  | replaced reader header newHeader written read =>
      simp only [List.mem_cons, List.not_mem_nil, or_false] at hx
      obtain rfl | rfl | rfl := hx
      · exact htarget.elim
      · exact htarget.elim
      · exact List.mem_singleton.mp htarget

/-- A finished `rekey` has asked for the headers and then exchanged a step for each of them, for
as long as it went on. -/
theorem rekey_steps {es : List StoreExchange} {r : Except BlobStorageError RekeyResult}
    (h : Traces (requestLayer headerSuffix).rekey es r) :
    ∃ response, ∃ steps : List (List StoreExchange),
      es = ⟨.enumerate (suffixFilter headerSuffix), response⟩ :: steps.flatten ∧
      ∀ step ∈ steps, ∃ entries key info, response = .ok entries ∧ (key, info) ∈ entries ∧
        RekeyStep key step := by
  have hvisit : ∀ (entries : List (Key × Option BlobMeta)) (count : Nat) es result,
      TracesLocal (visitEach (requestLayer headerSuffix).rekeyVisitor entries) count es result →
        ∃ steps : List (List StoreExchange), es = steps.flatten ∧
          ∀ step ∈ steps, ∃ key info, (key, info) ∈ entries ∧ RekeyStep key step := by
    intro entries
    induction entries with
    | nil =>
        intro count es result h
        obtain ⟨rfl, _⟩ := tracesLocal_pure_iff.mp h
        exact ⟨[], rfl, by simp⟩
    | cons entry rest ih =>
        intro count es result h
        obtain ⟨key, info⟩ := entry
        obtain ⟨e, rfl, hfirst⟩ | ⟨more, k, es₁, es₂, rfl, hfirst, hrest⟩ := tracesLocal_bind h
        · refine ⟨[es], (List.append_nil es).symm, fun step hstep => ?_⟩
          rw [List.mem_singleton.mp hstep]
          exact ⟨key, info, List.mem_cons_self, rekeyVisitor_traces hfirst⟩
        · have hothers : ∃ steps : List (List StoreExchange), es₂ = steps.flatten ∧
              ∀ step ∈ steps, ∃ key info, (key, info) ∈ rest ∧ RekeyStep key step := by
            cases more with
            | true => exact ih k es₂ result hrest
            | false =>
                obtain ⟨rfl, _⟩ := tracesLocal_pure_iff.mp hrest
                exact ⟨[], rfl, by simp⟩
          obtain ⟨steps, rfl, hsteps⟩ := hothers
          refine ⟨es₁ :: steps, rfl, fun step hstep => ?_⟩
          obtain rfl | hstep := List.mem_cons.mp hstep
          · exact ⟨key, info, List.mem_cons_self, rekeyVisitor_traces hfirst⟩
          · obtain ⟨other, info', hmem, hother⟩ := hsteps step hstep
            exact ⟨other, info', List.mem_cons_of_mem _ hmem, hother⟩
  have hscope : ∃ result, TracesLocal ((requestLayer headerSuffix).inner.visit
      (suffixFilter headerSuffix) (requestLayer headerSuffix).rekeyVisitor) 0 es result := by
    unfold EncryptedBlobStore.rekey at h
    obtain ⟨e, rfl, hscope⟩ | ⟨pair, es₁, es₂, rfl, hscope, hpure⟩ := traces_bind_iff.mp h
    · exact traces_scopeLocal hscope
    · obtain ⟨rfl, _⟩ := traces_pure_iff.mp hpure
      rw [List.append_nil]
      exact traces_scopeLocal hscope
  obtain ⟨result, hscope⟩ := hscope
  obtain ⟨e, rfl, hlist⟩ | ⟨entries, k, es₁, es₂, rfl, hlist, heach⟩ := tracesLocal_bind hscope
  · obtain ⟨response, rfl, _⟩ := traces_ask_iff.mp (tracesLocal_withLocal hlist)
    exact ⟨response, [], rfl, List.forall_mem_nil _⟩
  · obtain ⟨response, rfl, hresponse⟩ := traces_ask_iff.mp (tracesLocal_withLocal hlist)
    obtain ⟨steps, rfl, hsteps⟩ := hvisit entries k es₂ result heach
    refine ⟨response, steps, rfl, fun step hstep => ?_⟩
    obtain ⟨key, info, hmem, hkey⟩ := hsteps step hstep
    exact ⟨entries, key, info, hresponse.symm, hmem, hkey⟩

/-- What a finished `rekey` has exchanged: besides reading, it writes back headers that
the listing gave it. -/
theorem rekey_traces {es : List StoreExchange} {r : Except BlobStorageError RekeyResult}
    (h : Traces (requestLayer headerSuffix).rekey es r) :
    WritesBack es ∧ ∀ x ∈ es, ∀ key, Targets key x → ∃ entries,
      (⟨.enumerate (suffixFilter headerSuffix), .ok entries⟩ : StoreExchange) ∈ es ∧
        ∃ info, (key, info) ∈ entries := by
  obtain ⟨response, steps, rfl, hsteps⟩ := rekey_steps h
  have hfirst : WritesBack
      [(⟨.enumerate (suffixFilter headerSuffix), response⟩ : StoreExchange)] :=
    .of_not_targets (by simp [Targets])
  have hback : ∀ steps : List (List StoreExchange), (∀ step ∈ steps, WritesBack step) →
      WritesBack steps.flatten := by
    intro steps
    induction steps with
    | nil => exact fun _ => .nil
    | cons step rest ih =>
        intro hall
        rw [List.forall_mem_cons] at hall
        exact hall.1.append (ih hall.2)
  refine ⟨hfirst.append (hback steps fun step hstep => ?_), fun x hx key htarget => ?_⟩
  · obtain ⟨_, _, _, _, _, hkey⟩ := hsteps step hstep
    exact hkey.writesBack
  · obtain rfl | hx := List.mem_cons.mp hx
    · exact htarget.elim
    · obtain ⟨step, hstep, hin⟩ := List.mem_flatten.mp hx
      obtain ⟨entries, other, info, rfl, hmem, hother⟩ := hsteps step hstep
      obtain rfl := hother.targets hin htarget
      exact ⟨entries, List.mem_cons_self, info, hmem⟩

end RekeyTrace

section Users

inductive UserCall where
  | put (blobs : List BlobInput)
  | delete (keys : List Key)

namespace UserCall

/-- The keys that the call is about. -/
def keys : UserCall → List Key
  | .put blobs => blobs.map BlobInput.key
  | .delete keys => keys

def program (headerSuffix : Key) : UserCall → Fallible StoreProgram Unit
  | .put blobs => do
      let _ ← (requestLayer headerSuffix).put blobs
      pure ()
  | .delete keys => (requestLayer headerSuffix).delete keys

end UserCall

abbrev UserLog := List (UserCall × Except BlobStorageError Unit)

/-- The calls of the users one after another, and what each returned. -/
def userProgram (headerSuffix : Key) : List UserCall → StoreProgram UserLog
  | [] => .done []
  | call :: rest => do
      let result ← (call.program headerSuffix).run
      let log ← userProgram headerSuffix rest
      .done ((call, result) :: log)

/-- A put that returned `Ok` put every blob, and a delete tried every header. -/
def UserCall.Did (headerSuffix : Key) (es : List StoreExchange) : UserCall → Prop
  | .put blobs => (∀ blob ∈ blobs, AcceptsPut headerSuffix blob.key) ∧
      ∀ front blob behind, blobs = front ++ blob :: behind → PutAmong headerSuffix blob behind es
  | .delete keys => (∀ key ∈ keys, ¬headerSuffix <:+ key) ∧
      ∀ front key behind, keys = front ++ key :: behind →
        HeaderDeleteAmong headerSuffix key behind es

theorem UserCall.traces {call : UserCall} {es : List StoreExchange}
    {r : Except BlobStorageError Unit} (h : Traces (call.program headerSuffix) es r) :
    AimedAt headerSuffix call.keys es ∧ (r = .ok () → call.Did headerSuffix es) := by
  cases call with
  | put blobs =>
      obtain ⟨e, rfl, hput⟩ | ⟨result, es₁, es₂, rfl, hput, hpure⟩ := traces_bind_iff.mp h
      · exact ⟨(put_traces hput).1, fun hr => by cases hr⟩
      · obtain ⟨rfl, rfl⟩ := traces_pure_iff.mp hpure
        obtain ⟨haimed, hdone⟩ := put_traces hput
        rw [List.append_nil]
        exact ⟨haimed, fun _ => hdone result rfl⟩
  | delete keys => exact delete_traces h

/-- The exchanges of the users, from one of their calls on. -/
theorem userProgram_path {calls : List UserCall} {es : List StoreExchange} {log : UserLog}
    (h : Path (userProgram headerSuffix calls) es (.done log)) :
    AimedAt headerSuffix (log.flatMap fun entry => entry.1.keys) es ∧
      ∀ earlier call later, log = earlier ++ (call, .ok ()) :: later →
        ∃ before own after, es = before ++ own ++ after ∧ call.Did headerSuffix own ∧
          AimedAt headerSuffix (later.flatMap fun entry => entry.1.keys) after := by
  induction calls generalizing es log with
  | nil =>
      obtain ⟨rfl, hlog⟩ := path_done_iff.mp h
      obtain rfl := done.inj hlog
      exact ⟨.nil _, fun earlier call later hsplit => by simp at hsplit⟩
  | cons call rest ih =>
      obtain ⟨result, es₁, es₂, rfl, hcall, hrest⟩ := path_bind_done_iff.mp h
      obtain ⟨log', es₃, es₄, rfl, hothers, hdone⟩ := path_bind_done_iff.mp hrest
      obtain ⟨rfl, hlog⟩ := path_done_iff.mp hdone
      obtain rfl := done.inj hlog
      obtain ⟨haimed, hdid⟩ := UserCall.traces hcall
      obtain ⟨haimed', hrest'⟩ := ih hothers
      rw [List.append_nil, List.flatMap_cons]
      constructor
      · exact (haimed.mono fun key hkey => List.mem_append_left _ hkey).append
          (haimed'.mono fun key hkey => List.mem_append_right _ hkey)
      · intro earlier call' later hsplit
        cases earlier with
        | nil =>
            cases hsplit
            exact ⟨[], es₁, es₃, rfl, hdid rfl, haimed'⟩
        | cons entry earlier =>
            cases hsplit
            obtain ⟨before, own, after, rfl, hown, hafter⟩ := hrest' earlier call' later rfl
            exact ⟨es₁ ++ before, own, after, by simp, hown, hafter⟩

end Users

end BlobStorage
