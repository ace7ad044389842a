import BlobStorage.Concurrency.Calls

/-!
# Batches, request by request

What a `put` or `delete` of several keys has exchanged when it returns: the exchanges
of one key after another, each of them aimed at the two objects of its key.
-/

namespace BlobStorage

open Fallible Program

variable {headerSuffix : Key}

/-- The request asks to change the object under `key`. -/
def Targets (key : Key) : StoreExchange → Prop
  | ⟨.put blobs, _⟩ => key ∈ blobs.map BlobInput.key
  | ⟨.delete other, _⟩ => key = other
  | _ => False

/-- An atomic store changes no object but those a request is aimed at. -/
theorem Targets.of_touches {ι : Type} {initial : PlainMap} {history : List (StoreEvent ι)}
    {key : Key} {x : StoreExchange} (hserved : AtomicServes initial history x)
    (h : Touches key x) : Targets key x := by
  obtain ⟨request, response⟩ := x
  cases request with
  | put blobs =>
      obtain ⟨result, written⟩ := response
      cases result with
      | ok result =>
          have hwritten : written = entriesOf blobs := hserved
          subst hwritten
          change key ∈ (entriesOf blobs).map Prod.fst at h
          rwa [entriesOf_keys] at h
      | error e =>
          have hwritten : written = [] := hserved
          subst hwritten
          cases h
  | delete other =>
      cases response with
      | ok _ => exact h
      | error e => exact absurd h not_false
  | _ => exact absurd h not_false

/-- One of the two objects of a key. -/
def IsObjectOf (headerSuffix key other : Key) : Prop :=
  other = key ∨ other = key ++ headerSuffix

/-- The keys named by a batch are not reserved, and its requests are aimed at their
objects only. -/
def AimedAt (headerSuffix : Key) (keys : List Key) (es : List StoreExchange) : Prop :=
  ∀ x ∈ es, ∀ other, Targets other x →
    ∃ key ∈ keys, ¬headerSuffix <:+ key ∧ IsObjectOf headerSuffix key other

theorem AimedAt.nil (keys : List Key) : AimedAt headerSuffix keys [] := by
  intro x hx
  cases hx

theorem AimedAt.append {keys : List Key} {es fs : List StoreExchange}
    (h : AimedAt headerSuffix keys es) (h' : AimedAt headerSuffix keys fs) :
    AimedAt headerSuffix keys (es ++ fs) := by
  intro x hx
  rcases List.mem_append.mp hx with hx | hx
  · exact h x hx
  · exact h' x hx

theorem AimedAt.mono {keys more : List Key} {es : List StoreExchange}
    (h : AimedAt headerSuffix keys es) (hsub : ∀ key ∈ keys, key ∈ more) :
    AimedAt headerSuffix more es := by
  intro x hx other htarget
  obtain ⟨key, hkey, hrest⟩ := h x hx other htarget
  exact ⟨key, hsub key hkey, hrest⟩

/-- Requests of other keys leave both objects of a key alone. -/
theorem AimedAt.not_targets {keys : List Key} {es : List StoreExchange}
    (h : AimedAt headerSuffix keys es) {key : Key} (hkey : key ∉ keys)
    (hsuffix : ¬headerSuffix <:+ key) {x : StoreExchange} (hx : x ∈ es) :
    ¬Targets key x ∧ ¬Targets (key ++ headerSuffix) x := by
  constructor
  · intro htarget
    obtain ⟨other, hother, _, rfl | rfl⟩ := h x hx _ htarget
    · exact hkey hother
    · exact hsuffix (List.suffix_append other headerSuffix)
  · intro htarget
    obtain ⟨other, hother, hreserved, hobject⟩ := h x hx _ htarget
    rcases hobject with rfl | hobject
    · exact hreserved (List.suffix_append key headerSuffix)
    · exact hkey (List.append_cancel_right hobject ▸ hother)

theorem AimedAt.cons {keys : List Key} {x : StoreExchange} {es : List StoreExchange}
    (hx : ∀ other, Targets other x →
      ∃ key ∈ keys, ¬headerSuffix <:+ key ∧ IsObjectOf headerSuffix key other)
    (h : AimedAt headerSuffix keys es) : AimedAt headerSuffix keys (x :: es) := by
  intro y hy
  rcases List.mem_cons.mp hy with rfl | hy
  · exact hx
  · exact h y hy

section Put

theorem PutTrace.aimedAt {blob : BlobInput} {es : List StoreExchange}
    (hsuffix : ¬headerSuffix <:+ blob.key) (h : PutTrace headerSuffix blob es) :
    AimedAt headerSuffix [blob.key] es := by
  have hobject : ∀ other, IsObjectOf headerSuffix blob.key other →
      ∃ key ∈ [blob.key], ¬headerSuffix <:+ key ∧ IsObjectOf headerSuffix key other :=
    fun other hother => ⟨blob.key, List.mem_singleton_self _, hsuffix, hother⟩
  have hencrypt : ∀ run other, Targets other ⟨.encryptStream blob.data, run⟩ →
      ∃ key ∈ [blob.key], ¬headerSuffix <:+ key ∧ IsObjectOf headerSuffix key other :=
    fun run other h => h.elim
  have hput : ∀ key data size written other, IsObjectOf headerSuffix blob.key key →
      Targets other ⟨.put [BlobInput.withSize key data size], written⟩ →
      ∃ key ∈ [blob.key], ¬headerSuffix <:+ key ∧ IsObjectOf headerSuffix key other := by
    intro key data size written other hkey htarget
    obtain rfl : other = key := List.mem_singleton.mp htarget
    exact hobject other hkey
  have hdelete : ∀ deleted other, Targets other ⟨.delete blob.key, deleted⟩ →
      ∃ key ∈ [blob.key], ¬headerSuffix <:+ key ∧ IsObjectOf headerSuffix key other :=
    fun deleted other htarget => hobject other (.inl htarget)
  have hdata := fun data size written other => hput blob.key data size written other (.inl rfl)
  have hheader := fun data size written other =>
    hput (blob.key ++ headerSuffix) data size written other (.inr rfl)
  cases h with
  | start => exact .nil _
  | encrypted run => exact .cons (hencrypt run) (.nil _)
  | dataPut run written => exact .cons (hencrypt run) (.cons (hdata _ _ _) (.nil _))
  | unencrypted run result objects deleted noHeader =>
      exact .cons (hencrypt run) (.cons (hdata _ _ _) (.cons (hdelete deleted) (.nil _)))
  | headerPut run result objects header written hasHeader =>
      exact .cons (hencrypt run) (.cons (hdata _ _ _) (.cons (hheader _ _ _) (.nil _)))
  | rolledBack run result objects header e headerObjects deleted hasHeader =>
      exact .cons (hencrypt run) (.cons (hdata _ _ _)
        (.cons (hheader _ _ _) (.cons (hdelete deleted) (.nil _))))

/-- What one blob of a batch has exchanged when its turn is over. -/
theorem putBlob_traces {blob : BlobInput} {es : List StoreExchange}
    {r : Except BlobStorageError (List BlobMeta)}
    (h : Traces ((requestLayer headerSuffix).putBlob blob) es r) :
    PutTrace headerSuffix blob es ∧ ∀ infos, r = .ok infos → PutDone headerSuffix blob es := by
  unfold Traces at h
  rw [putBlob_run] at h
  obtain ⟨z, hpath, hz⟩ := path_map h
  obtain ⟨htrace, hdone⟩ := putRequests_path hpath
  refine ⟨htrace, ?_⟩
  rintro infos rfl
  obtain ⟨result, rfl, hresult⟩ := map_eq_done_iff.mp hz.symm
  cases result with
  | ok result => exact hdone result rfl
  | error e => cases hresult

/-- Among the exchanges of a batch are those of a whole put of `blob`, followed by
those of the blobs behind it. -/
def PutAmong (headerSuffix : Key) (blob : BlobInput) (behind : List BlobInput)
    (es : List StoreExchange) : Prop :=
  ∃ before own after, es = before ++ own ++ after ∧ PutDone headerSuffix blob own ∧
    AimedAt headerSuffix (behind.map BlobInput.key) after

/-- A batch is aimed at the objects of its keys, and one that goes through has put each
of its blobs. -/
theorem putBlobs_traces {blobs : List BlobInput} {es : List StoreExchange}
    {r : Except BlobStorageError (List BlobMeta)}
    (haccepts : ∀ blob ∈ blobs, AcceptsPut headerSuffix blob.key)
    (h : Traces ((requestLayer headerSuffix).putBlobs blobs) es r) :
    AimedAt headerSuffix (blobs.map BlobInput.key) es ∧
      ∀ infos, r = .ok infos → ∀ front blob behind, blobs = front ++ blob :: behind →
        PutAmong headerSuffix blob behind es := by
  induction blobs generalizing es r with
  | nil =>
      obtain ⟨rfl, rfl⟩ := traces_pure_iff.mp h
      exact ⟨.nil _, fun infos _ front blob behind hsplit => by simp at hsplit⟩
  | cons first rest ih =>
      rw [List.forall_mem_cons] at haccepts
      have hhead : ∀ key ∈ [first.key], key ∈ (first :: rest).map BlobInput.key := by simp
      have htail : ∀ key ∈ rest.map BlobInput.key, key ∈ (first :: rest).map BlobInput.key := by
        intro key hkey
        exact List.mem_cons_of_mem _ hkey
      rcases traces_bind_iff.mp h with ⟨e, rfl, hfirst⟩ | ⟨infos, es₁, es₂, rfl, hfirst, hrest⟩
      · obtain ⟨htrace, _⟩ := putBlob_traces hfirst
        exact ⟨(htrace.aimedAt haccepts.1.2.1).mono hhead, fun infos hr => by cases hr⟩
      obtain ⟨htrace, hdone⟩ := putBlob_traces hfirst
      have haimed := (htrace.aimedAt haccepts.1.2.1).mono hhead
      rcases traces_bind_iff.mp hrest with ⟨e, rfl, hothers⟩ | ⟨others, es₃, es₄, rfl, hothers, hpure⟩
      · obtain ⟨haimed', _⟩ := ih haccepts.2 hothers
        exact ⟨haimed.append (haimed'.mono htail), fun infos hr => by cases hr⟩
      obtain ⟨rfl, rfl⟩ := traces_pure_iff.mp hpure
      obtain ⟨haimed', hothersDone⟩ := ih haccepts.2 hothers
      rw [List.append_nil]
      refine ⟨haimed.append (haimed'.mono htail), ?_⟩
      intro _ _ front blob behind hsplit
      cases front with
      | nil =>
          cases hsplit
          exact ⟨[], es₁, es₃, rfl, hdone infos rfl, haimed'⟩
      | cons other front =>
          cases hsplit
          obtain ⟨before, own, after, rfl, hown, hafter⟩ :=
            hothersDone others rfl front blob behind rfl
          exact ⟨es₁ ++ before, own, after, by simp, hown, hafter⟩

/-- What a finished `put` of a batch has exchanged. -/
theorem put_traces {blobs : List BlobInput} {es : List StoreExchange}
    {r : Except BlobStorageError PutResult}
    (h : Traces ((requestLayer headerSuffix).put blobs) es r) :
    AimedAt headerSuffix (blobs.map BlobInput.key) es ∧
      ∀ result, r = .ok result →
        (∀ blob ∈ blobs, AcceptsPut headerSuffix blob.key) ∧
          ∀ front blob behind, blobs = front ++ blob :: behind →
            PutAmong headerSuffix blob behind es := by
  unfold EncryptedBlobStore.put at h
  rcases checkPutKeys_cases headerSuffix (blobs.map BlobInput.key) with
    ⟨haccepts, hcheck⟩ | ⟨_, e, hcheck⟩
  · rw [List.forall_mem_map] at haccepts
    rw [hcheck] at h
    change Traces (do let infos ← (requestLayer headerSuffix).putBlobs blobs
                      pure { blobs := infos }) es r at h
    rcases traces_bind_iff.mp h with ⟨e, rfl, hblobs⟩ | ⟨infos, es₁, es₂, rfl, hblobs, hpure⟩
    · exact ⟨(putBlobs_traces haccepts hblobs).1, fun result hr => by cases hr⟩
    · obtain ⟨rfl, rfl⟩ := traces_pure_iff.mp hpure
      obtain ⟨haimed, hdone⟩ := putBlobs_traces haccepts hblobs
      rw [List.append_nil]
      exact ⟨haimed, fun _ _ => ⟨haccepts, hdone infos rfl⟩⟩
  · rw [hcheck] at h
    obtain ⟨rfl, rfl⟩ := traces_throw_iff.mp h
    exact ⟨.nil _, fun result hr => by cases hr⟩

end Put

section Delete

/-- The loop over the keys of a batch deletes each of them in turn, unless a request
ends it. -/
theorem deleteEach_traces {keys : List Key} {es : List StoreExchange}
    {r : Except BlobStorageError (List Key × List KeyError)}
    (h : Traces (deleteEach keys) es r) :
    (∀ x ∈ es, ∃ key ∈ keys, ∃ response, x = ⟨.delete key, response⟩) ∧
      (∀ report, r ≠ .error (.batch report)) ∧
      ∀ outcome, r = .ok outcome → ∀ front key behind, keys = front ++ key :: behind →
        ∃ before response after, es = before ++ ⟨.delete key, response⟩ :: after ∧
          ∀ x ∈ after, ∃ other ∈ behind, ∃ response, x = ⟨.delete other, response⟩ := by
  induction keys generalizing es r with
  | nil =>
      obtain ⟨rfl, rfl⟩ := traces_pure_iff.mp h
      exact ⟨by simp, by simp, fun outcome _ front key behind hsplit => by simp at hsplit⟩
  | cons first rest ih =>
      have hstep : ∃ response after, es = ⟨.delete first, response⟩ :: after ∧
          ((after = [] ∧ ∃ e, r = .error e ∧ ∀ report, e ≠ .batch report) ∨
            ∃ outcome, Traces (deleteEach rest) after outcome ∧
              ((∃ e, r = .error e ∧ outcome = .error e) ∨
                ∃ pair pair', outcome = .ok pair ∧ r = .ok pair')) := by
        rcases traces_bind_iff.mp h with ⟨e, rfl, hask⟩ | ⟨response, es₁, es₂, rfl, hask, hrest⟩
        · obtain ⟨a, ha, _⟩ := traces_perform_iff.mp hask
          cases ha
        obtain ⟨_, ha, hpath⟩ := traces_perform_iff.mp hask
        cases ha
        obtain ⟨response', rfl, hresponse⟩ : ∃ response', es₁ = [⟨.delete first, response'⟩] ∧
            response' = response := by
          rcases path_request_iff.mp hpath with ⟨_, hnone⟩ | ⟨response', es₃, rfl, hdone⟩
          · cases hnone
          · obtain ⟨rfl, hresponse⟩ := path_done_iff.mp hdone
            exact ⟨_, rfl, (done.inj hresponse).symm⟩
        subst hresponse
        refine ⟨response', es₂, rfl, ?_⟩
        have hloop : ∀ (k : List Key × List KeyError → List Key × List KeyError),
            Traces (deleteEach rest >>= fun pair => pure (k (pair.1, pair.2))) es₂ r →
            ∃ outcome, Traces (deleteEach rest) es₂ outcome ∧
              ((∃ e, r = .error e ∧ outcome = .error e) ∨
                ∃ pair pair', outcome = .ok pair ∧ r = .ok pair') := by
          intro k hk
          rcases traces_bind_iff.mp hk with ⟨e, rfl, hfailed⟩ | ⟨pair, es₃, es₄, rfl, hpair, hpure⟩
          · exact ⟨_, hfailed, .inl ⟨e, rfl, rfl⟩⟩
          · obtain ⟨rfl, rfl⟩ := traces_pure_iff.mp hpure
            rw [List.append_nil]
            exact ⟨_, hpair, .inr ⟨pair, _, rfl, rfl⟩⟩
        cases response' with
        | ok _ => exact .inr (hloop (fun p => (first :: p.1, p.2)) hrest)
        | error failure =>
            cases failure with
            | key e =>
                exact .inr (hloop (fun p => (p.1, { key := first, error := e } :: p.2)) hrest)
            | request e whole =>
                obtain ⟨rfl, rfl⟩ := traces_throw_iff.mp hrest
                exact .inl ⟨rfl, e, rfl, whole⟩
      obtain ⟨response, after, rfl, hafter⟩ := hstep
      rcases hafter with ⟨rfl, e, rfl, hwhole⟩ | ⟨outcome, hrest, houtcome⟩
      · refine ⟨?_, fun report hr => hwhole report (Except.error.inj hr), fun _ hr => by cases hr⟩
        intro x hx
        obtain rfl := List.mem_singleton.mp hx
        exact ⟨first, List.mem_cons_self, response, rfl⟩
      · obtain ⟨hmem, hwhole, hkeys⟩ := ih hrest
        refine ⟨?_, ?_, ?_⟩
        · intro x hx
          rcases List.mem_cons.mp hx with rfl | hx
          · exact ⟨first, List.mem_cons_self, response, rfl⟩
          · obtain ⟨key, hkey, hx⟩ := hmem x hx
            exact ⟨key, List.mem_cons_of_mem _ hkey, hx⟩
        · rintro report rfl
          obtain ⟨e, he, rfl⟩ | ⟨_, _, _, hr⟩ := houtcome
          · cases he
            exact hwhole report rfl
          · cases hr
        · rintro pair rfl front key behind hsplit
          cases front with
          | nil =>
              cases hsplit
              exact ⟨[], response, after, rfl, hmem⟩
          | cons other front =>
              cases hsplit
              obtain ⟨e, he, _⟩ | ⟨pair', _, rfl, _⟩ := houtcome
              · cases he
              obtain ⟨before, response', after', rfl, hafter'⟩ := hkeys pair' rfl front key behind rfl
              exact ⟨⟨.delete first, response⟩ :: before, response', after', rfl, hafter'⟩

theorem checkDeleteKeys_cases (headerSuffix : Key) (keys : List Key) :
    ((∀ key ∈ keys, ¬headerSuffix <:+ key) ∧
        (requestLayer headerSuffix).checkDeleteKeys keys = pure ()) ∨
      ∃ e, (requestLayer headerSuffix).checkDeleteKeys keys = throw e := by
  induction keys with
  | nil => exact .inl ⟨by simp, rfl⟩
  | cons key rest ih =>
      rw [List.forall_mem_cons, EncryptedBlobStore.checkDeleteKeys]
      by_cases hsuffix : headerSuffix <:+ key
      · have hcollision : (requestLayer headerSuffix).checkNoHeaderCollision key =
            throw _ := if_pos hsuffix
        rw [hcollision]
        exact .inr ⟨_, rfl⟩
      · have hcollision : (requestLayer headerSuffix).checkNoHeaderCollision key =
            pure () := if_neg hsuffix
        rw [hcollision]
        rcases ih with ⟨hall, hrest⟩ | ⟨e, hrest⟩
        · exact .inl ⟨⟨hsuffix, hall⟩, hrest⟩
        · exact .inr ⟨e, hrest⟩

/-- Both objects of each key of a batch. -/
def objectKeys (headerSuffix : Key) (keys : List Key) : List Key :=
  keys.flatMap fun key => [key, key ++ headerSuffix]

theorem mem_objectKeys {keys : List Key} {other : Key} :
    other ∈ objectKeys headerSuffix keys ↔ ∃ key ∈ keys, IsObjectOf headerSuffix key other := by
  simp [objectKeys, IsObjectOf]

theorem aimedAt_of_objectKeys {keys : List Key} {es : List StoreExchange}
    (hsuffix : ∀ key ∈ keys, ¬headerSuffix <:+ key)
    (h : ∀ x ∈ es, ∃ other ∈ objectKeys headerSuffix keys, ∃ response,
      x = ⟨.delete other, response⟩) : AimedAt headerSuffix keys es := by
  intro x hx other htarget
  obtain ⟨other', hmem, response, rfl⟩ := h x hx
  obtain rfl : other = other' := htarget
  obtain ⟨key, hkey, hobject⟩ := mem_objectKeys.mp hmem
  exact ⟨key, hkey, hsuffix key hkey, hobject⟩

/-- Among the exchanges of a batch is the delete of the header of `key`, followed by
those of the keys behind it. -/
def HeaderDeleteAmong (headerSuffix key : Key) (behind : List Key) (es : List StoreExchange) :
    Prop :=
  ∃ before response after, es = before ++ ⟨.delete (key ++ headerSuffix), response⟩ :: after ∧
    AimedAt headerSuffix behind after

/-- What a finished `delete` of a batch has exchanged. It may have returned `Ok` although
it could not delete a header, but not without having tried. -/
theorem delete_traces {keys : List Key} {es : List StoreExchange}
    {r : Except BlobStorageError Unit}
    (h : Traces ((requestLayer headerSuffix).delete keys) es r) :
    AimedAt headerSuffix keys es ∧
      (r = .ok () → (∀ key ∈ keys, ¬headerSuffix <:+ key) ∧
        ∀ front key behind, keys = front ++ key :: behind →
          HeaderDeleteAmong headerSuffix key behind es) := by
  unfold EncryptedBlobStore.delete at h
  rcases checkDeleteKeys_cases headerSuffix keys with ⟨hsuffix, hcheck⟩ | ⟨e, hcheck⟩
  swap
  · rw [hcheck] at h
    obtain ⟨rfl, rfl⟩ := traces_throw_iff.mp h
    exact ⟨.nil _, fun hr => by cases hr⟩
  rw [hcheck] at h
  rcases traces_bind_iff.mp h with ⟨e, rfl, hpure⟩ | ⟨_, es₀, es₁, rfl, hpure, hbatch⟩
  · obtain ⟨_, he⟩ := traces_pure_iff.mp hpure
    cases he
  obtain ⟨rfl, _⟩ := traces_pure_iff.mp hpure
  rcases traces_bind_iff.mp hbatch with ⟨e, rfl, hinner⟩ | ⟨outcome, es₂, es₃, rfl, hinner, hreport⟩
  · obtain ⟨_, he, _⟩ := traces_attempt_iff.mp hinner
    cases he
  obtain ⟨_, he, hinner⟩ := traces_attempt_iff.mp hinner
  cases he
  have hempty : es₃ = [] := by
    cases outcome with
    | ok _ => exact (traces_pure_iff.mp hreport).1
    | error e =>
        cases e with
        | batch report =>
            change Traces (if _ then _ else _) es₃ r at hreport
            split at hreport
            · exact (traces_pure_iff.mp hreport).1
            · exact (traces_throw_iff.mp hreport).1
        | _ => exact (traces_throw_iff.mp hreport).1
  subst hempty
  have hloop : ∃ each, Traces (deleteEach (objectKeys headerSuffix keys)) es₂ each ∧
      ((∃ e, each = .error e ∧ outcome = .error e) ∨ ∃ pair, each = .ok pair) := by
    rcases traces_bind_iff.mp hinner with ⟨e, rfl, heach⟩ | ⟨pair, es₄, es₅, rfl, heach, hresult⟩
    · exact ⟨_, heach, .inl ⟨e, rfl, rfl⟩⟩
    · have hempty : es₅ = [] := by
        change Traces (if _ then _ else _) es₅ outcome at hresult
        split at hresult
        · exact (traces_pure_iff.mp hresult).1
        · exact (traces_throw_iff.mp hresult).1
      rw [hempty, List.append_nil]
      exact ⟨_, heach, .inr ⟨pair, rfl⟩⟩
  obtain ⟨each, heach, heachOutcome⟩ := hloop
  obtain ⟨hmem, hwhole, hkeys⟩ := deleteEach_traces heach
  rw [List.nil_append, List.append_nil]
  refine ⟨aimedAt_of_objectKeys hsuffix hmem, ?_⟩
  rintro rfl
  refine ⟨hsuffix, ?_⟩
  rintro front key behind rfl
  obtain ⟨pair, rfl⟩ : ∃ pair, each = .ok pair := by
    rcases heachOutcome with ⟨e, rfl, rfl⟩ | hok
    · cases e with
      | batch report => exact absurd rfl (hwhole report)
      | _ =>
          obtain ⟨_, hr⟩ := traces_throw_iff.mp hreport
          cases hr
    · exact hok
  obtain ⟨before, response, after, rfl, hafter⟩ := hkeys pair rfl
    (objectKeys headerSuffix front ++ [key]) (key ++ headerSuffix) (objectKeys headerSuffix behind)
    (by simp [objectKeys])
  exact ⟨before, response, after, rfl, aimedAt_of_objectKeys
    (fun other hother => hsuffix other (by simp [hother])) hafter⟩

end Delete

end BlobStorage
