import BlobStorage.Concurrency.Calls

/-!
# Puts and gets of one key that interleave

Any number of calls on the same key of the encrypted layer, over an inner store whose
requests are atomic. Nothing locks the key, so the data object and the header object
are each those of whoever wrote them last. A get therefore pairs the ciphertext of
one put with the header of another as soon as a second put comes between.
-/

namespace BlobStorage

open Program

inductive KeyCall where
  | put (data : Reader) (sizeHint : Option Nat)
  | get

inductive KeyResult where
  | put (result : Except BlobStorageError PutResult)
  | get (result : Except BlobStorageError Reader)

/-- The call as a program over the inner store. -/
def KeyCall.program (headerSuffix key : Key) : KeyCall → StoreProgram KeyResult
  | .put data sizeHint => do
      let result ← ((requestLayer headerSuffix).put [{ key, data, sizeHint }]).run
      .done (.put result)
  | .get => do
      let result ← ((requestLayer headerSuffix).get key).run
      .done (.get result)

variable {ι : Type}

/-- Every encryption produces its own header, and decryption yields a plaintext just
for the ciphertext and header that one encryption produced from it. -/
def PairServes (history : List (StoreEvent ι)) : StoreExchange → Prop
  | ⟨.encryptStream _, run⟩ => ∀ header, run.outcome = .header header →
      ∀ event ∈ history, ∀ input run', event.exchange = ⟨.encryptStream input, run'⟩ →
        run'.outcome ≠ .header header
  | ⟨.decryptStream encData header, run⟩ => ∀ plaintext, run.Yields plaintext ↔
      ∃ event ∈ history, ∃ input run', event.exchange = ⟨.encryptStream input, run'⟩ ∧
        run'.outcome = .header header ∧ run'.written = encData.bytes ∧ input.bytes = plaintext
  | _ => True

/-- Over an inner store that is empty at first. -/
def KeyServes (history : List (StoreEvent ι)) (event : StoreEvent ι) : Prop :=
  AtomicServes (fun _ => none) history event.exchange ∧ PairServes history event.exchange

/-- The object under `key` is as `a` wrote it. -/
def LastWriter (a : ι) (key : Key) (history : List (StoreEvent ι)) : Prop :=
  ∃ earlier x later, history = earlier ++ ⟨a, x⟩ :: later ∧ WritesTo key x ∧
    ∀ event ∈ later, ¬Touches key event.exchange

section Runs

variable [DecidableEq ι] {headerSuffix key : Key} {calls : ι → KeyCall}
  {history earlier later : List (StoreEvent ι)} {pool : ι → StoreProgram KeyResult}

/-- What a put has exchanged so far. -/
theorem put_trace {data : Reader} {sizeHint : Option Nat} {es : List StoreExchange}
    {rest : StoreProgram KeyResult}
    (h : Path ((KeyCall.put data sizeHint).program headerSuffix key) es rest) :
    (es = [] ∨ AcceptsPut headerSuffix key) ∧
      PutTrace headerSuffix { key, data, sizeHint } es ∧
      ∀ result, rest = .done (.put (.ok result)) → AcceptsPut headerSuffix key ∧
        PutDone headerSuffix { key, data, sizeHint } es := by
  obtain ⟨z, hpath, rfl⟩ := path_map h
  by_cases haccepts : AcceptsPut headerSuffix key
  · rw [put_run { key, data, sizeHint } haccepts] at hpath
    obtain ⟨htrace, hdone⟩ := putRequests_path hpath
    refine ⟨.inr haccepts, htrace, fun result hresult => ⟨haccepts, ?_⟩⟩
    obtain ⟨a, rfl, ha⟩ := map_eq_done_iff.mp hresult
    cases ha
    exact hdone result rfl
  · obtain ⟨e, he⟩ := put_run_of_not_accepts { key, data, sizeHint } haccepts
    rw [he] at hpath
    obtain ⟨rfl, rfl⟩ := path_done_iff.mp hpath
    exact ⟨.inl rfl, .start, fun result hresult => by cases hresult⟩

/-- What a get has exchanged so far. -/
theorem get_trace {es : List StoreExchange} {rest : StoreProgram KeyResult}
    (h : Path (KeyCall.get.program headerSuffix key) es rest) :
    GetTrace headerSuffix key es ∧
      ∀ result, rest = .done (.get result) →
        GetDone headerSuffix key es result ∨ (es = [] ∧ headerSuffix <:+ key ∧
          ∃ e, result = .error e) := by
  obtain ⟨z, hpath, rfl⟩ := path_map h
  by_cases hreserved : headerSuffix <:+ key
  · obtain ⟨e, he⟩ := get_run_of_reserved hreserved
    rw [he] at hpath
    obtain ⟨rfl, rfl⟩ := path_done_iff.mp hpath
    refine ⟨.start, fun result hresult => .inr ⟨rfl, hreserved, e, ?_⟩⟩
    cases hresult
    rfl
  · rw [get_run key hreserved] at hpath
    obtain ⟨htrace, hdone⟩ := getRequests_path hpath
    refine ⟨htrace, fun result hresult => .inl ?_⟩
    obtain ⟨a, rfl, ha⟩ := map_eq_done_iff.mp hresult
    cases ha
    exact hdone result rfl

/-- Gets write nothing. -/
theorem GetTrace.not_touches {es : List StoreExchange} (h : GetTrace headerSuffix key es)
    {x : StoreExchange} (hx : x ∈ es) (other : Key) : ¬Touches other x := by
  cases h with
  | start => cases hx
  | dataRead data => simp_all [Touches]
  | headerRead encData header => rcases List.mem_pair.mp hx with rfl | rfl <;> simp [Touches]
  | decrypted encData headerData headerBytes run read =>
      simp only [List.mem_cons, List.not_mem_nil, or_false] at hx
      rcases hx with rfl | rfl | rfl <;> simp [Touches]

/-- An object that is there is as the last put to touch it left it, and that put has
the encryption behind it whose ciphertext or header the object is. -/
theorem object_writer
    (hruns : Runs KeyServes (fun i => (calls i).program headerSuffix key) history pool)
    {other : Key} {content : Bytes}
    (hcontent : contents (fun _ => none) history other = some content) :
    ∃ a data sizeHint run earlier x later, AcceptsPut headerSuffix key ∧
      calls a = .put data sizeHint ∧ history = earlier ++ ⟨a, x⟩ :: later ∧ WritesTo other x ∧
      (∀ event ∈ later, ¬Touches other event.exchange) ∧
      ((other = key ∧ content = run.written ∧
          own a earlier = [⟨.encryptStream data, run⟩]) ∨
        (other = key ++ headerSuffix ∧ run.outcome = .header content ∧
          ∃ w, WritesTo key w ∧ own a earlier = [⟨.encryptStream data, run⟩, w])) := by
  rcases last_touch other history with hnone | ⟨earlier, ⟨a, x⟩, later, rfl, htouch, hlater⟩
  · rw [contents_of_not_touches hnone] at hcontent
    cases hcontent
  have hafter : applyExchange (contents (fun _ => none) earlier) x other = some content := by
    rw [contents_append, contents_cons, contents_of_not_touches hlater] at hcontent
    exact hcontent
  obtain ⟨⟨hserved, _⟩, _⟩ := hruns.split
  obtain ⟨next, hpath⟩ := hruns.path_before
  obtain ⟨request, response⟩ := x
  -- Only a put leaves an object behind.
  cases request with
  | put blobs =>
      obtain ⟨result, written⟩ := response
      cases result with
      | error e =>
          have hwritten : written = [] := hserved
          subst hwritten
          cases htouch
      | ok result =>
          have hwritten : written = entriesOf blobs := hserved
          subst hwritten
          cases hcall : calls a with
          | get =>
              simp only [hcall] at hpath
              exact absurd htouch ((get_trace hpath).1.not_touches (by simp) other)
          | put data sizeHint =>
              simp only [hcall] at hpath
              obtain ⟨haccepts, htrace, _⟩ := put_trace hpath
              have hkey : AcceptsPut headerSuffix key := haccepts.resolve_left (by simp)
              obtain ⟨run, ⟨hown, rfl⟩ | ⟨result', objects, header, houtcome, hown, rfl⟩⟩ :=
                htrace.put_inv
              · have hother : other = key := List.mem_singleton.mp htouch
                subst hother
                refine ⟨a, data, sizeHint, run, earlier, _, later, hkey, hcall, rfl, htouch, hlater,
                  .inl ⟨rfl, ?_, hown⟩⟩
                simpa [applyExchange, entriesOf] using hafter.symm
              · have hother : other = key ++ headerSuffix := List.mem_singleton.mp htouch
                subst hother
                refine ⟨a, data, sizeHint, run, earlier, _, later, hkey, hcall, rfl, htouch, hlater,
                  .inr ⟨rfl, ?_, _, ?_, hown⟩⟩
                · have hcontent' : header = content := by
                    simpa [applyExchange, entriesOf] using hafter
                  rw [houtcome, hcontent']
                · have hmem : (⟨a, ⟨.put [BlobInput.withSize key run.reader (sizeHint.getD 0)],
                      (.ok result', objects)⟩⟩ : StoreEvent ι) ∈ earlier :=
                    mem_own_iff.mp (by rw [hown]; simp)
                  obtain ⟨_, hbefore⟩ := hruns.split
                  obtain ⟨_, _, _, ⟨hwritten, _⟩⟩ := hbefore.choose_spec.served_of_mem hmem
                  have hobjects : objects = entriesOf _ := hwritten
                  rw [hobjects]
                  exact List.mem_singleton.mpr rfl
  | delete victim =>
      cases response with
      | error e => cases htouch
      | ok _ =>
          have hvictim : other = victim := htouch
          subst hvictim
          simp [applyExchange] at hafter
  | _ => cases htouch

/-- Two puts never get the same header from their encryptions. -/
theorem encryption_unique
    (hruns : Runs KeyServes (fun i => (calls i).program headerSuffix key) history pool)
    {a b : ι} {dataA dataB : Reader} {runA runB : EncryptRun} {header : Bytes}
    (ha : (⟨a, ⟨.encryptStream dataA, runA⟩⟩ : StoreEvent ι) ∈ history)
    (hb : (⟨b, ⟨.encryptStream dataB, runB⟩⟩ : StoreEvent ι) ∈ history)
    (hheaderA : runA.outcome = .header header) (hheaderB : runB.outcome = .header header) :
    (⟨a, ⟨.encryptStream dataA, runA⟩⟩ : StoreEvent ι) = ⟨b, ⟨.encryptStream dataB, runB⟩⟩ := by
  obtain ⟨earlier, later, rfl, _, hfreshA⟩ := hruns.served_of_mem ha
  rcases List.mem_append.mp hb with hb | hb
  · exact absurd hheaderB (hfreshA header hheaderA _ hb dataB runB rfl)
  rcases List.mem_cons.mp hb with hb | hb
  · exact hb.symm
  · obtain ⟨middle, rest, rfl⟩ := List.append_of_mem hb
    rw [← List.cons_append, ← List.append_assoc] at hruns
    obtain ⟨⟨_, hfreshB⟩, _⟩ := hruns.split
    have hearlier : (⟨a, ⟨.encryptStream dataA, runA⟩⟩ : StoreEvent ι) ∈
        earlier ++ ⟨a, ⟨.encryptStream dataA, runA⟩⟩ :: middle := by simp
    exact absurd hheaderA (hfreshB header hheaderB _ hearlier dataA runA rfl)

/-- One put has one encryption. -/
theorem encryption_of_put
    (hruns : Runs KeyServes (fun i => (calls i).program headerSuffix key) history pool)
    {a : ι} {data dataA dataB : Reader} {sizeHint : Option Nat} {runA runB : EncryptRun}
    (hcall : calls a = .put data sizeHint)
    (ha : (⟨a, ⟨.encryptStream dataA, runA⟩⟩ : StoreEvent ι) ∈ history)
    (hb : (⟨a, ⟨.encryptStream dataB, runB⟩⟩ : StoreEvent ι) ∈ history) :
    (⟨.encryptStream dataA, runA⟩ : StoreExchange) = ⟨.encryptStream dataB, runB⟩ := by
  have hpath := hruns.path a
  simp only [hcall] at hpath
  obtain ⟨_, htrace, _⟩ := put_trace hpath
  have hheadA := htrace.encrypt_inv (mem_own_iff.mpr ha)
  have hheadB := htrace.encrypt_inv (mem_own_iff.mpr hb)
  rw [hheadA] at hheadB
  exact Option.some.inj hheadB

/-- Where the writer `a` of the data object and the writer `b` of the header object are
not the same put, another put's requests fell between two that belong together: the
data write of `b` between the reads, the data write of `a` between the writes of `b`,
or the reads between the writes of `a`. -/
def Interleaved (key headerSuffix : Key) (a b : ι) (before between : List (StoreEvent ι)) : Prop :=
  (∃ w, ⟨b, w⟩ ∈ between ∧ WritesTo key w) ∨
    (∃ front x back w y, before ++ between = front ++ ⟨a, x⟩ :: back ∧ WritesTo key x ∧
      ⟨b, w⟩ ∈ front ∧ WritesTo key w ∧ ⟨b, y⟩ ∈ back ∧ WritesTo (key ++ headerSuffix) y) ∨
    ∀ z, ⟨a, z⟩ ∈ before ++ between → ¬WritesTo (key ++ headerSuffix) z

theorem interleaved_of_ne {a b : ι} {before between e₁ l₁ e₂ l₂ : List (StoreEvent ι)}
    {x y w encA encB : StoreExchange}
    (hdata : before = e₁ ++ ⟨a, x⟩ :: l₁) (hx : WritesTo key x)
    (hl₁ : ∀ event ∈ l₁, ¬Touches key event.exchange) (hownA : own a e₁ = [encA])
    (hencA : ¬WritesTo (key ++ headerSuffix) encA)
    (hheader : before ++ between = e₂ ++ ⟨b, y⟩ :: l₂) (hy : WritesTo (key ++ headerSuffix) y)
    (hl₂ : ∀ event ∈ l₂, ¬Touches (key ++ headerSuffix) event.exchange)
    (hownB : own b e₂ = [encB, w]) (hw : WritesTo key w) :
    a = b ∨ Interleaved key headerSuffix a b before between := by
  by_cases hab : a = b
  · exact .inl hab
  have hwmem : (⟨b, w⟩ : StoreEvent ι) ∈ e₂ := mem_own_iff.mp (by rw [hownB]; simp)
  have hwall : (⟨b, w⟩ : StoreEvent ι) ∈ before ++ between := by
    rw [hheader]
    exact List.mem_append_left _ hwmem
  rcases List.mem_append.mp hwall with hbefore | hbetween
  swap
  · exact .inr (.inl ⟨w, hbetween, hw⟩)
  rw [hdata] at hbefore
  rcases List.mem_append.mp hbefore with hfront | hrest
  swap
  · rcases List.mem_cons.mp hrest with hsame | hlater
    · exact .inl (congrArg Event.thread hsame).symm
    · exact absurd hw.touches (hl₁ _ hlater)
  -- The data write of `b` came before that of `a`; its header write may be on either side.
  have hsplit : e₂ ++ ⟨b, y⟩ :: l₂ = e₁ ++ ⟨a, x⟩ :: (l₁ ++ between) := by
    rw [← hheader, hdata, List.append_assoc, List.cons_append]
  rcases List.append_eq_append_iff.mp hsplit with ⟨c, he₁, hrest⟩ | ⟨c, he₂, hrest⟩
  · cases c with
    | nil =>
        rw [List.nil_append] at hrest
        exact .inl (congrArg Event.thread (List.cons.inj hrest).1).symm
    | cons first c =>
        obtain ⟨rfl, hl₂eq⟩ := List.cons.inj hrest
        refine .inr (.inr (.inr fun z hz hwrites => ?_))
        rw [hheader] at hz
        rcases List.mem_append.mp hz with hz | hz
        · have hown : z ∈ own a e₁ := by
            rw [he₁, own_append]
            exact List.mem_append_left _ (mem_own_iff.mpr hz)
          rw [hownA, List.mem_singleton] at hown
          exact hencA (hown ▸ hwrites)
        · rcases List.mem_cons.mp hz with hz | hz
          · exact hab (congrArg Event.thread hz)
          · exact hl₂ _ hz hwrites.touches
  · cases c with
    | nil =>
        rw [List.nil_append] at hrest
        exact .inl (congrArg Event.thread (List.cons.inj hrest).1)
    | cons first c =>
        obtain ⟨rfl, hback⟩ := List.cons.inj hrest
        refine .inr (.inr (.inl ⟨e₁, x, l₁ ++ between, w, y, ?_, hx, hfront, hw, ?_, hy⟩))
        · rw [hdata, List.append_assoc, List.cons_append]
        · rw [hback]
          simp

/-- Decrypting with the header of `b` yields the plaintext of `b`, and only for the
ciphertext of `b`. -/
theorem yields_iff {g b : ι} {encData dataB : Reader} {header : Bytes} {run : DecryptRun}
    {runB : EncryptRun}
    (hruns : Runs KeyServes (fun i => (calls i).program headerSuffix key)
      (earlier ++ ⟨g, ⟨.decryptStream encData header, run⟩⟩ :: later) pool)
    (hb : (⟨b, ⟨.encryptStream dataB, runB⟩⟩ : StoreEvent ι) ∈ earlier)
    (hheader : runB.outcome = .header header) (plaintext : Bytes) :
    run.Yields plaintext ↔ encData.bytes = runB.written ∧ plaintext = dataB.bytes := by
  obtain ⟨⟨_, hserved⟩, pool', hbefore⟩ := hruns.split
  have hyields : run.Yields plaintext ↔ _ := hserved plaintext
  rw [hyields]
  constructor
  · rintro ⟨⟨t, x⟩, hmem, input, run', rfl, hheader', hwritten, rfl⟩
    cases encryption_unique hbefore hmem hb hheader' hheader
    exact ⟨hwritten.symm, rfl⟩
  · rintro ⟨hwritten, rfl⟩
    exact ⟨_, hb, dataB, runB, rfl, hheader, hwritten.symm, rfl⟩

/-- What a get that found both objects put together. It read the data object as `a`
left it and the header object as `b` left it. They are of one put exactly when `a` is
`b`, which is so unless another put's requests came in between; and what the get
decrypts to is the plaintext of `b` when the ciphertext is that of `b`, and nothing
otherwise. -/
def ReadsLastWriters (headerSuffix key : Key) (calls : ι → KeyCall)
    (history : List (StoreEvent ι)) (g : ι) (reader : Reader) : Prop :=
  ∃ before encData between headerData middle header run after a b dataA hintA runA dataB hintB
      runB,
    history = before ++ ⟨g, ⟨.get key, .ok encData⟩⟩ :: (between ++
      ⟨g, ⟨.get (key ++ headerSuffix), .ok headerData⟩⟩ :: (middle ++
        ⟨g, ⟨.decryptStream encData header, run⟩⟩ :: after)) ∧
    reader = run.reader key ∧
    (LastWriter a key before ∧ calls a = .put dataA hintA ∧
      ⟨a, ⟨.encryptStream dataA, runA⟩⟩ ∈ before ∧ encData.bytes = runA.written) ∧
    (LastWriter b (key ++ headerSuffix) (before ++ ⟨g, ⟨.get key, .ok encData⟩⟩ :: between) ∧
      calls b = .put dataB hintB ∧
      ⟨b, ⟨.encryptStream dataB, runB⟩⟩ ∈ before ++ ⟨g, ⟨.get key, .ok encData⟩⟩ :: between ∧
      runB.outcome = .header header) ∧
    (runA.outcome = .header header ↔ a = b) ∧
    (∀ plaintext, run.Yields plaintext ↔
      runA.written = runB.written ∧ plaintext = dataB.bytes) ∧
    (a = b ∨ Interleaved key headerSuffix a b before
      (⟨g, ⟨.get key, .ok encData⟩⟩ :: between))

theorem get_readsLastWriters
    (hruns : Runs KeyServes (fun i => (calls i).program headerSuffix key) history pool)
    {g : ι} {reader : Reader} (hdone : pool g = .done (.get (.ok reader))) :
    ReadsLastWriters headerSuffix key calls history g reader := by
  have hpath := hruns.path g
  cases hcall : calls g with
  | put data sizeHint =>
      simp only [hcall, hdone] at hpath
      obtain ⟨_, _, hresult⟩ := path_map hpath
      obtain ⟨_, _, hresult⟩ := map_eq_done_iff.mp hresult.symm
      cases hresult
  | get =>
      simp only [hcall] at hpath
      rcases (get_trace hpath).2 _ hdone with hdone | ⟨_, _, _, h⟩
      swap
      · cases h
      obtain ⟨encData, headerData, header, run, hread, hown, hreader⟩ := hdone
      obtain ⟨before, _, rfl, _, hown₁⟩ := own_eq_cons hown
      obtain ⟨between, _, rfl, _, hown₂⟩ := own_eq_cons hown₁
      obtain ⟨middle, after, rfl, _, _⟩ := own_eq_cons hown₂
      -- The two reads saw the objects as their last writers left them.
      obtain ⟨⟨⟨content, hdata, hdataRead⟩, _⟩, _, hbefore⟩ := hruns.split
      obtain ⟨_, hencData⟩ := Reader.readToEnd_eq_ok_iff.mp hdataRead
      have hruns₂ := hruns
      rw [← List.cons_append, ← List.append_assoc] at hruns₂
      obtain ⟨⟨⟨header', hheaderObject, hheaderRead⟩, _⟩, _, hbefore₂⟩ := hruns₂.split
      have hheader : header' = header := by
        have hsame : Except.ok header' = Except.ok header := hheaderRead.symm.trans hread
        exact Except.ok.inj hsame
      subst hheader
      obtain ⟨a, dataA, hintA, runA, e₁, x, l₁, haccepts, hcallA, hbeforeEq, hx, hl₁, hA⟩ :=
        object_writer hbefore hdata
      obtain ⟨_, hcontent, hownA⟩ := hA.resolve_right fun h =>
        haccepts.ne_headerKey key h.1
      obtain ⟨b, dataB, hintB, runB, e₂, y, l₂, _, hcallB, hbetweenEq, hy, hl₂, hB⟩ :=
        object_writer hbefore₂ hheaderObject
      obtain ⟨_, houtcomeB, w, hw, hownB⟩ := hB.resolve_left fun h =>
        haccepts.ne_headerKey key h.1.symm
      have hmemA : (⟨a, ⟨.encryptStream dataA, runA⟩⟩ : StoreEvent ι) ∈ before := by
        rw [hbeforeEq]
        exact List.mem_append_left _ (mem_own_iff.mp (by rw [hownA]; simp))
      have hmemB : (⟨b, ⟨.encryptStream dataB, runB⟩⟩ : StoreEvent ι) ∈
          before ++ ⟨g, ⟨.get key, .ok encData⟩⟩ :: between := by
        rw [hbetweenEq]
        exact List.mem_append_left _ (mem_own_iff.mp (by rw [hownB]; simp))
      have hmemA' : (⟨a, ⟨.encryptStream dataA, runA⟩⟩ : StoreEvent ι) ∈
          before ++ ⟨g, ⟨.get key, .ok encData⟩⟩ :: between :=
        List.mem_append_left _ hmemA
      have hruns₃ := hruns₂
      rw [← List.cons_append, ← List.append_assoc] at hruns₃
      refine ⟨before, encData, between, headerData, middle, header', run, after, a, b, dataA, hintA,
        runA, dataB, hintB, runB, rfl, hreader,
        ⟨⟨e₁, x, l₁, hbeforeEq, hx, hl₁⟩, hcallA, hmemA, hencData.trans hcontent⟩,
        ⟨⟨e₂, y, l₂, hbetweenEq, hy, hl₂⟩, hcallB, hmemB, houtcomeB⟩, ?_, ?_, ?_⟩
      · constructor
        · intro houtcomeA
          exact congrArg Event.thread
            (encryption_unique hbefore₂ hmemA' hmemB houtcomeA houtcomeB)
        · rintro rfl
          cases encryption_of_put hbefore₂ hcallA hmemA' hmemB
          exact houtcomeB
      · intro plaintext
        rw [yields_iff hruns₃ (List.mem_append_left _ hmemB) houtcomeB, hencData, hcontent]
      · exact interleaved_of_ne hbeforeEq hx hl₁ hownA not_false hbetweenEq hy hl₂ hownB hw

/-- Every put has returned `Ok`. -/
def AllPutsOk (calls : ι → KeyCall) (pool : ι → StoreProgram KeyResult) : Prop :=
  ∀ i data sizeHint, calls i = .put data sizeHint →
    ∃ result, pool i = .done (.put (.ok result))

section AfterPuts

variable {pool₀ : ι → StoreProgram KeyResult} {done rest : List (StoreEvent ι)}

/-- A put that returned `Ok` touched objects only by writing them, and wrote both. -/
theorem put_done_writes
    (hruns : Runs KeyServes (fun i => (calls i).program headerSuffix key) done pool₀)
    {i : ι} {data : Reader} {sizeHint : Option Nat} (hcall : calls i = .put data sizeHint)
    {result : PutResult} (hok : pool₀ i = .done (.put (.ok result))) :
    AcceptsPut headerSuffix key ∧
      (∀ other, ∀ x ∈ own i done, Touches other x → WritesTo other x) ∧
      (∃ x ∈ own i done, WritesTo key x) ∧ ∃ x ∈ own i done, WritesTo (key ++ headerSuffix) x := by
  have hpath := hruns.path i
  simp only [hcall] at hpath
  obtain ⟨_, _, hdone⟩ := put_trace hpath
  obtain ⟨haccepts, run, result', objects, header, headerResult, headerObjects, _, hown⟩ :=
    hdone result hok
  have hwrites : ∀ (blob : BlobInput) r written,
      (⟨.put [blob], (.ok r, written)⟩ : StoreExchange) ∈ own i done →
        WritesTo blob.key ⟨.put [blob], (.ok r, written)⟩ := by
    intro blob r written hmem
    obtain ⟨_, _, _, hserved, _⟩ := hruns.served_of_mem (mem_own_iff.mp hmem)
    have hwritten : written = entriesOf [blob] := hserved
    rw [hwritten]
    exact List.mem_singleton.mpr rfl
  rw [hown] at hwrites ⊢
  have hdata := List.mem_cons_of_mem (⟨.encryptStream data, run⟩ : StoreExchange)
    (List.mem_cons_self (a := ⟨.put [BlobInput.withSize key run.reader (sizeHint.getD 0)],
      (.ok result', objects)⟩) (l := [⟨.put [BlobInput.withSize (key ++ headerSuffix)
        (Reader.ofBytes header) header.length], (.ok headerResult, headerObjects)⟩]))
  have hheader := List.mem_cons_of_mem (⟨.encryptStream data, run⟩ : StoreExchange)
    (List.mem_cons_of_mem (⟨.put [BlobInput.withSize key run.reader (sizeHint.getD 0)],
      (.ok result', objects)⟩ : StoreExchange)
      (List.mem_singleton_self (⟨.put [BlobInput.withSize (key ++ headerSuffix)
        (Reader.ofBytes header) header.length], (.ok headerResult, headerObjects)⟩)))
  refine ⟨haccepts, ?_, ⟨_, hdata, hwrites _ _ _ hdata⟩, ⟨_, hheader, hwrites _ _ _ hheader⟩⟩
  intro other x hx htouch
  simp only [List.mem_cons, List.not_mem_nil, or_false] at hx
  rcases hx with rfl | rfl | rfl
  · exact absurd htouch not_false
  · exact htouch
  · exact htouch

theorem isNotFound_of_mapError {e : BlobStorageError}
    (h : (PrefixBlobStore.mapError key e).IsNotFound) : e.IsNotFound := by
  cases e <;> simp_all [PrefixBlobStore.mapError, BlobStorageError.IsNotFound]

omit [DecidableEq ι] in
/-- A get that failed although both objects are there failed in one of its requests. -/
theorem getDone_error {es : List StoreExchange} {e : BlobStorageError}
    {ciphertext header : Bytes} (hdone : GetDone headerSuffix key es (.error e))
    (hread : ∀ other content response, contents (fun _ => none) done other = some content →
      ⟨.get other, response⟩ ∈ es →
      (∃ reader, response = .ok reader ∧ reader.readToEnd = .ok content) ∨
        ∃ e, response = .error e ∧ ¬e.IsNotFound)
    (hdata : contents (fun _ => none) done key = some ciphertext)
    (hheader : contents (fun _ => none) done (key ++ headerSuffix) = some header) :
    ¬e.IsNotFound := by
  rcases hdone with ⟨e', rfl, rfl | ⟨encData, rfl⟩⟩ | ⟨encData, headerData, failure, hbroken, rfl⟩
  · intro hnotFound
    rcases hread key ciphertext _ hdata (List.mem_singleton_self _) with ⟨_, h, _⟩ | ⟨_, h, hfault⟩
    · cases h
    · cases h
      exact hfault (isNotFound_of_mapError hnotFound)
  · intro hnotFound
    rcases hread (key ++ headerSuffix) header _ hheader
      (List.mem_cons_of_mem _ (List.mem_singleton_self _)) with ⟨_, h, _⟩ | ⟨_, h, hfault⟩
    · cases h
    · cases h
      exact hfault (isNotFound_of_mapError hnotFound)
  · rcases hread (key ++ headerSuffix) header _ hheader
      (List.mem_cons_of_mem _ (List.mem_singleton_self _)) with ⟨_, h, hheaderRead⟩ | ⟨_, h, _⟩
    · cases h
      have hclash : Except.error failure = Except.ok header := hbroken.symm.trans hheaderRead
      cases hclash
    · cases h

/-- After `done` both objects are there and stay as they are. Whatever get follows
finds both unless a request of its own fails, and decrypts the ciphertext of the last
writer `a` of the data object with the header of the last writer `b` of the header
object. -/
def KeepsLastPuts (headerSuffix key : Key) (calls : ι → KeyCall)
    (done : List (StoreEvent ι)) : Prop :=
  ∃ a dataA hintA runA b dataB hintB runB,
    (LastWriter a key done ∧ calls a = .put dataA hintA ∧
      ⟨a, ⟨.encryptStream dataA, runA⟩⟩ ∈ done) ∧
    (LastWriter b (key ++ headerSuffix) done ∧ calls b = .put dataB hintB ∧
      ⟨b, ⟨.encryptStream dataB, runB⟩⟩ ∈ done) ∧
    ∀ rest pool, Runs KeyServes (fun i => (calls i).program headerSuffix key) (done ++ rest) pool →
      ∀ g result, own g done = [] → pool g = .done (.get result) →
        (∃ e, result = .error e ∧ ¬e.IsNotFound) ∨
        ∃ encData header run, result = .ok (run.reader key) ∧
          ⟨g, ⟨.decryptStream encData header, run⟩⟩ ∈ rest ∧
          ∀ plaintext, run.Yields plaintext ↔
            runA.written = runB.written ∧ plaintext = dataB.bytes

section Quiet

variable (hdone : Runs KeyServes (fun i => (calls i).program headerSuffix key) done pool₀)
  (hok : AllPutsOk calls pool₀)

include hdone hok

theorem writes_of_touches (other : Key) (event : StoreEvent ι) (hmem : event ∈ done)
    (htouch : Touches other event.exchange) : WritesTo other event.exchange := by
  have hown : event.exchange ∈ own event.thread done := mem_own_iff.mpr hmem
  cases hcall : calls event.thread with
  | get =>
      have hpath := hdone.path event.thread
      simp only [hcall] at hpath
      exact absurd htouch ((get_trace hpath).1.not_touches hown other)
  | put data sizeHint =>
      obtain ⟨result, hresult⟩ := hok event.thread data sizeHint hcall
      exact (put_done_writes hdone hcall hresult).2.1 other _ hown htouch

/-- Only gets are left, so the objects stay as they are. -/
theorem not_touches_after {rest : List (StoreEvent ι)} {pool : ι → StoreProgram KeyResult}
    (hruns : Runs KeyServes (fun i => (calls i).program headerSuffix key) (done ++ rest) pool)
    (other : Key) (event : StoreEvent ι) (hmem : event ∈ rest) :
    ¬Touches other event.exchange := by
  have hown : event.exchange ∈ own event.thread rest := mem_own_iff.mpr hmem
  have hpath := hruns.path event.thread
  rw [own_append] at hpath
  cases hcall : calls event.thread with
  | get =>
      simp only [hcall] at hpath
      exact (get_trace hpath).1.not_touches (List.mem_append_right _ hown) other
  | put data sizeHint =>
      obtain ⟨result, hresult⟩ := hok event.thread data sizeHint hcall
      have hfinished := hdone.path event.thread
      rw [hresult] at hfinished
      rw [hfinished.nothing_after_done hpath] at hown
      cases hown

/-- So an inner get answers with an object that was there, or fails. -/
theorem answered_after {rest : List (StoreEvent ι)} {pool : ι → StoreProgram KeyResult}
    (hruns : Runs KeyServes (fun i => (calls i).program headerSuffix key) (done ++ rest) pool)
    {g : ι} {other : Key} {content : Bytes} {response : Except BlobStorageError Reader}
    (hcontent : contents (fun _ => none) done other = some content)
    (hmem : (⟨g, ⟨.get other, response⟩⟩ : StoreEvent ι) ∈ rest) :
    (∃ reader, response = .ok reader ∧ reader.readToEnd = .ok content) ∨
      ∃ e, response = .error e ∧ ¬e.IsNotFound := by
  have hquiet := not_touches_after hdone hok hruns
  obtain ⟨front, back, hsplit⟩ := List.append_of_mem hmem
  have hthere : contents (fun _ => none) (done ++ front) other = some content := by
    rw [contents_append, contents_of_not_touches fun event hmem =>
      hquiet other event (hsplit ▸ List.mem_append_left _ hmem), hcontent]
  rw [hsplit, ← List.append_assoc] at hruns
  obtain ⟨⟨hserved, _⟩, _⟩ := hruns.split
  cases response with
  | ok reader =>
      obtain ⟨content', hcontent', hread⟩ := hserved
      rw [hthere, Option.some.injEq] at hcontent'
      exact .inl ⟨reader, rfl, hcontent' ▸ hread⟩
  | error e =>
      refine .inr ⟨e, rfl, fun hnotFound => ?_⟩
      have hnone : contents (fun _ => none) (done ++ front) other = none := hserved hnotFound
      rw [hthere] at hnone
      cases hnone

end Quiet

theorem puts_keepLastPuts
    (hdone : Runs KeyServes (fun i => (calls i).program headerSuffix key) done pool₀)
    (hok : AllPutsOk calls pool₀) {i : ι} {data : Reader} {sizeHint : Option Nat}
    (hcall : calls i = .put data sizeHint) : KeepsLastPuts headerSuffix key calls done := by
  obtain ⟨result, hresult⟩ := hok i data sizeHint hcall
  obtain ⟨haccepts, _, ⟨x, hx, hwritesX⟩, y, hy, hwritesY⟩ :=
    put_done_writes hdone hcall hresult
  have hall := writes_of_touches hdone hok
  obtain ⟨ciphertext, hdata⟩ :=
    object_of_writes ⟨_, mem_own_iff.mp hx, hwritesX⟩ (hall key)
  obtain ⟨header, hheader⟩ :=
    object_of_writes ⟨_, mem_own_iff.mp hy, hwritesY⟩ (hall (key ++ headerSuffix))
  obtain ⟨a, dataA, hintA, runA, e₁, u, l₁, _, hcallA, hdoneA, hu, hl₁, hA⟩ :=
    object_writer hdone hdata
  obtain ⟨_, hcontent, hownA⟩ := hA.resolve_right fun h => haccepts.ne_headerKey key h.1
  obtain ⟨b, dataB, hintB, runB, e₂, v, l₂, _, hcallB, hdoneB, hv, hl₂, hB⟩ :=
    object_writer hdone hheader
  obtain ⟨_, houtcomeB, w, hw, hownB⟩ := hB.resolve_left fun h =>
    haccepts.ne_headerKey key h.1.symm
  have hmemA : (⟨a, ⟨.encryptStream dataA, runA⟩⟩ : StoreEvent ι) ∈ done := by
    rw [hdoneA]
    exact List.mem_append_left _ (mem_own_iff.mp (by rw [hownA]; simp))
  have hmemB : (⟨b, ⟨.encryptStream dataB, runB⟩⟩ : StoreEvent ι) ∈ done := by
    rw [hdoneB]
    exact List.mem_append_left _ (mem_own_iff.mp (by rw [hownB]; simp))
  refine ⟨a, dataA, hintA, runA, b, dataB, hintB, runB,
    ⟨⟨e₁, u, l₁, hdoneA, hu, hl₁⟩, hcallA, hmemA⟩,
    ⟨⟨e₂, v, l₂, hdoneB, hv, hl₂⟩, hcallB, hmemB⟩, ?_⟩
  intro rest pool hruns g result hfresh hreturned
  have hpath := hruns.path g
  rw [own_append, hfresh, List.nil_append] at hpath
  cases hcallG : calls g with
  | put data' sizeHint' =>
      simp only [hcallG, hreturned] at hpath
      obtain ⟨_, _, hresult'⟩ := path_map hpath
      obtain ⟨_, _, hresult'⟩ := map_eq_done_iff.mp hresult'.symm
      cases hresult'
  | get =>
      simp only [hcallG] at hpath
      have hgot := ((get_trace hpath).2 result hreturned).resolve_right fun h =>
        haccepts.2.1 h.2.1
      cases result with
      | error e =>
          refine .inl ⟨e, rfl, getDone_error hgot ?_ hdata hheader⟩
          exact fun other content response hcontent hmem =>
            answered_after hdone hok hruns hcontent (mem_own_iff.mp hmem)
      | ok reader =>
          obtain ⟨encData, headerData, headerBytes, run, hheaderRead, hown, rfl⟩ := hgot
          have hmem : ∀ z ∈ own g rest, (⟨g, z⟩ : StoreEvent ι) ∈ rest := fun z => mem_own_iff.mp
          rw [hown] at hmem
          have hlast : (⟨g, ⟨.decryptStream encData headerBytes, run⟩⟩ : StoreEvent ι) ∈ rest :=
            hmem _ (by simp)
          rcases answered_after hdone hok hruns hdata (hmem _ (List.mem_cons_self ..)) with
            ⟨_, h, hencData⟩ | ⟨_, h, _⟩
          swap
          · cases h
          cases h
          rcases answered_after hdone hok hruns hheader
            (hmem _ (List.mem_cons_of_mem _ (List.mem_cons_self ..))) with
            ⟨_, h, hheaderRead'⟩ | ⟨_, h, _⟩
          swap
          · cases h
          cases h
          have hsame : header = headerBytes :=
            Except.ok.inj (hheaderRead'.symm.trans hheaderRead)
          subst hsame
          obtain ⟨_, hbytes⟩ := Reader.readToEnd_eq_ok_iff.mp hencData
          refine .inr ⟨encData, header, run, rfl, hlast, fun plaintext => ?_⟩
          obtain ⟨front, back, hsplit⟩ := List.append_of_mem hlast
          rw [hsplit, ← List.append_assoc] at hruns
          rw [yields_iff hruns (List.mem_append_left _ hmemB) houtcomeB, hbytes, hcontent]

end AfterPuts

end Runs

section Mixed

/-- Two puts and a get of the key `k`. -/
def mixedCalls : Fin 3 → KeyCall
  | 0 => .put (.ofBytes [1]) none
  | 1 => .put (.ofBytes [2]) none
  | 2 => .get

def mixedEncryption (n : UInt8) : EncryptRun := { written := [10 + n], outcome := .header [n] }

def mixedDecryption : DecryptRun :=
  { written := [], outcome := .failed (.invalidHeader "wrong header") }

/-- The second put runs as a whole between the data write and the header write of the
first one. -/
def mixedPuts : List (StoreEvent (Fin 3)) :=
  [⟨0, .encryptStream (.ofBytes [1]), mixedEncryption 1⟩,
    ⟨0, .put [.withSize ['k'] (mixedEncryption 1).reader 0], (.ok ⟨[]⟩, [(['k'], [11])])⟩,
    ⟨1, .encryptStream (.ofBytes [2]), mixedEncryption 2⟩,
    ⟨1, .put [.withSize ['k'] (mixedEncryption 2).reader 0], (.ok ⟨[]⟩, [(['k'], [12])])⟩,
    ⟨1, .put [.withSize ['k', 'h'] (.ofBytes [2]) 1], (.ok ⟨[]⟩, [(['k', 'h'], [2])])⟩,
    ⟨0, .put [.withSize ['k', 'h'] (.ofBytes [1]) 1], (.ok ⟨[]⟩, [(['k', 'h'], [1])])⟩]

def mixedGet : List (StoreEvent (Fin 3)) :=
  [⟨2, .get ['k'], .ok (.ofBytes [12])⟩, ⟨2, .get ['k', 'h'], .ok (.ofBytes [1])⟩,
    ⟨2, .decryptStream (.ofBytes [12]) [1], mixedDecryption⟩]

def mixedPool : Fin 3 → StoreProgram KeyResult
  | 0 => .done (.put (.ok ⟨[]⟩))
  | 1 => .done (.put (.ok ⟨[]⟩))
  | 2 => .done (.get (.ok (mixedDecryption.reader ['k'])))

theorem mixed_put_path (n : UInt8) :
    Path ((KeyCall.put (.ofBytes [n]) none).program ['h'] ['k'])
      [⟨.encryptStream (.ofBytes [n]), mixedEncryption n⟩,
        ⟨.put [.withSize ['k'] (mixedEncryption n).reader 0], (.ok ⟨[]⟩, [(['k'], [10 + n])])⟩,
        ⟨.put [.withSize ['k', 'h'] (.ofBytes [n]) 1], (.ok ⟨[]⟩, [(['k', 'h'], [n])])⟩]
      (.done (.put (.ok ⟨[]⟩))) := by
  have haccepts : AcceptsPut ['h'] ['k'] := ⟨by decide, by decide, by decide⟩
  rw [KeyCall.program, put_run ⟨['k'], .ofBytes [n], none⟩ haccepts]
  exact .cons _ (.cons _ (.cons _ (.nil _)))

theorem mixed_encryptions {event : StoreEvent (Fin 3)} (hmem : event ∈ mixedPuts ++ mixedGet)
    {input : Reader} {run : EncryptRun} (h : event.exchange = ⟨.encryptStream input, run⟩) :
    run = mixedEncryption 1 ∨ run = mixedEncryption 2 := by
  simp only [mixedPuts, mixedGet, List.cons_append, List.nil_append, List.mem_cons,
    List.not_mem_nil, or_false] at hmem
  rcases hmem with rfl | rfl | rfl | rfl | rfl | rfl | rfl | rfl | rfl
  · cases h
    exact .inl rfl
  · cases h
  · cases h
    exact .inr rfl
  all_goals cases h

/-- No put of the run produced the ciphertext of the second with the header of the first. -/
theorem mixed_not_paired {run : EncryptRun}
    (h : run = mixedEncryption 1 ∨ run = mixedEncryption 2) :
    ¬(run.written = [12] ∧ run.outcome = .header [1]) := by
  rcases h with rfl | rfl
  · exact fun h => absurd h.1 (by decide)
  · exact fun h => absurd h.2 (by decide)

theorem mixed_runs :
    Runs KeyServes (fun i => (mixedCalls i).program ['h'] ['k']) (mixedPuts ++ mixedGet)
      mixedPool := by
  have hget : Path (KeyCall.get.program ['h'] ['k'])
      [⟨.get ['k'], .ok (.ofBytes [12])⟩, ⟨.get ['k', 'h'], .ok (.ofBytes [1])⟩,
        ⟨.decryptStream (.ofBytes [12]) [1], mixedDecryption⟩]
      (.done (.get (.ok (mixedDecryption.reader ['k'])))) := by
    rw [KeyCall.program, get_run ['k'] (by decide)]
    exact .cons _ (.cons _ (.cons _ (.nil _)))
  refine runs_of_paths ?_ ?_
  · intro i
    match i with
    | 0 => exact mixed_put_path 1
    | 1 => exact mixed_put_path 2
    | 2 => exact hget
  · refine ⟨⟨trivial, ?_⟩, ⟨rfl, trivial⟩, ⟨trivial, ?_⟩, ⟨rfl, trivial⟩, ⟨rfl, trivial⟩,
      ⟨rfl, trivial⟩, ⟨⟨[12], rfl, rfl⟩, trivial⟩, ⟨⟨[1], rfl, rfl⟩, trivial⟩, ⟨trivial, ?_⟩,
      trivial⟩
    · intro header _ event hmem
      cases hmem
    · intro header hheader event hmem input run' hexchange
      cases hheader
      rcases List.mem_pair.mp hmem with rfl | rfl
      · cases hexchange
        decide
      · cases hexchange
    · intro plaintext
      constructor
      · rintro ⟨hdone, _⟩
        cases hdone
      · rintro ⟨event, hmem, input, run', hexchange, hheader, hwritten, _⟩
        have hevent : event ∈ mixedPuts ++ mixedGet :=
          List.dropLast_subset (mixedPuts ++ mixedGet) hmem
        exact absurd ⟨hwritten, hheader⟩ (mixed_not_paired (mixed_encryptions hevent hexchange))

theorem mixed_puts_ok :
    ∃ pool, Runs KeyServes (fun i => (mixedCalls i).program ['h'] ['k']) mixedPuts pool ∧
      AllPutsOk mixedCalls pool := by
  have hruns : Runs KeyServes (fun i => (mixedCalls i).program ['h'] ['k'])
      (mixedPuts ++ ⟨2, .get ['k'], .ok (.ofBytes [12])⟩ :: mixedGet.tail) mixedPool := mixed_runs
  obtain ⟨_, pool, hputs⟩ := hruns.split
  refine ⟨pool, hputs, fun i data sizeHint hcall => ⟨⟨[]⟩, ?_⟩⟩
  match i with
  | 0 => exact (hputs.path 0).unique (mixed_put_path 1)
  | 1 => exact (hputs.path 1).unique (mixed_put_path 2)
  | 2 => cases hcall

end Mixed

end BlobStorage
