import BlobStorage.Concurrency.RekeyCalls
import BlobStorage.Encrypt.Shift

/-!
# A rekey among puts and deletes

One run of `rekey` interleaved with the calls of users, over an inner store whose
requests are atomic. For each header rekey is a read, a computation and a write, and
nothing keeps a user's request from coming between the read and the write. The write
then puts back a header that is no longer the one the user left.
-/

namespace BlobStorage

open Fallible Program

variable {headerSuffix : Key}

section Interleaving

inductive Party where
  | rekey
  | user
  deriving DecidableEq

inductive PartyResult where
  | rekeyed (result : Except BlobStorageError RekeyResult)
  | served (log : UserLog)

def Party.program (headerSuffix : Key) (calls : List UserCall) : Party → StoreProgram PartyResult
  | .rekey => do
      let result ← (requestLayer headerSuffix).rekey.run
      .done (.rekeyed result)
  | .user => do
      let log ← userProgram headerSuffix calls
      .done (.served log)

/-- `Opens c h p` says that the ciphertext `c` decrypts with the header `h` to `p`. An
encryption produces what opens to its input, and a header that is re-wrapped opens
what it opened before. -/
def CipherServes (Opens : Bytes → Bytes → Bytes → Prop) : StoreExchange → Prop
  | ⟨.encryptStream input, run⟩ =>
      ∀ header, run.outcome = .header header → Opens run.written header input.bytes
  | ⟨.rekeyHeader header, .ok (some newHeader)⟩ => ∀ c p, Opens c header p → Opens c newHeader p
  | _ => True

def RekeyServes (Opens : Bytes → Bytes → Bytes → Prop) (initial : PlainMap)
    (history : List (StoreEvent Party)) (event : StoreEvent Party) : Prop :=
  AtomicServes initial history event.exchange ∧ CipherServes Opens event.exchange

/-- The request `x` is the last one of the users aimed at the object under `key`, and
`since` is what happened after it. -/
def LastRequest (key : Key) (x : StoreExchange) (since history : List (StoreEvent Party)) :
    Prop :=
  (∃ before, history = before ++ ⟨.user, x⟩ :: since) ∧ Targets key x ∧
    ∀ event ∈ since, event.thread = .user → ¬Targets key event.exchange

/-- Rekey has written the object under `key` without having read it in that stretch. -/
def WrittenUnread (key : Key) (since : List (StoreEvent Party)) : Prop :=
  ∃ before x after, since = before ++ ⟨.rekey, x⟩ :: after ∧ WritesTo key x ∧
    ∀ response, (⟨.rekey, .get key, response⟩ : StoreEvent Party) ∉ before

/-- Rekey has written the object under `key` without having read it since the last
request of the users for it. -/
def Overtaken (key : Key) (history : List (StoreEvent Party)) : Prop :=
  ∃ x since, LastRequest key x since history ∧ WrittenUnread key since

/-- There is one last request. -/
theorem LastRequest.unique {key : Key} {x x' : StoreExchange}
    {since since' history : List (StoreEvent Party)} (h : LastRequest key x since history)
    (h' : LastRequest key x' since' history) : x = x' ∧ since = since' := by
  obtain ⟨⟨before, rfl⟩, htarget, hsince⟩ := h
  obtain ⟨⟨before', hsplit⟩, htarget', hsince'⟩ := h'
  obtain ⟨middle, _, hmiddle⟩ | ⟨middle, _, hmiddle⟩ := List.append_eq_append_iff.mp hsplit
  · cases middle with
    | nil =>
        cases hmiddle
        exact ⟨rfl, rfl⟩
    | cons event middle =>
        cases hmiddle
        exact absurd htarget' (hsince ⟨.user, x'⟩ (by simp) rfl)
  · cases middle with
    | nil =>
        cases hmiddle
        exact ⟨rfl, rfl⟩
    | cons event middle =>
        cases hmiddle
        exact absurd htarget (hsince' ⟨.user, x⟩ (by simp) rfl)

theorem LastRequest.overtaken_iff {key : Key} {x : StoreExchange}
    {since history : List (StoreEvent Party)} (h : LastRequest key x since history) :
    Overtaken key history ↔ WrittenUnread key since := by
  constructor
  · rintro ⟨x', since', hlast, hunread⟩
    rwa [(h.unique hlast).2]
  · intro hunread
    exact ⟨x, since, h, hunread⟩

variable {Opens : Bytes → Bytes → Bytes → Prop} {initial : PlainMap} {calls : List UserCall}
  {history before since : List (StoreEvent Party)} {pool : Party → StoreProgram PartyResult}

/-- What a finished rekey did to the store it interleaved with. -/
theorem rekey_own {result : Except BlobStorageError RekeyResult}
    (hruns : Runs (RekeyServes Opens initial) (Party.program headerSuffix calls) history pool)
    (hdone : pool .rekey = .done (.rekeyed result)) :
    WritesBack (own .rekey history) ∧
      ∀ event ∈ history, event.thread = .rekey → ∀ key, Targets key event.exchange →
        headerSuffix <:+ key := by
  have hpath := hruns.path .rekey
  rw [hdone] at hpath
  obtain ⟨a, first, second, hown, hfirst, hsecond⟩ := path_bind_done_iff.mp hpath
  obtain ⟨rfl, _⟩ := path_done_iff.mp hsecond
  rw [List.append_nil] at hown
  obtain ⟨hback, hlisted⟩ := rekey_traces (hown ▸ hfirst)
  refine ⟨hback, ?_⟩
  rintro ⟨_, x⟩ hmem rfl key htarget
  obtain ⟨entries, henum, info, hentry⟩ := hlisted x (mem_own_iff.mpr hmem) key htarget
  obtain ⟨_, _, _, hserved, _⟩ := hruns.served_of_mem (mem_own_iff.mp henum)
  have hmatch : (suffixFilter headerSuffix).matchesBlob key info = true := hserved _ hentry
  simpa using hmatch

/-- What ends in two exchanges ends in them from any point before the first on. -/
theorem ends_in_both {α : Type} {front back start : List α} {x y z : α}
    (h : front ++ back = start ++ [x, y]) (hmem : z ∈ back) (hne : z ≠ y) :
    ∃ middle, back = middle ++ [x, y] := by
  obtain rfl | ⟨back, last, rfl⟩ := List.eq_nil_or_concat back
  · cases hmem
  rw [List.concat_eq_append] at h hmem ⊢
  have hlast : front ++ back ++ [last] = start ++ [x] ++ [y] := by simpa using h
  obtain ⟨hfront, rfl⟩ : front ++ back = start ++ [x] ∧ last = y := by
    obtain ⟨hfront, hlast⟩ := List.append_inj' hlast rfl
    exact ⟨hfront, List.singleton_inj.mp hlast⟩
  obtain rfl | ⟨middle, first, rfl⟩ := List.eq_nil_or_concat back
  · exact absurd (List.mem_singleton.mp hmem) hne
  rw [List.concat_eq_append] at hfront ⊢
  have hfirst : front ++ middle ++ [first] = start ++ [x] := by simpa using hfront
  obtain ⟨_, hfirst⟩ := List.append_inj' hfirst rfl
  obtain rfl := List.singleton_inj.mp hfirst
  exact ⟨middle, by simp⟩

/-- What rekey writes after `before` is the re-wrapping of what it has read since then. -/
theorem rekey_writes_rewrapped {key : Key} {result : Except BlobStorageError RekeyResult}
    (hruns : Runs (RekeyServes Opens initial) (Party.program headerSuffix calls)
      (before ++ since) pool)
    (hdone : pool .rekey = .done (.rekeyed result)) (hunread : ¬WrittenUnread key since)
    {front back : List (StoreEvent Party)} {x : StoreExchange}
    (hsince : since = front ++ ⟨.rekey, x⟩ :: back) (htouch : Touches key x) :
    ∃ early late header newHeader, front = early ++ late ∧
      contents initial (before ++ early) key = some header ∧
      (⟨.rekey, .rekeyHeader header, .ok (some newHeader)⟩ : StoreEvent Party) ∈ since ∧
      ∀ M, applyExchange M x key = some newHeader := by
  have hsplit : before ++ since = (before ++ front) ++ ⟨.rekey, x⟩ :: back := by
    rw [hsince, List.append_assoc]
  have hserved : AtomicServes initial (before ++ front) x := (hsplit ▸ hruns).split.1.1
  have hown : own .rekey (before ++ since) =
      own .rekey (before ++ front) ++ x :: own .rekey back := by
    rw [hsplit, own_append, own_cons_self]
  obtain ⟨hback, _⟩ := rekey_own hruns hdone
  obtain ⟨start, reader, header, newHeader, written, hread, hends, rfl⟩ :=
    hback _ _ _ hown key (Targets.of_touches hserved htouch)
  have hwrites : WritesTo key
      (⟨.put [BlobInput.withSize key (Reader.ofBytes newHeader) header.length], written⟩ :
        StoreExchange) := htouch
  obtain ⟨response, hresponse⟩ : ∃ response,
      (⟨.rekey, .get key, response⟩ : StoreEvent Party) ∈ front := by
    by_contra hnone
    exact hunread ⟨front, _, back, hsince, hwrites,
      fun response hmem => hnone ⟨response, hmem⟩⟩
  rw [own_append] at hends
  obtain ⟨middle, hmiddle⟩ := ends_in_both hends (mem_own_iff.mpr hresponse) (by simp)
  obtain ⟨early, late, rfl, _, hlate⟩ := own_eq_append_cons hmiddle
  have hserved' : AtomicServes initial (before ++ early) ⟨.get key, .ok reader⟩ := by
    rw [← List.append_assoc, List.append_assoc, List.cons_append] at hsplit
    exact (hsplit ▸ hruns).split.1.1
  obtain ⟨content, hcontent, hcontent'⟩ := hserved'
  obtain rfl : content = header := Except.ok.inj (hcontent'.symm.trans hread)
  refine ⟨early, _, content, newHeader, rfl, hcontent, ?_, ?_⟩
  · have hlast : (⟨.rekeyHeader content, .ok (some newHeader)⟩ : StoreExchange) ∈
        own .rekey late := by
      rw [hlate]
      exact List.mem_singleton_self _
    rw [hsince]
    exact List.mem_append_left _ (List.mem_append_right _
      (List.mem_cons_of_mem _ (mem_own_iff.mp hlast)))
  · obtain ⟨putResult, objects⟩ := written
    cases putResult with
    | ok putResult =>
        have hobjects : objects = [(key, newHeader)] := hserved
        subst hobjects
        intro M
        change KeyMap.insertAll _ [(key, newHeader)] key = _
        rw [KeyMap.insertAll_cons, KeyMap.insertAll_nil, Function.update_self]
    | error e =>
        have hobjects : objects = [] := hserved
        subst hobjects
        cases htouch

/-- While the users leave a header alone and rekey does not write it unread, what
re-wrapping keeps true of it stays true. -/
theorem header_keeps {key : Key} {result : Except BlobStorageError RekeyResult}
    (Good : Option Bytes → Prop)
    (hruns : Runs (RekeyServes Opens initial) (Party.program headerSuffix calls)
      (before ++ since) pool)
    (hdone : pool .rekey = .done (.rekeyed result))
    (husers : ∀ event ∈ since, event.thread = .user → ¬Targets key event.exchange)
    (hunread : ¬WrittenUnread key since) (hgood : Good (contents initial before key))
    (hkept : ∀ header newHeader,
      (⟨.rekey, .rekeyHeader header, .ok (some newHeader)⟩ : StoreEvent Party) ∈ since →
        Good (some header) → Good (some newHeader)) :
    Good (contents initial (before ++ since) key) := by
  -- Strong induction: a write of rekey is good because the header was when it was read.
  have hall : ∀ n front back, front.length ≤ n → since = front ++ back →
      Good (contents initial (before ++ front) key) := by
    intro n
    induction n with
    | zero =>
        intro front back hlength hsince
        obtain rfl := List.length_eq_zero_iff.mp (Nat.le_zero.mp hlength)
        rwa [List.append_nil]
    | succ n ih =>
        intro front back hlength hsince
        obtain rfl | ⟨front, ⟨thread, x⟩, rfl⟩ := List.eq_nil_or_concat front
        · rwa [List.append_nil]
        rw [List.concat_eq_append] at hlength hsince ⊢
        rw [List.length_append, List.length_singleton] at hlength
        rw [List.append_assoc, List.singleton_append] at hsince
        have hfront : Good (contents initial (before ++ front) key) :=
          ih front _ (Nat.le_of_succ_le_succ hlength) hsince
        rw [← List.append_assoc, contents_append, contents_cons, contents_nil]
        by_cases htouch : Touches key x
        swap
        · rwa [applyExchange_of_not_touches htouch]
        cases thread with
        | user =>
            have hsplit : before ++ since = (before ++ front) ++ ⟨.user, x⟩ :: back := by
              rw [hsince, List.append_assoc]
            have htarget := Targets.of_touches (hsplit ▸ hruns).split.1.1 htouch
            have hmem : (⟨.user, x⟩ : StoreEvent Party) ∈ since := by simp [hsince]
            exact absurd htarget (husers _ hmem rfl)
        | rekey =>
            obtain ⟨early, late, header, newHeader, rfl, hread, hrewrap, hwritten⟩ :=
              rekey_writes_rewrapped hruns hdone hunread hsince htouch
            have hearly : Good (contents initial (before ++ early) key) := by
              rw [List.append_assoc] at hsince
              refine ih early _ ?_ hsince
              rw [List.length_append] at hlength
              omega
            rw [hread] at hearly
            rw [hwritten]
            exact hkept header newHeader hrewrap hearly
  exact hall since.length since [] le_rfl (by simp)

/-- What neither the users nor rekey aim at is not touched. -/
theorem not_touches_of_party {result : Except BlobStorageError RekeyResult} {key : Key}
    (hruns : Runs (RekeyServes Opens initial) (Party.program headerSuffix calls) history pool)
    (hdone : pool .rekey = .done (.rekeyed result)) (hsuffix : ¬headerSuffix <:+ key)
    {event : StoreEvent Party} (hmem : event ∈ history)
    (huser : event.thread = .user → ¬Targets key event.exchange) :
    ¬Touches key event.exchange := by
  intro htouch
  obtain ⟨_, _, _, hserved, _⟩ := hruns.served_of_mem hmem
  have htarget := Targets.of_touches hserved htouch
  obtain ⟨thread, x⟩ := event
  cases thread with
  | user => exact huser rfl htarget
  | rekey => exact hsuffix ((rekey_own hruns hdone).2 _ hmem rfl key htarget)

/-- The object that a request wrote, while nothing touches it. -/
theorem contents_after_put {thread : Party} {blob : BlobInput} {putResult : PutResult}
    {objects : List (Key × Bytes)}
    (hserved : AtomicServes initial before ⟨.put [blob], (.ok putResult, objects)⟩)
    (huntouched : ∀ event ∈ since, ¬Touches blob.key event.exchange) :
    contents initial (before ++ ⟨thread, .put [blob], (.ok putResult, objects)⟩ :: since)
      blob.key = some blob.data.bytes := by
  have hobjects : objects = [(blob.key, blob.data.bytes)] := hserved
  rw [contents_append, contents_cons, contents_of_not_touches huntouched, hobjects]
  change KeyMap.insertAll _ [(blob.key, blob.data.bytes)] blob.key = _
  rw [KeyMap.insertAll_cons, KeyMap.insertAll_nil, Function.update_self]

/-- What the users exchanged for a call that returned `Ok`, and for the later ones. -/
theorem user_did {log earlier later : UserLog} {call : UserCall}
    (hruns : Runs (RekeyServes Opens initial) (Party.program headerSuffix calls) history pool)
    (hserved : pool .user = .done (.served log))
    (hlog : log = earlier ++ (call, .ok ()) :: later) :
    ∃ first did rest, own .user history = first ++ did ++ rest ∧ call.Did headerSuffix did ∧
      AimedAt headerSuffix (later.flatMap fun entry => entry.1.keys) rest := by
  have hpath := hruns.path .user
  rw [hserved] at hpath
  obtain ⟨log', first, second, hown, hfirst, hsecond⟩ := path_bind_done_iff.mp hpath
  obtain ⟨rfl, hlog'⟩ := path_done_iff.mp hsecond
  cases hlog'
  rw [List.append_nil] at hown
  rw [hown]
  exact (userProgram_path hfirst).2 _ _ _ hlog

/-- The two writes of a put that went through. -/
abbrev dataWrite (blob : BlobInput) (run : EncryptRun) (result : PutResult)
    (objects : List (Key × Bytes)) : StoreExchange :=
  ⟨.put [BlobInput.withSize blob.key run.reader (blob.sizeHint.getD 0)], (.ok result, objects)⟩

abbrev headerWrite (headerSuffix : Key) (blob : BlobInput) (header : Bytes) (result : PutResult)
    (objects : List (Key × Bytes)) : StoreExchange :=
  ⟨.put [BlobInput.withSize (blob.key ++ headerSuffix) (Reader.ofBytes header) header.length],
    (.ok result, objects)⟩

/-- A put that returned `Ok` and whose key no later call is about: where its encryption
and its two writes stand, and that nothing of the users comes between or after them. -/
theorem put_placed {log earlier later : UserLog} {front behind : List BlobInput} {blob : BlobInput}
    (hruns : Runs (RekeyServes Opens initial) (Party.program headerSuffix calls) history pool)
    (hserved : pool .user = .done (.served log))
    (hlog : log = earlier ++ (.put (front ++ blob :: behind), .ok ()) :: later)
    (hlater : ∀ entry ∈ later, blob.key ∉ entry.1.keys)
    (hbehind : blob.key ∉ behind.map BlobInput.key) :
    AcceptsPut headerSuffix blob.key ∧
      ∃ run header r o r' o' early between since, run.outcome = .header header ∧
        history = early ++ ⟨.user, dataWrite blob run r o⟩ :: between ++
          ⟨.user, headerWrite headerSuffix blob header r' o'⟩ :: since ∧
        (⟨.user, .encryptStream blob.data, run⟩ : StoreEvent Party) ∈ early ∧
        own .user between = [] ∧ ∀ event ∈ since, event.thread = .user →
          ¬Targets blob.key event.exchange ∧
            ¬Targets (blob.key ++ headerSuffix) event.exchange := by
  obtain ⟨es₁, es₂, es₃, hown, ⟨haccepts, hput⟩, hothers⟩ := user_did hruns hserved hlog
  obtain ⟨es₄, _, es₅, rfl, ⟨run, r, o, header, r', o', houtcome, rfl⟩, hafter⟩ :=
    hput front blob behind rfl
  have haccept := haccepts blob (by simp)
  have huntargeted : ∀ y ∈ es₅ ++ es₃,
      ¬Targets blob.key y ∧ ¬Targets (blob.key ++ headerSuffix) y := by
    intro y hy
    obtain hy | hy := List.mem_append.mp hy
    · exact hafter.not_targets hbehind haccept.2.1 hy
    · refine hothers.not_targets ?_ haccept.2.1 hy
      rw [List.mem_flatMap]
      rintro ⟨entry, hentry, hkey⟩
      exact hlater entry hentry hkey
  have hown' : own .user history =
      (es₁ ++ es₄ ++ [⟨.encryptStream blob.data, run⟩, dataWrite blob run r o]) ++
        headerWrite headerSuffix blob header r' o' :: (es₅ ++ es₃) := by
    rw [hown]
    simp
  obtain ⟨before, since, rfl, hbefore, hsince⟩ := own_eq_append_cons hown'
  have hbefore' : own .user before = (es₁ ++ es₄ ++ [⟨.encryptStream blob.data, run⟩]) ++
      dataWrite blob run r o :: [] := by
    rw [hbefore]
    simp
  obtain ⟨early, between, rfl, hearly, hbetween⟩ := own_eq_append_cons hbefore'
  refine ⟨haccept, run, header, r, o, r', o', early, between, since, houtcome, rfl, ?_, hbetween, ?_⟩
  · rw [← mem_own_iff, hearly]
    simp
  · rintro ⟨_, y⟩ hmem rfl
    rw [← mem_own_iff, hsince] at hmem
    exact huntargeted y hmem

/-- It decrypts to what it put, unless rekey overtakes it. -/
theorem put_kept {result : Except BlobStorageError RekeyResult} {log earlier later : UserLog}
    {front behind : List BlobInput} {blob : BlobInput}
    (hruns : Runs (RekeyServes Opens initial) (Party.program headerSuffix calls) history pool)
    (hdone : pool .rekey = .done (.rekeyed result)) (hserved : pool .user = .done (.served log))
    (hlog : log = earlier ++ (.put (front ++ blob :: behind), .ok ()) :: later)
    (hlater : ∀ entry ∈ later, blob.key ∉ entry.1.keys)
    (hbehind : blob.key ∉ behind.map BlobInput.key)
    (hovertaken : ¬Overtaken (blob.key ++ headerSuffix) history) :
    ∃ encData header, contents initial history blob.key = some encData ∧
      contents initial history (blob.key ++ headerSuffix) = some header ∧
      Opens encData header blob.data.bytes := by
  obtain ⟨haccept, run, header, r, o, r', o', early, between, since, houtcome, rfl, hencrypt,
    hbetween, hsince⟩ := put_placed hruns hserved hlog hlater hbehind
  have hlast : LastRequest (blob.key ++ headerSuffix) (headerWrite headerSuffix blob header r' o')
      since (early ++ ⟨.user, dataWrite blob run r o⟩ :: between ++
        ⟨.user, headerWrite headerSuffix blob header r' o'⟩ :: since) :=
    ⟨⟨_, rfl⟩, List.mem_singleton_self _, fun event hmem huser => (hsince event hmem huser).2⟩
  rw [hlast.overtaken_iff] at hovertaken
  have hdata : contents initial (early ++ ⟨.user, dataWrite blob run r o⟩ :: between ++
      ⟨.user, headerWrite headerSuffix blob header r' o'⟩ :: since) blob.key =
        some run.written := by
    rw [List.append_assoc, List.cons_append] at hruns ⊢
    refine contents_after_put hruns.split.1.1 fun event hmem => not_touches_of_party hruns hdone
      haccept.2.1 (List.mem_append_right _ (List.mem_cons_of_mem _ hmem)) fun huser => ?_
    obtain ⟨_, y⟩ := event
    obtain rfl : _ = Party.user := huser
    obtain hmem | hmem := List.mem_append.mp hmem
    · rw [← mem_own_iff, hbetween] at hmem
      cases hmem
    obtain hmem | hmem := List.mem_cons.mp hmem
    · cases hmem
      exact fun htarget => haccept.ne_headerKey blob.key (List.mem_singleton.mp htarget)
    · exact (hsince _ hmem rfl).1
  have hopens : Opens run.written header blob.data.bytes := by
    obtain ⟨_, _, _, hcipher⟩ := hruns.served_of_mem (List.mem_append_left _
      (List.mem_append_left _ hencrypt))
    exact hcipher.2 header houtcome
  have hwritten : contents initial (early ++ ⟨.user, dataWrite blob run r o⟩ :: between ++
      [⟨.user, headerWrite headerSuffix blob header r' o'⟩]) (blob.key ++ headerSuffix) =
        some header :=
    contents_after_put hruns.split.1.1 (by simp)
  rw [List.append_cons] at hruns hdata ⊢
  have hkept : ∀ old new,
      (⟨.rekey, .rekeyHeader old, .ok (some new)⟩ : StoreEvent Party) ∈ since →
        (∃ h, some old = some h ∧ Opens run.written h blob.data.bytes) →
          ∃ h, some new = some h ∧ Opens run.written h blob.data.bytes := by
    rintro old new hmem ⟨_, hold, hopens⟩
    cases hold
    obtain ⟨_, _, _, hcipher⟩ := hruns.served_of_mem (List.mem_append_right _ hmem)
    exact ⟨new, rfl, hcipher.2 _ _ hopens⟩
  obtain ⟨header', hheader', hopens'⟩ := header_keeps (fun content => ∃ h, content = some h ∧
    Opens run.written h blob.data.bytes) hruns hdone
    hlast.2.2 hovertaken ⟨header, hwritten, hopens⟩ hkept
  exact ⟨run.written, header', hdata, hheader', hopens'⟩

/-- The last place of an element. -/
theorem exists_last_mem {key : Key} {keys : List Key} (h : key ∈ keys) :
    ∃ front behind, keys = front ++ key :: behind ∧ key ∉ behind := by
  obtain ⟨behind, front, hsplit, hbehind⟩ := List.eq_append_cons_of_mem (List.mem_reverse.mpr h)
  refine ⟨front.reverse, behind.reverse, ?_, by simpa using hbehind⟩
  rw [← List.reverse_reverse keys, hsplit]
  simp

/-- A delete that returned `Ok`, whose key no later call is about, has asked for the
header to be deleted. If that went through, the header is there afterwards just when
rekey overtakes it. -/
theorem delete_kept {result : Except BlobStorageError RekeyResult} {log earlier later : UserLog}
    {keys : List Key} {key : Key}
    (hruns : Runs (RekeyServes Opens initial) (Party.program headerSuffix calls) history pool)
    (hdone : pool .rekey = .done (.rekeyed result)) (hserved : pool .user = .done (.served log))
    (hlog : log = earlier ++ (.delete keys, .ok ()) :: later) (hkey : key ∈ keys)
    (hlater : ∀ entry ∈ later, key ∉ entry.1.keys) :
    ∃ response since,
      LastRequest (key ++ headerSuffix) ⟨.delete (key ++ headerSuffix), response⟩ since history ∧
        (response = .ok () →
          (contents initial history (key ++ headerSuffix) = none ↔
            ¬Overtaken (key ++ headerSuffix) history)) := by
  obtain ⟨es₁, es₂, es₃, hown, ⟨hsuffix, hdelete⟩, hothers⟩ := user_did hruns hserved hlog
  obtain ⟨front, behind, rfl, hbehind⟩ := exists_last_mem hkey
  obtain ⟨es₄, response, es₅, rfl, hafter⟩ := hdelete front key behind rfl
  have huntargeted : ∀ y ∈ es₅ ++ es₃, ¬Targets (key ++ headerSuffix) y := by
    intro y hy
    obtain hy | hy := List.mem_append.mp hy
    · exact (hafter.not_targets hbehind (hsuffix key hkey) hy).2
    · refine (hothers.not_targets ?_ (hsuffix key hkey) hy).2
      rw [List.mem_flatMap]
      rintro ⟨entry, hentry, hkey⟩
      exact hlater entry hentry hkey
  have hown' : own .user history =
      (es₁ ++ es₄) ++ ⟨.delete (key ++ headerSuffix), response⟩ :: (es₅ ++ es₃) := by
    rw [hown]
    simp
  obtain ⟨before, since, rfl, _, hsince⟩ := own_eq_append_cons hown'
  have husers : ∀ event ∈ since, event.thread = .user →
      ¬Targets (key ++ headerSuffix) event.exchange := by
    rintro ⟨_, y⟩ hmem rfl
    rw [← mem_own_iff, hsince] at hmem
    exact huntargeted y hmem
  have hlast : LastRequest (key ++ headerSuffix) ⟨.delete (key ++ headerSuffix), response⟩ since
      (before ++ ⟨.user, .delete (key ++ headerSuffix), response⟩ :: since) :=
    ⟨⟨before, rfl⟩, rfl, husers⟩
  refine ⟨response, since, hlast, ?_⟩
  rintro rfl
  rw [hlast.overtaken_iff]
  rw [List.append_cons] at hruns ⊢
  constructor
  · intro hnone hunread
    obtain ⟨early, x, late, rfl, hwrites, _⟩ := hunread
    obtain ⟨content, hcontent⟩ : ∃ content, contents (contents initial
        (before ++ [⟨.user, .delete (key ++ headerSuffix), .ok ()⟩]))
        (early ++ ⟨.rekey, x⟩ :: late) (key ++ headerSuffix) = some content := by
      refine object_of_writes ⟨⟨.rekey, x⟩, by simp, hwrites⟩ ?_
      rintro ⟨thread, y⟩ hmem htouch
      obtain ⟨_, _, _, hserved', _⟩ := hruns.served_of_mem (List.mem_append_right _ hmem)
      have htarget := Targets.of_touches hserved' htouch
      cases thread with
      | user => exact absurd htarget (husers _ hmem rfl)
      | rekey =>
          obtain ⟨es, es', hsplit⟩ :=
            List.append_of_mem (mem_own_iff.mpr (List.mem_append_right _ hmem))
          obtain ⟨_, _, _, _, _, _, _, rfl⟩ :=
            (rekey_own hruns hdone).1 es y es' hsplit _ htarget
          exact htouch
    rw [contents_append, hcontent] at hnone
    cases hnone
  · intro hunread
    refine header_keeps (fun content => content = none) hruns hdone husers hunread ?_ ?_
    · rw [contents_append, contents_cons, contents_nil]
      exact Function.update_self _ _ _
    · intro old new _ hold
      cases hold

/-- For every interleaving of a rekey with the calls of users, when everything has
completed: a key whose last call was a put that returned `Ok` decrypts to what that put
stored, unless rekey overtook it. A key whose last call was a delete that returned `Ok`
and could delete the header has a header if and only if rekey overtook it. -/
theorem rekey_keeps_updates {result : Except BlobStorageError RekeyResult} {log : UserLog}
    (hruns : Runs (RekeyServes Opens initial) (Party.program headerSuffix calls) history pool)
    (hdone : pool .rekey = .done (.rekeyed result)) (hserved : pool .user = .done (.served log)) :
    (∀ earlier front blob behind later,
      log = earlier ++ (.put (front ++ blob :: behind), .ok ()) :: later →
      (∀ entry ∈ later, blob.key ∉ entry.1.keys) → blob.key ∉ behind.map BlobInput.key →
      ¬Overtaken (blob.key ++ headerSuffix) history →
        ∃ encData header, contents initial history blob.key = some encData ∧
          contents initial history (blob.key ++ headerSuffix) = some header ∧
          Opens encData header blob.data.bytes) ∧
    ∀ earlier keys later, log = earlier ++ (.delete keys, .ok ()) :: later →
      ∀ key ∈ keys, (∀ entry ∈ later, key ∉ entry.1.keys) →
        ∃ response since,
          LastRequest (key ++ headerSuffix) ⟨.delete (key ++ headerSuffix), response⟩ since
            history ∧
          (response = .ok () →
            (contents initial history (key ++ headerSuffix) = none ↔
              ¬Overtaken (key ++ headerSuffix) history)) :=
  ⟨fun _ _ _ _ _ hlog hlater hbehind hovertaken =>
      put_kept hruns hdone hserved hlog hlater hbehind hovertaken,
    fun _ _ _ hlog _ hkey hlater => delete_kept hruns hdone hserved hlog hkey hlater⟩

end Interleaving

section Overtaking

open RekeyableShiftEncryption

/-- The blobs `k` and `j`, encrypted with the data key `3` that the master key `1` wraps. -/
def oldStore : PlainMap :=
  KeyMap.insertAll (fun _ => none) [(['k'], [10]), (['k', 'h'], wrapDek 1 3), (['j'], [20]),
    (['j', 'h'], wrapDek 1 3)]

/-- Decryption with the byte-shift provider. -/
def ShiftOpens (encData header plaintext : Bytes) : Prop :=
  plaintext = encData.map (· - dek header)

instance (encData header plaintext : Bytes) : Decidable (ShiftOpens encData header plaintext) :=
  inferInstanceAs (Decidable (_ = _))

theorem shiftOpens_rewrapped {key : UInt8} {encData plaintext : Bytes}
    (h : ShiftOpens encData (wrapDek 1 key) plaintext) :
    ShiftOpens encData (wrapDek 2 key) plaintext := by
  unfold ShiftOpens at h ⊢
  rwa [dek_wrapDek] at h ⊢

abbrev putCall : UserCall := .put [.new ['k'] (.ofBytes [1])]

abbrev deleteCall (key : Key) : UserCall := .delete [key]

/-- A put of `k`, with the data key `5` of its own. -/
def putExchanges : List StoreExchange :=
  [⟨.encryptStream (.ofBytes [1]), { written := [6], outcome := .header (wrapDek 1 5) }⟩,
    dataWrite (.new ['k'] (.ofBytes [1])) { written := [6], outcome := .header (wrapDek 1 5) } ⟨[]⟩
      [(['k'], [6])],
    headerWrite ['h'] (.new ['k'] (.ofBytes [1])) (wrapDek 1 5) ⟨[]⟩ [(['k', 'h'], wrapDek 1 5)]]

def deleteExchanges (key : Key) (header : Except DeleteFailure Unit) : List StoreExchange :=
  [⟨.delete key, .ok ()⟩, ⟨.delete (key ++ ['h']), header⟩]

/-- A rekey that finds the header of `k` and wraps its data key with the master key `2`,
up to where it has read the header, and from there on. -/
def rekeyReads (key : UInt8) : List StoreExchange :=
  [⟨.enumerate (suffixFilter ['h']), .ok [(['k', 'h'], none)]⟩,
    ⟨.get ['k', 'h'], .ok (.ofBytes (wrapDek 1 key))⟩]

def rekeyWrites (key : UInt8) : List StoreExchange :=
  [⟨.rekeyHeader (wrapDek 1 key), .ok (some (wrapDek 2 key))⟩,
    ⟨.put [.withSize ['k', 'h'] (.ofBytes (wrapDek 2 key)) 2],
      (.ok ⟨[]⟩, [(['k', 'h'], wrapDek 2 key)])⟩]

def rekeyedPool (count : Nat) (log : UserLog) : Party → StoreProgram PartyResult
  | .rekey => .done (.rekeyed (.ok ⟨count⟩))
  | .user => .done (.served log)

def eventsOf (party : Party) (es : List StoreExchange) : List (StoreEvent Party) :=
  es.map fun x => ⟨party, x⟩

theorem rekey_path (key : UInt8) (calls : List UserCall) :
    Path (Party.rekey.program ['h'] calls) (rekeyReads key ++ rekeyWrites key)
      (.done (.rekeyed (.ok ⟨1⟩))) :=
  .cons _ (.cons _ (.cons _ (.cons _ (.nil _))))

theorem rekey_served (key : UInt8) :
    CipherServes ShiftOpens ⟨.rekeyHeader (wrapDek 1 key), .ok (some (wrapDek 2 key))⟩ :=
  fun _ _ h => shiftOpens_rewrapped h

theorem rekey_listed (history : List (StoreEvent Party)) :
    AtomicServes oldStore history
      ⟨.enumerate (suffixFilter ['h']), .ok [(['k', 'h'], none)]⟩ := by
  intro entry hentry
  obtain rfl := List.mem_singleton.mp hentry
  decide

theorem encrypt_served : CipherServes ShiftOpens ⟨.encryptStream (.ofBytes [1]),
    { written := [6], outcome := .header (wrapDek 1 5) }⟩ := by
  intro header h
  cases h
  decide

/-- The header of `k` that rekey has read, with calls of the users before it is written. -/
def overtakenBy (es : List StoreExchange) : List (StoreEvent Party) :=
  eventsOf .rekey (rekeyReads 3) ++ eventsOf .user es ++ eventsOf .rekey (rekeyWrites 3)

theorem put_overtaken_runs :
    Runs (RekeyServes ShiftOpens oldStore) (Party.program ['h'] [putCall])
      (overtakenBy putExchanges) (rekeyedPool 1 [(putCall, .ok ())]) := by
  refine runs_of_paths ?_ ?_
  · intro party
    match party with
    | .rekey => exact rekey_path 3 _
    | .user => exact .cons _ (.cons _ (.cons _ (.nil _)))
  · exact ⟨⟨rekey_listed _, trivial⟩,
      ⟨⟨_, rfl, rfl⟩, trivial⟩, ⟨trivial, encrypt_served⟩, ⟨rfl, trivial⟩, ⟨rfl, trivial⟩,
      ⟨trivial, rekey_served 3⟩, ⟨rfl, trivial⟩, trivial⟩

theorem delete_overtaken_runs :
    Runs (RekeyServes ShiftOpens oldStore) (Party.program ['h'] [deleteCall ['k']])
      (overtakenBy (deleteExchanges ['k'] (.ok ()))) (rekeyedPool 1 [(deleteCall ['k'], .ok ())]) := by
  refine runs_of_paths ?_ ?_
  · intro party
    match party with
    | .rekey => exact rekey_path 3 _
    | .user => exact .cons _ (.cons _ (.nil _))
  · exact ⟨⟨rekey_listed _, trivial⟩,
      ⟨⟨_, rfl, rfl⟩, trivial⟩, ⟨trivial, trivial⟩, ⟨trivial, trivial⟩,
      ⟨trivial, rekey_served 3⟩, ⟨rfl, trivial⟩, trivial⟩

/-- A delete that cannot delete the header returns `Ok` all the same, with no rekey in
its way. -/
def headerRefused : List (StoreEvent Party) :=
  eventsOf .user (deleteExchanges ['k'] (.error (.key (.unknown "busy")))) ++
    [⟨.rekey, .enumerate (suffixFilter ['h']), .ok []⟩]

theorem delete_refused_runs :
    Runs (RekeyServes ShiftOpens oldStore) (Party.program ['h'] [deleteCall ['k']])
      headerRefused (rekeyedPool 0 [(deleteCall ['k'], .ok ())]) := by
  refine runs_of_paths ?_ ?_
  · intro party
    match party with
    | .rekey => exact .cons _ (.nil _)
    | .user => exact .cons _ (.cons _ (.nil _))
  · exact ⟨⟨trivial, trivial⟩, ⟨trivial, trivial⟩, ⟨by simp [AtomicServes], trivial⟩, trivial⟩

/-- A put that returned `Ok` is lost, a deleted header comes back, and a header stays
behind that could not be deleted. -/
theorem overtaken_updates_lost :
    (Runs (RekeyServes ShiftOpens oldStore) (Party.program ['h'] [putCall])
        (overtakenBy putExchanges) (rekeyedPool 1 [(putCall, .ok ())]) ∧
      ∃ encData header, contents oldStore (overtakenBy putExchanges) ['k'] = some encData ∧
        contents oldStore (overtakenBy putExchanges) ['k', 'h'] = some header ∧
        ¬ShiftOpens encData header [1]) ∧
    (Runs (RekeyServes ShiftOpens oldStore) (Party.program ['h'] [deleteCall ['k']])
        (overtakenBy (deleteExchanges ['k'] (.ok ())))
        (rekeyedPool 1 [(deleteCall ['k'], .ok ())]) ∧
      contents oldStore (overtakenBy (deleteExchanges ['k'] (.ok ()))) ['k', 'h'] ≠ none) ∧
    Runs (RekeyServes ShiftOpens oldStore) (Party.program ['h'] [deleteCall ['k']])
        headerRefused (rekeyedPool 0 [(deleteCall ['k'], .ok ())]) ∧
      contents oldStore headerRefused ['k', 'h'] ≠ none :=
  ⟨⟨put_overtaken_runs, [6], wrapDek 2 3, by decide, by decide, by decide⟩,
    ⟨delete_overtaken_runs, by decide⟩, delete_refused_runs, by decide⟩

/-- The put, then a rekey of its header, then a delete of `j`. -/
def undisturbed : List (StoreEvent Party) :=
  eventsOf .user putExchanges ++ eventsOf .rekey (rekeyReads 5 ++ rekeyWrites 5) ++
    eventsOf .user (deleteExchanges ['j'] (.ok ()))

theorem undisturbed_runs :
    Runs (RekeyServes ShiftOpens oldStore) (Party.program ['h'] [putCall, deleteCall ['j']])
      undisturbed (rekeyedPool 1 [(putCall, .ok ()), (deleteCall ['j'], .ok ())]) := by
  refine runs_of_paths ?_ ?_
  · intro party
    match party with
    | .rekey => exact rekey_path 5 _
    | .user => exact .cons _ (.cons _ (.cons _ (.cons _ (.cons _ (.nil _)))))
  · exact ⟨⟨trivial, encrypt_served⟩, ⟨rfl, trivial⟩, ⟨rfl, trivial⟩,
      ⟨rekey_listed _, trivial⟩,
      ⟨⟨_, rfl, rfl⟩, trivial⟩, ⟨trivial, rekey_served 5⟩, ⟨rfl, trivial⟩,
      ⟨trivial, trivial⟩, ⟨trivial, trivial⟩, trivial⟩

/-- Rekey read the header after the put wrote it. -/
theorem undisturbed_not_overtaken : ¬Overtaken ['k', 'h'] undisturbed := by
  have hlast : LastRequest ['k', 'h'] _ (eventsOf .rekey (rekeyReads 5 ++ rekeyWrites 5) ++
      eventsOf .user (deleteExchanges ['j'] (.ok ()))) undisturbed :=
    ⟨⟨eventsOf .user putExchanges.dropLast, rfl⟩, List.mem_singleton_self _, by
      simp [eventsOf, rekeyReads, rekeyWrites, deleteExchanges, Targets]⟩
  rw [hlast.overtaken_iff]
  rintro ⟨before, x, after, hsplit, hwrites, hunread⟩
  obtain _ | ⟨first, _ | ⟨second, rest⟩⟩ := before
  · cases hsplit
    exact hwrites
  · cases hsplit
    exact hwrites
  · obtain ⟨rfl, _⟩ := List.cons.inj (List.cons.inj hsplit).2
    exact hunread _ (List.mem_cons_of_mem _ List.mem_cons_self)

theorem undisturbed_kept_j : ¬Overtaken ['j', 'h'] undisturbed := by
  have hlast : LastRequest ['j', 'h'] ⟨.delete ['j', 'h'], .ok ()⟩ [] undisturbed :=
    ⟨⟨undisturbed.dropLast, rfl⟩, rfl, by simp⟩
  rw [hlast.overtaken_iff]
  rintro ⟨before, x, after, hsplit, _⟩
  simp at hsplit

theorem rekey_keeps_updates_undisturbed :
    (∃ encData header, contents oldStore undisturbed ['k'] = some encData ∧
      contents oldStore undisturbed ['k', 'h'] = some header ∧ ShiftOpens encData header [1]) ∧
    contents oldStore undisturbed ['j', 'h'] = none := by
  obtain ⟨hput, hdelete⟩ := rekey_keeps_updates undisturbed_runs rfl rfl
  refine ⟨hput [] [] (.new ['k'] (.ofBytes [1])) [] [(deleteCall ['j'], .ok ())] rfl
    (by decide) (by decide) undisturbed_not_overtaken, ?_⟩
  obtain ⟨response, since, hlast, hnone⟩ := hdelete [(putCall, .ok ())] [['j']] [] rfl ['j']
    (List.mem_singleton_self _) (by simp)
  have hlast' : LastRequest ['j', 'h'] ⟨.delete ['j', 'h'], .ok ()⟩ [] undisturbed :=
    ⟨⟨undisturbed.dropLast, rfl⟩, rfl, by simp⟩
  obtain ⟨hx, _⟩ := hlast.unique hlast'
  cases hx
  exact (hnone rfl).mpr undisturbed_kept_j

end Overtaking

end BlobStorage
