import BlobStorage.Backend.Fs.Writes

/-!
# Keys in each other's way

A key cannot be stored beneath a stored file, nor where a directory is, nor with a name that no
file can have. Directories come into being on the way to the blobs that are put, even if a put then
fails over a name, and are never removed, so a key that was once the beginning of a stored one
stays a directory. A delete takes a key for absent only where the path to it is free.
-/

namespace BlobStorage

open Fallible Posix FileTree

namespace FsBlobStore

variable {store : FsBlobStore} {s : FsState} {keys : List Key}

section Delete

/-- A batch is deleted: it is no error, the keys are gone and all else is as it was. -/
def Forgets (store : FsBlobStore) (s : FsState) (keys : List Key) : Prop :=
  ∃ u, exec (store.delete keys) s = (.ok (), u) ∧ (∀ key ∈ keys, ∀ data, ¬Stored u.tree key data) ∧
    ∀ other data, other ∉ keys → (Stored u.tree other data ↔ Stored s.tree other data)

theorem forgets_iff_deletable (hroot : s.rootStat = .ok true)
    (hvalid : ∀ key ∈ keys, ValidKey key) : store.Forgets s keys ↔ Deletable s.tree keys := by
  obtain ⟨r, u, hexec, _, htook, hok⟩ := @exec_delete_of_valid store s keys hroot hvalid
  constructor
  · rintro ⟨v, hdeleted, _, _⟩
    rw [hexec] at hdeleted
    cases hdeleted
    exact hok.mp rfl
  · intro hdeletable
    obtain rfl := hok.mpr hdeletable
    refine ⟨u, hexec, fun key hkey data hstored => ?_, fun other data hother => ?_⟩
    · exact ((htook.stored key data).mp hstored).2 hkey
    · rw [htook.stored]
      exact and_iff_left hother

/-- `a` is not stored, but `a/b` is. -/
theorem directory_is_not_forgotten :
    ValidKey ['a'] ∧ (∀ data, ¬Stored nestedState.tree ['a'] data) ∧
      (∃ report, (exec (sampleFs.delete [['a']]) nestedState).1 = .error (.batch report)) ∧
      ¬sampleFs.Forgets nestedState [['a']] := by
  have hdir : nestedState.tree.find (ofText ['a']) = some .dir := by decide
  refine ⟨by decide, fun data hstored => ?_, ⟨_, rfl⟩, ?_⟩
  · unfold Stored at hstored
    rw [hdir] at hstored
    cases hstored
  · rintro ⟨u, hexec, _⟩
    cases hexec

theorem forgets_iff_deletable_nested :
    sampleFs.Forgets nestedState [['a', '/', 'b'], ['c'], ['c']] ∧
      ¬sampleFs.Forgets nestedState [['a']] ∧ ¬sampleFs.Forgets nestedState [['x', nul]] := by
  refine ⟨(forgets_iff_deletable rfl (by decide)).mpr ?_, ?_, ?_⟩
  · intro front key rest hsplit
    have hkey : key ∈ [['a', '/', 'b'], ['c'], ['c']] := by
      rw [hsplit]
      exact List.mem_append_right _ List.mem_cons_self
    have hall : ∀ key ∈ [['a', '/', 'b'], ['c'], ['c']],
        nestedState.tree.find (ofText key) ≠ some .dir ∧ ¬['a', '/', 'b'] ++ ['/'] <+: key ∧
          ∀ name ∈ ofText key, FileName name := by decide
    obtain ⟨hdir, hway, hnames⟩ := hall key hkey
    refine ⟨hdir, fun other data hstored hfront => ?_, Volume.not_unnameable_of_fileName hnames⟩
    rw [stored_nestedState hstored] at hfront
    exact absurd hfront hway
  · rw [forgets_iff_deletable rfl (by decide)]
    exact fun hdeletable => (hdeletable [] ['a'] [] rfl).1 (by decide)
  · rw [forgets_iff_deletable rfl (by decide)]
    exact fun hdeletable => (hdeletable [] ['x', nul] [] rfl).2.2 (.inl (by decide))

end Delete

/-! ### Runs of puts and deletes -/

inductive FsCall where
  | put (blobs : List BlobInput)
  | delete (keys : List Key)

namespace FsCall

def run (store : FsBlobStore) (s : FsState) : FsCall → FsState
  | .put blobs => (exec (store.put blobs) s).2
  | .delete keys => (exec (store.delete keys) s).2

/-- The keys are valid and no stream breaks off. -/
def Fair : FsCall → Prop
  | .put blobs => (∀ blob ∈ blobs, ValidKey blob.key) ∧ ∀ blob ∈ blobs, blob.data.failure = none
  | .delete keys => ∀ key ∈ keys, ValidKey key

end FsCall

/-- The state after a run of calls. -/
def runCalls (store : FsBlobStore) (s : FsState) (calls : List FsCall) : FsState :=
  calls.foldl (FsCall.run store) s

theorem runCalls_append (s : FsState) (calls others : List FsCall) :
    store.runCalls s (calls ++ others) = store.runCalls (store.runCalls s calls) others :=
  List.foldl_append

/-- At some moment of the run a blob was stored under the key. -/
def HasBeenStored (store : FsBlobStore) (start : FsState) (calls : List FsCall) (key : Key) : Prop :=
  ∃ done data, done <+: calls ∧ Stored (store.runCalls start done).tree key data

/-- A put comes to a blob whose key has a name that no file can have, with no file in the way. -/
def GivesUp (store : FsBlobStore) (s : FsState) (call : FsCall) (key : Key) : Prop :=
  ∃ front blob rest result u, call = .put (front ++ blob :: rest) ∧ blob.key = key ∧
    exec (store.put front) s = (.ok result, u) ∧ ¬Nameable key ∧ ¬u.tree.ThroughFile (ofText key)

/-- At some moment of the run a put has failed over a name of the key. -/
def HasBeenGivenUp (store : FsBlobStore) (start : FsState) (calls : List FsCall) (key : Key) :
    Prop :=
  ∃ done call, done ++ [call] <+: calls ∧ GivesUp store (store.runCalls start done) call key

/-- Directories are added on the way to what is then stored, and none is removed. -/
structure Grows (s u : FsState) : Prop where
  rootStat : u.rootStat = s.rootStat
  kept : ∀ path, s.tree.find path = some .dir → u.tree.find path = some .dir
  added : ∀ path, u.tree.find path = some .dir → s.tree.find path = some .dir ∨
    ∃ key data, Stored u.tree key data ∧ path <+: ofText key ∧ path ≠ ofText key

theorem Puts.grows {u : FsState} {blobs : List BlobInput} (h : Puts s blobs u) : Grows s u := by
  refine ⟨h.only.rootStat, ?_, ?_⟩
  · induction h with
    | nil => exact fun _ hdir => hdir
    | cons free wrote _ ih =>
        exact fun path hdir =>
          ih path ((wrote.dir_iff (fun hbad => free (.inr hbad)) path).mpr (.inl hdir))
  · induction h with
    | nil => exact fun _ hdir => .inl hdir
    | cons free wrote others ih =>
        intro path hdir
        obtain hdir | hnew := ih path hdir
        · obtain hdir | ⟨hfront, hne⟩ :=
            (wrote.dir_iff (fun hbad => free (.inr hbad)) path).mp hdir
          · exact .inl hdir
          · obtain ⟨data, hstored⟩ := others.stored.mpr (.inl ⟨_, wrote.stored⟩)
            exact .inr ⟨_, data, hstored, hfront, hne⟩
        · exact .inr hnew

/-- What a call does to the directories: a put that fails over a name has added those on the way
to it. -/
structure CallGrows (store : FsBlobStore) (s : FsState) (call : FsCall) : Prop where
  rootStat : (call.run store s).rootStat = s.rootStat
  kept : ∀ path, s.tree.find path = some .dir → (call.run store s).tree.find path = some .dir
  left : ∀ key, GivesUp store s call key → ∀ path, path <+: wayTo key →
    (call.run store s).tree.find path = some .dir
  added : ∀ path, (call.run store s).tree.find path = some .dir → s.tree.find path = some .dir ∨
    (∃ key data, Stored (call.run store s).tree key data ∧ path <+: ofText key ∧
      path ≠ ofText key) ∨
      ∃ key, GivesUp store s call key ∧ path <+: wayTo key

theorem left_of_givesUp (hroot : s.rootStat = .ok true) {blobs : List BlobInput}
    (hfair : (FsCall.put blobs).Fair) {key : Key} (h : GivesUp store s (.put blobs) key) :
    ∀ path, path <+: wayTo key → ((FsCall.put blobs).run store s).tree.find path = some .dir := by
  obtain ⟨front, blob, rest, result, u, hcall, rfl, hfront, hname, hclear⟩ := h
  cases hcall
  obtain ⟨e, v, hexec, hleft⟩ :=
    exec_put_unstorable hroot hfair.1 hfair.2 hfront (.inl hname)
  intro path hpath
  show (exec (store.put (front ++ blob :: rest)) s).2.tree.find path = some .dir
  rw [hexec]
  exact (hleft.dir_iff path).mpr (.inr ⟨hpath, hclear⟩)

/-- A put that fails has grown the tree as far as it came. -/
theorem Grows.added_leftBy {u v : FsState} {key : Key} (h : Grows s u) (hleft : LeftBy u key v)
    {path : Path} (hdir : u.tree.find path = some .dir) :
    s.tree.find path = some .dir ∨
      ∃ key data, Stored v.tree key data ∧ path <+: ofText key ∧ path ≠ ofText key := by
  obtain hold | ⟨other, data, hstored, hpath⟩ := h.added path hdir
  · exact .inl hold
  · exact .inr ⟨other, data, (hleft.stored_iff other data).mpr hstored, hpath⟩

theorem put_grows (hroot : s.rootStat = .ok true) {blobs : List BlobInput}
    (hfair : (FsCall.put blobs).Fair) : CallGrows store s (.put blobs) := by
  obtain ⟨result, u, hexec, hputs⟩ |
    ⟨front, blob, rest, result, u, hsplit, hfront, hputs, hbad, e, v, hexec, hleft⟩ :=
    @exec_put_cases store s blobs hroot hfair.1 hfair.2
  · have hrun : (FsCall.put blobs).run store s = u := congrArg Prod.snd hexec
    have hgrows := hputs.grows
    refine ⟨?_, ?_, fun key => left_of_givesUp hroot hfair, ?_⟩
    · rw [hrun, hgrows.rootStat]
    · rw [hrun]
      exact hgrows.kept
    · rw [hrun]
      exact fun path hdir => (hgrows.added path hdir).imp_right .inl
  · have hrun : (FsCall.put blobs).run store s = v := congrArg Prod.snd hexec
    have hgrows := hputs.grows
    refine ⟨?_, ?_, fun key => left_of_givesUp hroot hfair, ?_⟩
    · rw [hrun, hleft.only.rootStat, hgrows.rootStat]
    · rw [hrun]
      exact fun path hdir => (hleft.dir_iff path).mpr (.inl (hgrows.kept path hdir))
    · rw [hrun]
      intro path hdir
      obtain hdir | ⟨hway, hclear⟩ := (hleft.dir_iff path).mp hdir
      · exact (hgrows.added_leftBy hleft hdir).imp_right .inl
      · obtain hname | hthrough | hthere := hbad
        · exact .inr (.inr ⟨blob.key, ⟨front, blob, rest, result, u, by rw [hsplit], rfl, hfront,
            hname, hclear⟩, hway⟩)
        · exact absurd hthrough hclear
        · -- A directory is where the file should be, and all on the way to it is there.
          have hfrontKey := (hway.trans (wayTo_isPrefix _)).trans (List.dropLast_prefix _)
          have hold := Volume.find_of_isPrefix_dir hfrontKey hthere
          exact (hgrows.added_leftBy hleft hold).imp_right .inl

theorem delete_grows (hroot : s.rootStat = .ok true) (hfair : (FsCall.delete keys).Fair) :
    CallGrows store s (.delete keys) := by
  obtain ⟨r, u, hexec, honly, htook, _⟩ := @exec_delete_of_valid store s keys hroot hfair
  have hrun : (FsCall.delete keys).run store s = u := congrArg Prod.snd hexec
  refine ⟨?_, ?_, ?_, ?_⟩
  · rw [hrun, honly.rootStat]
  · rw [hrun]
    exact fun path => (htook.dirs path).mpr
  · rintro key ⟨front, blob, rest, result, v, hcall, _⟩
    cases hcall
  · rw [hrun]
    exact fun path hdir => .inl ((htook.dirs path).mp hdir)

theorem FsCall.grows {call : FsCall} (hroot : s.rootStat = .ok true) (hfair : call.Fair) :
    CallGrows store s call := by
  cases call with
  | put blobs => exact put_grows hroot hfair
  | delete keys => exact delete_grows hroot hfair

/-- An empty root. -/
structure Empty (s : FsState) : Prop where
  rootStat : s.rootStat = .ok true
  find : ∀ path, path ≠ [] → s.tree.find path = none

/-- The directories of a state that a run has come to. -/
structure Explained (store : FsBlobStore) (start : FsState) (calls : List FsCall) : Prop where
  rootStat : (store.runCalls start calls).rootStat = .ok true
  dirs : ∀ path, path ≠ [] → ((store.runCalls start calls).tree.find path = some .dir ↔
    (∃ key, HasBeenStored store start calls key ∧ path <+: ofText key ∧ path ≠ ofText key) ∨
      ∃ key, HasBeenGivenUp store start calls key ∧ path <+: wayTo key)

theorem hasBeenStored_now {start : FsState} {calls : List FsCall} {key : Key} {data : FileData}
    (h : Stored (store.runCalls start calls).tree key data) :
    HasBeenStored store start calls key := ⟨calls, data, List.prefix_refl calls, h⟩

theorem HasBeenStored.later {start : FsState} {calls : List FsCall} {key : Key}
    (h : HasBeenStored store start calls key) (others : List FsCall) :
    HasBeenStored store start (calls ++ others) key := by
  obtain ⟨done, data, hdone, hstored⟩ := h
  exact ⟨done, data, hdone.trans (List.prefix_append calls others), hstored⟩

theorem HasBeenGivenUp.later {start : FsState} {calls : List FsCall} {key : Key}
    (h : HasBeenGivenUp store start calls key) (others : List FsCall) :
    HasBeenGivenUp store start (calls ++ others) key := by
  obtain ⟨done, call, hdone, hgives⟩ := h
  exact ⟨done, call, hdone.trans (List.prefix_append calls others), hgives⟩

/-- Along a run the directories are those on the way to what is or was stored, and those that puts
which failed over a name have made. -/
theorem explained {start : FsState} (hempty : Empty start) {calls : List FsCall}
    (hfair : ∀ call ∈ calls, call.Fair) : Explained store start calls := by
  induction calls using List.reverseRecOn with
  | nil =>
      refine ⟨hempty.rootStat, fun path hne => iff_of_false ?_ ?_⟩
      · rw [show store.runCalls start [] = start from rfl, hempty.find path hne]
        exact nofun
      · rintro (⟨key, ⟨done, data, hdone, hstored⟩, _⟩ | ⟨key, ⟨done, call, hdone, _⟩, _⟩)
        · rw [List.prefix_nil.mp hdone] at hstored
          unfold Stored at hstored
          rw [show store.runCalls start [] = start from rfl,
            hempty.find _ (ofText_ne_nil key)] at hstored
          cases hstored
        · exact List.append_ne_nil_of_right_ne_nil _ (List.cons_ne_nil _ _)
            (List.prefix_nil.mp hdone)
  | append_singleton calls call ih =>
      rw [List.forall_mem_append, List.forall_mem_singleton] at hfair
      obtain ⟨hroot, hdirs⟩ := ih hfair.1
      have hgrows : CallGrows store (store.runCalls start calls) call := FsCall.grows hroot hfair.2
      have hrun : store.runCalls start (calls ++ [call]) =
          call.run store (store.runCalls start calls) := runCalls_append start calls [call]
      refine ⟨by rw [hrun, hgrows.rootStat, hroot], fun path hne => ⟨fun hdir => ?_, ?_⟩⟩
      · rw [hrun] at hdir
        obtain hold | ⟨key, data, hstored, hpath⟩ | ⟨key, hgives, hpath⟩ := hgrows.added path hdir
        · exact ((hdirs path hne).mp hold).imp
            (fun ⟨key, hkey, hpath⟩ => ⟨key, hkey.later [call], hpath⟩)
            fun ⟨key, hkey, hpath⟩ => ⟨key, hkey.later [call], hpath⟩
        · rw [← hrun] at hstored
          exact .inl ⟨key, hasBeenStored_now hstored, hpath⟩
        · exact .inr ⟨key, ⟨calls, call, List.prefix_refl _, hgives⟩, hpath⟩
      · rintro (⟨key, ⟨done, data, hdone, hstored⟩, hfront, hother⟩ |
          ⟨key, ⟨done, last, hdone, hgives⟩, hpath⟩)
        · obtain rfl | hearlier := List.prefix_concat_iff.mp hdone
          · exact Volume.find_of_isPrefix hfront hother hstored
          · rw [hrun]
            exact hgrows.kept path ((hdirs path hne).mpr
              (.inl ⟨key, ⟨done, data, hearlier, hstored⟩, hfront, hother⟩))
        · rw [hrun]
          obtain hsame | hearlier := List.prefix_concat_iff.mp hdone
          · obtain ⟨rfl, hlast⟩ := List.append_inj' hsame rfl
            obtain rfl := List.singleton_inj.mp hlast
            exact hgrows.left key hgives path hpath
          · exact hgrows.kept path ((hdirs path hne).mpr
              (.inr ⟨key, ⟨done, last, hearlier, hgives⟩, hpath⟩))

/-- What keeps a key from being stored: a stored key on the way to it, a key it is on the way to
that is stored or was, or a directory that a put has made before it failed over a name. -/
def InTheWay (store : FsBlobStore) (start : FsState) (calls : List FsCall) (key : Key) : Prop :=
  (∃ other data, Stored (store.runCalls start calls).tree other data ∧ other ++ ['/'] <+: key) ∨
    (∃ other, HasBeenStored store start calls other ∧ key ++ ['/'] <+: other) ∨
      ∃ other, HasBeenGivenUp store start calls other ∧ ofText key <+: wayTo other

theorem collides_iff_inTheWay {start : FsState} {calls : List FsCall}
    (h : Explained store start calls) (key : Key) :
    Collides (store.runCalls start calls).tree key ↔ InTheWay store start calls key := by
  unfold Collides InTheWay
  rw [throughFile_iff, h.dirs _ (ofText_ne_nil key)]
  simp only [append_sep_prefix_iff]

theorem run_put {blobs : List BlobInput} {u : FsState} {r : Except BlobStorageError PutResult}
    {start : FsState} {calls : List FsCall}
    (h : exec (store.put blobs) (store.runCalls start calls) = (r, u)) :
    store.runCalls start (calls ++ [.put blobs]) = u := by
  rw [runCalls_append]
  exact congrArg Prod.snd h

/-- After any run a put fails only at a blob whose key has a name that no file can have or something
in its way, and then exactly the blobs before it have been stored; and such a blob is not put. -/
theorem put_fails_iff_inTheWay {start : FsState} (hempty : Empty start) {calls : List FsCall}
    (hfair : ∀ call ∈ calls, call.Fair) :
    (∀ blobs e v, (FsCall.put blobs).Fair →
      exec (store.put blobs) (store.runCalls start calls) = (.error e, v) →
        ∃ front blob rest, blobs = front ++ blob :: rest ∧
          (∃ result, exec (store.put front) (store.runCalls start calls) =
            (.ok result, store.runCalls start (calls ++ [.put front]))) ∧
          (¬Nameable blob.key ∨ InTheWay store start (calls ++ [.put front]) blob.key) ∧
          ∀ other data, Stored v.tree other data ↔
            Stored (store.runCalls start (calls ++ [.put front])).tree other data) ∧
      ∀ blob, (FsCall.put [blob]).Fair →
        ((∃ e v, exec (store.put [blob]) (store.runCalls start calls) = (.error e, v)) ↔
          ¬Nameable blob.key ∨ InTheWay store start calls blob.key) := by
  have hroot := (explained hempty hfair : Explained store start calls).rootStat
  constructor
  · intro blobs e v hblobs hexec
    obtain ⟨_, _, hok, _⟩ | ⟨front, blob, rest, result, u, hsplit, hfront, _, hbad, e', v',
      herror, hleft⟩ := @exec_put_cases store _ blobs hroot hblobs.1 hblobs.2
    · rw [hexec] at hok
      cases hok
    · rw [hexec] at herror
      cases herror
      have hrun := run_put hfront
      have hfront' : (FsCall.put front).Fair := by
        rw [hsplit] at hblobs
        exact ⟨fun blob hblob => hblobs.1 blob (List.mem_append_left _ hblob),
          fun blob hblob => hblobs.2 blob (List.mem_append_left _ hblob)⟩
      have hall : ∀ call ∈ calls ++ [.put front], call.Fair := by
        rw [List.forall_mem_append, List.forall_mem_singleton]
        exact ⟨hfair, hfront'⟩
      refine ⟨front, blob, rest, hsplit, ⟨result, by rw [hrun, hfront]⟩, ?_, ?_⟩
      · rw [← collides_iff_inTheWay (explained hempty hall), hrun]
        exact hbad
      · rw [hrun]
        exact fun other data => hleft.stored_iff other data
  · intro blob hblob
    rw [← collides_iff_inTheWay (explained hempty hfair)]
    obtain ⟨_, u, hok, hputs⟩ |
      ⟨front, first, rest, _, u, hsplit, _, hputs, hbad, e, v, herror, _⟩ :=
      @exec_put_cases store _ [blob] hroot hblob.1 hblob.2
    · rw [hok]
      cases hputs with
      | cons free _ _ =>
          refine iff_of_false ?_ free
          rintro ⟨e, v, hfails⟩
          cases hfails
    · cases front with
      | nil =>
          obtain ⟨rfl, rfl⟩ := List.cons.inj hsplit
          cases hputs
          exact iff_of_true ⟨e, v, herror⟩ hbad
      | cons _ front =>
          have hlength := congrArg List.length hsplit
          simp at hlength

section Samples

theorem emptyRoot_empty : Empty emptyRoot where
  rootStat := rfl
  find path hne := by
    rw [Volume.find_of_ne_nil _ hne]
    exact AList.lookup_empty path

/-- The blob `a/b` is put and deleted again. -/
def leftoverCalls : List FsCall :=
  [.put [BlobInput.new ['a', '/', 'b'] (Reader.ofBytes [1])], .delete [['a', '/', 'b']]]

theorem leftoverCalls_fair : ∀ call ∈ leftoverCalls, call.Fair := by
  intro call hcall
  obtain rfl | hcall := List.mem_cons.mp hcall
  · exact ⟨by decide, by decide⟩
  · obtain rfl := List.mem_singleton.mp hcall
    show ∀ key ∈ [['a', '/', 'b']], ValidKey key
    decide

/-- Nothing is stored, and neither `a` nor `x<NUL>` can be. -/
theorem directory_outlives_its_blob :
    Empty emptyRoot ∧ (∀ call ∈ leftoverCalls, call.Fair) ∧ ValidKey ['a'] ∧ ValidKey ['x', nul] ∧
      (∀ key data, ¬Stored (sampleFs.runCalls emptyRoot leftoverCalls).tree key data) ∧
      (∃ e v, exec (sampleFs.put [BlobInput.new ['a'] (Reader.ofBytes [2])])
        (sampleFs.runCalls emptyRoot leftoverCalls) = (.error e, v)) ∧
      ∃ e v, exec (sampleFs.put [BlobInput.new ['x', nul] (Reader.ofBytes [2])])
        (sampleFs.runCalls emptyRoot leftoverCalls) = (.error e, v) := by
  refine ⟨emptyRoot_empty, leftoverCalls_fair, by decide, by decide, fun key data hstored => ?_,
    ⟨_, _, rfl⟩, _, _, rfl⟩
  have hkeys : (sampleFs.runCalls emptyRoot leftoverCalls).tree.nodes.keys = [[['a']]] := rfl
  have hdir : (sampleFs.runCalls emptyRoot leftoverCalls).tree.find [['a']] = some .dir := by decide
  have hmem : ofText key ∈ (sampleFs.runCalls emptyRoot leftoverCalls).tree.nodes.keys :=
    Volume.mem_of_find (ofText_ne_nil key) hstored
  rw [hkeys, List.mem_singleton] at hmem
  unfold Stored at hstored
  rw [hmem, hdir] at hstored
  cases hstored

/-- `a` is a directory, and the last name of `d/<NUL>` is none that a file can have. -/
theorem put_fails_iff_inTheWay_leftover :
    InTheWay sampleFs emptyRoot leftoverCalls ['a'] ∧
      ∃ e v, exec (sampleFs.put [BlobInput.new ['d', '/', nul] (Reader.ofBytes [2])])
        (sampleFs.runCalls emptyRoot leftoverCalls) = (.error e, v) := by
  have hfair : (FsCall.put [BlobInput.new ['a'] (Reader.ofBytes [2])]).Fair :=
    ⟨by decide, by decide⟩
  have hfair' : (FsCall.put [BlobInput.new ['d', '/', nul] (Reader.ofBytes [2])]).Fair :=
    ⟨by decide, by decide⟩
  have hname : Nameable ['a'] := by
    unfold Nameable
    decide
  have hname' : ¬Nameable ['d', '/', nul] := by
    unfold Nameable
    decide
  constructor
  · exact (((put_fails_iff_inTheWay emptyRoot_empty leftoverCalls_fair).2 _ hfair).mp
      ⟨_, _, rfl⟩).resolve_left fun hbad => hbad hname
  · exact ((put_fails_iff_inTheWay emptyRoot_empty leftoverCalls_fair).2 _ hfair').mpr (.inl hname')

end Samples

end FsBlobStore

end BlobStorage
