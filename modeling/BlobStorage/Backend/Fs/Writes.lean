import BlobStorage.Backend.Fs.Hints
import BlobStorage.Library.TreeCalls

/-!
# What puts and deletes do to the tree

A put makes the directories on the way to its file and then the file. It fails where a file is in
the way, or a directory is where the file should be, or a name is none that a file can have; the
files are then what they were, but directories may have been made.
-/

namespace BlobStorage

open Fallible Posix FileTree

/-- Something is where the key should be stored: its path leads through a file, or to a
directory. -/
def Collides (t : Volume FileData) (key : Key) : Prop :=
  t.ThroughFile (ofText key) ∨ t.find (ofText key) = some .dir

/-- All the names of the key are ones that a file can have. -/
def Nameable (key : Key) : Prop := ∀ name ∈ ofText key, FileName name

/-- A put of the key fails. -/
def Unstorable (t : Volume FileData) (key : Key) : Prop := ¬Nameable key ∨ Collides t key

/-- A delete of the key fails. -/
def Undeletable (t : Volume FileData) (key : Key) : Prop :=
  t.Refused (ofText key) ∨ t.find (ofText key) = some .dir

/-- The directories that a put makes on the way to its file. -/
def wayTo (key : Key) : Path := nameableFront (ofText key).dropLast

/-- Of the state only the tree has changed. -/
def OnlyTree (s u : FsState) : Prop := u = { s with tree := u.tree }

/-- `data` is now stored under the key, in directories that are there, and nothing else has
changed. -/
structure Wrote (s : FsState) (key : Key) (data : FileData) (u : FsState) : Prop where
  only : OnlyTree s u
  find : ∀ path, u.tree.find path = if path = ofText key then some (.file data)
    else if path <+: ofText key then some .dir else s.tree.find path

/-- No more than the directories on the way to the key have been made, and none if a file is in
the way of them. -/
structure LeftBy (s : FsState) (key : Key) (u : FsState) : Prop where
  only : OnlyTree s u
  same : s.tree.ThroughFile (ofText key) → ∀ path, u.tree.find path = s.tree.find path
  made : ¬s.tree.ThroughFile (ofText key) → ∀ path, u.tree.find path =
    if path <+: wayTo key then some .dir else s.tree.find path

theorem OnlyTree.rootStat {s u : FsState} (h : OnlyTree s u) : u.rootStat = s.rootStat := by
  rw [h]

theorem OnlyTree.clock {s u : FsState} (h : OnlyTree s u) : u.clock = s.clock := by
  rw [h]

theorem OnlyTree.trans {s u v : FsState} (h : OnlyTree s u) (h' : OnlyTree u v) : OnlyTree s v := by
  unfold OnlyTree at h h' ⊢
  rw [h', h]

theorem ofText_injective {key other : Key} (h : ofText key = ofText other) : key = other := by
  rw [← text_ofText key, h, text_ofText]

theorem Stored.nameable {t : Volume FileData} {key : Key} {data : FileData}
    (h : Stored t key data) : Nameable key := Volume.fileName_of_find h

theorem Stored.not_undeletable {t : Volume FileData} {key : Key} {data : FileData}
    (h : Stored t key data) : ¬Undeletable t key := by
  rintro (hrefused | hdir)
  · exact Volume.not_refused_of_find h hrefused
  · rw [h] at hdir
    cases hdir

/-- A stored key collides with nothing. -/
theorem Stored.not_collides {t : Volume FileData} {key : Key} {data : FileData}
    (h : Stored t key data) : ¬Collides t key := by
  rintro (hthrough | hdir)
  · exact Volume.not_throughFile_of_find h hthrough
  · rw [h] at hdir
    cases hdir

theorem Wrote.stored {s u : FsState} {key : Key} {data : FileData} (h : Wrote s key data u) :
    Stored u.tree key data := by
  unfold Stored
  rw [h.find, if_pos rfl]

/-- What was stored under other keys still is, where the key did not collide. -/
theorem Wrote.stored_iff {s u : FsState} {key other : Key} {data data' : FileData}
    (h : Wrote s key data u) (hfree : ¬Collides s.tree key) (hne : other ≠ key) :
    Stored u.tree other data' ↔ Stored s.tree other data' := by
  have hpath : ofText other ≠ ofText key := fun hsame => hne (ofText_injective hsame)
  unfold Stored
  rw [h.find, if_neg hpath]
  split
  · next hfront =>
      constructor
      · exact nofun
      · intro hstored
        refine absurd ?_ hfree
        obtain ⟨rest, hrest⟩ := hfront
        refine .inl ⟨ofText other, rest, data', ?_, hrest.symm, hstored⟩
        rintro rfl
        rw [List.append_nil] at hrest
        exact hpath hrest
  · rfl

/-- A key is on the way to another one when its path is a proper beginning of the other's. -/
theorem append_sep_prefix_iff {key other : Key} :
    key ++ ['/'] <+: other ↔ ofText key <+: ofText other ∧ ofText key ≠ ofText other := by
  rw [Splitting.append_sep_prefix_iff]
  constructor
  · rintro ⟨rest, hne, hrest⟩
    refine ⟨⟨rest, hrest.symm⟩, fun hsame => hne ?_⟩
    have hboth : ofText key ++ [] = ofText key ++ rest := by
      rw [List.append_nil]
      exact hsame.trans hrest
    exact (List.append_cancel_left hboth).symm
  · rintro ⟨⟨rest, hrest⟩, hne⟩
    refine ⟨rest, ?_, hrest.symm⟩
    rintro rfl
    exact hne (by rw [← hrest, List.append_nil])

theorem Wrote.dir_iff {s u : FsState} {key : Key} {data : FileData} (h : Wrote s key data u)
    (hfree : ¬Collides s.tree key) (path : Path) :
    u.tree.find path = some .dir ↔
      s.tree.find path = some .dir ∨ path <+: ofText key ∧ path ≠ ofText key := by
  rw [h.find]
  by_cases hsame : path = ofText key
  · rw [if_pos hsame]
    refine iff_of_false nofun ?_
    rintro (hdir | ⟨_, hne⟩)
    · exact hfree (.inr (hsame ▸ hdir))
    · exact hne hsame
  · rw [if_neg hsame]
    by_cases hfront : path <+: ofText key
    · rw [if_pos hfront]
      exact iff_of_true rfl (.inr ⟨hfront, hsame⟩)
    · rw [if_neg hfront]
      simp [hfront]

theorem wayTo_isPrefix (key : Key) : wayTo key <+: (ofText key).dropLast := nameableFront_isPrefix _

theorem not_isPrefix_dropLast (key : Key) : ¬ofText key <+: (ofText key).dropLast := by
  intro h
  have hlength := h.length_le
  rw [List.length_dropLast] at hlength
  have hpos := List.length_pos_of_ne_nil (ofText_ne_nil key)
  omega

theorem LeftBy.dir_iff {s u : FsState} {key : Key} (h : LeftBy s key u) (path : Path) :
    u.tree.find path = some .dir ↔ s.tree.find path = some .dir ∨
      path <+: wayTo key ∧ ¬s.tree.ThroughFile (ofText key) := by
  by_cases hthrough : s.tree.ThroughFile (ofText key)
  · rw [h.same hthrough]
    simp [hthrough]
  · rw [h.made hthrough]
    by_cases hway : path <+: wayTo key
    · rw [if_pos hway]
      exact iff_of_true rfl (.inr ⟨hway, hthrough⟩)
    · rw [if_neg hway]
      simp [hway]

/-- A put that fails leaves the files alone. -/
theorem LeftBy.stored_iff {s u : FsState} {key : Key} (h : LeftBy s key u) (other : Key)
    (data : FileData) : Stored u.tree other data ↔ Stored s.tree other data := by
  unfold Stored
  by_cases hthrough : s.tree.ThroughFile (ofText key)
  · rw [h.same hthrough]
  · rw [h.made hthrough]
    split
    · next hway =>
        refine iff_of_false nofun fun hstored => hthrough ?_
        have hfront := hway.trans (wayTo_isPrefix key)
        obtain ⟨rest, hrest⟩ := hfront.trans (List.dropLast_prefix (ofText key))
        refine ⟨ofText other, rest, data, ?_, hrest.symm, hstored⟩
        rintro rfl
        rw [List.append_nil] at hrest
        exact not_isPrefix_dropLast key (hrest ▸ hfront)
    · rfl

namespace FsBlobStore

variable {self : FsBlobStore} {s : FsState} {key : Key}

/-- The directory of the path of a valid key. -/
theorem parent_keyPath (self : FsBlobStore) (hvalid : ValidKey key) :
    ∃ dir, parent (self.root.dropLast ++ ofText key) = some dir ∧
      self.names dir = (ofText key).dropLast := by
  obtain ⟨hdir, hlegal⟩ := @legal_hintDir key ⟨[], by rwa [List.append_nil]⟩
  have hlast : (ofText key).getLast? ≠ some [] := by
    intro hempty
    exact (legal_of_valid hvalid [] (List.mem_of_getLast? hempty)).1 rfl
  have hhint : validatePrefixHint key = .ok () := by
    refine validatePrefixHint_eq_ok_iff.mpr ⟨hvalid.not_sep_prefix, hvalid.1, fun piece hpiece => ?_⟩
    have hname := legal_of_valid hvalid piece hpiece
    exact ⟨hname.2.2.1, hname.2.1⟩
  obtain ⟨start, hparent, hspells, _⟩ := self.spells_parent hhint hlast
  refine ⟨start, hparent, ?_⟩
  rw [hspells.here, meant_of_legal hlegal, hdir]

section Write

theorem exec_createDirAll (path : Path) :
    exec (self.createDirAll path) s =
      ((s.tree.createDirAll (self.names path).reverse).1.mapError fun e => .ofIo (ioError e),
        { s with tree := (s.tree.createDirAll (self.names path).reverse).2 }) := by
  unfold createDirAll
  rw [exec_bind_ok (exec_getState s), exec_bind_ok (exec_setState s _), exec_call]

theorem exec_writeFile (hvalid : ValidKey key) (content : Bytes) :
    exec (self.writeFile (self.root.dropLast ++ ofText key) content) s =
      match s.tree.write (ofText key).dropLast ((ofText key).getLast (ofText_ne_nil key))
        { content, modifiedAt := s.clock } with
      | .ok tree => (.ok (), { s with tree })
      | .error e => (.error (.ofIo (ioError e)), s) := by
  unfold writeFile
  rw [exec_bind_ok (exec_getState s), self.names_keyPath hvalid]
  dsimp only
  rw [List.getLast?_eq_some_getLast (ofText_ne_nil key), Option.getD_some]
  cases s.tree.write (ofText key).dropLast ((ofText key).getLast (ofText_ne_nil key))
    { content, modifiedAt := s.clock } with
  | ok tree => rfl
  | error e => rfl

theorem exec_writeFile_ok (hvalid : ValidKey key) (content : Bytes)
    (hdir : s.tree.find (ofText key).dropLast = some .dir)
    (hname : FileName ((ofText key).getLast (ofText_ne_nil key)))
    (hfree : s.tree.find (ofText key) ≠ some .dir) :
    ∃ u, exec (self.writeFile (self.root.dropLast ++ ofText key) content) s = (.ok (), u) ∧
      OnlyTree s u ∧ ∀ path, u.tree.find path =
        if path = ofText key then some (.file { content, modifiedAt := s.clock })
        else s.tree.find path := by
  have hpieces := List.dropLast_append_getLast (ofText_ne_nil key)
  rw [← hpieces] at hfree
  obtain ⟨tree, hwrite, hfind⟩ :=
    Volume.write_of_dir (FileData.mk content s.clock) hdir hname hfree
  rw [hpieces] at hfind
  exact ⟨{ s with tree }, by rw [exec_writeFile hvalid, hwrite], rfl, hfind⟩

theorem exec_writeFile_error (hvalid : ValidKey key) (content : Bytes)
    (hdir : s.tree.find (ofText key).dropLast = some .dir)
    (hbad : ¬FileName ((ofText key).getLast (ofText_ne_nil key)) ∨
      s.tree.find (ofText key) = some .dir) :
    ∃ e, exec (self.writeFile (self.root.dropLast ++ ofText key) content) s = (.error e, s) := by
  have hfails : ∃ e, s.tree.write (ofText key).dropLast
      ((ofText key).getLast (ofText_ne_nil key)) { content, modifiedAt := s.clock } = .error e := by
    obtain hname | hthere := hbad
    · exact Volume.write_of_not_fileName _ hdir hname
    · rw [← List.dropLast_append_getLast (ofText_ne_nil key)] at hthere
      exact ⟨_, Volume.write_at_dir _ hthere⟩
  obtain ⟨e, he⟩ := hfails
  exact ⟨.ofIo (ioError e), by rw [exec_writeFile hvalid, he]⟩

/-- The directories on the way to a file are made if no file is in the way of them, up to the
first name that no directory can have. -/
theorem exec_createDirAll_cases (hvalid : ValidKey key) {dir : Path}
    (hnames : self.names dir = (ofText key).dropLast) :
    s.tree.ThroughFile (ofText key) ∧ (∃ e, exec (self.createDirAll dir) s = (.error e, s)) ∨
      ¬s.tree.ThroughFile (ofText key) ∧ ∃ r u, exec (self.createDirAll dir) s = (r, u) ∧
        (r = .ok () ↔ ∀ name ∈ (ofText key).dropLast, FileName name) ∧ OnlyTree s u ∧
          ∀ path, u.tree.find path = if path <+: wayTo key then some .dir else s.tree.find path := by
  have hlegal : ∀ name ∈ (ofText key).dropLast, LegalName name :=
    fun name hname => legal_of_valid hvalid name (List.dropLast_subset _ hname)
  have hmade := @exec_createDirAll self s dir
  rw [hnames] at hmade
  obtain ⟨⟨front, data, hfront, hfile⟩, e, hfails⟩ | ⟨hclear, hok, hfind⟩ :=
    s.tree.createDirAll_cases hlegal
  · rw [hfails] at hmade
    obtain ⟨rest, hrest⟩ := hfront.trans (List.dropLast_prefix (ofText key))
    refine .inl ⟨⟨front, rest, data, ?_, hrest.symm, hfile⟩, _, hmade⟩
    rintro rfl
    rw [List.append_nil] at hrest
    exact not_isPrefix_dropLast key (hrest ▸ hfront)
  · refine .inr ⟨?_, _, _, hmade, ?_, rfl, hfind⟩
    · rintro ⟨front, rest, data, hrest, hsplit, hthrough⟩
      refine hclear front data ?_ hthrough
      rw [hsplit, List.dropLast_append_of_ne_nil hrest]
      exact List.prefix_append _ _
    · rw [← hok]
      cases (s.tree.createDirAll (ofText key).dropLast.reverse).1 with
      | ok _ => exact iff_of_true rfl rfl
      | error e => exact iff_of_false nofun nofun

/-- The file is created in the directories that have been made for it. -/
theorem wrote_of_dirs {u v : FsState} {data : FileData} (honly : OnlyTree s u)
    (hdirs : ∀ path, u.tree.find path =
      if path <+: (ofText key).dropLast then some .dir else s.tree.find path)
    (honly' : OnlyTree u v)
    (hfile : ∀ path, v.tree.find path =
      if path = ofText key then some (.file data) else u.tree.find path) : Wrote s key data v := by
  refine ⟨honly.trans honly', fun path => ?_⟩
  rw [hfile, hdirs]
  by_cases hsame : path = ofText key
  · rw [if_pos hsame, if_pos hsame]
  · have hiff : path <+: (ofText key).dropLast ↔ path <+: ofText key := by
      rw [← List.dropLast_append_getLast (ofText_ne_nil key), List.prefix_concat_iff,
        List.dropLast_append_getLast (ofText_ne_nil key), or_iff_right hsame]
    rw [if_neg hsame, if_neg hsame]
    simp only [hiff]

/-- What is written to a file that is there takes the place of what was in it. -/
theorem exec_writeFile_again {u : FsState} {data : FileData} (hvalid : ValidKey key)
    (h : Wrote s key data u) (content : Bytes) :
    ∃ v, exec (self.writeFile (self.root.dropLast ++ ofText key) content) u = (.ok (), v) ∧
      Wrote s key ⟨content, s.clock⟩ v := by
  have hne : (ofText key).dropLast ≠ ofText key := by
    intro hsame
    refine not_isPrefix_dropLast key ?_
    rw [hsame]
  have hdir : u.tree.find (ofText key).dropLast = some .dir := by
    rw [h.find, if_neg hne, if_pos (List.dropLast_prefix _)]
  have hfile : u.tree.find (ofText key) ≠ some .dir := by
    rw [h.find, if_pos rfl]
    exact nofun
  have hname := h.stored.nameable _ (List.getLast_mem (ofText_ne_nil key))
  obtain ⟨v, hwrite, honly, hfound⟩ := exec_writeFile_ok hvalid content hdir hname hfile
  refine ⟨v, hwrite, h.only.trans honly, fun path => ?_⟩
  rw [hfound, h.find, h.only.clock]
  split
  · rfl
  · rfl

/-- What the loop of `put` does with the first blob. -/
theorem exec_putBlobs_cons {blob : BlobInput} (hvalid : ValidKey blob.key)
    (hhealthy : blob.data.failure = none) (rest : List BlobInput) :
    (¬Unstorable s.tree blob.key ∧ ∃ info u, Wrote s blob.key ⟨blob.data.bytes, s.clock⟩ u ∧
        exec (self.putBlobs (blob :: rest)) s = exec (do
          let others ← self.putBlobs rest
          pure (info :: others)) u) ∨
      Unstorable s.tree blob.key ∧ ∃ e u, LeftBy s blob.key u ∧
        exec (self.putBlobs (blob :: rest)) s = (.error e, u) := by
  obtain ⟨dir, hparent, hnames⟩ := self.parent_keyPath hvalid
  have hread : blob.data.readToEnd = .ok blob.data.bytes :=
    Reader.readToEnd_eq_ok_iff.mpr ⟨hhealthy, rfl⟩
  have hpath : self.keyToPath blob.key = .ok (self.root.dropLast ++ ofText blob.key) :=
    keyToPath_of_valid self hvalid
  rw [putBlobs, hpath, exec_bind_ok (exec_lift (.ok _)), hparent]
  dsimp only
  obtain ⟨hthrough, e, hfails⟩ | ⟨hclear, r, u, hmade, hok, honly, hdirs⟩ :=
    @exec_createDirAll_cases self s blob.key hvalid dir hnames
  · rw [exec_bind_error hfails]
    exact .inr ⟨.inr (.inl hthrough), e, s,
      ⟨rfl, fun _ _ => rfl, fun hclear => absurd hthrough hclear⟩, rfl⟩
  have hleft : LeftBy s blob.key u :=
    ⟨honly, fun hthrough => absurd hthrough hclear, fun _ => hdirs⟩
  cases r with
  | error e =>
      rw [exec_bind_error hmade]
      refine .inr ⟨.inl fun hnameable => ?_, e, u, hleft, rfl⟩
      cases hok.mpr fun name hname => hnameable name (List.dropLast_subset _ hname)
  | ok _ =>
      rw [exec_bind_ok hmade]
      have hfront := hok.mp rfl
      have hway : wayTo blob.key = (ofText blob.key).dropLast := nameableFront_of_fileName hfront
      rw [hway] at hdirs
      have hsame : u.tree.find (ofText blob.key) = s.tree.find (ofText blob.key) := by
        rw [hdirs, if_neg (not_isPrefix_dropLast blob.key)]
      have hparentDir : u.tree.find (ofText blob.key).dropLast = some .dir := by
        rw [hdirs, if_pos (List.prefix_refl _)]
      by_cases hbad : ¬FileName ((ofText blob.key).getLast (ofText_ne_nil blob.key)) ∨
          s.tree.find (ofText blob.key) = some .dir
      · obtain ⟨e, hfails⟩ := exec_writeFile_error hvalid [] hparentDir (by rwa [hsame])
        rw [exec_bind_error hfails]
        refine .inr ⟨hbad.imp (fun hname hall => hname (hall _ (List.getLast_mem _))) .inr, e, u,
          hleft, rfl⟩
      · rw [not_or, not_not] at hbad
        obtain ⟨hname, hdir⟩ := hbad
        obtain ⟨v, hcreate, honly', hfound⟩ :=
          exec_writeFile_ok hvalid [] hparentDir hname (hsame ▸ hdir)
        obtain ⟨w, hwrite, hwrote⟩ :=
          exec_writeFile_again hvalid (wrote_of_dirs honly hdirs honly' hfound) blob.data.bytes
        rw [exec_bind_ok hcreate, hread]
        dsimp only
        rw [exec_bind_ok hwrite, exec_bind_ok (exec_getState w), self.stat_keyPath w hvalid,
          Volume.resolve_eq_ok_iff.mpr hwrote.stored, exec_bind_ok (exec_call (.ok _))]
        refine .inl ⟨?_, _, w, hwrote, rfl⟩
        rintro (hunnameable | hthrough | hthere)
        · exact hunnameable hwrote.stored.nameable
        · exact hclear hthrough
        · exact hdir hthere

end Write

section Put

/-- Blobs are written one after another, each of which can be stored when it is its turn. -/
inductive Puts : FsState → List BlobInput → FsState → Prop where
  | nil (s : FsState) : Puts s [] s
  | cons {s u v : FsState} {blob : BlobInput} {rest : List BlobInput}
      (free : ¬Unstorable s.tree blob.key)
      (wrote : Wrote s blob.key ⟨blob.data.bytes, s.clock⟩ u) (others : Puts u rest v) :
      Puts s (blob :: rest) v

theorem Puts.only {u : FsState} {blobs : List BlobInput} (h : Puts s blobs u) : OnlyTree s u := by
  induction h with
  | nil => rfl
  | cons _ wrote _ ih => exact wrote.only.trans ih

theorem Puts.stored {u : FsState} {blobs : List BlobInput} (h : Puts s blobs u) {key : Key} :
    (∃ data, Stored u.tree key data) ↔
      (∃ data, Stored s.tree key data) ∨ key ∈ blobs.map BlobInput.key := by
  induction h with
  | nil => simp
  | @cons s v u blob rest free wrote _ ih =>
      rw [ih, List.map_cons, List.mem_cons]
      by_cases hsame : key = blob.key
      · subst hsame
        exact iff_of_true (.inl ⟨_, wrote.stored⟩) (.inr (.inl rfl))
      · have hother : (∃ data, Stored v.tree key data) ↔ ∃ data, Stored s.tree key data :=
          exists_congr fun data => wrote.stored_iff (fun hbad => free (.inr hbad)) hsame
        rw [hother, or_iff_right hsame]

theorem putBlobs_append (self : FsBlobStore) (front rest : List BlobInput) :
    self.putBlobs (front ++ rest) = (do
      let infos ← self.putBlobs front
      let others ← self.putBlobs rest
      pure (infos ++ others)) := by
  induction front with
  | nil => simp [putBlobs]
  | cons blob front ih =>
      rw [List.cons_append, putBlobs, putBlobs, ih, bind_assoc]
      congr 1
      funext path
      cases parent path with
      | none => cases blob.data.readToEnd <;> simp [bind_assoc]
      | some dir => cases blob.data.readToEnd <;> simp [bind_assoc]

/-- The loop of `put` writes every blob, or all before the first one that cannot be stored. -/
theorem exec_putBlobs_cases {blobs : List BlobInput} (hvalid : ∀ blob ∈ blobs, ValidKey blob.key)
    (hhealthy : ∀ blob ∈ blobs, blob.data.failure = none) :
    (∃ infos u, exec (self.putBlobs blobs) s = (.ok infos, u) ∧ Puts s blobs u) ∨
      ∃ front blob rest infos u, blobs = front ++ blob :: rest ∧
        exec (self.putBlobs front) s = (.ok infos, u) ∧ Puts s front u ∧
        Unstorable u.tree blob.key ∧
        ∃ e v, exec (self.putBlobs blobs) s = (.error e, v) ∧ LeftBy u blob.key v := by
  induction blobs generalizing s with
  | nil => exact .inl ⟨[], s, rfl, .nil s⟩
  | cons blob rest ih =>
      rw [List.forall_mem_cons] at hvalid hhealthy
      have happend : ∀ others, self.putBlobs (blob :: others) = (do
          let first ← self.putBlobs [blob]
          let infos ← self.putBlobs others
          pure (first ++ infos)) := self.putBlobs_append [blob]
      obtain ⟨hfree, info, u, hwrote, hfirst⟩ | ⟨hcollides, e, u, hsame, hfails⟩ :=
        @exec_putBlobs_cons self s blob hvalid.1 hhealthy.1 []
      · have hone : exec (self.putBlobs [blob]) s = (.ok [info], u) := hfirst
        obtain ⟨infos, v, hrest, hputs⟩ |
          ⟨front, later, back, infos, v, hsplit, hfront, hputs, hcollides, e, w, hfails, hsame⟩ :=
            @ih u hvalid.2 hhealthy.2
        · refine .inl ⟨[info] ++ infos, v, ?_, .cons hfree hwrote hputs⟩
          rw [happend, exec_bind_ok hone, exec_bind_ok hrest]
          rfl
        · refine .inr ⟨blob :: front, later, back, [info] ++ infos, v, ?_, ?_,
            .cons hfree hwrote hputs, hcollides, e, w, ?_, hsame⟩
          · rw [hsplit, List.cons_append]
          · rw [happend, exec_bind_ok hone, exec_bind_ok hfront]
            rfl
          · rw [happend, exec_bind_ok hone, exec_bind_error hfails]
      · refine .inr ⟨[], blob, rest, [], s, rfl, rfl, .nil s, hcollides, e, u, ?_, hsame⟩
        rw [happend, exec_bind_error hfails]

theorem exec_put_of_valid {blobs : List BlobInput} (hroot : s.rootStat = .ok true)
    (hvalid : ∀ blob ∈ blobs, ValidKey blob.key) :
    exec (self.put blobs) s = exec (do
      let infos ← self.putBlobs blobs
      pure { blobs := infos }) s := by
  have hready : exec self.ensureRoot s = (.ok (), s) := by
    rw [exec_ensureRoot, rootAnswer_ok hroot]
  have hkeys : ∀ key ∈ blobs.map BlobInput.key, ValidKey key := by simpa using hvalid
  rw [put, exec_bind_ok (exec_checkKeys_of_valid s hkeys), exec_bind_ok hready]

/-- `put` of valid keys from streams that do not break off. -/
theorem exec_put_cases {blobs : List BlobInput} (hroot : s.rootStat = .ok true)
    (hvalid : ∀ blob ∈ blobs, ValidKey blob.key)
    (hhealthy : ∀ blob ∈ blobs, blob.data.failure = none) :
    (∃ result u, exec (self.put blobs) s = (.ok result, u) ∧ Puts s blobs u) ∨
      ∃ front blob rest result u, blobs = front ++ blob :: rest ∧
        exec (self.put front) s = (.ok result, u) ∧ Puts s front u ∧ Unstorable u.tree blob.key ∧
        ∃ e v, exec (self.put blobs) s = (.error e, v) ∧ LeftBy u blob.key v := by
  rw [exec_put_of_valid hroot hvalid]
  obtain ⟨infos, u, hexec, hputs⟩ |
    ⟨front, blob, rest, infos, u, rfl, hfront, hputs, hunstorable, e, v, hexec, hleft⟩ :=
      @exec_putBlobs_cases self s blobs hvalid hhealthy
  · exact .inl ⟨{ blobs := infos }, u, exec_bind_ok hexec, hputs⟩
  · refine .inr ⟨front, blob, rest, { blobs := infos }, u, rfl, ?_, hputs, hunstorable, e, v,
      exec_bind_error hexec, hleft⟩
    rw [exec_put_of_valid hroot fun blob hblob => hvalid blob (List.mem_append_left _ hblob)]
    exact exec_bind_ok hfront

/-- A batch fails at a blob that cannot be stored once those before it have been. -/
theorem exec_put_unstorable {front rest : List BlobInput} {blob : BlobInput} {u : FsState}
    {result : PutResult} (hroot : s.rootStat = .ok true)
    (hvalid : ∀ other ∈ front ++ blob :: rest, ValidKey other.key)
    (hhealthy : ∀ other ∈ front ++ blob :: rest, other.data.failure = none)
    (hfront : exec (self.put front) s = (.ok result, u)) (hbad : Unstorable u.tree blob.key) :
    ∃ e v, exec (self.put (front ++ blob :: rest)) s = (.error e, v) ∧ LeftBy u blob.key v := by
  rw [exec_put_of_valid hroot fun other hother => hvalid other (List.mem_append_left _ hother),
    exec_bind_eq_ok] at hfront
  obtain ⟨infos, _, hwritten, hpure⟩ := hfront
  cases hpure
  have hmem : blob ∈ front ++ blob :: rest := List.mem_append_right _ List.mem_cons_self
  obtain ⟨hfree, _⟩ | ⟨_, e, v, hleft, hfails⟩ :=
    @exec_putBlobs_cons self u blob (hvalid blob hmem) (hhealthy blob hmem) rest
  · exact absurd hbad hfree
  · refine ⟨e, v, ?_, hleft⟩
    rw [exec_put_of_valid hroot hvalid]
    apply exec_bind_error
    rw [putBlobs_append, exec_bind_ok hwritten, exec_bind_error hfails]

end Put

section Delete

/-- Of a tree the files under some keys have been taken out. -/
structure Took (t : Volume FileData) (keys : List Key) (t' : Volume FileData) : Prop where
  stored : ∀ key data, Stored t' key data ↔ Stored t key data ∧ key ∉ keys
  dirs : ∀ path, t'.find path = some .dir ↔ t.find path = some .dir

theorem Took.nil (t : Volume FileData) : Took t [] t where
  stored _ _ := by simp
  dirs _ := Iff.rfl

theorem Took.cons {t t' t'' : Volume FileData} {keys : List Key} (h : Took t [key] t')
    (h' : Took t' keys t'') : Took t (key :: keys) t'' where
  stored other data := by
    rw [h'.stored, h.stored, List.mem_singleton, List.mem_cons, not_or, and_assoc]
  dirs path := (h'.dirs path).trans (h.dirs path)

theorem took_absent {t : Volume FileData} (h : ∀ data, ¬Stored t key data) : Took t [key] t where
  stored other data := by
    rw [List.mem_singleton]
    constructor
    · intro hstored
      refine ⟨hstored, ?_⟩
      rintro rfl
      exact h data hstored
    · exact And.left
  dirs _ := Iff.rfl

theorem took_file {t t' : Volume FileData} (hfile : ∃ data, t.find (ofText key) = some (.file data))
    (hfind : ∀ path, t'.find path = if path = ofText key then none else t.find path) :
    Took t [key] t' where
  stored other data := by
    unfold Stored
    rw [hfind, List.mem_singleton]
    by_cases hsame : other = key
    · rw [hsame, if_pos rfl]
      simp
    · rw [if_neg fun h => hsame (ofText_injective h)]
      simp [hsame]
  dirs path := by
    rw [hfind]
    by_cases hsame : path = ofText key
    · obtain ⟨data, hdata⟩ := hfile
      rw [if_pos hsame, hsame, hdata]
      simp
    · rw [if_neg hsame]

theorem Took.unnameable_iff {t t' : Volume FileData} {keys : List Key} (h : Took t keys t')
    (path : Path) : t'.Unnameable path ↔ t.Unnameable path := by
  unfold Volume.Unnameable Volume.AsksTooLong
  simp only [h.dirs]

/-- At its turn each key is absent or stored: it names no directory, what is stored on the way to
it is deleted before, and the system can look for it. -/
def Deletable (t : Volume FileData) (keys : List Key) : Prop :=
  ∀ front key rest, keys = front ++ key :: rest → t.find (ofText key) ≠ some .dir ∧
    (∀ other data, Stored t other data → other ++ ['/'] <+: key → other ∈ front) ∧
      ¬t.Unnameable (ofText key)

theorem deletable_cons_iff {t t' : Volume FileData} {rest : List Key} (h : Took t [key] t') :
    Deletable t (key :: rest) ↔ ¬Undeletable t key ∧ Deletable t' rest := by
  constructor
  · intro hdeletable
    constructor
    · obtain ⟨hdir, hway, hnameable⟩ := hdeletable [] key rest rfl
      rintro ((hthrough | hbad) | hbad)
      · obtain ⟨other, data, hstored, hfront⟩ := throughFile_iff.mp hthrough
        exact List.not_mem_nil (hway other data hstored hfront)
      · exact hnameable hbad
      · exact hdir hbad
    · rintro front later back rfl
      obtain ⟨hdir, hway, hnameable⟩ := hdeletable (key :: front) later back rfl
      refine ⟨fun hbad => hdir ((h.dirs _).mp hbad), fun other data hstored hfront => ?_,
        fun hbad => hnameable ((h.unnameable_iff _).mp hbad)⟩
      obtain ⟨hstored, hne⟩ := (h.stored other data).mp hstored
      exact (List.mem_cons.mp (hway other data hstored hfront)).resolve_left
        fun hsame => hne (List.mem_singleton.mpr hsame)
  · rintro ⟨hfree, hdeletable⟩ front later back hsplit
    cases front with
    | nil =>
        obtain ⟨rfl, rfl⟩ := List.cons.inj hsplit
        refine ⟨fun hbad => hfree (.inr hbad), fun other data hstored hfront => ?_,
          fun hbad => hfree (.inl (.inr hbad))⟩
        exact absurd (.inl (.inl (throughFile_iff.mpr ⟨other, data, hstored, hfront⟩))) hfree
    | cons first front =>
        obtain ⟨rfl, hrest⟩ := List.cons.inj hsplit
        obtain ⟨hdir, hway, hnameable⟩ := hdeletable front later back hrest
        refine ⟨fun hbad => hdir ((h.dirs _).mpr hbad), fun other data hstored hfront => ?_,
          fun hbad => hnameable ((h.unnameable_iff _).mpr hbad)⟩
        by_cases hsame : other = key
        · exact List.mem_cons.mpr (.inl hsame)
        · refine List.mem_cons_of_mem _ (hway other data ((h.stored other data).mpr ⟨hstored, ?_⟩)
            hfront)
          rwa [List.mem_singleton]

/-- What the loop of `delete` does with the first key: it reports an error for one that cannot be
deleted, and goes on in any case. -/
theorem exec_deleteEach_cons (hvalid : ValidKey key) (rest : List Key) :
    ∃ done failed u, OnlyTree s u ∧ Took s.tree [key] u.tree ∧
      (failed = [] ↔ ¬Undeletable s.tree key) ∧
      ∀ succeeded errors v, exec (self.deleteEach rest) u = (.ok (succeeded, errors), v) →
        exec (self.deleteEach (key :: rest)) s =
          (.ok (done ++ succeeded, failed ++ errors), v) := by
  have hpath : self.keyToPath key = .ok (self.root.dropLast ++ ofText key) :=
    keyToPath_of_valid self hvalid
  rw [deleteEach, hpath, exec_bind_ok (exec_lift (.ok _)), exec_bind_ok (exec_getState s),
    self.names_keyPath hvalid]
  generalize hunlink : s.tree.unlink (ofText key) = unlinked
  have hcases := s.tree.unlink_cases (ofText key)
  rw [hunlink] at hcases
  cases hcases with
  | @removed tree file others =>
      refine ⟨[key], [], { s with tree }, rfl, took_file file others, ?_, ?_⟩
      · obtain ⟨data, hdata⟩ := file
        exact iff_of_true rfl (Stored.not_undeletable hdata)
      · intro succeeded errors v hrest
        dsimp only
        rw [exec_bind_ok (exec_setState s _), exec_bind_ok hrest]
        rfl
  | directory dir =>
      refine ⟨[], [{ key, error := mapIoErrorToPerKey (ioError .isDirectory) }], s, rfl,
        took_absent ?_, ?_, ?_⟩
      · intro data hstored
        rw [Stored, dir] at hstored
        cases hstored
      · exact iff_of_false (List.cons_ne_nil _ _) fun hfree => hfree (.inr dir)
      · intro succeeded errors v hrest
        dsimp only
        rw [exec_bind_ok hrest]
        rfl
  | @refused e code refused =>
      refine ⟨[], [{ key, error := mapIoErrorToPerKey (ioError e) }], s, rfl, took_absent ?_, ?_, ?_⟩
      · exact fun data hstored => Volume.not_refused_of_find hstored refused
      · exact iff_of_false (List.cons_ne_nil _ _) fun hfree => hfree (.inl refused)
      · intro succeeded errors v hrest
        cases e with
        | noEntry => exact absurd rfl code
        | notDirectory | isDirectory | alreadyExists | nameTooLong | invalidInput =>
            dsimp only
            rw [exec_bind_ok hrest]
            rfl
  | missing absent free =>
      refine ⟨[key], [], s, rfl, took_absent ?_, ?_, ?_⟩
      · intro data hstored
        rw [Stored, absent] at hstored
        cases hstored
      · refine iff_of_true rfl ?_
        rintro (hrefused | hdir)
        · exact free hrefused
        · rw [absent] at hdir
          cases hdir
      · intro succeeded errors v hrest
        dsimp only
        rw [exec_bind_ok hrest]
        rfl

/-- The loop of `delete` comes to its end, and reports errors for a batch that is not deletable. -/
theorem exec_deleteEach_of_valid {keys : List Key} (hvalid : ∀ key ∈ keys, ValidKey key) :
    ∃ succeeded errors u, exec (self.deleteEach keys) s = (.ok (succeeded, errors), u) ∧
      OnlyTree s u ∧ Took s.tree keys u.tree ∧ (errors = [] ↔ Deletable s.tree keys) := by
  induction keys generalizing s with
  | nil =>
      refine ⟨[], [], s, rfl, rfl, .nil s.tree, iff_of_true rfl ?_⟩
      intro front key rest hsplit
      cases front <;> cases hsplit
  | cons key rest ih =>
      rw [List.forall_mem_cons] at hvalid
      obtain ⟨done, failed, u, honly, htook, hfailed, hstep⟩ :=
        @exec_deleteEach_cons self s key hvalid.1 rest
      obtain ⟨succeeded, errors, v, hrest, honly', htook', herrors⟩ := @ih u hvalid.2
      refine ⟨_, _, v, hstep _ _ _ hrest, honly.trans honly', htook.cons htook', ?_⟩
      rw [List.append_eq_nil_iff, deletable_cons_iff htook, hfailed, herrors]

/-- `delete` of valid keys takes out those that are stored, and fails for a batch that is not
deletable. -/
theorem exec_delete_of_valid {keys : List Key} (hroot : s.rootStat = .ok true)
    (hvalid : ∀ key ∈ keys, ValidKey key) :
    ∃ r u, exec (self.delete keys) s = (r, u) ∧ OnlyTree s u ∧ Took s.tree keys u.tree ∧
      (r = .ok () ↔ Deletable s.tree keys) := by
  obtain ⟨succeeded, errors, u, heach, honly, htook, herrors⟩ :=
    @exec_deleteEach_of_valid self s keys hvalid
  have hready : exec self.ensureRoot s = (.ok (), s) := by
    rw [exec_ensureRoot, rootAnswer_ok hroot]
  rw [delete, exec_bind_ok (exec_checkKeys_of_valid s hvalid), exec_bind_ok hready,
    exec_bind_ok heach]
  dsimp only
  by_cases hnone : errors = []
  · rw [if_pos hnone]
    exact ⟨_, u, rfl, honly, htook, iff_of_true rfl (herrors.mp hnone)⟩
  · rw [if_neg hnone]
    exact ⟨_, u, rfl, honly, htook, iff_of_false nofun fun h => hnone (herrors.mpr h)⟩

end Delete

end FsBlobStore

end BlobStorage
